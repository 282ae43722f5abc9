/-!
# The 32-bit hash of a value

The trie works with 32-bit hashes. The default one is the 64-bit digest of a value's byte form
under the zero key, its two halves laid over each other so that both reach every slot.
-/

set_option autoImplicit false

namespace RotaryTrie

namespace Digest

/-!
## The byte form of a value

A digest is taken of a list of bytes, so every type whose values can be keys says which bytes stand
for a value. The forms are chosen so that the bytes of a compound value are those of its parts in
order, with a length or a closing byte wherever two values could otherwise run into each other:

* a fixed-width number takes its width, least significant byte first, negative ones in two's
  complement;
* a character is the four bytes of its code point;
* a string is its UTF-8 encoding and the byte `0xff`, which UTF-8 never uses;
* a list is its length as eight bytes and then its elements;
* an optional value is eight bytes that say whether it is there, and then the value if it is.
-/

/-- The lowest `width` bytes of a number, least significant first. -/
def littleEndian : (width n : Nat) → List UInt8
  | 0, _ => []
  | width + 1, n => n.toUInt8 :: littleEndian width (n / 256)

/-- Types whose values have a byte form. -/
class ByteForm (α : Type) where
  /-- The bytes that stand for a value. -/
  bytes : α → List UInt8

export ByteForm (bytes)

instance : ByteForm UInt8 := ⟨fun n ↦ littleEndian 1 n.toNat⟩

instance : ByteForm UInt16 := ⟨fun n ↦ littleEndian 2 n.toNat⟩

instance : ByteForm UInt32 := ⟨fun n ↦ littleEndian 4 n.toNat⟩

instance : ByteForm UInt64 := ⟨fun n ↦ littleEndian 8 n.toNat⟩

instance : ByteForm (BitVec 128) := ⟨fun n ↦ littleEndian 16 n.toNat⟩

instance : ByteForm Int32 := ⟨fun n ↦ bytes n.toUInt32⟩

instance : ByteForm Int64 := ⟨fun n ↦ bytes n.toUInt64⟩

instance : ByteForm Bool := ⟨fun b ↦ [b.toUInt8]⟩

instance : ByteForm Char := ⟨fun c ↦ bytes c.val⟩

instance : ByteForm String := ⟨fun s ↦ s.toUTF8.toList ++ [0xff]⟩

instance : ByteForm Unit := ⟨fun _ ↦ []⟩

instance {α : Type} [ByteForm α] : ByteForm (List α) :=
  ⟨fun items ↦ littleEndian 8 items.length ++ items.flatMap bytes⟩

instance {α : Type} [ByteForm α] : ByteForm (Option α) where
  bytes
    | none => littleEndian 8 0
    | some a => littleEndian 8 1 ++ bytes a

instance {α β : Type} [ByteForm α] [ByteForm β] : ByteForm (α × β) :=
  ⟨fun pair ↦ bytes pair.1 ++ bytes pair.2⟩

/-!
## The digest

SipHash with one round per word and three closing rounds, as a function from a list of bytes to a
64-bit word. The state is four words; a round mixes them by addition, rotation and exclusive or.
The input is read in words of eight bytes, least significant first. What is left at the end, fewer
than eight bytes, goes into a last word whose highest byte is the length of the whole input modulo
256.
-/

/-- `word` with its bits moved `count` places up, the highest ones coming in again at the bottom.
The count lies strictly between 0 and 64. -/
def rotateLeft (word count : UInt64) : UInt64 := (word <<< count) ||| (word >>> (64 - count))

/-- The four words that the digest mixes. -/
structure SipState where
  /-- Takes the input word after its round. -/
  v0 : UInt64
  /-- The second word. -/
  v1 : UInt64
  /-- Marked when the input has ended. -/
  v2 : UInt64
  /-- Takes the input word before its round. -/
  v3 : UInt64

namespace SipState

/-- The state before any input, under a key of two words. -/
def initial (key₀ key₁ : UInt64) : SipState where
  v0 := key₀ ^^^ 0x736f6d6570736575
  v1 := key₁ ^^^ 0x646f72616e646f6d
  v2 := key₀ ^^^ 0x6c7967656e657261
  v3 := key₁ ^^^ 0x7465646279746573

/-- One round of mixing. -/
def round (s : SipState) : SipState :=
  let a := s.v0 + s.v1
  let b := rotateLeft s.v1 13 ^^^ a
  let c := s.v2 + s.v3
  let d := rotateLeft s.v3 16 ^^^ c
  let e := rotateLeft a 32
  let f := c + b
  let g := e + d
  { v0 := g
    v1 := rotateLeft b 17 ^^^ f
    v2 := rotateLeft f 32
    v3 := rotateLeft d 21 ^^^ g }

/-- Takes in one word of input. -/
def absorb (s : SipState) (word : UInt64) : SipState :=
  let mixed := { s with v3 := s.v3 ^^^ word }.round
  { mixed with v0 := mixed.v0 ^^^ word }

/-- The digest that a state closes with. -/
def finish (s : SipState) : UInt64 :=
  let closed := { s with v2 := s.v2 ^^^ 0xff }.round.round.round
  closed.v0 ^^^ closed.v1 ^^^ closed.v2 ^^^ closed.v3

end SipState

/-- The number that bytes stand for, least significant first. -/
def ofLittleEndian (input : List UInt8) : UInt64 :=
  input.foldr (fun byte high ↦ byte.toUInt64 ||| (high <<< 8)) 0

/-- Takes in the input word by word; `last` is the byte that closes the last word. -/
def absorbAll (last : UInt8) (s : SipState) : List UInt8 → SipState
  | a :: b :: c :: d :: e :: f :: g :: h :: rest =>
    absorbAll last (s.absorb (ofLittleEndian [a, b, c, d, e, f, g, h])) rest
  | tail => s.absorb (ofLittleEndian tail ||| (last.toUInt64 <<< 56))

/-- The digest of a list of bytes under a key of two words. -/
def sip (key₀ key₁ : UInt64) (input : List UInt8) : UInt64 :=
  (absorbAll input.length.toUInt8 (SipState.initial key₀ key₁) input).finish

/-- The upper half of a word laid over its lower half. -/
def fold (word : UInt64) : UInt32 := (word ^^^ (word >>> 32)).toUInt32

end Digest

/-- The default hash of a value. -/
def hashOne {α : Type} [Digest.ByteForm α] (a : α) : UInt32 :=
  Digest.fold (Digest.sip 0 0 (Digest.bytes a))

end RotaryTrie
