/-!
# The slots of a node

A trie node has thirty-two *slots*, of which it usually fills only a few. Which ones are filled is
recorded in one 32-bit word, bit `s` standing for slot `s`, and the children are kept without gaps
in a list ordered by slot. The word is therefore all that is needed to find a child: the child of a
filled slot stands at the position given by the number of filled slots below it, its *rank*.

Which slot a hash falls into is for each node to say. It carries a *rotation* of its own and reads
the five bits of a hash that start at that position, counting around the end of the word. Nodes on
one path need not read consecutive bits, so a new node is free to choose a rotation that tells the
two hashes under it apart, and no node with a single child is ever needed.
-/

set_option autoImplicit false

namespace RotaryTrie

/-- How many bits of a hash one level of the trie consumes. -/
def bitsPerLevel : UInt32 := 5

/-- The number of slots of a node. -/
def slotCount : UInt32 := 1 <<< bitsPerLevel

/-- The word whose set bits are those of the largest slot number. -/
def slotMask : UInt32 := slotCount - 1

/-!
## Occupancy words

`popcount` adds up the bits of a word in parallel: first in pairs, then in nibbles, then in bytes,
and one multiplication sums the four bytes into the highest one. Only that multiplication may
overflow, and what it loses lies above the highest byte.
-/

namespace Bitmap

/-- For each pair of bits of a word, the number of those set, in the place of the pair. -/
def pairSums (word : UInt32) : UInt32 := word - ((word >>> 1) &&& (0x55555555 : UInt32))

/-- The sums of neighbouring pairs, each in the place of a nibble. -/
def nibbleSums (pairs : UInt32) : UInt32 :=
  (pairs &&& (0x33333333 : UInt32)) + ((pairs >>> 2) &&& (0x33333333 : UInt32))

/-- The sums of neighbouring nibbles, each in the place of a byte. -/
def byteSums (nibbles : UInt32) : UInt32 := (nibbles + (nibbles >>> 4)) &&& (0x0f0f0f0f : UInt32)

/-- The number of set bits of a word. -/
def popcount (word : UInt32) : UInt32 :=
  (byteSums (nibbleSums (pairSums word)) * 0x01010101) >>> 24

/-- The word in which only the bit of `slot` is set. -/
def bit (slot : UInt32) : UInt32 := 1 <<< slot

/-- Whether the bit of `slot` is set in `occupancy`. -/
def holds (occupancy slot : UInt32) : Bool := occupancy &&& bit slot != 0

/-- `occupancy` with the bit of `slot` set. -/
def fill (occupancy slot : UInt32) : UInt32 := occupancy ||| bit slot

/-- `occupancy` with the bit of `slot` cleared. -/
def vacate (occupancy slot : UInt32) : UInt32 := occupancy &&& ~~~bit slot

/-- How many slots below `slot` are filled. This is where the child of `slot` stands, or would
stand, in the list of children. -/
def rank (occupancy slot : UInt32) : Nat := (popcount (occupancy &&& (bit slot - 1))).toNat

end Bitmap

/-!
## Lists indexed by an occupancy word

A list that holds one item for every set bit of an occupancy word, in the order of the bits, is a
sparse array of thirty-two slots without its gaps. The operations below take the word, a slot and
the list, and touch the list at the slot's rank. None of them changes the word: whoever fills or
vacates a slot also updates the word, and the list stays in step with it exactly when both are
done.
-/

namespace Dense

variable {α : Type}

/-- The item in a slot, if the slot is filled. -/
def get? (occupancy slot : UInt32) (items : List α) : Option α :=
  if Bitmap.holds occupancy slot then items[Bitmap.rank occupancy slot]? else none

/-- Puts an item into an empty slot. -/
def insert (occupancy slot : UInt32) (item : α) (items : List α) : List α :=
  items.insertIdx (Bitmap.rank occupancy slot) item

/-- Puts another item into a filled slot. -/
def replace (occupancy slot : UInt32) (item : α) (items : List α) : List α :=
  items.set (Bitmap.rank occupancy slot) item

/-- Takes the item out of a filled slot. -/
def erase (occupancy slot : UInt32) (items : List α) : List α :=
  items.eraseIdx (Bitmap.rank occupancy slot)

end Dense

/-!
## Rotated slots

`separating?` tries the rotations one after the other, beginning with a suggestion, and takes the
first at which the two hashes fall into different slots. The windows of all thirty-two rotations
cover the word, so the search succeeds for any two different hashes.
-/

/-- The slot of `hash` in a node with the given rotation: the five bits of the hash that start at
bit `rotation`, counted around the end of the word. -/
def slotOf (hash rotation : UInt32) : UInt32 :=
  UInt32.ofBitVec (hash.toBitVec.rotateRight (rotation &&& slotMask).toNat) &&& slotMask

/-- The rotation tried at the given step of a search that begins at `suggested`. -/
def rotationAt (suggested : UInt32) (step : Nat) : UInt32 :=
  (suggested + UInt32.ofNat step) &&& slotMask

/-- The first rotation, counted from `suggested`, at which the two hashes have different slots. -/
def separating? (suggested first second : UInt32) : Option UInt32 :=
  ((List.range slotCount.toNat).map (rotationAt suggested)).find? fun rotation ↦
    slotOf first rotation != slotOf second rotation

end RotaryTrie
