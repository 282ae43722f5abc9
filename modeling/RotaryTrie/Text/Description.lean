import RotaryTrie.Map.Basic
import RotaryTrie.Text.Outline

/-!
# Buckets and maps as text

A map has a short text that lists its pairs, and an outline that tells its size and strategies but
not its contents. A bucket has an outline of its shape: hashes, rotations, occupancy words and
counts, without keys or values.

A hash is written with eight hexadecimal digits, an occupancy word with thirty-two binary ones. A
strategy has no text of its own; the mark `PTR` stands for it.
-/

set_option autoImplicit false

namespace RotaryTrie

/-- A number in the given base, with at least `width` digits. -/
def paddedDigits (base width n : Nat) : String :=
  String.ofList (List.leftpad width '0' (Nat.toDigits base n))

/-- A hash as text. -/
def hashText (hash : UInt32) : String := "0x" ++ paddedDigits 16 8 hash.toNat

/-- An occupancy word as text. -/
def occupancyText (occupancy : UInt32) : String := "0b" ++ paddedDigits 2 32 occupancy.toNat

namespace Bucket

variable {K V : Type}

mutual

/-- The outline of a bucket. -/
def outline : Bucket K V → Outline
  | .leaf entry => .record "Leaf" [("hash", .atom (hashText entry.hash))] true
  | .chain _ hash entries =>
    .record "Chain"
      [("hash", .atom (hashText hash)), ("len", .atom (Nat.repr entries.length))] false
  | .trie _ rotation occupancy count children =>
    .record "Trie"
      [("rotation", .atom (Nat.repr rotation.toNat)),
        ("occupancy", .atom (occupancyText occupancy)),
        ("count", .atom (Nat.repr count)),
        ("children", .list (outlineAll children))] false

/-- The outlines of several buckets. -/
def outlineAll : List (Bucket K V) → List Outline
  | [] => []
  | child :: children => child.outline :: outlineAll children

end

end Bucket

namespace Map

variable {κ ν K V : Type}

/-- The outline of a map. -/
def outline (m : Map κ ν K V) : Outline :=
  .record "ImmutableHashMap"
    [("len", .atom (Nat.repr m.size)),
      ("comparers", .record "Comparers" [("key", .atom "PTR"), ("value", .atom "PTR")] false)] true

/-- The pairs of a map as text, given the texts of keys and values. -/
def display (keyText : K → String) (valueText : V → String) (m : Map κ ν K V) : String :=
  "ImmutableHashMap["
    ++ ",".intercalate (m.pairs.map fun pair ↦ keyText pair.1 ++ ":" ++ valueText pair.2) ++ "]"

end Map

end RotaryTrie
