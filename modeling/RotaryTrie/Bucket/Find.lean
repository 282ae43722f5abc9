import RotaryTrie.Bucket.Build

/-!
# Looking up a key

A key is looked up by its hash first: a trie node sends the search to the child in the hash's slot,
and a leaf or chain is considered only if its hash is the one sought. Only then are keys compared.

## Direction of comparison

The comparison of keys is supplied by the caller and need not be symmetric, so it matters which key
is its first argument. At a leaf this is the stored key, in a chain the key sought. Insertion and
removal compare in the same direction, so all three agree about which entry a key belongs to.
-/

set_option autoImplicit false

namespace RotaryTrie

/-- A key that is being looked for. -/
structure Probe (K : Type) where
  /-- The hash of the key. -/
  hash : UInt32
  /-- The key. -/
  key : K
  /-- The comparison of keys. -/
  sameKey : K → K → Bool

namespace Probe

variable {K V : Type}

/-- Whether the entry of a leaf is the one sought. -/
def meets (p : Probe K) (entry : Leaf K V) : Bool :=
  entry.hash == p.hash && p.sameKey entry.key p.key

/-- The position of the entry sought among those of a chain of the right hash. -/
def position? (p : Probe K) (entries : List (Leaf K V)) : Option (Fin entries.length) :=
  entries.findFinIdx? fun entry ↦ p.sameKey p.key entry.key

end Probe

namespace Bucket

variable {K V : Type}

mutual

/-- The entry that a key belongs to. -/
def find (p : Probe K) : Bucket K V → Except Fault (Option (Leaf K V))
  | .leaf entry => .ok (if p.meets entry then some entry else none)
  | .chain _ hash entries =>
    if hash ≠ p.hash then .ok none
    else .ok ((p.position? entries).map entries.get)
  | .trie _ rotation occupancy _ children =>
    let slot := slotOf p.hash rotation
    if Bitmap.holds occupancy slot then findAt p (Bitmap.rank occupancy slot) children
    else .ok none

/-- The entry that a key belongs to in the child at a position. -/
def findAt (p : Probe K) : Nat → List (Bucket K V) → Except Fault (Option (Leaf K V))
  | _, [] => .error .missingChild
  | 0, child :: _ => child.find p
  | index + 1, _ :: children => findAt p index children

end

theorem findAt_eq (p : Probe K) (index : Nat) (children : List (Bucket K V)) :
    findAt p index children =
      match children[index]? with
      | none => .error .missingChild
      | some child => child.find p := by
  induction children generalizing index with
  | nil => simp [findAt]
  | cons child children ih => cases index <;> simp [findAt, ih]

end Bucket

end RotaryTrie
