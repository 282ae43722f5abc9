import RotaryTrie.Bucket.Find

/-!
# Inserting an entry

An insertion walks down to the place of the new entry's hash and rebuilds the nodes on the way; all
others are taken over as they are. At the place itself there is

* nothing: the entry goes into the empty slot;
* a leaf or chain of another hash: a new trie node separates the two, its rotation sought from the
  bits after those that the node above consumes;
* a leaf or chain of the same hash without the key: the entry joins the chain, at its end;
* the key: the values decide.

An equal value leaves everything as it is. With a different value, the policy decides whether this
is a conflict or whether the new entry, key and value, takes the place of the old one.
-/

set_option autoImplicit false

namespace RotaryTrie

/-- What to do when the key is there with a different value. -/
inductive Policy where
  /-- Report the conflict. -/
  | reject
  /-- Put the new entry in place of the old one. -/
  | overwrite
deriving DecidableEq, Repr

/-- An entry on its way into the trie. -/
structure Insertion (K V : Type) where
  /-- The entry. -/
  entry : Leaf K V
  /-- What a different value means. -/
  policy : Policy
  /-- The comparison of keys. -/
  sameKey : K → K → Bool
  /-- The comparison of values, the stored one first. -/
  sameValue : V → V → Bool

namespace Insertion

variable {K V : Type}

/-- The new entry's key, as one to look for. -/
def probe (r : Insertion K V) : Probe K := ⟨r.entry.hash, r.entry.key, r.sameKey⟩

/-- The stamp of a node that this insertion builds at the given depth. -/
def stampAt (r : Insertion K V) (depth : Nat) : Stamp := ⟨r.entry.stamp.write, depth⟩

end Insertion

/-- What came of an insertion. -/
inductive Inserted (K V : Type) where
  /-- The key is there with an equal value. -/
  | unchanged
  /-- The key is there with a different value, which the policy does not allow. -/
  | conflict
  /-- The bucket with the entry in it. -/
  | changed (bucket : Bucket K V)
deriving Repr

/-- What an insertion comes to at an entry that holds its key. -/
inductive Verdict where
  /-- The values are equal. -/
  | keep
  /-- The values differ, and the policy does not allow that. -/
  | refuse
  /-- The values differ, and the new entry takes the place of the old one. -/
  | replace
deriving DecidableEq, Repr

/-- What an insertion comes to at an entry that holds its key. -/
def Insertion.verdict {K V : Type} (r : Insertion K V) (stored : Leaf K V) : Verdict :=
  if r.sameValue stored.value r.entry.value then .keep
  else match r.policy with
    | .reject => .refuse
    | .overwrite => .replace

namespace Bucket

variable {K V : Type}

mutual

/-- Inserts an entry into a bucket that has `depth` trie nodes above it. The search for the
rotation of a new trie node in this place begins at `suggested`. -/
def insert (r : Insertion K V) (depth : Nat) (suggested : UInt32) :
    Bucket K V → Except Fault (Inserted K V)
  | .leaf stored =>
    if stored.hash ≠ r.entry.hash then
      (split (r.stampAt depth) suggested (.leaf stored) stored.hash (.leaf r.entry)
        r.entry.hash).map .changed
    else if r.sameKey stored.key r.entry.key then
      match r.verdict stored with
      | .keep => .ok .unchanged
      | .refuse => .ok .conflict
      | .replace => .ok (.changed (.leaf r.entry))
    else
      (mkChain (r.stampAt depth) [stored, r.entry]).map .changed
  | .chain stamp hash entries =>
    if hash ≠ r.entry.hash then
      (split (r.stampAt depth) suggested (.chain stamp hash entries) hash (.leaf r.entry)
        r.entry.hash).map .changed
    else match r.probe.position? entries with
      | none => (mkChain (r.stampAt depth) (entries ++ [r.entry])).map .changed
      | some position =>
        match r.verdict (entries.get position) with
        | .keep => .ok .unchanged
        | .refuse => .ok .conflict
        | .replace => (mkChain (r.stampAt depth) (entries.set position r.entry)).map .changed
  | .trie _ rotation occupancy count children =>
    let slot := slotOf r.entry.hash rotation
    if Bitmap.holds occupancy slot then
      match insertAt r (depth + 1) (rotation + bitsPerLevel) (Bitmap.rank occupancy slot)
          children with
      | .error fault => .error fault
      | .ok (_, .unchanged) => .ok .unchanged
      | .ok (_, .conflict) => .ok .conflict
      | .ok (child, .changed grown) =>
        (replaceSlot (r.stampAt depth) rotation occupancy count children slot child grown).map
          .changed
    else
      (fillSlot (r.stampAt depth) rotation occupancy count children slot r.entry).map .changed

/-- Inserts an entry into the child at a position. The result holds the child as it was beside what
came of the insertion. -/
def insertAt (r : Insertion K V) (depth : Nat) (suggested : UInt32) :
    Nat → List (Bucket K V) → Except Fault (Bucket K V × Inserted K V)
  | _, [] => .error .missingChild
  | 0, child :: _ => (child.insert r depth suggested).map fun result ↦ (child, result)
  | index + 1, _ :: children => insertAt r depth suggested index children

end

theorem insertAt_eq (r : Insertion K V) (depth : Nat) (suggested : UInt32) (index : Nat)
    (children : List (Bucket K V)) :
    insertAt r depth suggested index children =
      match children[index]? with
      | none => .error .missingChild
      | some child => (child.insert r depth suggested).map fun result ↦ (child, result) := by
  induction children generalizing index with
  | nil => simp [insertAt]
  | cons child children ih => cases index <;> simp [insertAt, ih]

end Bucket

end RotaryTrie
