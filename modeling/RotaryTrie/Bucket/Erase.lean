import RotaryTrie.Bucket.Find

/-!
# Erasing a key

An erasure walks down to the entry that the key belongs to and rebuilds the nodes on the way, with
two exceptions that keep the trie small. A chain of two entries becomes the bare leaf of the one
that stays, and a trie node that loses the second of its two children gives way to the other one,
whatever that is. Neither of them builds a node.
-/

set_option autoImplicit false

namespace RotaryTrie

/-- What came of an erasure. -/
inductive Erased (K V : Type) where
  /-- The key is not there. -/
  | unchanged
  /-- The entry was the only one. -/
  | emptied
  /-- The bucket without the entry. -/
  | changed (bucket : Bucket K V)
deriving Repr

namespace Bucket

variable {K V : Type}

mutual

/-- Erases a key, in the write of the given number, from a bucket that has `depth` trie nodes above
it. -/
def erase (p : Probe K) (write depth : Nat) : Bucket K V → Except Fault (Erased K V)
  | .leaf entry => .ok (if p.meets entry then .emptied else .unchanged)
  | .chain _ hash entries =>
    if hash ≠ p.hash then .ok .unchanged
    else match p.position? entries with
      | none => .ok .unchanged
      | some position =>
        match entries.eraseIdx position with
        | [survivor] => .ok (.changed (.leaf survivor))
        | rest => (mkChain ⟨write, depth⟩ rest).map .changed
  | .trie _ rotation occupancy count children =>
    let slot := slotOf p.hash rotation
    if Bitmap.holds occupancy slot then
      match eraseAt p write (depth + 1) (Bitmap.rank occupancy slot) children with
      | .error fault => .error fault
      | .ok (_, .unchanged) => .ok .unchanged
      | .ok (child, .emptied) =>
        (vacateSlot ⟨write, depth⟩ rotation occupancy count children slot child).map .changed
      | .ok (child, .changed shrunk) =>
        (replaceSlot ⟨write, depth⟩ rotation occupancy count children slot child shrunk).map
          .changed
    else
      .ok .unchanged

/-- Erases a key from the child at a position. The result holds the child as it was beside what
came of the erasure. -/
def eraseAt (p : Probe K) (write depth : Nat) :
    Nat → List (Bucket K V) → Except Fault (Bucket K V × Erased K V)
  | _, [] => .error .missingChild
  | 0, child :: _ => (child.erase p write depth).map fun result ↦ (child, result)
  | index + 1, _ :: children => eraseAt p write depth index children

end

theorem eraseAt_eq (p : Probe K) (write depth index : Nat) (children : List (Bucket K V)) :
    eraseAt p write depth index children =
      match children[index]? with
      | none => .error .missingChild
      | some child => (child.erase p write depth).map fun result ↦ (child, result) := by
  induction children generalizing index with
  | nil => simp [eraseAt]
  | cons child children ih => cases index <;> simp [eraseAt, ih]

end Bucket

end RotaryTrie
