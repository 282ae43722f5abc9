import RotaryTrie.Bitmap
import RotaryTrie.Bucket.Basic

/-!
# Building nodes

Chains and trie nodes come into being only through the functions of this module, which check what
every node has to satisfy: a chain holds at least two entries and all of one hash, a trie node has
as many children as its occupancy word has bits and counts as many entries as its children do.

## Faults

A check that fails is a *fault*. So is every other step that could go wrong inside the trie: a
filled slot without a child, a count that would become negative, two hashes that no rotation tells
apart. Faults are not errors of the caller. No sequence of writes leads to one, and the point of
carrying them in the result of an operation is that this can be stated and proved.
-/

set_option autoImplicit false

namespace RotaryTrie

/-- A step inside the trie that could not be taken. -/
inductive Fault where
  /-- No rotation tells two hashes apart. -/
  | inseparable
  /-- A slot is filled, but the list of children ends before its rank. -/
  | missingChild
  /-- A count would have become negative. -/
  | negativeCount
  /-- The only child of a trie node became empty. -/
  | onlyChild
  /-- A chain with fewer than two entries. -/
  | shortChain
  /-- A chain with entries of different hashes. -/
  | mixedChain
  /-- A trie node with more or fewer children than filled slots. -/
  | widthMismatch
  /-- A trie node whose count is not that of its children. -/
  | countMismatch
deriving DecidableEq, Repr

/-- A count without the entries that have left. -/
def deduct (count leaving : Nat) : Except Fault Nat :=
  if leaving ≤ count then .ok (count - leaving) else .error .negativeCount

namespace Bucket

variable {K V : Type}

/-- The number of entries in several buckets. -/
def countAll : List (Bucket K V) → Nat
  | [] => 0
  | child :: children => child.count + countAll children

/-- A chain of the given entries. -/
def mkChain (stamp : Stamp) : List (Leaf K V) → Except Fault (Bucket K V)
  | first :: second :: rest =>
    if (second :: rest).all fun entry ↦ entry.hash == first.hash then
      .ok (.chain stamp first.hash (first :: second :: rest))
    else
      .error .mixedChain
  | _ => .error .shortChain

/-- A trie node from its parts. -/
def mkTrie (stamp : Stamp) (rotation occupancy : UInt32) (count : Nat)
    (children : List (Bucket K V)) : Except Fault (Bucket K V) :=
  if children.length ≠ (Bitmap.popcount occupancy).toNat then .error .widthMismatch
  else if count ≠ countAll children then .error .countMismatch
  else .ok (.trie stamp rotation occupancy count children)

/-- A trie node over two buckets whose hashes differ. Its rotation is the first one, counted from
`suggested`, that sends the two hashes to different slots. -/
def split (stamp : Stamp) (suggested : UInt32) (first : Bucket K V) (firstHash : UInt32)
    (second : Bucket K V) (secondHash : UInt32) : Except Fault (Bucket K V) :=
  match separating? suggested firstHash secondHash with
  | none => .error .inseparable
  | some rotation =>
    let firstSlot := slotOf firstHash rotation
    let secondSlot := slotOf secondHash rotation
    mkTrie stamp rotation (Bitmap.bit firstSlot ||| Bitmap.bit secondSlot)
      (first.count + second.count)
      (if firstSlot < secondSlot then [first, second] else [second, first])

/-! ## Changing one slot of a trie node

The new node has the rotation of the old one, of which the other parts are given. -/

section Slot

variable (stamp : Stamp) (rotation occupancy : UInt32) (count : Nat) (children : List (Bucket K V))
  (slot : UInt32)

/-- The trie node with an entry in an empty slot. -/
def fillSlot (entry : Leaf K V) : Except Fault (Bucket K V) :=
  mkTrie stamp rotation (Bitmap.fill occupancy slot) (count + 1)
    (Dense.insert occupancy slot (.leaf entry) children)

/-- The trie node with another child in place of the one in a slot. -/
def replaceSlot (old new : Bucket K V) : Except Fault (Bucket K V) :=
  match deduct count old.count with
  | .error fault => .error fault
  | .ok others =>
    mkTrie stamp rotation occupancy (others + new.count)
      (Dense.replace occupancy slot new children)

/-- The trie node without the child in a slot. If only one child is left, it is that child. -/
def vacateSlot (old : Bucket K V) : Except Fault (Bucket K V) :=
  match Dense.erase occupancy slot children with
  | [] => .error .onlyChild
  | [other] => .ok other
  | rest =>
    match deduct count old.count with
    | .error fault => .error fault
    | .ok others => mkTrie stamp rotation (Bitmap.vacate occupancy slot) others rest

end Slot

end Bucket

end RotaryTrie
