import RotaryTrie.Bitmap
import RotaryTrie.Bucket.Basic

/-!
# The layout of a trie

Two tries can have the same shape and contents without sharing a node. `Bucket.layout` is what
remains of a bucket when the identity of its nodes is left out: rotations, occupancy words, counts,
the order of children and chains, and the hash, key and value of every entry.

A place in a trie is named by a *path*, the positions of the children that lead to it from the top.
-/

set_option autoImplicit false

namespace RotaryTrie

/-- The contents of an entry. -/
structure Content (K V : Type) where
  /-- The hash of the key. -/
  hash : UInt32
  /-- The key. -/
  key : K
  /-- The value. -/
  value : V
deriving DecidableEq, Repr

/-- The contents of an entry, without its identity. -/
def Leaf.content {K V : Type} (entry : Leaf K V) : Content K V :=
  ⟨entry.hash, entry.key, entry.value⟩

/-- The shape and contents of a bucket. -/
inductive Layout (K V : Type) where
  /-- A single entry. -/
  | leaf (entry : Content K V)
  /-- Entries of one hash. -/
  | chain (hash : UInt32) (entries : List (Content K V))
  /-- A trie node. -/
  | trie (rotation occupancy : UInt32) (count : Nat) (children : List (Layout K V))
deriving Repr

/-- Where a trie node sends a hash. -/
structure Route where
  /-- The hash's slot. -/
  slot : UInt32
  /-- Whether the slot is filled. -/
  filled : Bool
  /-- How many slots below it are filled. -/
  rank : Nat
deriving DecidableEq, Repr

namespace Bucket

variable {K V : Type}

mutual

/-- The layout of a bucket. -/
def layout : Bucket K V → Layout K V
  | .leaf entry => .leaf entry.content
  | .chain _ hash entries => .chain hash (entries.map Leaf.content)
  | .trie _ rotation occupancy count children =>
    .trie rotation occupancy count (layoutAll children)

/-- The layouts of several buckets. -/
def layoutAll : List (Bucket K V) → List (Layout K V)
  | [] => []
  | child :: children => child.layout :: layoutAll children

end

theorem layoutAll_eq_map (children : List (Bucket K V)) :
    layoutAll children = children.map layout := by
  induction children with
  | nil => rfl
  | cons child children ih => simp [layoutAll, ih]

/-- The bucket at the end of a path. There is none if the path leads through a leaf or chain or
past the last child. -/
def at? : List Nat → Bucket K V → Option (Bucket K V)
  | [], bucket => some bucket
  | index :: path, .trie _ _ _ _ children => children[index]?.bind (at? path)
  | _ :: _, _ => none

/-- Where a bucket sends a hash, if it is a trie node. -/
def route? (hash : UInt32) : Bucket K V → Option Route
  | .trie _ rotation occupancy _ _ =>
    let slot := slotOf hash rotation
    some ⟨slot, Bitmap.holds occupancy slot, Bitmap.rank occupancy slot⟩
  | _ => none

end Bucket

end RotaryTrie
