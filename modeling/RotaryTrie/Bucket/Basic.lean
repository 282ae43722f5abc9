/-!
# Buckets

The nodes of the trie. A bucket is a single entry, a *chain* of entries whose hashes are all equal,
or a trie node with up to thirty-two children below it.

## Identity of nodes

Maps share nodes: a write builds the few nodes on the way to its key and takes over all the others.
To be able to say which nodes two maps share, every node carries the *stamp* under which it was
built. Writes are numbered, and one write builds at most one trie node at each depth, at most one
chain and at most one leaf. The number of the write and the depth therefore name a node among all
those of its kind, as long as no number is used for two writes.

An entry keeps its stamp when it moves into a chain, out of it, or under another node.
-/

set_option autoImplicit false

namespace RotaryTrie

/-- When and where a node was built. -/
structure Stamp where
  /-- The number of the write that built the node. -/
  write : Nat
  /-- How many trie nodes were above it then. An entry that a write brings has depth zero. -/
  depth : Nat
deriving DecidableEq, Repr

/-- One entry of a map. -/
structure Leaf (K V : Type) where
  /-- The identity of the entry. -/
  stamp : Stamp
  /-- The hash of the key. -/
  hash : UInt32
  /-- The key. -/
  key : K
  /-- The value. -/
  value : V
deriving DecidableEq, Repr

/-- The key and value of an entry. -/
def Leaf.pair {K V : Type} (entry : Leaf K V) : K × V := (entry.key, entry.value)

/-- A node of the trie together with everything below it. -/
inductive Bucket (K V : Type) where
  /-- A single entry. -/
  | leaf (entry : Leaf K V)
  /-- Entries with one and the same hash, oldest first. -/
  | chain (stamp : Stamp) (hash : UInt32) (entries : List (Leaf K V))
  /-- A node that distributes its entries over slots. Bit `s` of `occupancy` says whether slot `s`
  is filled, `children` holds the filled slots in order, and `count` is the number of entries
  below. -/
  | trie (stamp : Stamp) (rotation occupancy : UInt32) (count : Nat)
      (children : List (Bucket K V))
deriving Repr

namespace Bucket

variable {K V : Type}

/-- The number of entries in a bucket, read off its top node. -/
def count : Bucket K V → Nat
  | .leaf _ => 1
  | .chain _ _ entries => entries.length
  | .trie _ _ _ count _ => count

/-- The hash of every entry of a leaf or chain. A trie node has none. -/
def hash? : Bucket K V → Option UInt32
  | .leaf entry => some entry.hash
  | .chain _ hash _ => some hash
  | .trie .. => none

/-- Whether two buckets are one and the same node. -/
def sameNode : Bucket K V → Bucket K V → Bool
  | .leaf a, .leaf b => a.stamp == b.stamp
  | .chain a _ _, .chain b _ _ => a == b
  | .trie a _ _ _ _, .trie b _ _ _ _ => a == b
  | _, _ => false

/-! ## Enumeration -/

mutual

/-- The entries of a bucket from left to right: those of a chain in order, those of a trie node
child by child. -/
def leaves : Bucket K V → List (Leaf K V)
  | .leaf entry => [entry]
  | .chain _ _ entries => entries
  | .trie _ _ _ _ children => leavesAll children

/-- The entries of several buckets, one bucket after the other. -/
def leavesAll : List (Bucket K V) → List (Leaf K V)
  | [] => []
  | child :: children => child.leaves ++ leavesAll children

end

mutual

/-- All buckets of a trie, a node before its children. The entries of a chain are not buckets of
their own. -/
def nodes : Bucket K V → List (Bucket K V)
  | .leaf entry => [.leaf entry]
  | .chain stamp hash entries => [.chain stamp hash entries]
  | .trie stamp rotation occupancy count children =>
    .trie stamp rotation occupancy count children :: nodesAll children

/-- The buckets of several tries, one trie after the other. -/
def nodesAll : List (Bucket K V) → List (Bucket K V)
  | [] => []
  | child :: children => child.nodes ++ nodesAll children

end

theorem leavesAll_eq_flatMap (children : List (Bucket K V)) :
    leavesAll children = children.flatMap leaves := by
  induction children with
  | nil => rfl
  | cons child children ih => simp [leavesAll, ih]

theorem nodesAll_eq_flatMap (children : List (Bucket K V)) :
    nodesAll children = children.flatMap nodes := by
  induction children with
  | nil => rfl
  | cons child children ih => simp [nodesAll, ih]

end Bucket

end RotaryTrie
