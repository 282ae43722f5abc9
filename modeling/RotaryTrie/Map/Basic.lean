import RotaryTrie.Bucket.Find
import RotaryTrie.Strategy
import RotaryTrie.Traversal

/-!
# Maps

A map is a trie, or nothing at all, together with the strategies it is built under. Maps are
immutable; an operation that changes one yields another, which shares all nodes it did not have to
rebuild.

## Snapshots

Two maps are the same *snapshot* if they have one and the same root node, or both none, and the
same strategies. This is an identity and not an equality of contents: writing the entries of a map
anew gives an equal map that is another snapshot.
-/

set_option autoImplicit false

namespace RotaryTrie

/-- An immutable hash map. -/
structure Map (κ ν K V : Type) where
  /-- The trie, if there are entries. -/
  root : Option (Bucket K V)
  /-- How keys and values are compared. -/
  strategies : Strategies κ ν

/-- What an operation on a map can fail with. -/
inductive MapError where
  /-- The key is there with a different value. -/
  | duplicateKey
  /-- The key that was asked for is not there. -/
  | keyNotFound
  /-- The key that was indexed with is not there. -/
  | invalidIndex
deriving DecidableEq, Repr

/-- The wording of an error. -/
def MapError.message : MapError → String
  | .duplicateKey => "an entry with the same key but a different value already exists"
  | .keyNotFound => "the given key was not present in the map"
  | .invalidIndex => "key not found"

/-- Whether two roots are the same node, or both absent. -/
def sameRoot {K V : Type} : Option (Bucket K V) → Option (Bucket K V) → Bool
  | none, none => true
  | some a, some b => a.sameNode b
  | _, _ => false

namespace Map

variable {κ ν K V : Type}

/-! ## Empty maps -/

/-- The empty map under the given strategies. -/
def emptyUnder (strategies : Strategies κ ν) : Map κ ν K V := ⟨none, strategies⟩

/-- The empty map under the canonical strategies. -/
def empty [KeyStrategy κ K] [ValueStrategy ν V] : Map κ ν K V := emptyUnder .canonical

/-- The empty map under this map's strategies. -/
def clear (m : Map κ ν K V) : Map κ ν K V := emptyUnder m.strategies

/-- The number of entries. -/
def size (m : Map κ ν K V) : Nat := m.root.elim 0 Bucket.count

/-- Whether there are no entries. -/
def isEmpty (m : Map κ ν K V) : Bool := m.root.isNone

/-- Whether two maps are the same snapshot. -/
def sameSnapshot [DecidableEq κ] [DecidableEq ν] (m other : Map κ ν K V) : Bool :=
  sameRoot m.root other.root && decide (m.strategies = other.strategies)

/-! ## Enumeration -/

/-- The entries, from left to right. -/
def leaves (m : Map κ ν K V) : List (Leaf K V) := m.root.elim [] Bucket.leaves

/-- The keys and values, in the order of the entries. -/
def pairs (m : Map κ ν K V) : List (K × V) := m.leaves.map Leaf.pair

/-- The keys, in the order of the entries. -/
def keys (m : Map κ ν K V) : List K := m.leaves.map Leaf.key

/-- The values, in the order of the entries. -/
def values (m : Map κ ν K V) : List V := m.leaves.map Leaf.value

/-- An enumeration of the entries, one at a time. -/
def traversal (m : Map κ ν K V) : Traversal K V := .start m.root

/-- An enumeration of the keys and values, one pair at a time. -/
def pairTraversal (m : Map κ ν K V) : ViewTraversal K V (K × V) := ⟨Leaf.pair, m.traversal⟩

/-- An enumeration of the keys, one at a time. -/
def keyTraversal (m : Map κ ν K V) : ViewTraversal K V K := ⟨Leaf.key, m.traversal⟩

/-- An enumeration of the values, one at a time. -/
def valueTraversal (m : Map κ ν K V) : ViewTraversal K V V := ⟨Leaf.value, m.traversal⟩

/-- The buckets of the trie, a node before its children. -/
def nodes (m : Map κ ν K V) : List (Bucket K V) := m.root.elim [] Bucket.nodes

/-- For every bucket of another map, whether this map has the very same one. -/
def sharing (m other : Map κ ν K V) : List Bool :=
  other.nodes.map fun bucket ↦ m.nodes.any fun own ↦ own.sameNode bucket

/-! ## Looking up -/

section Lookup

variable [KeyStrategy κ K] (m : Map κ ν K V)

/-- A key to look for, under the map's strategy. -/
def probe (key : K) : Probe K :=
  ⟨KeyStrategy.hash m.strategies.key key, key, KeyStrategy.equals m.strategies.key⟩

/-- The search for the entry that a key belongs to. -/
def search (key : K) : Except Fault (Option (Leaf K V)) :=
  match m.root with
  | none => .ok none
  | some root => root.find (m.probe key)

/-- The entry that a key belongs to. -/
def find? (key : K) : Option (Leaf K V) :=
  match m.search key with
  | .ok found => found
  | .error _ => none

/-- The value of a key. -/
def get? (key : K) : Option V := (m.find? key).map Leaf.value

/-- The stored key that a key belongs to. -/
def getKey? (key : K) : Option K := (m.find? key).map Leaf.key

/-- The stored key and its value. -/
def getEntry? (key : K) : Option (K × V) := (m.find? key).map Leaf.pair

/-- The value of a key that should be there. -/
def item (key : K) : Except MapError V :=
  match m.get? key with
  | some value => .ok value
  | none => .error .keyNotFound

/-- The value that a key indexes. -/
def index (key : K) : Except MapError V :=
  match m.get? key with
  | some value => .ok value
  | none => .error .invalidIndex

/-- Whether there is an entry for a key. -/
def containsKey (key : K) : Bool := (m.find? key).isSome

/-- Whether a key has a value equal to the given one. -/
def contains [ValueStrategy ν V] (key : K) (value : V) : Bool :=
  (m.get? key).any fun stored ↦ ValueStrategy.equals m.strategies.value stored value

end Lookup

/-- Whether some entry has a value equal to the given one. -/
def containsValue [ValueStrategy ν V] (m : Map κ ν K V) (value : V) : Bool :=
  m.values.any fun stored ↦ ValueStrategy.equals m.strategies.value stored value

end Map

end RotaryTrie
