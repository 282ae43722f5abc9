import RotaryTrie.Bucket.Erase
import RotaryTrie.Bucket.Insert
import RotaryTrie.Map.Basic

/-!
# Writing to a map

Every operation here takes the number of the write, under which the nodes it builds are stamped;
an operation on a list of keys or pairs uses that number and the following ones, one for each
member of the list. Numbers must not be used twice in a history of maps that are compared by
identity, and every operation on a list says how many it uses by the length of the list.

## Faults

Inside the trie an operation may report a fault. A map that came about by writes never gives cause
for one, so the operations on maps do not pass it on: where they would meet one, they leave the map
as it is. The trie-level results stay available as `insert`, `eraseRoot` and `eraseRoots`.
-/

set_option autoImplicit false

namespace RotaryTrie.Map

variable {κ ν K V : Type}

section Single

variable [KeyStrategy κ K] (m : Map κ ν K V)

/-! ## One entry -/

/-- The insertion of a pair into the trie. -/
def insert [ValueStrategy ν V] (policy : Policy) (write : Nat) (key : K) (value : V) :
    Except Fault (Inserted K V) :=
  let entry : Leaf K V := ⟨⟨write, 0⟩, KeyStrategy.hash m.strategies.key key, key, value⟩
  match m.root with
  | none => .ok (.changed (.leaf entry))
  | some root =>
    root.insert
      { entry
        policy
        sameKey := KeyStrategy.equals m.strategies.key
        sameValue := ValueStrategy.equals m.strategies.value } 0 0

/-- Adds a pair. The key must not be there with a different value; if it is there with an equal
one, nothing changes. -/
def add [ValueStrategy ν V] (write : Nat) (key : K) (value : V) : Except MapError (Map κ ν K V) :=
  match m.insert .reject write key value with
  | .ok (.changed root) => .ok { m with root := some root }
  | .ok .conflict => .error .duplicateKey
  | .ok .unchanged | .error _ => .ok m

/-- Sets the value of a key, whether it is there or not. If it is there with an equal value,
nothing changes. -/
def set [ValueStrategy ν V] (write : Nat) (key : K) (value : V) : Map κ ν K V :=
  match m.insert .overwrite write key value with
  | .ok (.changed root) => { m with root := some root }
  | .ok .conflict | .ok .unchanged | .error _ => m

/-- Erases a key from a trie that may be absent. -/
def eraseRoot (write : Nat) (key : K) :
    Option (Bucket K V) → Except Fault (Option (Bucket K V))
  | none => .ok none
  | some root =>
    match root.erase (m.probe key) write 0 with
    | .error fault => .error fault
    | .ok .unchanged => .ok (some root)
    | .ok .emptied => .ok none
    | .ok (.changed rest) => .ok (some rest)

/-- Erases a key. If it is not there, nothing changes. -/
def erase (write : Nat) (key : K) : Map κ ν K V :=
  match m.eraseRoot write key m.root with
  | .ok root => { m with root }
  | .error _ => m

end Single

/-! ## Many entries -/

/-- Adds pairs one after the other, up to the first that cannot be added. -/
def addAll [KeyStrategy κ K] [ValueStrategy ν V] (m : Map κ ν K V) (write : Nat) :
    List (K × V) → Except MapError (Map κ ν K V)
  | [] => .ok m
  | (key, value) :: pairs =>
    match m.add write key value with
    | .error error => .error error
    | .ok next => next.addAll (write + 1) pairs

/-- Sets pairs one after the other. A later pair takes the place of an earlier one with the same
key, unless their values are equal. -/
def setAll [KeyStrategy κ K] [ValueStrategy ν V] (m : Map κ ν K V) (write : Nat) :
    List (K × V) → Map κ ν K V
  | [] => m
  | (key, value) :: pairs => (m.set write key value).setAll (write + 1) pairs

/-- Extends a map by pairs: the map in which they are set takes its place. -/
def extend [KeyStrategy κ K] [ValueStrategy ν V] (m : Map κ ν K V) (write : Nat)
    (pairs : List (K × V)) : Map κ ν K V :=
  m.setAll write pairs

/-- Erases keys one after the other from a trie. Once the trie is empty, the keys that are left
are not looked at. -/
def eraseRoots [KeyStrategy κ K] (m : Map κ ν K V) (write : Nat) :
    List K → Option (Bucket K V) → Except Fault (Option (Bucket K V))
  | [], root => .ok root
  | _ :: _, none => .ok none
  | key :: keys, some root =>
    match m.eraseRoot write key (some root) with
    | .error fault => .error fault
    | .ok rest => m.eraseRoots (write + 1) keys rest

/-- Erases keys one after the other. -/
def eraseAll [KeyStrategy κ K] (m : Map κ ν K V) (write : Nat) (keys : List K) : Map κ ν K V :=
  match m.eraseRoots write keys m.root with
  | .ok root => { m with root }
  | .error _ => m

/-- The map of the given pairs, set one after the other, under the canonical strategies. -/
def ofList [KeyStrategy κ K] [ValueStrategy ν V] (write : Nat) (pairs : List (K × V)) :
    Map κ ν K V :=
  empty.setAll write pairs

/-!
## Other strategies, other maps

Entries that are written into another map are copied. A copy of a key or a value is taken to be
that key or value: whatever is asked of it, the answer is the same. So what is written here are the
pairs themselves, and only the nodes around them are new.
-/

section Transfer

variable [DecidableEq κ] [KeyStrategy κ K] [ValueStrategy ν V] (m : Map κ ν K V) (write : Nat)

/-- The same entries under other strategies. The trie does not depend on how values are compared,
so it is kept as long as the key strategy is. Under another key strategy the entries are set anew
in their order. Where it takes two keys for the same, the later entry replaces the earlier one,
unless their values are equal: then the earlier one stays. -/
def withStrategies (strategies : Strategies κ ν) : Map κ ν K V :=
  if m.strategies.key = strategies.key then { m with strategies }
  else (emptyUnder strategies).setAll write m.pairs

/-- The same entries under another key strategy and the value strategy they have. -/
def withKeyStrategy (key : κ) : Map κ ν K V :=
  m.withStrategies write { m.strategies with key }

/-- Adds the entries of another map. An empty map takes over the other one's trie if both have the
same key strategy. -/
def addFrom (other : Map κ ν K V) : Except MapError (Map κ ν K V) :=
  if m.isEmpty ∧ m.strategies.key = other.strategies.key then
    .ok (other.withStrategies write m.strategies)
  else
    m.addAll write other.pairs

/-- Sets the entries of another map. An empty map takes them over under its own strategies: in the
other one's trie if both have the same key strategy, and written anew if not. -/
def setFrom (other : Map κ ν K V) : Map κ ν K V :=
  if m.isEmpty then other.withStrategies write m.strategies
  else m.setAll write other.pairs

end Transfer

end RotaryTrie.Map
