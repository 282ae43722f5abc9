import RotaryTrie.Map.Write

/-!
# Workspaces

A workspace holds maps by name and carries out commands that make new maps. Its *clock* is the
number of the next write. A command is given as many numbers as it could need, and the clock moves
past them whether they were used or not, so no two writes of a workspace's history share one and
nodes can be compared by their stamps across all its maps.

A command that fails leaves the workspace as it was.
-/

set_option autoImplicit false

namespace RotaryTrie

/-- A way to make a new map out of a given one. -/
inductive Change (κ ν K V : Type) where
  /-- `Map.add`. -/
  | add (key : K) (value : V)
  /-- `Map.set`. -/
  | set (key : K) (value : V)
  /-- `Map.erase`. -/
  | erase (key : K)
  /-- `Map.addAll`. -/
  | addAll (pairs : List (K × V))
  /-- `Map.setAll`. -/
  | setAll (pairs : List (K × V))
  /-- `Map.eraseAll`. -/
  | eraseAll (keys : List K)
  /-- `Map.addFrom`, with the map of the given name. -/
  | addFrom (other : String)
  /-- `Map.setFrom`, with the map of the given name. -/
  | setFrom (other : String)
  /-- `Map.clear`. -/
  | clear
  /-- The map as it is. -/
  | copy
  /-- `Map.withKeyStrategy`. -/
  | withKeyStrategy (key : κ)
  /-- `Map.withStrategies`, where a strategy that is not given stays. -/
  | withStrategies (key? : Option κ) (value? : Option ν)

/-- A way to make a map. -/
inductive Command (κ ν K V : Type) where
  /-- An empty map under the given strategies. -/
  | create (strategies : Strategies κ ν)
  /-- `Map.ofList`. -/
  | ofList (pairs : List (K × V))
  /-- A change of the map of the given name. -/
  | change (source : String) (change : Change κ ν K V)

/-- Why a command was not carried out. -/
inductive CommandError where
  /-- There is no map of this name. -/
  | unknownMap (name : String)
  /-- The operation on the map failed. -/
  | failed (error : MapError)
deriving DecidableEq, Repr

/-- Maps by name, and the number of the next write. -/
structure Workspace (κ ν K V : Type) where
  /-- The maps and their names. -/
  maps : List (String × Map κ ν K V)
  /-- The number of the next write. -/
  clock : Nat

namespace Workspace

variable {κ ν K V : Type}

/-- The workspace with a single map, which is empty. -/
def opening (name : String) (strategies : Strategies κ ν) : Workspace κ ν K V :=
  ⟨[(name, Map.emptyUnder strategies)], 0⟩

/-- The map of a name. -/
def lookup (w : Workspace κ ν K V) (name : String) : Except CommandError (Map κ ν K V) :=
  match w.maps.lookup name with
  | some m => .ok m
  | none => .error (.unknownMap name)

/-- Gives a name to a map that took the given number of writes. If another map has the name, it
loses it. -/
def store (w : Workspace κ ν K V) (name : String) (m : Map κ ν K V) (writes : Nat) :
    Workspace κ ν K V where
  maps := (name, m) :: w.maps.filter fun entry ↦ entry.1 != name
  clock := w.clock + writes

section Perform

variable [DecidableEq κ] [KeyStrategy κ K] [ValueStrategy ν V] (w : Workspace κ ν K V)

/-- What a change makes of a map, and the number of writes set aside for it. -/
def changed (m : Map κ ν K V) : Change κ ν K V → Except CommandError (Map κ ν K V × Nat)
  | .add key value => do
    let made ← (m.add w.clock key value).mapError .failed
    .ok (made, 1)
  | .set key value => .ok (m.set w.clock key value, 1)
  | .erase key => .ok (m.erase w.clock key, 1)
  | .addAll pairs => do
    let made ← (m.addAll w.clock pairs).mapError .failed
    .ok (made, pairs.length)
  | .setAll pairs => .ok (m.setAll w.clock pairs, pairs.length)
  | .eraseAll keys => .ok (m.eraseAll w.clock keys, keys.length)
  | .addFrom name => do
    let other ← w.lookup name
    let made ← (m.addFrom w.clock other).mapError .failed
    .ok (made, other.pairs.length)
  | .setFrom name => do
    let other ← w.lookup name
    .ok (m.setFrom w.clock other, other.pairs.length)
  | .clear => .ok (m.clear, 0)
  | .copy => .ok (m, 0)
  | .withKeyStrategy key => .ok (m.withKeyStrategy w.clock key, m.pairs.length)
  | .withStrategies key? value? =>
    let strategies := ⟨key?.getD m.strategies.key, value?.getD m.strategies.value⟩
    .ok (m.withStrategies w.clock strategies, m.pairs.length)

/-- The map that a command makes, and the number of writes set aside for it. -/
def made : Command κ ν K V → Except CommandError (Map κ ν K V × Nat)
  | .create strategies => .ok (Map.emptyUnder strategies, 0)
  | .ofList pairs => .ok (Map.ofList w.clock pairs, pairs.length)
  | .change source change => do
    let m ← w.lookup source
    w.changed m change

/-- Carries out a command and stores the map it makes under a name. -/
def perform (target : String) (command : Command κ ν K V) :
    Except CommandError (Workspace κ ν K V) := do
  let (m, writes) ← w.made command
  .ok (w.store target m writes)

end Perform

end Workspace

end RotaryTrie
