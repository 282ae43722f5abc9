/-!
# Strategies

How keys are hashed and compared, and when two values count as equal, is not fixed by their types:
every map is built under a *key strategy* and a *value strategy*.

## Identity and behaviour

A map can be asked whether it uses the very same strategy as another one, and takes short cuts if
it does. Functions cannot be compared, so a map holds a *handle* for each of its strategies, a value
of a type with decidable equality, and the classes below say what a handle stands for. Two handles
may well stand for the same functions; they are different strategies all the same.

No law is asked of the functions. Their comparisons need not be symmetric or reflexive, and
equal keys may even have different hashes.
-/

set_option autoImplicit false

namespace RotaryTrie

/-- Handles for strategies that hash and compare keys. -/
class KeyStrategy (κ : Type) (K : outParam Type) where
  /-- The strategy of maps for which none was chosen. -/
  canonical : κ
  /-- The hash of a key. -/
  hash : κ → K → UInt32
  /-- Whether two keys count as the same. -/
  equals : κ → K → K → Bool

/-- Handles for strategies that compare values. -/
class ValueStrategy (ν : Type) (V : outParam Type) where
  /-- The strategy of maps for which none was chosen. -/
  canonical : ν
  /-- Whether two values count as the same. -/
  equals : ν → V → V → Bool

/-- The two strategies of a map. -/
structure Strategies (κ ν : Type) where
  /-- The strategy for keys. -/
  key : κ
  /-- The strategy for values. -/
  value : ν
deriving DecidableEq, Repr

/-- The strategies of maps for which none were chosen. -/
def Strategies.canonical {κ ν K V : Type} [KeyStrategy κ K] [ValueStrategy ν V] :
    Strategies κ ν :=
  ⟨KeyStrategy.canonical, ValueStrategy.canonical⟩

end RotaryTrie
