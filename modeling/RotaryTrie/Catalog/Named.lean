import RotaryTrie.Strategy

/-!
# Strategies with names

A catalogue offers a few *rules* for each type of keys or values. A rule says how to hash and
compare; a strategy is a rule together with a tag, so that one rule can give any number of
strategies that behave alike and are told apart.

The name of a strategy is that of its rule, followed by `#` and the tag if there is one. The
strategy named `default`, without a tag, is the canonical one.
-/

set_option autoImplicit false

namespace RotaryTrie

/-- Rules that hash and compare keys. -/
class KeyRule (ρ : Type) (K : outParam Type) where
  /-- The rule of the canonical strategy. -/
  default : ρ
  /-- The rule of a given name. -/
  ofName? : String → Option ρ
  /-- The hash of a key. -/
  hash : ρ → K → UInt32
  /-- Whether two keys count as the same. -/
  equals : ρ → K → K → Bool

/-- Rules that compare values. -/
class ValueRule (ρ : Type) (V : outParam Type) where
  /-- The rule of the canonical strategy. -/
  default : ρ
  /-- The rule of a given name. -/
  ofName? : String → Option ρ
  /-- Whether two values count as the same. -/
  equals : ρ → V → V → Bool

/-- A rule with a tag that tells it from other strategies of the same rule. -/
structure Named (ρ : Type) where
  /-- What the strategy does. -/
  rule : ρ
  /-- What tells it apart. -/
  tag : Option String
deriving DecidableEq, Repr

namespace Named

/-- Splits a name into that of the rule and the tag. -/
def splitName (name : String) : String × Option String :=
  let rule := name.toList.takeWhile fun c ↦ c != '#'
  match name.toList.drop rule.length with
  | [] => (String.ofList rule, none)
  | _ :: tag => (String.ofList rule, some (String.ofList tag))

/-- The strategy of a given name, by a function that knows the names of the rules. -/
def ofName? {ρ : Type} (ruleOfName? : String → Option ρ) (name : String) : Option (Named ρ) :=
  let (rule, tag) := splitName name
  (ruleOfName? rule).map fun rule ↦ ⟨rule, tag⟩

end Named

instance {ρ K : Type} [KeyRule ρ K] : KeyStrategy (Named ρ) K where
  canonical := ⟨KeyRule.default, none⟩
  hash strategy := KeyRule.hash strategy.rule
  equals strategy := KeyRule.equals strategy.rule

instance {ρ V : Type} [ValueRule ρ V] : ValueStrategy (Named ρ) V where
  canonical := ⟨ValueRule.default, none⟩
  equals strategy := ValueRule.equals strategy.rule

end RotaryTrie
