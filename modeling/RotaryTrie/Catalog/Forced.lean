import RotaryTrie.Catalog.Named
import RotaryTrie.Digest

/-!
# Keys that bring their own hash

A key with a number to know it by and another one that alone decides its default hash. Any
collision one likes can be made of such keys.
-/

set_option autoImplicit false

namespace RotaryTrie

/-- A key whose hash can be chosen. -/
structure ForcedKey where
  /-- What the key is known by. -/
  id : UInt32
  /-- What its default hash is taken of. -/
  forced : UInt64
deriving DecidableEq, Repr

/-- A key as text. -/
def ForcedKey.text (key : ForcedKey) : String :=
  Nat.repr key.id.toNat ++ "@" ++ Nat.repr key.forced.toNat

/-- Rules for keys that bring their own hash. -/
inductive ForcedRule where
  /-- Scattered by the default hash. -/
  | default
  /-- The lower half of the forced number is the hash. -/
  | forced
  /-- Only the `id` matters. -/
  | id
deriving DecidableEq, Repr

namespace ForcedRule

/-- The rule of a given name. -/
def ofName? : String → Option ForcedRule
  | "default" => some .default
  | "forced" => some .forced
  | "id" => some .id
  | _ => none

/-- The hash of a key. -/
def hash : ForcedRule → ForcedKey → UInt32
  | .default, k => hashOne k.forced
  | .forced, k => k.forced.toUInt32
  | .id, k => k.id

/-- Whether two keys are the same. -/
def equals : ForcedRule → ForcedKey → ForcedKey → Bool
  | .id, a, b => a.id == b.id
  | _, a, b => a == b

end ForcedRule

instance : KeyRule ForcedRule ForcedKey where
  default := .default
  ofName? := ForcedRule.ofName?
  hash := ForcedRule.hash
  equals := ForcedRule.equals

end RotaryTrie
