import RotaryTrie.Catalog.Named
import RotaryTrie.Digest

/-!
# Rules for number keys and number values

Most key rules here hash badly on purpose: they put many keys into few hashes, or hashes that agree
in all but a few bits, and so drive a trie into long chains and deep nodes. Some break the law that
equal keys have equal hashes, or compare keys by an order, which is not symmetric.
-/

set_option autoImplicit false

namespace RotaryTrie

/-- Rules for 32-bit keys. -/
inductive WordRule where
  /-- Scattered by the default hash. -/
  | default
  /-- Each key its own hash. -/
  | identity
  /-- Sixteen hashes, far apart. -/
  | coarse
  /-- Scattered by a multiplication. -/
  | mul
  /-- Differences only in the five highest bits. -/
  | high
  /-- Two keys to a hash. -/
  | pairs
  /-- One hash for all. -/
  | const
  /-- Keys that agree modulo ten are the same. -/
  | mod10
  /-- The same keys as `mod10`, hashed apart. -/
  | broken
  /-- The same keys as `mod10`, two neighbours to a hash. -/
  | brokenPairs
  /-- Compares by order. -/
  | le
deriving DecidableEq, Repr

namespace WordRule

/-- The rule of a given name. -/
def ofName? : String → Option WordRule
  | "default" => some .default
  | "identity" => some .identity
  | "coarse" => some .coarse
  | "mul" => some .mul
  | "high" => some .high
  | "pairs" => some .pairs
  | "const" => some .const
  | "mod10" => some .mod10
  | "broken" => some .broken
  | "broken_pairs" => some .brokenPairs
  | "le" => some .le
  | _ => none

/-- A multiplier that spreads small numbers over the word. -/
def spread : UInt32 := 0x9e3779b9

/-- The hash of a key. -/
def hash : WordRule → UInt32 → UInt32
  | .default, k => hashOne k
  | .identity, k => k
  | .coarse, k => k % 16 * spread
  | .mul, k => k * spread
  | .high, k => k <<< 27
  | .pairs, k => k / 2
  | .const, _ => 7
  | .mod10, k => k % 10
  | .broken, k => k
  | .brokenPairs, k => k / 2
  | .le, _ => 0

/-- Whether two keys are the same. -/
def equals : WordRule → UInt32 → UInt32 → Bool
  | .mod10, a, b | .broken, a, b | .brokenPairs, a, b => a % 10 == b % 10
  | .le, a, b => a ≤ b
  | _, a, b => a == b

end WordRule

instance : KeyRule WordRule UInt32 where
  default := .default
  ofName? := WordRule.ofName?
  hash := WordRule.hash
  equals := WordRule.equals

/-- Rules for signed 32-bit values. -/
inductive IntegerRule where
  /-- Equal numbers. -/
  | default
  /-- Numbers with the same quotient by ten, rounded towards zero. -/
  | tens
  /-- No two values, not even a value and itself. -/
  | never
  /-- Any two values. -/
  | always
  /-- Compares by order. -/
  | le
deriving DecidableEq, Repr

namespace IntegerRule

/-- The rule of a given name. -/
def ofName? : String → Option IntegerRule
  | "default" => some .default
  | "tens" => some .tens
  | "never" => some .never
  | "always" => some .always
  | "le" => some .le
  | _ => none

/-- Whether two values are the same. -/
def equals : IntegerRule → Int32 → Int32 → Bool
  | .default, a, b => a == b
  | .tens, a, b => a / 10 == b / 10
  | .never, _, _ => false
  | .always, _, _ => true
  | .le, a, b => a ≤ b

end IntegerRule

instance : ValueRule IntegerRule Int32 where
  default := .default
  ofName? := IntegerRule.ofName?
  equals := IntegerRule.equals

end RotaryTrie
