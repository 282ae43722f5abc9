import RotaryTrie.Catalog.Named
import RotaryTrie.Digest

/-!
# Rules for string keys and string values

Lengths are those of the UTF-8 encoding, and letters are compared without regard to case only where
they are ASCII letters.
-/

set_option autoImplicit false

namespace RotaryTrie

/-- A string with its ASCII capitals made small. -/
def asciiLower (s : String) : String := s.map Char.toLower

/-- Whether one string begins with another. -/
def beginsWith (start s : String) : Bool := start.toList.isPrefixOf s.toList

/-- Rules for string keys. -/
inductive StringKeyRule where
  /-- Scattered by the default hash. -/
  | default
  /-- Ignores the case of ASCII letters. -/
  | ci
  /-- The same keys as `ci`, hashed with regard to case. -/
  | brokenCi
  /-- One hash for each length. -/
  | len
  /-- Strings of one length are the same. -/
  | sameLen
  /-- One hash for each first byte. -/
  | first
  /-- The first string is where the second begins. -/
  | start
deriving DecidableEq, Repr

namespace StringKeyRule

/-- The rule of a given name. -/
def ofName? : String → Option StringKeyRule
  | "default" => some .default
  | "ci" => some .ci
  | "broken_ci" => some .brokenCi
  | "len" => some .len
  | "same_len" => some .sameLen
  | "first" => some .first
  | "prefix" => some .start
  | _ => none

/-- The hash of a key. -/
def hash : StringKeyRule → String → UInt32
  | .default, s => hashOne s
  | .ci, s => hashOne (asciiLower s)
  | .brokenCi, s => hashOne s
  | .len, s | .sameLen, s => s.utf8ByteSize.toUInt32
  | .first, s => (s.toUTF8.toList.headD 0).toUInt32
  | .start, _ => 0

/-- Whether two keys are the same. -/
def equals : StringKeyRule → String → String → Bool
  | .ci, a, b | .brokenCi, a, b => asciiLower a == asciiLower b
  | .sameLen, a, b => a.utf8ByteSize == b.utf8ByteSize
  | .start, a, b => beginsWith a b
  | _, a, b => a == b

end StringKeyRule

instance : KeyRule StringKeyRule String where
  default := .default
  ofName? := StringKeyRule.ofName?
  hash := StringKeyRule.hash
  equals := StringKeyRule.equals

/-- Rules for string values. -/
inductive StringRule where
  /-- Equal strings. -/
  | default
  /-- Ignores the case of ASCII letters. -/
  | ci
  /-- Strings of one length. -/
  | sameLen
  /-- No two values, not even a value and itself. -/
  | never
  /-- The first string is where the second begins. -/
  | start
deriving DecidableEq, Repr

namespace StringRule

/-- The rule of a given name. -/
def ofName? : String → Option StringRule
  | "default" => some .default
  | "ci" => some .ci
  | "same_len" => some .sameLen
  | "never" => some .never
  | "prefix" => some .start
  | _ => none

/-- Whether two values are the same. -/
def equals : StringRule → String → String → Bool
  | .default, a, b => a == b
  | .ci, a, b => asciiLower a == asciiLower b
  | .sameLen, a, b => a.utf8ByteSize == b.utf8ByteSize
  | .never, _, _ => false
  | .start, a, b => beginsWith a b

end StringRule

instance : ValueRule StringRule String where
  default := .default
  ofName? := StringRule.ofName?
  equals := StringRule.equals

end RotaryTrie
