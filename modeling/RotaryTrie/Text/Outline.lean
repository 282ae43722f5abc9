/-!
# Outlines

An outline is the text form of a structured value before it is decided how to lay it out: named
records of labelled fields, lists, and atoms, which are texts of a single line.

It can be written in one line, or over several with every field and item on a line of its own, four
spaces further in than the bracket that encloses it and followed by a comma. A record that does not
show all of its fields ends with two dots, which take no comma. What has nothing between its
brackets stays on one line in both forms.
-/

set_option autoImplicit false

namespace RotaryTrie

/-- The text form of a structured value. -/
inductive Outline where
  /-- A text of a single line. -/
  | atom (text : String)
  /-- A named record; `elided` says that it has fields that are not shown. -/
  | record (name : String) (fields : List (String × Outline)) (elided : Bool)
  /-- A list. -/
  | list (items : List Outline)

namespace Outline

/-! ## One line -/

mutual

/-- An outline in one line. -/
def inline : Outline → String
  | .atom text => text
  | .record name [] false => name
  | .record name [] true => name ++ " \x7b .. \x7d"
  | .record name (field :: fields) elided =>
    let shown := inlineFields (field :: fields)
    name ++ " \x7b " ++ ", ".intercalate (if elided then shown ++ [".."] else shown) ++ " \x7d"
  | .list items => "[" ++ ", ".intercalate (inlineItems items) ++ "]"

/-- The fields of a record, each in one line. -/
def inlineFields : List (String × Outline) → List String
  | [] => []
  | (label, value) :: fields => (label ++ ": " ++ value.inline) :: inlineFields fields

/-- The items of a list, each in one line. -/
def inlineItems : List Outline → List String
  | [] => []
  | item :: items => item.inline :: inlineItems items

end

/-! ## Several lines -/

/-- The line break before a line at the given depth. -/
def lineBreak (depth : Nat) : String := "\n" ++ "".pushn ' ' (4 * depth)

mutual

/-- An outline over several lines, at the given depth. The first line is not indented. -/
def indented (depth : Nat) : Outline → String
  | .record name (field :: fields) elided =>
    name ++ " \x7b" ++ indentedFields (depth + 1) (field :: fields)
      ++ (if elided then lineBreak (depth + 1) ++ ".." else "") ++ lineBreak depth ++ "\x7d"
  | .list (item :: items) =>
    "[" ++ indentedItems (depth + 1) (item :: items) ++ lineBreak depth ++ "]"
  | outline => outline.inline

/-- The fields of a record, each on lines of its own. -/
def indentedFields (depth : Nat) : List (String × Outline) → String
  | [] => ""
  | (label, value) :: fields =>
    lineBreak depth ++ label ++ ": " ++ value.indented depth ++ "," ++ indentedFields depth fields

/-- The items of a list, each on lines of its own. -/
def indentedItems (depth : Nat) : List Outline → String
  | [] => ""
  | item :: items => lineBreak depth ++ item.indented depth ++ "," ++ indentedItems depth items

end

/-- An outline, over several lines or in one. -/
def render (spread : Bool) (outline : Outline) : String :=
  if spread then outline.indented 0 else outline.inline

end Outline

end RotaryTrie
