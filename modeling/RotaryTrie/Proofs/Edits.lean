import RotaryTrie.Proofs.History

/-!
# Edits

An *edit* writes a single key. A run of edits skips those that fail, as somebody does who goes on
from the unchanged map. Whatever an edit is, its effect is that of an insertion or an erasure of its
key, or none.
-/

set_option autoImplicit false

namespace RotaryTrie

open Bucket

variable {κ ν K V : Type} [KeyStrategy κ K] [ValueStrategy ν V]

/-- A write of a single key. -/
inductive Edit (K V : Type) where
  /-- `Map.add`. -/
  | add (key : K) (value : V)
  /-- `Map.set`. -/
  | set (key : K) (value : V)
  /-- `Map.erase`. -/
  | erase (key : K)

/-- The key that an edit writes. -/
def Edit.key {K V : Type} : Edit K V → K
  | .add key _ | .set key _ | .erase key => key

namespace Map

/-- Carries out an edit. -/
def edit (m : Map κ ν K V) (write : ℕ) : Edit K V → Except MapError (Map κ ν K V)
  | .add key value => m.add write key value
  | .set key value => .ok (m.set write key value)
  | .erase key => .ok (m.erase write key)

/-- The map after an edit. One that fails is skipped. -/
def edited (m : Map κ ν K V) (write : ℕ) (edit : Edit K V) : Map κ ν K V :=
  match m.edit write edit with
  | .ok made => made
  | .error _ => m

/-- The map after edits one after the other. -/
def replay (m : Map κ ν K V) (write : ℕ) : List (Edit K V) → Map κ ν K V
  | [] => m
  | edit :: edits => (m.edited write edit).replay (write + 1) edits

variable {m made : Map κ ν K V} {write : ℕ} {key : K}

/-! ## Effects -/

/-- The effect of an edit of a key on a map. -/
inductive EditOutcome (m : Map κ ν K V) (write : ℕ) (key : K) : Map κ ν K V → Prop where
  /-- Nothing is changed, perhaps because the edit fails. -/
  | unchanged : EditOutcome m write key m
  /-- A pair is inserted. -/
  | inserted {policy : Policy} {value : V} {root : Bucket K V}
      (outcome : InsertOutcome m write key value policy (.changed root)) :
      EditOutcome m write key { m with root := some root }
  /-- The key is erased. -/
  | erased {rest : Option (Bucket K V)} (outcome : EraseOutcome m write key rest) :
      EditOutcome m write key { m with root := rest }

/-- An edit of a sound map has one of the effects. -/
theorem Sound.editOutcome (h : m.Sound) (write : ℕ) (edit : Edit K V) :
    EditOutcome m write edit.key (m.edited write edit) := by
  rw [edited]
  cases edit with
  | add key value =>
    obtain ⟨result, hinsert, houtcome⟩ := h.exists_insert .reject write key value
    rw [edit, add, hinsert]
    cases result with
    | unchanged => exact .unchanged
    | conflict => exact .unchanged
    | changed => exact .inserted houtcome
  | set key value =>
    obtain ⟨result, hinsert, houtcome⟩ := h.exists_insert .overwrite write key value
    rw [edit, set, hinsert]
    cases result with
    | unchanged => exact .unchanged
    | conflict => exact .unchanged
    | changed => exact .inserted houtcome
  | erase key =>
    obtain ⟨rest, herase, houtcome⟩ := h.exists_eraseRoot write key
    rw [edit, erase, herase]
    exact .erased houtcome

theorem EditOutcome.strategies_eq (houtcome : EditOutcome m write key made) :
    made.strategies = m.strategies := by
  cases houtcome <;> rfl

theorem EditOutcome.sound (houtcome : EditOutcome m write key made) (h : m.Sound) : made.Sound := by
  cases houtcome with
  | unchanged => exact h
  | inserted outcome => exact outcome.sound h
  | erased outcome => exact outcome.sound h

/-- Erasing several keys is a run of edits. -/
theorem Sound.eraseAll_eq_replay (h : m.Sound) (write : ℕ) (keys : List K) :
    m.eraseAll write keys = m.replay write (keys.map .erase) := by
  induction keys generalizing m write with
  | nil => rfl
  | cons key keys ih =>
    rw [h.eraseAll_cons]
    exact ih ((h.editOutcome write (.erase key)).sound h) (write + 1)

end Map

end RotaryTrie
