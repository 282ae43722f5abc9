import RotaryTrie.Proofs.Edits

/-!
# Edits by what a search finds

`Map.Sound.editOutcome` says what an edit does in terms of rows and places. Seen from outside, it is
the search for the key that decides: a pair whose key is not found enters, one whose key is found
with a different value replaces what was found, and an erasure drops it. `Map.EditEffect` tells an
edit in this way, with what becomes of the trie, and is what the properties of single writes are
derived from.
-/

set_option autoImplicit false

namespace RotaryTrie

open Bucket

variable {κ ν K V : Type} [KeyStrategy κ K]

/-- The pair that an edit writes. An erasure writes none. -/
def Edit.pair? {K V : Type} : Edit K V → Option (K × V)
  | .add key value | .set key value => some (key, value)
  | .erase _ => none

theorem Edit.key_of_pair? {K V : Type} (edit : Edit K V) {key : K} {value : V}
    (h : edit.pair? = some (key, value)) : edit.key = key := by
  cases edit with
  | add => exact (Prod.mk.inj (Option.some_inj.mp h)).1
  | set => exact (Prod.mk.inj (Option.some_inj.mp h)).1
  | erase => simp [pair?] at h

namespace Map

variable [ValueStrategy ν V]

/-- The effect of an edit that goes through. -/
inductive EditEffect (m : Map κ ν K V) (write : ℕ) : Edit K V → Map κ ν K V → Prop where
  /-- The key is found with an equal value. -/
  | kept {edit : Edit K V} {key : K} {value : V} {stored : Leaf K V}
      (pair?_eq : edit.pair? = some (key, value)) (find?_eq : m.find? key = some stored)
      (equals_eq : ValueStrategy.equals m.strategies.value stored.value value = true) :
      EditEffect m write edit m
  /-- The key is not found, and the pair enters. -/
  | entered {edit : Edit K V} {policy : Policy} {key : K} {value : V} {grown : Bucket K V}
      (pair?_eq : edit.pair? = some (key, value)) (find?_eq : m.find? key = none)
      (entered : Entered (m.insertion policy write key value) m.root grown) :
      EditEffect m write edit { m with root := some grown }
  /-- The key is found with a different value, and the pair is set in place of what was found. -/
  | replaced {key : K} {value : V} {stored : Leaf K V} {before after : List (Leaf K V)}
      {bucket new : Bucket K V} (find?_eq : m.find? key = some stored)
      (equals_eq : ValueStrategy.equals m.strategies.value stored.value value = false)
      (notMem : stored ∉ before) (root_eq : m.root = some bucket)
      (replaced : Replaced (m.insertion .overwrite write key value) stored before after 0 bucket
        new) :
      EditEffect m write (.set key value) { m with root := some new }
  /-- The key to erase is not found. -/
  | missing {key : K} (find?_eq : m.find? key = none) : EditEffect m write (.erase key) m
  /-- The key to erase is found, and the entry is dropped. -/
  | dropped {key : K} {stored : Leaf K V} {before after : List (Leaf K V)}
      {rest : Option (Bucket K V)} (find?_eq : m.find? key = some stored) (notMem : stored ∉ before)
      (dropped : Dropped write stored before after m.root rest) :
      EditEffect m write (.erase key) { m with root := rest }

variable {m made : Map κ ν K V} {write : ℕ}

private theorem Sound.editEffect_add (h : m.Sound) {key : K} {value : V}
    (made_eq : m.add write key value = .ok made) : EditEffect m write (.add key value) made := by
  obtain ⟨result, hinsert, houtcome⟩ := h.exists_insert .reject write key value
  rw [add, hinsert] at made_eq
  cases houtcome with
  | entered place_eq entered =>
    rw [← Except.ok.inj made_eq]
    exact .entered rfl (h.find?_eq_none place_eq) entered
  | kept row_eq place_eq equals_eq =>
    rw [← Except.ok.inj made_eq]
    exact .kept rfl (h.find?_eq_some row_eq place_eq) equals_eq
  | refused => simp at made_eq

private theorem Sound.editEffect_set (h : m.Sound) (key : K) (value : V) :
    EditEffect m write (.set key value) (m.set write key value) := by
  obtain ⟨result, hinsert, houtcome⟩ := h.exists_insert .overwrite write key value
  rw [set, hinsert]
  cases houtcome with
  | entered place_eq entered => exact .entered rfl (h.find?_eq_none place_eq) entered
  | kept row_eq place_eq equals_eq =>
    exact .kept rfl (h.find?_eq_some row_eq place_eq) equals_eq
  | replaced row_eq place_eq equals_eq root_eq replaced =>
    refine .replaced (h.find?_eq_some row_eq place_eq) equals_eq ?_ root_eq replaced
    exact notMem_of_place row_eq place_eq

private theorem Sound.editEffect_erase (h : m.Sound) (key : K) :
    EditEffect m write (.erase key) (m.erase write key) := by
  obtain ⟨rest, herase, houtcome⟩ := h.exists_eraseRoot write key
  rw [Map.erase, herase]
  cases houtcome with
  | missing place_eq => exact .missing (h.find?_eq_none place_eq)
  | dropped row_eq place_eq dropped =>
    exact .dropped (h.find?_eq_some row_eq place_eq) (notMem_of_place row_eq place_eq) dropped

/-- An edit of a sound map that goes through has one of the effects. -/
theorem Sound.editEffect (h : m.Sound) {edit : Edit K V} (made_eq : m.edit write edit = .ok made) :
    EditEffect m write edit made := by
  cases edit with
  | add key value => exact h.editEffect_add made_eq
  | set key value =>
    rw [← Except.ok.inj made_eq]
    exact h.editEffect_set key value
  | erase key =>
    rw [← Except.ok.inj made_eq]
    exact h.editEffect_erase key

end Map

end RotaryTrie
