import RotaryTrie.Catalog.Words
import RotaryTrie.Proofs.Lawful
import RotaryTrie.Proofs.Pruning

/-!
# Visits by foreign keys

What is a trie like once some keys are erased from it? `Map.Regular.layout_eraseAll` says that it is
the pruning to the entries that have none of these keys, in whatever order they are erased. Edits of
the same keys do not change that pruning, so the layout after the erasures does not tell whether
they took place. A map that did not have the keys gets back the layout it had,
`Map.layout_eraseAll_replay`, although its nodes are new and the way back is not that of the edits.
-/

set_option autoImplicit false

namespace RotaryTrie

open Bucket

variable {κ ν K V : Type} [KeyStrategy κ K]

/-- Whether an entry has none of some keys. -/
def spares (s : κ) (keys : List K) (entry : Leaf K V) : Bool :=
  keys.all fun key ↦ !decide (SameKey s entry.key key)

theorem spares_eq_true_iff {s : κ} {keys : List K} {entry : Leaf K V} :
    spares s keys entry = true ↔ ∀ key ∈ keys, ¬ SameKey s entry.key key := by
  rw [spares, List.all_eq_true]
  simp only [Bool.not_eq_true', decide_eq_false_iff_not]

/-- No entry with the key is kept. -/
def Disregards (keep : Leaf K V → Bool) (s : κ) (key : K) : Prop :=
  ∀ entry, SameKey s entry.key key → keep entry = false

theorem disregards_spares {s : κ} {keys : List K} {key : K} (hkey : key ∈ keys) :
    Disregards (spares s keys : Leaf K V → Bool) s key := by
  intro entry hsame
  rw [← Bool.not_eq_true, spares_eq_true_iff]
  intro hspared
  exact hspared key hkey hsame

namespace Map

/-! ## Edits -/

variable [ValueStrategy ν V] {m made : Map κ ν K V} {keep : Leaf K V → Bool} {write : ℕ} {key : K}

theorem EditOutcome.prune_eq (houtcome : EditOutcome m write key made) (h : m.Regular)
    (hkey : Disregards keep m.strategies.key key) : made.prune keep = m.prune keep := by
  have hself := h.lawful.sameKey_refl key
  cases houtcome with
  | unchanged => rfl
  | inserted outcome =>
    cases outcome with
    | entered _ entered => exact entered.prune_eq (hkey _ hself)
    | replaced row_eq place_eq _ root_eq replaced =>
      have hstored := h.sameKey_of_place row_eq place_eq
      rw [prune, prune, root_eq]
      exact replaced.prune_eq (hkey _ hstored) (hkey _ hself)
  | erased outcome =>
    cases outcome with
    | missing => rfl
    | dropped row_eq place_eq dropped =>
      exact dropped.prune_eq (hkey _ (h.sameKey_of_place row_eq place_eq))

theorem Regular.replay (h : m.Regular) (write : ℕ) (edits : List (Edit K V)) :
    (m.replay write edits).Regular ∧ (m.replay write edits).strategies = m.strategies := by
  induction edits generalizing m write with
  | nil => exact ⟨h, rfl⟩
  | cons edit edits ih =>
    have houtcome := h.editOutcome write edit
    rw [← houtcome.strategies_eq]
    exact ih (houtcome.regular h) (write + 1)

/-- A run of edits whose keys are disregarded does not change the pruning. -/
theorem Regular.prune_replay (h : m.Regular) (write : ℕ) {edits : List (Edit K V)}
    (hedits : ∀ edit ∈ edits, Disregards keep m.strategies.key edit.key) :
    (m.replay write edits).prune keep = m.prune keep := by
  induction edits generalizing m write with
  | nil => rfl
  | cons edit edits ih =>
    rw [List.forall_mem_cons] at hedits
    have houtcome := h.editOutcome write edit
    rw [← houtcome.prune_eq h hedits.1]
    refine ih (houtcome.regular h) (write + 1) ?_
    rw [houtcome.strategies_eq]
    exact hedits.2

/-! ## Erasures -/

theorem Regular.layout_eraseAll (h : m.Regular) (write : ℕ) (keys : List K) :
    (m.eraseAll write keys).layout = m.prune (spares m.strategies.key keys) := by
  have hleft := (h.replay write (keys.map .erase)).1
  rw [← h.eraseAll_eq_replay] at hleft
  have hspared : ∀ entry ∈ (m.eraseAll write keys).leaves,
      spares m.strategies.key keys entry = true := by
    intro entry hentry
    exact spares_eq_true_iff.mpr ((h.mem_leaves_eraseAll write).mp hentry).2
  rw [← prune_eq_layout hleft.root hspared, h.eraseAll_eq_replay]
  refine h.prune_replay write fun edit hedit ↦ ?_
  obtain ⟨key, hkey, rfl⟩ := List.mem_map.mp hedit
  exact disregards_spares hkey

/-- **A visit leaves no trace.** If no key of some edits is the same as a stored one, then erasing
all of them after the edits, in any order, leads to the layout that the map had. -/
theorem layout_eraseAll_replay [DecidableEq κ] (h : m.Reachable)
    (hlawful : LawfulKeys m.strategies.key) {edits : List (Edit K V)} {keys : List K}
    (hedits : ∀ edit ∈ edits, edit.key ∈ keys)
    (hforeign : ∀ key ∈ keys, ∀ stored ∈ m.keys, ¬ SameKey m.strategies.key stored key)
    (write next : ℕ) : ((m.replay write edits).eraseAll next keys).layout = m.layout := by
  have hm := h.written.regular hlawful
  obtain ⟨hvisited, hstrategies⟩ := hm.replay write edits
  -- the pruning to the entries without these keys carries the layout through the visit
  calc ((m.replay write edits).eraseAll next keys).layout
      = (m.replay write edits).prune (spares m.strategies.key keys) := by
        rw [hvisited.layout_eraseAll, hstrategies]
    _ = m.prune (spares m.strategies.key keys) := by
        refine hm.prune_replay write fun edit hedit ↦ ?_
        exact disregards_spares (hedits edit hedit)
    _ = m.layout := by
        refine prune_eq_layout hm.root fun entry hentry ↦ spares_eq_true_iff.mpr ?_
        intro key hkey
        exact hforeign key hkey entry.key (List.mem_map_of_mem hentry)

/-- Three entries at different depths. -/
def nestedWords : Map (Named WordRule) (Named IntegerRule) UInt32 Int32 :=
  (emptyUnder ⟨⟨.pairs, none⟩, ⟨.default, none⟩⟩).setAll 0 [(2, 1), (66, 2), (2050, 3)]

/-- Edits that make chains, fill slots and push an entry further down. -/
def guestEdits : List (Edit UInt32 Int32) :=
  [.set 3 10, .add 3 11, .set 4098 5, .set 67 12, .set 3 13, .set 10 14, .erase 67, .add 2051 1]

/-- The keys of these edits, in another order. -/
def guestKeys : List UInt32 := [67, 4098, 2051, 3, 10]

theorem layout_eraseAll_replay_nestedWords :
    nestedWords.nodes.length = 5 ∧ (nestedWords.replay 3 guestEdits).nodes.length = 8 ∧
      ((nestedWords.replay 3 guestEdits).eraseAll 20 guestKeys).layout = nestedWords.layout := by
  have h : nestedWords.Reachable := .setAll (.emptyUnder _) 0 _
  have hforeign : (guestKeys.all fun key ↦ nestedWords.keys.all fun stored ↦
      !decide (SameKey nestedWords.strategies.key stored key)) = true := by decide
  refine ⟨by decide, by decide, ?_⟩
  refine layout_eraseAll_replay h (.of_wordRule (by decide) none) (by decide) ?_ 3 20
  intro key hkey stored hstored
  have hne := List.all_eq_true.mp (List.all_eq_true.mp hforeign key hkey) stored hstored
  rwa [Bool.not_eq_true', decide_eq_false_iff_not] at hne

end Map

end RotaryTrie
