import Mathlib.Data.List.Pairwise
import RotaryTrie.Proofs.Contents
import RotaryTrie.Proofs.Effects
import RotaryTrie.Proofs.Visit

/-!
# Edits in any order

Runs of edits that differ in their order go through different tries. Still they come to the same
layout if they bring no new keys and do not meet at a key: the first because the layout of a trie
depends on the order in which keys entered, and the second because the last edit of a key wins.

As for erasures alone, the reason is that the layout at the end can be told without any order.
`Map.foreseen` prunes the trie to the entries that are not erased and revises the contents of
those that are set. An edit that is one of the run does not change what is foreseen, because a
replacement keeps the shape and a dropped entry is not kept anyway. Once all edits are carried out
there is nothing left to prune or to revise.
-/

set_option autoImplicit false

namespace RotaryTrie

open Bucket

variable {κ ν K V : Type} [KeyStrategy κ K]

theorem spares_congr {s : κ} (hlawful : LawfulKeys s) {a b : Leaf K V}
    (h : SameKey s a.key b.key) (keys : List K) : spares s keys a = spares s keys b := by
  rw [Bool.eq_iff_iff, spares_eq_true_iff, spares_eq_true_iff]
  refine forall₂_congr fun key _ ↦ not_congr ⟨fun ha ↦ ?_, fun hb ↦ ?_⟩
  · exact hlawful.sameKey_trans (hlawful.sameKey_symm h) ha
  · exact hlawful.sameKey_trans h hb

theorem spares_perm {s : κ} {keys keys' : List K} (h : keys.Perm keys') :
    (spares s keys : Leaf K V → Bool) = spares s keys' := by
  funext entry
  exact h.all_eq

/-! ## Edits that do not meet at a key -/

/-- The key that an edit erases. -/
def Edit.erased? {K V : Type} : Edit K V → Option K
  | .erase key => some key
  | _ => none

theorem Edit.key_of_erased? {K V : Type} (edit : Edit K V) {key : K}
    (h : edit.erased? = some key) : key = edit.key := by
  cases edit with
  | add => simp [erased?] at h
  | set => simp [erased?] at h
  | erase => exact (Option.some_inj.mp h).symm

/-- No two of the edits have the same key. -/
def KeysApart (s : κ) (edits : List (Edit K V)) : Prop :=
  edits.Pairwise fun a b ↦ ¬ SameKey s a.key b.key

instance (s : κ) (edits : List (Edit K V)) : Decidable (KeysApart s edits) :=
  inferInstanceAs (Decidable (edits.Pairwise _))

namespace KeysApart

variable {s : κ} {edits : List (Edit K V)} {a b : Edit K V}

theorem eq_of_sameKey (h : KeysApart s edits) (hlawful : LawfulKeys s) (ha : a ∈ edits)
    (hb : b ∈ edits) (hsame : SameKey s a.key b.key) : a = b := by
  have : Std.Symm fun a b : Edit K V ↦ ¬ SameKey s a.key b.key :=
    ⟨fun _ _ hne hsame ↦ hne (hlawful.sameKey_symm hsame)⟩
  by_contra hne
  exact List.Pairwise.forall h ha hb hne hsame

theorem perm {edits' : List (Edit K V)} (h : KeysApart s edits) (hlawful : LawfulKeys s)
    (hperm : edits.Perm edits') : KeysApart s edits' :=
  hperm.pairwise h fun hne hsame ↦ hne (hlawful.sameKey_symm hsame)

end KeysApart

/-! ## Edits that are confined to a map -/

namespace Map

variable {m made : Map κ ν K V} {edit : Edit K V}

/-- The edit erases a key, or sets the value of one that is there. -/
def Confined (m : Map κ ν K V) : Edit K V → Prop
  | .add _ _ => False
  | .set key _ => m.containsKey key = true
  | .erase _ => True

instance : Decidable (m.Confined edit) :=
  match edit with
  | .add _ _ => inferInstanceAs (Decidable False)
  | .set key _ => inferInstanceAs (Decidable (m.containsKey key = true))
  | .erase _ => inferInstanceAs (Decidable True)

theorem Confined.congr (h : m.Confined edit) (hfind : made.find? edit.key = m.find? edit.key) :
    made.Confined edit := by
  cases edit with
  | add => exact h
  | set key value =>
    rw [Edit.key] at hfind
    rw [Confined, containsKey] at h ⊢
    rwa [hfind]
  | erase => trivial

theorem Confined.find?_ne_none (h : m.Confined edit) {key : K} {value : V}
    (hpair : edit.pair? = some (key, value)) : m.find? key ≠ none := by
  cases edit with
  | add => exact h.elim
  | set =>
    obtain ⟨rfl, rfl⟩ := Prod.mk.inj (Option.some_inj.mp hpair)
    intro hfind
    simp [Confined, containsKey, hfind] at h
  | erase => simp [Edit.pair?] at hpair

end Map

/-! ## Revisions -/

variable [ValueStrategy ν V]

/-- The contents that an edit leaves to an entry with its key, unless it erases it. -/
def Edit.revise (strategies : Strategies κ ν) : Edit K V → Content K V → Content K V
  | .set key value, stored =>
    if ValueStrategy.equals strategies.value stored.value value then stored
    else ⟨KeyStrategy.hash strategies.key key, key, value⟩
  | _, stored => stored

/-- The contents that edits of different keys leave to an entry, unless they erase it. -/
def reviseAll (strategies : Strategies κ ν) (edits : List (Edit K V)) (stored : Content K V) :
    Content K V :=
  (edits.find? fun edit ↦ decide (SameKey strategies.key stored.key edit.key)).elim stored
    fun edit ↦ edit.revise strategies stored

section Revise

variable {strategies : Strategies κ ν} {edits edits' : List (Edit K V)} {stored : Content K V}

theorem reviseAll_eq_self
    (h : ∀ edit ∈ edits, ¬ SameKey strategies.key stored.key edit.key) :
    reviseAll strategies edits stored = stored := by
  rw [reviseAll, List.find?_eq_none.mpr (by simpa using h)]
  rfl

theorem reviseAll_eq_of_mem (hlawful : LawfulKeys strategies.key)
    (hapart : KeysApart strategies.key edits) {edit : Edit K V} (hedit : edit ∈ edits)
    (hsame : SameKey strategies.key stored.key edit.key) :
    reviseAll strategies edits stored = edit.revise strategies stored := by
  rw [reviseAll]
  cases hfind : edits.find? fun edit ↦ decide (SameKey strategies.key stored.key edit.key) with
  | none => simpa [hsame] using List.find?_eq_none.mp hfind edit hedit
  | some other =>
    -- the edit found has the same key, and there is no other one with it
    have hother : SameKey strategies.key stored.key other.key := by
      simpa using List.find?_some hfind
    rw [hapart.eq_of_sameKey hlawful (List.mem_of_find?_eq_some hfind) hedit
      (hlawful.sameKey_trans (hlawful.sameKey_symm hother) hsame)]
    rfl

theorem reviseAll_perm (hlawful : LawfulKeys strategies.key)
    (hapart : KeysApart strategies.key edits) (hperm : edits.Perm edits') :
    reviseAll strategies edits = reviseAll strategies edits' := by
  funext stored
  by_cases h : ∃ edit ∈ edits, SameKey strategies.key stored.key edit.key
  · obtain ⟨edit, hedit, hsame⟩ := h
    rw [reviseAll_eq_of_mem hlawful hapart hedit hsame,
      reviseAll_eq_of_mem hlawful (hapart.perm hlawful hperm) (hperm.mem_iff.mp hedit) hsame]
  · push Not at h
    rw [reviseAll_eq_self h, reviseAll_eq_self]
    intro edit hedit
    exact h edit (hperm.mem_iff.mpr hedit)

end Revise

namespace Map

variable {m made : Map κ ν K V} {write : ℕ} {edit : Edit K V} {edits todo : List (Edit K V)}

/-! ## What is foreseen -/

/-- The layout of what edits of different keys leave of a map's trie, in whatever order. -/
def foreseen (m : Map κ ν K V) (edits : List (Edit K V)) : Option (Layout K V) :=
  (m.prune (spares m.strategies.key (edits.filterMap Edit.erased?))).map
    (Layout.map (reviseAll m.strategies edits))

theorem foreseen_perm {edits' : List (Edit K V)} (hlawful : LawfulKeys m.strategies.key)
    (hapart : KeysApart m.strategies.key edits) (hperm : edits.Perm edits') :
    m.foreseen edits = m.foreseen edits' := by
  rw [foreseen, foreseen, reviseAll_perm hlawful hapart hperm,
    spares_perm (hperm.filterMap Edit.erased?)]

/-- There is nothing left for the edit to change. -/
def Settled (m : Map κ ν K V) (edit : Edit K V) : Prop :=
  ∀ entry, m.find? edit.key = some entry →
    edit.erased? = none ∧ edit.revise m.strategies entry.content = entry.content

/-- An edit of one key does not change what is found for another one. -/
theorem Regular.find?_edited (h : m.Regular) (write : ℕ) {key : K}
    (hne : ¬ SameKey m.strategies.key key edit.key) :
    (m.edited write edit).find? key = m.find? key := by
  have houtcome := h.editOutcome write edit
  generalize m.edited write edit = made at houtcome
  have hmade := houtcome.regular h
  ext entry
  rw [hmade.find?_eq_some_iff, h.find?_eq_some_iff, houtcome.strategies_eq]
  refine and_congr_left fun hsame ↦ ?_
  have hentry : ¬ SameKey m.strategies.key entry.key edit.key := fun hsame' ↦
    hne (h.lawful.sameKey_trans (h.lawful.sameKey_symm hsame) hsame')
  cases houtcome with
  | unchanged => rfl
  | @inserted _ value _ outcome =>
    rw [leaves_of_root_eq rfl, h.mem_leaves_of_insert outcome, and_iff_left hentry, or_iff_right]
    rintro rfl
    exact hentry (h.lawful.sameKey_refl _)
  | erased outcome => rw [h.mem_leaves_of_erase outcome, and_iff_left hentry]

theorem Settled.congr (h : m.Settled edit) (hfind : made.find? edit.key = m.find? edit.key)
    (hstrategies : made.strategies = m.strategies) : made.Settled edit := by
  intro entry hentry
  rw [hfind] at hentry
  rw [hstrategies]
  exact h entry hentry

/-! ## One edit -/

theorem Confined.editEffect (h : m.Confined edit) (hm : m.Sound) (write : ℕ) :
    EditEffect m write edit (m.edited write edit) := by
  refine hm.editEffect ?_
  cases edit with
  | add => exact h.elim
  | set => rfl
  | erase => rfl

theorem revise_entryOf (m : Map κ ν K V) (write : ℕ) (key : K) (value : V) :
    Edit.revise m.strategies (.set key value) (m.entryOf write key value).content
      = (m.entryOf write key value).content := by
  rw [Edit.revise]
  split
  · rfl
  · rfl

/-- Carrying out an edit settles it. -/
theorem EditEffect.settled (heffect : EditEffect m write edit made) (h : m.Regular)
    (hmade : made.Regular) (hconfined : m.Confined edit) : made.Settled edit := by
  intro entry hentry
  cases heffect with
  | kept pair?_eq find?_eq equals_eq =>
    cases edit with
    | add => exact hconfined.elim
    | set =>
      obtain ⟨rfl, rfl⟩ := Prod.mk.inj (Option.some_inj.mp pair?_eq)
      rw [Option.some_inj.mp (find?_eq.symm.trans hentry)] at equals_eq
      exact ⟨rfl, if_pos equals_eq⟩
    | erase => simp [Edit.pair?] at pair?_eq
  | entered pair?_eq find?_eq => exact absurd find?_eq (hconfined.find?_ne_none pair?_eq)
  | @replaced key value _ _ _ _ new find?_eq equals_eq _ root_eq replaced =>
    -- the entry of the edit is there, and no other one has the key
    obtain ⟨-, l₁, l₂, -, hnew, -⟩ := replaced.exists_leaves (h.root _ root_eq)
    have hmem : m.entryOf write key value ∈ new.leaves := by
      rw [hnew]
      exact List.mem_append_right _ List.mem_cons_self
    have hfind := (hmade.find?_eq_some_iff key _).mpr ⟨hmem, h.lawful.sameKey_refl key⟩
    rw [Option.some_inj.mp (hentry.symm.trans hfind)]
    exact ⟨rfl, m.revise_entryOf write key value⟩
  | missing find?_eq => simp [Edit.key, find?_eq] at hentry
  | dropped find?_eq _ dropped =>
    obtain ⟨l₁, l₂, hleaves, hrest, -⟩ := dropped.exists_leaves h.root
    have hsame := ((h.find?_eq_some_iff _ _).mp find?_eq).2
    obtain ⟨hmem, hsame'⟩ := (hmade.find?_eq_some_iff _ _).mp hentry
    rw [hrest] at hmem
    exact absurd hsame' (h.not_sameKey_of_leaves_eq hleaves hsame entry hmem)

/-- An edit does not change what is foreseen for a run that it belongs to. -/
theorem EditEffect.foreseen_eq (heffect : EditEffect m write edit made) (h : m.Regular)
    (hconfined : m.Confined edit) (hedit : edit ∈ edits)
    (hapart : KeysApart m.strategies.key edits) : made.foreseen edits = m.foreseen edits := by
  cases heffect with
  | kept => rfl
  | missing => rfl
  | entered pair?_eq find?_eq => exact absurd find?_eq (hconfined.find?_ne_none pair?_eq)
  | @replaced key value stored _ _ _ _ find?_eq equals_eq _ root_eq replaced =>
    have hsame := ((h.find?_eq_some_iff _ _).mp find?_eq).2
    have hself := h.lawful.sameKey_refl key
    have hcontent : reviseAll m.strategies edits stored.content
        = reviseAll m.strategies edits (m.entryOf write key value).content := by
      rw [reviseAll_eq_of_mem h.lawful hapart hedit hsame,
        reviseAll_eq_of_mem h.lawful hapart hedit hself, revise_entryOf]
      exact if_neg (Bool.eq_false_iff.mp equals_eq)
    rw [foreseen, foreseen, prune, prune, root_eq]
    exact replaced.map_prune_eq (spares_congr h.lawful hsame _) hcontent
  | @dropped key _ _ _ _ find?_eq _ dropped =>
    have hsame := ((h.find?_eq_some_iff _ _).mp find?_eq).2
    have hkey : key ∈ edits.filterMap Edit.erased? := List.mem_filterMap.mpr ⟨_, hedit, rfl⟩
    rw [foreseen, foreseen, dropped.prune_eq (disregards_spares hkey _ hsame)]

/-! ## Runs of edits -/

/-- Some of the edits are still to be carried out, and the others are settled. -/
structure Underway (edits todo : List (Edit K V)) (m : Map κ ν K V) : Prop extends Regular m where
  /-- The edits do not meet at a key. -/
  apart : KeysApart m.strategies.key edits
  /-- The edits to be carried out come last. -/
  suffix : todo <:+ edits
  /-- The edits to be carried out bring no new keys. -/
  confined : ∀ edit ∈ todo, m.Confined edit
  /-- The other edits are settled. -/
  settled : ∀ edit ∈ edits, edit ∈ todo ∨ m.Settled edit

/-- One edit more is carried out. -/
theorem Underway.step (h : Underway edits (edit :: todo) m) (write : ℕ) :
    Underway edits todo (m.edited write edit) ∧
      (m.edited write edit).foreseen edits = m.foreseen edits := by
  have hconfined := h.confined edit List.mem_cons_self
  have hedit : edit ∈ edits := h.suffix.subset List.mem_cons_self
  have heffect := hconfined.editEffect h.toSound write
  have houtcome := h.editOutcome write edit
  have hmade := houtcome.regular h.toRegular
  have hstrategies := houtcome.strategies_eq
  have hsettled := heffect.settled h.toRegular hmade hconfined
  refine ⟨⟨hmade, ?_, ?_, ?_, ?_⟩, heffect.foreseen_eq h.toRegular hconfined hedit h.apart⟩
  · rw [hstrategies]
    exact h.apart
  · exact (List.suffix_cons edit todo).trans h.suffix
  · intro other hother
    have hapart := h.apart.sublist h.suffix.sublist
    have hne := List.rel_of_pairwise_cons hapart hother
    refine (h.confined other (List.mem_cons_of_mem _ hother)).congr (h.find?_edited write ?_)
    exact fun hsame ↦ hne (h.lawful.sameKey_symm hsame)
  · intro other hother
    -- an edit of the same key is this one, and what any other one finds is still there
    by_cases hsame : SameKey m.strategies.key other.key edit.key
    · rw [h.apart.eq_of_sameKey h.lawful hother hedit hsame]
      exact .inr hsettled
    · rcases h.settled other hother with hmem | hother
      · rcases List.mem_cons.mp hmem with rfl | hmem
        · exact .inr hsettled
        · exact .inl hmem
      · exact .inr (hother.congr (h.find?_edited write hsame) hstrategies)

/-- When all edits are carried out, the layout is the one that was foreseen. -/
theorem Underway.layout_replay (h : Underway edits todo m) (write : ℕ) :
    (m.replay write todo).layout = m.foreseen edits := by
  induction todo generalizing m write with
  | cons edit todo ih =>
    obtain ⟨hmade, hforeseen⟩ := h.step write
    rw [← hforeseen]
    exact ih hmade (write + 1)
  | nil =>
    have hsettled : ∀ edit ∈ edits, m.Settled edit := by simpa using h.settled
    have hfind : ∀ entry ∈ m.leaves, ∀ edit : Edit K V,
        SameKey m.strategies.key entry.key edit.key → m.find? edit.key = some entry := by
      intro entry hentry edit hsame
      exact (h.find?_eq_some_iff _ _).mpr ⟨hentry, hsame⟩
    have hspared : ∀ entry ∈ m.leaves,
        spares m.strategies.key (edits.filterMap Edit.erased?) entry = true := by
      intro entry hentry
      rw [spares_eq_true_iff]
      intro key hkey hsame
      obtain ⟨edit, hedit, herased⟩ := List.mem_filterMap.mp hkey
      rw [edit.key_of_erased? herased] at hsame
      rw [(hsettled edit hedit entry (hfind entry hentry edit hsame)).1] at herased
      exact absurd herased nofun
    have hrevised : ∀ entry ∈ m.leaves,
        reviseAll m.strategies edits entry.content = entry.content := by
      intro entry hentry
      by_cases hsame : ∃ edit ∈ edits, SameKey m.strategies.key entry.key edit.key
      · obtain ⟨edit, hedit, hsame⟩ := hsame
        rw [reviseAll_eq_of_mem h.lawful h.apart hedit hsame]
        exact (hsettled edit hedit entry (hfind entry hentry edit hsame)).2
      · push Not at hsame
        exact reviseAll_eq_self hsame
    rw [replay, foreseen, prune_eq_layout h.root hspared]
    exact (map_layout_eq_self h.root hrevised).symm

/-- The layout after edits that are confined to the keys of a map and do not meet. -/
theorem Regular.layout_replay (h : m.Regular) (write : ℕ)
    (hconfined : ∀ edit ∈ edits, m.Confined edit) (hapart : KeysApart m.strategies.key edits) :
    (m.replay write edits).layout = m.foreseen edits := by
  have hunderway : Underway edits edits m :=
    ⟨h, hapart, List.suffix_refl edits, hconfined, fun _ hedit ↦ .inl hedit⟩
  exact hunderway.layout_replay write

/-- **Order does not matter.** Erasures of any keys in two orders, and edits that are confined to
the keys of a map and do not meet, lead to the same layout. -/
theorem Reachable.layout_perm [DecidableEq κ] (h : m.Reachable)
    (hlawful : LawfulKeys m.strategies.key) (write next : ℕ) :
    (∀ keys keys' : List K, keys.Perm keys' →
      (m.eraseAll write keys).layout = (m.eraseAll next keys').layout) ∧
    ∀ edits edits' : List (Edit K V), edits.Perm edits' → (∀ edit ∈ edits, m.Confined edit) →
      KeysApart m.strategies.key edits →
      (m.replay write edits).layout = (m.replay next edits').layout := by
  have hm := h.written.regular hlawful
  constructor
  · intro keys keys' hperm
    rw [hm.layout_eraseAll, hm.layout_eraseAll, spares_perm hperm]
  · intro edits edits' hperm hconfined hapart
    have hconfined' : ∀ edit ∈ edits', m.Confined edit := by
      intro edit hedit
      exact hconfined edit (hperm.mem_iff.mpr hedit)
    rw [hm.layout_replay write hconfined hapart,
      hm.layout_replay next hconfined' (hapart.perm hlawful hperm),
      foreseen_perm hlawful hapart hperm]

/-- Five entries under two nodes, two of them in a chain. -/
def settledWords : Map (Named WordRule) (Named IntegerRule) UInt32 Int32 :=
  (emptyUnder ⟨⟨.pairs, none⟩, ⟨.tens, none⟩⟩).setAll 0
    [(2, 10), (66, 20), (3, 30), (8, 40), (2050, 50)]

/-- Edits that collapse a node and shrink a chain, set a value to another one, and set a value to
an equal one. -/
def confinedEdits : List (Edit UInt32 Int32) :=
  [.set 3 70, .erase 2050, .erase 5, .erase 2, .set 66 25]

theorem layout_perm_settledWords :
    settledWords.pairs = [(2, 10), (3, 30), (2050, 50), (8, 40), (66, 20)] ∧
      (settledWords.eraseAll 5 [66, 3, 66, 9]).pairs = [(2, 10), (2050, 50), (8, 40)] ∧
      (settledWords.replay 5 confinedEdits).pairs = [(3, 70), (8, 40), (66, 20)] ∧
      (settledWords.eraseAll 5 [66, 3, 66, 9]).layout
        = (settledWords.eraseAll 20 [9, 66, 66, 3]).layout ∧
      (settledWords.replay 5 confinedEdits).layout
        = (settledWords.replay 20 confinedEdits.reverse).layout := by
  have h : settledWords.Reachable := .setAll (.emptyUnder _) 0 _
  obtain ⟨herasures, hedits⟩ := h.layout_perm (.of_wordRule (by decide) none) 5 20
  refine ⟨by decide, by decide, by decide, herasures _ _ (by decide), ?_⟩
  exact hedits _ _ (List.reverse_perm _).symm (by decide) (by decide)

end Map

end RotaryTrie
