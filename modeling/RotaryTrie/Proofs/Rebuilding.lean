import Mathlib.Data.Finset.Card
import RotaryTrie.Proofs.Dictionary
import RotaryTrie.Proofs.Transfer

/-!
# Rebuilding under another key strategy

A map that gets another key strategy is built anew: its pairs are set in an empty map, in the order
of their enumeration. Where the new strategy takes two keys for the same, one of the pairs has to
go. Which one depends on the values as well as on the order, since a pair whose value is equal to
the stored one is not written.

## The pair that stays

A list of pairs *settles* a pair if it is one of the list and cannot be told, by its value, from the
last one of its class. Setting one pair more keeps this up, in each of the three cases: a pair of
another class is not concerned, a pair that is written is the last one itself, and a pair that is
not written has the value of the one that stays. It is not transitivity of the comparison of values
that carries this, for a last pair that is not written has been compared with the stored one
directly.

Nothing is assumed of the strategy that the map had before, as its pairs are only enumerated.
-/

set_option autoImplicit false

namespace RotaryTrie

variable {κ ν K V : Type} [KeyStrategy κ K] [ValueStrategy ν V]

/-- Among the pairs of a list, those with the same key as the given one. -/
def classmates (s : κ) (key : K) (pairs : List (K × V)) : List (K × V) :=
  pairs.filter fun pair ↦ SameKey s pair.1 key

/-- A pair is one of a list, and it is the last one of its class or has an equal value. -/
def Settles (strategies : Strategies κ ν) (pairs : List (K × V)) (entry : K × V) : Prop :=
  entry ∈ pairs ∧ ∃ last, (classmates strategies.key entry.1 pairs).getLast? = some last ∧
    (entry = last ∨ ValueStrategy.equals strategies.value entry.2 last.2 = true)

section Classmates

variable {s : κ} {key : K} {pairs : List (K × V)} {pair entry : K × V}

theorem classmates_concat_of_sameKey (pairs : List (K × V)) (h : SameKey s pair.1 key) :
    classmates s key (pairs ++ [pair]) = classmates s key pairs ++ [pair] := by
  rw [classmates, List.filter_append, List.filter_singleton, decide_eq_true h]
  rfl

theorem classmates_concat_of_not_sameKey (pairs : List (K × V)) (h : ¬ SameKey s pair.1 key) :
    classmates s key (pairs ++ [pair]) = classmates s key pairs := by
  rw [classmates, List.filter_append, List.filter_singleton, decide_eq_false h]
  exact List.append_nil _

theorem classmates_eq_nil (h : ∀ pair ∈ pairs, ¬ SameKey s pair.1 key) :
    classmates s key pairs = [] := by
  refine List.filter_eq_nil_iff.mpr fun pair hpair ↦ ?_
  rw [decide_eq_true_iff]
  exact h pair hpair

theorem classmates_congr (hlawful : LawfulKeys s) {other : K} (h : SameKey s key other)
    (pairs : List (K × V)) : classmates s key pairs = classmates s other pairs := by
  refine List.filter_congr fun pair _ ↦ decide_eq_decide.mpr ?_
  exact ⟨fun hpair ↦ hlawful.sameKey_trans hpair h,
    fun hpair ↦ hlawful.sameKey_trans hpair (hlawful.sameKey_symm h)⟩

theorem classmates_eq_singleton (hlawful : LawfulKeys s) (h : DistinctKeys s pairs)
    (hentry : entry ∈ pairs) (hkey : SameKey s entry.1 key) :
    classmates s key pairs = [entry] := by
  obtain ⟨front, rest, rfl⟩ := List.append_of_mem hentry
  rw [DistinctKeys, List.pairwise_middle fun hne hsame ↦ hne (hlawful.sameKey_symm hsame),
    List.pairwise_cons] at h
  have hother : ∀ pair ∈ front ++ rest, ¬ SameKey s pair.1 key := by
    intro pair hpair hsame
    exact h.1 pair hpair (hlawful.sameKey_trans hkey (hlawful.sameKey_symm hsame))
  rw [List.forall_mem_append] at hother
  rw [classmates, List.filter_append, List.filter_cons, decide_eq_true hkey, if_pos rfl]
  exact congrArg₂ (fun before after ↦ before ++ entry :: after)
    (classmates_eq_nil hother.1) (classmates_eq_nil hother.2)

end Classmates

namespace Settles

variable {strategies : Strategies κ ν} {pairs : List (K × V)} {pair entry : K × V}

theorem concat_self (hlawful : LawfulKeys strategies.key) (pairs : List (K × V))
    (pair : K × V) : Settles strategies (pairs ++ [pair]) pair := by
  refine ⟨List.mem_append_right _ List.mem_cons_self, pair, ?_, .inl rfl⟩
  rw [classmates_concat_of_sameKey pairs (hlawful.sameKey_refl pair.1), List.getLast?_concat]

theorem concat_of_not_sameKey (h : Settles strategies pairs entry)
    (hne : ¬ SameKey strategies.key pair.1 entry.1) :
    Settles strategies (pairs ++ [pair]) entry := by
  obtain ⟨hentry, last, hlast, hvalue⟩ := h
  refine ⟨List.mem_append_left _ hentry, last, ?_, hvalue⟩
  rw [classmates_concat_of_not_sameKey pairs hne, hlast]

theorem concat_of_equals (h : Settles strategies pairs entry)
    (hsame : SameKey strategies.key pair.1 entry.1)
    (hvalue : ValueStrategy.equals strategies.value entry.2 pair.2 = true) :
    Settles strategies (pairs ++ [pair]) entry := by
  refine ⟨List.mem_append_left _ h.1, pair, ?_, .inr hvalue⟩
  rw [classmates_concat_of_sameKey pairs hsame, List.getLast?_concat]

end Settles

namespace Map

variable {m made : Map κ ν K V} {pairs : List (K × V)}

/-! ## Setting one pair after the other -/

/-- What a setting does to the pairs of a regular map. -/
theorem Regular.set_cases (h : m.Regular) (write : ℕ) (key : K) (value : V) :
    (m.set write key value = m ∧ ∃ entry ∈ m.pairs, SameKey m.strategies.key entry.1 key ∧
        ValueStrategy.equals m.strategies.value entry.2 value = true) ∨
      ∀ entry, entry ∈ (m.set write key value).pairs ↔
        entry = (key, value) ∨ entry ∈ m.pairs ∧ ¬ SameKey m.strategies.key entry.1 key := by
  obtain ⟨result, hinsert, houtcome⟩ := h.exists_insert .overwrite write key value
  rw [set, hinsert]
  cases houtcome with
  | entered place_eq entered =>
    right
    exact fun entry ↦ h.mem_pairs_of_insert (.entered place_eq entered)
  | kept row_eq place_eq equals_eq =>
    left
    have hstored := (mem_leaves_of_rowFor_eq row_eq).1
    exact ⟨rfl, _, List.mem_map_of_mem hstored, h.sameKey_of_place row_eq place_eq, equals_eq⟩
  | replaced row_eq place_eq equals_eq root_eq replaced =>
    right
    exact fun entry ↦
      h.mem_pairs_of_insert (.replaced row_eq place_eq equals_eq root_eq replaced)

/-- A regular map holds one settled pair for every class of a list. -/
structure Summarizes (m : Map κ ν K V) (pairs : List (K × V)) : Prop where
  /-- The map is regular. -/
  regular : m.Regular
  /-- The pairs of the map are settled. -/
  settles : ∀ entry ∈ m.pairs, Settles m.strategies pairs entry
  /-- There is one for every pair of the list. -/
  covers : ∀ pair ∈ pairs, ∃ entry ∈ m.pairs, SameKey m.strategies.key entry.1 pair.1

theorem Summarizes.set (h : m.Summarizes pairs) (write : ℕ) (key : K) (value : V) :
    (m.set write key value).Summarizes (pairs ++ [(key, value)]) := by
  have hlawful := h.regular.lawful
  have hregular : (m.set write key value).Regular :=
    (h.regular.editOutcome write (.set key value)).regular h.regular
  rcases h.regular.set_cases write key value with ⟨hset, stored, hstored, hsame, hvalue⟩ | hmem
  · rw [hset]
    refine ⟨h.regular, fun entry hentry ↦ ?_, ?_⟩
    · by_cases hkey : SameKey m.strategies.key entry.1 key
      · -- there is no other pair of this class than the one compared
        obtain rfl : entry = stored := by
          have hfound := (h.regular.getEntry?_eq_some_iff key entry).mpr ⟨hentry, hkey⟩
          rw [(h.regular.getEntry?_eq_some_iff key stored).mpr ⟨hstored, hsame⟩] at hfound
          exact (Option.some_inj.mp hfound).symm
        exact (h.settles entry hentry).concat_of_equals (hlawful.sameKey_symm hkey) hvalue
      · refine (h.settles entry hentry).concat_of_not_sameKey fun hpair ↦ ?_
        exact hkey (hlawful.sameKey_symm hpair)
    · rw [List.forall_mem_append, List.forall_mem_singleton]
      exact ⟨h.covers, stored, hstored, hsame⟩
  · refine ⟨hregular, fun entry hentry ↦ ?_, ?_⟩
    · rw [strategies_set]
      rcases (hmem entry).mp hentry with rfl | ⟨hold, hne⟩
      · exact .concat_self hlawful pairs (key, value)
      · refine (h.settles entry hold).concat_of_not_sameKey fun hpair ↦ ?_
        exact hne (hlawful.sameKey_symm hpair)
    · rw [strategies_set, List.forall_mem_append, List.forall_mem_singleton]
      have hself : (key, value) ∈ (m.set write key value).pairs := (hmem _).mpr (.inl rfl)
      refine ⟨fun pair hpair ↦ ?_, (key, value), hself, hlawful.sameKey_refl key⟩
      obtain ⟨entry, hentry, hsame⟩ := h.covers pair hpair
      by_cases hkey : SameKey m.strategies.key entry.1 key
      · exact ⟨(key, value), hself,
          hlawful.sameKey_trans (hlawful.sameKey_symm hkey) hsame⟩
      · exact ⟨entry, (hmem entry).mpr (.inr ⟨hentry, hkey⟩), hsame⟩

theorem Summarizes.setAll {before : List (K × V)} (h : m.Summarizes before) (write : ℕ)
    (pairs : List (K × V)) : (m.setAll write pairs).Summarizes (before ++ pairs) := by
  induction pairs generalizing m before write with
  | nil =>
    rw [List.append_nil]
    exact h
  | cons pair pairs ih =>
    rw [List.append_cons]
    exact ih (h.set write pair.1 pair.2) (write + 1)

/-- The class of every pair of the list has one entry, and it is settled. -/
theorem Summarizes.exists_entry (h : m.Summarizes pairs) {pair : K × V} (hpair : pair ∈ pairs) :
    ∃ entry last, classmates m.strategies.key pair.1 m.pairs = [entry] ∧
      entry ∈ classmates m.strategies.key pair.1 pairs ∧
      (classmates m.strategies.key pair.1 pairs).getLast? = some last ∧
      (entry = last ∨ ValueStrategy.equals m.strategies.value entry.2 last.2 = true) := by
  have hlawful := h.regular.lawful
  obtain ⟨entry, hentry, hsame⟩ := h.covers pair hpair
  obtain ⟨hfrom, last, hlast, hvalue⟩ := h.settles entry hentry
  rw [classmates_congr hlawful hsame] at hlast
  have hentries := classmates_eq_singleton hlawful h.regular.distinctKeys hentry hsame
  exact ⟨entry, last, hentries, List.mem_filter.mpr ⟨hfrom, decide_eq_true hsame⟩, hlast, hvalue⟩

theorem summarizes_emptyUnder (strategies : Strategies κ ν) (h : LawfulKeys strategies.key) :
    (emptyUnder strategies : Map κ ν K V).Summarizes [] :=
  ⟨(Written.emptyUnder strategies).regular h, nofun, nofun⟩

omit [ValueStrategy ν V] in
theorem Regular.size_eq_card {s : κ} (h : m.Regular) (hs : m.strategies.key = s)
    (hlawful : LawfulKeys s) : m.size = (m.keys.map hlawful.classOf).toFinset.card := by
  subst hs
  have hnodup : (m.keys.map hlawful.classOf).Nodup := by
    rw [List.Nodup, List.pairwise_map, keys, List.pairwise_map]
    refine h.distinct.imp fun hne heq ↦ hne ?_
    exact hlawful.classOf_eq_iff.mp heq
  rw [List.toFinset_card_of_nodup hnodup, List.length_map, keys, List.length_map]
  exact h.size_eq_length

theorem Summarizes.size_eq {s : κ} (h : m.Summarizes pairs) (hs : m.strategies.key = s)
    (hlawful : LawfulKeys s) :
    m.size = (pairs.map fun pair ↦ hlawful.classOf pair.1).toFinset.card := by
  subst hs
  have hkeys : m.keys = m.pairs.map Prod.fst := by
    rw [keys, Map.pairs, List.map_map]
    rfl
  rw [h.regular.size_eq_card rfl hlawful, hkeys, List.map_map]
  congr 1
  ext c
  rw [List.mem_toFinset, List.mem_toFinset, List.mem_map, List.mem_map]
  constructor
  · rintro ⟨entry, hentry, rfl⟩
    exact ⟨entry, (h.settles entry hentry).1, rfl⟩
  · rintro ⟨pair, hpair, rfl⟩
    obtain ⟨entry, hentry, hsame⟩ := h.covers pair hpair
    exact ⟨entry, hentry, hlawful.classOf_eq_iff.mpr hsame⟩

/-! ## Rebuilding -/

/-- A map holds the contents of another one as far as its own key strategy tells them apart. -/
structure Rebuilds {strategies : Strategies κ ν} (hlawful : LawfulKeys strategies.key)
    (m made : Map κ ν K V) : Prop where
  /-- The strategies are those asked for. -/
  strategies_eq : made.strategies = strategies
  /-- There are as many entries as classes of keys. -/
  size_eq : made.size = (m.keys.map hlawful.classOf).toFinset.card
  /-- All pairs are from the other map. -/
  subset : made.pairs ⊆ m.pairs
  /-- For every key there is one entry of its class. It is the last one that the other map
  enumerates, or one with an equal value. -/
  exists_entry : ∀ key ∈ m.keys, ∃ entry last, classmates strategies.key key made.pairs = [entry] ∧
    entry ∈ classmates strategies.key key m.pairs ∧
    (classmates strategies.key key m.pairs).getLast? = some last ∧
    (entry = last ∨ ValueStrategy.equals strategies.value entry.2 last.2 = true)
  /-- If no keys are merged, all pairs are there, those of one hash in the order in which the other
  map enumerates them. -/
  of_distinctKeys : DistinctKeys strategies.key m.pairs → made.pairs.Perm m.pairs ∧
    ∀ hash, made.table.rows hash
      = m.pairs.filter fun pair ↦ KeyStrategy.hash strategies.key pair.1 == hash

/-- **Rebuilding.** Under another key strategy, if it is lawful, a map is rebuilt from its pairs,
whatever strategy it had before. -/
theorem rebuilds_withStrategies [DecidableEq κ] (m : Map κ ν K V) {strategies : Strategies κ ν}
    (hlawful : LawfulKeys strategies.key) (hkey : m.strategies.key ≠ strategies.key) (write : ℕ) :
    m.Rebuilds hlawful (m.withStrategies write strategies) := by
  have hmade : m.withStrategies write strategies
      = (emptyUnder strategies).setAll write m.pairs := by
    rw [withStrategies, if_neg hkey]
  have hsummary : (m.withStrategies write strategies).Summarizes m.pairs := by
    rw [hmade]
    exact (summarizes_emptyUnder strategies hlawful).setAll write m.pairs
  have hstrategies := m.strategies_withStrategies write strategies
  generalize m.withStrategies write strategies = made at hmade hsummary hstrategies
  refine ⟨hstrategies, ?_, fun entry hentry ↦ (hsummary.settles entry hentry).1, ?_, ?_⟩
  · rw [hsummary.size_eq (congrArg Strategies.key hstrategies) hlawful, keys, pairs, List.map_map,
      List.map_map]
    rfl
  · intro key hmem
    obtain ⟨leaf, hleaf, rfl⟩ := List.mem_map.mp hmem
    have hentry := hsummary.exists_entry (List.mem_map_of_mem hleaf : leaf.pair ∈ m.pairs)
    rw [hstrategies] at hentry
    exact hentry
  · intro hdistinct
    replace hdistinct : DistinctKeys strategies.key ([] ++ m.pairs) := hdistinct
    have htable : made.table = Table.ofPairs made.strategies m.pairs := by
      rw [hstrategies, hmade, (Written.emptyUnder strategies).table_setAll,
        table_of_root_eq_none rfl]
      exact Table.setAll_ofPairs hlawful hdistinct
    refine ⟨hsummary.regular.perm_of_table_eq_ofPairs htable, fun hash ↦ ?_⟩
    rw [htable, hstrategies]
    rfl

/-- Keys that are merged modulo ten, some with values that compare as equal by tens. -/
def scattered : Map (Named WordRule) (Named IntegerRule) UInt32 Int32 :=
  (emptyUnder ⟨⟨.identity, none⟩, ⟨.default, none⟩⟩).setAll 0
    [(2, 10), (12, 17), (22, 31), (1034, 5), (4, 6), (9, 7)]

theorem rebuilds_scattered :
    (scattered.withStrategies 6 decimal).size = 3 ∧
      (scattered.withStrategies 6 decimal).get? 32 = some 31 ∧
      (scattered.withStrategies 6 decimal).getKey? 14 = some 4 ∧
      scattered.Rebuilds lawful_decimal (scattered.withStrategies 6 decimal) :=
  ⟨by decide, by decide, by decide, scattered.rebuilds_withStrategies lawful_decimal (by decide) 6⟩

/-! ## The key strategy alone -/

section Rekeyed

variable [DecidableEq κ] (m : Map κ ν K V) (write : ℕ)

/-- Where only the key strategy is given, the value strategy stays. -/
theorem withKeyStrategy_eq_withStrategies (key : κ) :
    m.withKeyStrategy write key = m.withStrategies write ⟨key, m.strategies.value⟩ := rfl

theorem strategies_withKeyStrategy (key : κ) :
    (m.withKeyStrategy write key).strategies = ⟨key, m.strategies.value⟩ :=
  m.strategies_withStrategies write _

theorem withKeyStrategy_self : m.withKeyStrategy write m.strategies.key = m := by
  rw [withKeyStrategy_eq_withStrategies, withStrategies, if_pos rfl]

theorem rebuilds_withKeyStrategy {strategies : Strategies κ ν}
    (hvalue : strategies.value = m.strategies.value) (hlawful : LawfulKeys strategies.key)
    (hkey : m.strategies.key ≠ strategies.key) :
    m.Rebuilds hlawful (m.withKeyStrategy write strategies.key) := by
  rw [withKeyStrategy_eq_withStrategies, ← hvalue]
  exact m.rebuilds_withStrategies hlawful hkey write

end Rekeyed

end Map

end RotaryTrie
