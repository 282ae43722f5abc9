import Mathlib.Data.Finmap
import RotaryTrie.Catalog.Words
import RotaryTrie.Proofs.Lawful

/-!
# A map as a dictionary

Under a lawful comparison of keys a map is a finite partial function on the classes of keys, which
holds a stored key and a value for each class. `Dictionary` is that function, with the edits one
expects of it, and `Map.replay_mirrors` says that a map and a dictionary that undergo the same edits
stay in agreement, and refuse the same additions.

The agreement is kept up as `Map.Holds`, which only speaks of members; that a class is enumerated
once and that sizes agree is then a matter of the entries being distinct.
-/

set_option autoImplicit false

namespace RotaryTrie

variable {κ ν K V : Type} [KeyStrategy κ K]

/-- The class of a key. -/
def LawfulKeys.classOf {s : κ} (h : LawfulKeys s) (key : K) : Quotient h.setoid :=
  Quotient.mk h.setoid key

theorem LawfulKeys.classOf_eq_iff {s : κ} (h : LawfulKeys s) {a b : K} :
    h.classOf a = h.classOf b ↔ SameKey s a b :=
  Quotient.eq

instance {s : κ} (h : LawfulKeys s) : DecidableEq (Quotient h.setoid) :=
  @Quotient.decidableEq K h.setoid fun a b ↦ inferInstanceAs (Decidable (SameKey s a b))

/-- A stored key and a value for each of finitely many classes of keys. -/
abbrev Dictionary {s : κ} (h : LawfulKeys s) (V : Type) : Type :=
  Finmap fun _ : Quotient h.setoid ↦ K × V

namespace Dictionary

variable [ValueStrategy ν V] {s : κ} {h : LawfulKeys s}

/-- Carries out an edit, under the given comparison of values. A class that is present with an
equal value is left alone, and one with a different value can be set and not added. -/
def edit (values : ν) (d : Dictionary h V) : Edit K V → Except MapError (Dictionary h V)
  | .add key value =>
    match d.lookup (h.classOf key) with
    | none => .ok (d.insert (h.classOf key) (key, value))
    | some stored =>
      if ValueStrategy.equals values stored.2 value then .ok d else .error .duplicateKey
  | .set key value =>
    match d.lookup (h.classOf key) with
    | none => .ok (d.insert (h.classOf key) (key, value))
    | some stored =>
      if ValueStrategy.equals values stored.2 value then .ok d
      else .ok (d.insert (h.classOf key) (key, value))
  | .erase key => .ok (d.erase (h.classOf key))

/-- The dictionary after edits one after the other. One that fails is skipped. -/
def replay (values : ν) (d : Dictionary h V) : List (Edit K V) → Dictionary h V
  | [] => d
  | edit :: edits =>
    match d.edit values edit with
    | .ok made => made.replay values edits
    | .error _ => d.replay values edits

end Dictionary

namespace Map

/-! ## Agreement -/

section Agreement

variable {s : κ} {h : LawfulKeys s}

/-- What the queries on a map and its enumeration have to do with a dictionary. -/
structure Mirrors (m : Map κ ν K V) (d : Dictionary h V) : Prop where
  /-- The entry that a key belongs to is that of its class. -/
  answers : ∀ key, m.Answers key (d.lookup (h.classOf key))
  /-- It is the one that is enumerated under the same key. -/
  getEntry?_eq_some_iff : ∀ key entry,
    m.getEntry? key = some entry ↔ entry ∈ m.pairs ∧ SameKey s entry.1 key
  /-- The entry of each class is enumerated once, and nothing else. -/
  entries_eq : (Multiset.ofList m.pairs).map (fun entry ↦ ⟨h.classOf entry.1, entry⟩) = d.entries
  /-- No two stored keys are the same. -/
  distinct : m.pairs.Pairwise fun a b ↦ ¬ SameKey s a.1 b.1
  /-- The size is the number of classes. -/
  size_eq : m.size = d.keys.card
  /-- A map is empty if its size is zero. -/
  isEmpty_iff : m.isEmpty = true ↔ m.size = 0

/-- The map is regular, and its entries are those of the dictionary, each under the class of its
key. -/
structure Holds (m : Map κ ν K V) (d : Dictionary h V) : Prop where
  /-- The map is regular. -/
  regular : m.Regular
  /-- The dictionary goes by the map's classes of keys. -/
  strategy_eq : m.strategies.key = s
  /-- The entries are the same. -/
  lookup_eq_some_iff : ∀ c entry,
    d.lookup c = some entry ↔ entry ∈ m.pairs ∧ h.classOf entry.1 = c

variable {m : Map κ ν K V} {d : Dictionary h V}

theorem Regular.getEntry?_eq_some_iff (hm : m.Regular) (key : K) (entry : K × V) :
    m.getEntry? key = some entry ↔ entry ∈ m.pairs ∧ SameKey m.strategies.key entry.1 key := by
  rw [pairs, List.mem_map, getEntry?, Option.map_eq_some_iff]
  constructor
  · rintro ⟨stored, hstored, rfl⟩
    have hmem := (hm.find?_eq_some_iff key stored).mp hstored
    exact ⟨⟨stored, hmem.1, rfl⟩, hmem.2⟩
  · rintro ⟨⟨stored, hstored, rfl⟩, hsame⟩
    exact ⟨stored, (hm.find?_eq_some_iff key stored).mpr ⟨hstored, hsame⟩, rfl⟩

/-- A value is in a regular map exactly if it is there under some key. -/
theorem Regular.containsValue_iff_exists_contains [ValueStrategy ν V] (hm : m.Regular)
    (value : V) : m.containsValue value = true ↔ ∃ key, m.contains key value = true := by
  rw [containsValue_eq_true_iff]
  constructor
  · rintro ⟨entry, hentry, hequals⟩
    have hfound : m.getEntry? entry.1 = some entry :=
      (hm.getEntry?_eq_some_iff _ _).mpr ⟨hentry, hm.lawful.sameKey_refl entry.1⟩
    exact ⟨entry.1, (m.contains_eq_true_iff _ _).mpr ⟨entry, hfound, hequals⟩⟩
  · rintro ⟨key, hkey⟩
    obtain ⟨entry, hfound, hequals⟩ := (m.contains_eq_true_iff key value).mp hkey
    exact ⟨entry, ((hm.getEntry?_eq_some_iff key entry).mp hfound).1, hequals⟩

theorem Holds.getEntry?_eq (hd : m.Holds d) (key : K) :
    m.getEntry? key = d.lookup (h.classOf key) := by
  refine Option.ext fun entry ↦ ?_
  rw [hd.regular.getEntry?_eq_some_iff, hd.lookup_eq_some_iff, h.classOf_eq_iff, hd.strategy_eq]

theorem Holds.mirrors (hd : m.Holds d) : m.Mirrors d := by
  have hdistinct : m.pairs.Pairwise fun a b ↦ ¬ SameKey s a.1 b.1 := by
    rw [pairs, List.pairwise_map, ← hd.strategy_eq]
    exact hd.regular.distinct
  have hentries : (Multiset.ofList m.pairs).map (fun entry ↦ ⟨h.classOf entry.1, entry⟩)
      = d.entries := by
    -- neither side has duplicates, so it is enough to compare members
    refine (Multiset.Nodup.ext ?_ d.nodup_entries).mpr fun member ↦ ?_
    · rw [Multiset.map_coe, Multiset.coe_nodup, List.Nodup, List.pairwise_map]
      refine hdistinct.imp fun hne heq ↦ hne ?_
      exact h.classOf_eq_iff.mp (congrArg Sigma.fst heq)
    · obtain ⟨c, entry⟩ := member
      rw [← Finmap.lookup_eq_some_iff, hd.lookup_eq_some_iff, Multiset.mem_map]
      constructor
      · rintro ⟨other, hother, heq⟩
        cases heq
        exact ⟨hother, rfl⟩
      · rintro ⟨hentry, rfl⟩
        exact ⟨entry, hentry, rfl⟩
  refine ⟨fun key ↦ ?_, fun key entry ↦ ?_, hentries, hdistinct, ?_, ?_⟩
  · rw [← hd.getEntry?_eq]
    exact m.answers_found key
  · rw [← hd.strategy_eq]
    exact hd.regular.getEntry?_eq_some_iff key entry
  · have hcard := congrArg Multiset.card hentries
    rw [Multiset.card_map, Multiset.coe_card] at hcard
    rw [hd.regular.size_eq_length, ← List.length_map (f := Leaf.pair)]
    exact hcard.trans (Multiset.card_map Sigma.fst d.entries).symm
  · rw [isEmpty, Option.isNone_iff_eq_none, hd.regular.root_eq_none_iff]

/-! ## Edits in step -/

theorem Holds.lookup_eq_none (hd : m.Holds d) {key : K} (place_eq : m.place key = none) :
    d.lookup (h.classOf key) = none := by
  rw [← hd.getEntry?_eq, getEntry?, hd.regular.find?_eq_none place_eq]
  rfl

theorem Holds.lookup_eq_some (hd : m.Holds d) {key : K} {stored : Leaf K V}
    {before after : List (Leaf K V)} (row_eq : m.rowFor key = before ++ stored :: after)
    (place_eq : m.place key = some before.length) :
    d.lookup (h.classOf key) = some (stored.key, stored.value) := by
  rw [← hd.getEntry?_eq, getEntry?, hd.regular.find?_eq_some row_eq place_eq]
  rfl

theorem Holds.classOf_eq_iff (hd : m.Holds d) {a b : K} :
    h.classOf a = h.classOf b ↔ SameKey m.strategies.key a b := by
  rw [h.classOf_eq_iff, hd.strategy_eq]

omit [KeyStrategy κ K] in
theorem mem_pairs_iff {m : Map κ ν K V} {entry : K × V} :
    entry ∈ m.pairs ↔ ∃ stored ∈ m.leaves, stored.pair = entry := List.mem_map

/-- Erasing a key erases its class. -/
theorem Holds.erase (hd : m.Holds d) {write : ℕ} {key : K} {rest : Option (Bucket K V)}
    (houtcome : EraseOutcome m write key rest) :
    ({ m with root := rest } : Map κ ν K V).Holds (d.erase (h.classOf key)) := by
  refine ⟨hd.regular.erase houtcome, hd.strategy_eq, fun c entry ↦ ?_⟩
  have hmem : entry ∈ ({ m with root := rest } : Map κ ν K V).pairs
      ↔ entry ∈ m.pairs ∧ ¬ SameKey m.strategies.key entry.1 key := by
    rw [mem_pairs_iff, mem_pairs_iff]
    constructor
    · rintro ⟨stored, hstored, rfl⟩
      rw [hd.regular.mem_leaves_of_erase houtcome] at hstored
      exact ⟨⟨stored, hstored.1, rfl⟩, hstored.2⟩
    · rintro ⟨⟨stored, hstored, rfl⟩, hne⟩
      exact ⟨stored, (hd.regular.mem_leaves_of_erase houtcome).mpr ⟨hstored, hne⟩, rfl⟩
  rw [hmem, ← hd.classOf_eq_iff]
  by_cases hc : c = h.classOf key
  · rw [hc, Finmap.lookup_erase]
    exact iff_of_false nofun fun hentry ↦ hentry.1.2 hentry.2
  · rw [Finmap.lookup_erase_ne hc, hd.lookup_eq_some_iff]
    refine and_congr_left fun hentry ↦ ⟨fun hpair ↦ ⟨hpair, ?_⟩, And.left⟩
    rw [hentry]
    exact hc

variable [ValueStrategy ν V]

/-- An insertion puts its pair in place of those with the same key. -/
theorem Regular.mem_pairs_of_insert (hm : m.Regular) {policy : Policy} {write : ℕ} {key : K}
    {value : V} {root : Bucket K V}
    (houtcome : InsertOutcome m write key value policy (.changed root)) {entry : K × V} :
    entry ∈ ({ m with root := some root } : Map κ ν K V).pairs
      ↔ entry = (key, value) ∨ entry ∈ m.pairs ∧ ¬ SameKey m.strategies.key entry.1 key := by
  rw [mem_pairs_iff, mem_pairs_iff, leaves_of_root_eq rfl]
  constructor
  · rintro ⟨stored, hstored, rfl⟩
    rw [hm.mem_leaves_of_insert houtcome] at hstored
    rcases hstored with rfl | ⟨hstored, hne⟩
    · exact Or.inl rfl
    · exact Or.inr ⟨⟨stored, hstored, rfl⟩, hne⟩
  · rintro (rfl | ⟨⟨stored, hstored, rfl⟩, hne⟩)
    · exact ⟨_, (hm.mem_leaves_of_insert houtcome).mpr (Or.inl rfl), rfl⟩
    · exact ⟨stored, (hm.mem_leaves_of_insert houtcome).mpr (Or.inr ⟨hstored, hne⟩), rfl⟩

/-- Inserting a pair stores it under the class of its key. -/
theorem Holds.insert (hd : m.Holds d) {policy : Policy} {write : ℕ} {key : K} {value : V}
    {root : Bucket K V} (houtcome : InsertOutcome m write key value policy (.changed root)) :
    ({ m with root := some root } : Map κ ν K V).Holds
      (Finmap.insert (h.classOf key) (key, value) d) := by
  refine ⟨hd.regular.insert houtcome, hd.strategy_eq, fun c entry ↦ ?_⟩
  rw [hd.regular.mem_pairs_of_insert houtcome, ← hd.classOf_eq_iff]
  by_cases hc : c = h.classOf key
  · rw [hc, Finmap.lookup_insert, Option.some_inj]
    refine ⟨fun heq ↦ ⟨Or.inl heq.symm, by rw [← heq]⟩, fun hentry ↦ ?_⟩
    exact (hentry.1.resolve_right fun hold ↦ hold.2 hentry.2).symm
  · rw [Finmap.lookup_insert_of_ne _ hc, hd.lookup_eq_some_iff]
    refine and_congr_left fun hentry ↦ ⟨fun hpair ↦ Or.inr ⟨hpair, ?_⟩, fun hpair ↦ ?_⟩
    · rw [hentry]
      exact hc
    · refine (hpair.resolve_left fun heq ↦ hc ?_).1
      rw [← hentry, heq]

/-- An edit of a map and of the dictionary that it holds. -/
inductive InStep {h : LawfulKeys s} (strategies : Strategies κ ν) :
    Except MapError (Map κ ν K V) → Except MapError (Dictionary h V) → Prop where
  /-- Both are refused, for the same reason. -/
  | error (error : MapError) : InStep strategies (.error error) (.error error)
  /-- Both go through. -/
  | ok {made : Map κ ν K V} {d : Dictionary h V} (holds : made.Holds d)
      (strategies_eq : made.strategies = strategies) : InStep strategies (.ok made) (.ok d)

omit [ValueStrategy ν V] in
theorem InStep.eq_error_iff {strategies : Strategies κ ν} {result : Except MapError (Map κ ν K V)}
    {result' : Except MapError (Dictionary h V)} (hstep : InStep strategies result result')
    (error : MapError) : result = .error error ↔ result' = .error error := by
  cases hstep with
  | error other =>
    refine ⟨fun heq ↦ ?_, fun heq ↦ ?_⟩
    · rw [Except.error.inj heq]
    · rw [Except.error.inj heq]
  | ok => exact iff_of_false nofun nofun

/-- An edit on both sides keeps them in agreement. -/
theorem Holds.inStep (hd : m.Holds d) (write : ℕ) (edit : Edit K V) :
    InStep m.strategies (m.edit write edit) (d.edit m.strategies.value edit) := by
  cases edit with
  | add key value =>
    obtain ⟨result, hinsert, houtcome⟩ := hd.regular.exists_insert .reject write key value
    rw [edit, add, hinsert, Dictionary.edit]
    cases houtcome with
    | entered place_eq entered =>
      rw [hd.lookup_eq_none place_eq]
      exact .ok (hd.insert (.entered place_eq entered)) rfl
    | kept row_eq place_eq equals_eq =>
      rw [hd.lookup_eq_some row_eq place_eq]
      dsimp only
      rw [if_pos equals_eq]
      exact .ok hd rfl
    | refused row_eq place_eq equals_eq =>
      rw [hd.lookup_eq_some row_eq place_eq]
      dsimp only
      rw [if_neg (Bool.eq_false_iff.mp equals_eq)]
      exact .error _
  | set key value =>
    obtain ⟨result, hinsert, houtcome⟩ := hd.regular.exists_insert .overwrite write key value
    rw [edit, set, hinsert, Dictionary.edit]
    cases houtcome with
    | entered place_eq entered =>
      rw [hd.lookup_eq_none place_eq]
      exact .ok (hd.insert (.entered place_eq entered)) rfl
    | kept row_eq place_eq equals_eq =>
      rw [hd.lookup_eq_some row_eq place_eq]
      dsimp only
      rw [if_pos equals_eq]
      exact .ok hd rfl
    | replaced row_eq place_eq equals_eq root_eq replaced =>
      rw [hd.lookup_eq_some row_eq place_eq]
      dsimp only
      rw [if_neg (Bool.eq_false_iff.mp equals_eq)]
      exact .ok (hd.insert (.replaced row_eq place_eq equals_eq root_eq replaced)) rfl
  | erase key =>
    obtain ⟨rest, herase, houtcome⟩ := hd.regular.exists_eraseRoot write key
    rw [edit, Map.erase, herase, Dictionary.edit]
    exact .ok (hd.erase houtcome) rfl

/-- Edits one after the other keep both sides in agreement. -/
theorem Holds.replay (hd : m.Holds d) (write : ℕ) (edits : List (Edit K V)) :
    (m.replay write edits).Holds (d.replay m.strategies.value edits) ∧
      (m.replay write edits).strategies = m.strategies := by
  induction edits generalizing m d write with
  | nil => exact ⟨hd, rfl⟩
  | cons edit edits ih =>
    have hstep := hd.inStep write edit
    rw [Map.replay, edited, Dictionary.replay]
    -- both runs go on from the results of the first edit, whatever led to them
    generalize m.edit write edit = result at hstep
    generalize d.edit m.strategies.value edit = result' at hstep
    cases hstep with
    | error => exact ih hd (write + 1)
    | ok holds strategies_eq =>
      rw [← strategies_eq]
      exact ih holds (write + 1)

end Agreement

/-! ## Runs -/

variable [ValueStrategy ν V]

theorem holds_emptyUnder (strategies : Strategies κ ν) (h : LawfulKeys strategies.key) :
    (emptyUnder strategies : Map κ ν K V).Holds (∅ : Dictionary h V) := by
  refine ⟨(Written.emptyUnder strategies).regular h, rfl, fun c entry ↦ ?_⟩
  rw [Finmap.lookup_empty]
  exact iff_of_false nofun fun hentry ↦ absurd hentry.1 List.not_mem_nil

/-- **A map is a dictionary.** Under a lawful comparison of keys, a map and a dictionary that start
empty and undergo the same edits agree in everything that can be asked or enumerated, and the next
edit is refused by the map if and only if the dictionary refuses it, for the same reason. -/
theorem replay_mirrors (strategies : Strategies κ ν) (h : LawfulKeys strategies.key) (write : ℕ)
    (edits : List (Edit K V)) :
    ((emptyUnder strategies).replay write edits).Mirrors
        ((∅ : Dictionary h V).replay strategies.value edits) ∧
      ∀ next edit error, ((emptyUnder strategies).replay write edits).edit next edit = .error error
        ↔ ((∅ : Dictionary h V).replay strategies.value edits).edit strategies.value edit
          = .error error := by
  obtain ⟨holds, strategies_eq⟩ := (holds_emptyUnder strategies h).replay write edits
  refine ⟨holds.mirrors, fun next edit error ↦ ?_⟩
  have hstep := holds.inStep next edit
  rw [strategies_eq] at hstep
  exact hstep.eq_error_iff error

/-- Keys that agree modulo ten are the same, and so are values with the same tens. -/
def decimal : Strategies (Named WordRule) (Named IntegerRule) := ⟨⟨.mod10, none⟩, ⟨.tens, none⟩⟩

theorem lawful_decimal : LawfulKeys decimal.key := .of_wordRule (by decide) none

/-- Edits of four classes, one of which is refused. -/
def decimalEdits : List (Edit UInt32 Int32) :=
  [.set 3 30, .add 13 35, .add 23 40, .set 23 41, .set 4 1, .set 5 2, .add 6 3, .erase 14]

theorem replay_mirrors_decimal :
    ((∅ : Dictionary lawful_decimal Int32).replay decimal.value decimalEdits).keys.card = 3 ∧
      ((∅ : Dictionary lawful_decimal Int32).replay decimal.value decimalEdits).lookup
        (lawful_decimal.classOf 33) = some (23, 41) ∧
      ((∅ : Dictionary lawful_decimal Int32).replay decimal.value decimalEdits).edit decimal.value
        (.add 16 20) = .error .duplicateKey := by
  obtain ⟨hmirrors, herror⟩ := replay_mirrors decimal lawful_decimal 0 decimalEdits
  refine ⟨hmirrors.size_eq.symm.trans (by decide), ?_, ?_⟩
  · exact (hmirrors.answers 33).getEntry?_eq.symm.trans (by decide)
  · exact (herror 8 (.add 16 20) .duplicateKey).mp rfl

end Map

end RotaryTrie
