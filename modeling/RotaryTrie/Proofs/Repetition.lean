import RotaryTrie.Proofs.Batch

/-!
# Writing again what has been written

A batch that has been added has nothing left to do when it comes once more, whether it is added or
set, and neither have keys that are erased twice and a map whose own entries are written to it.
Nothing is built then, so that the result is not only an equal map but the very snapshot.

What carries this is that every edit of the second run is without effect on the map that the first
run has led to, however many edits came after its own. For the pairs of a batch this is a matter of
owners: the class of each pair has its owner by then, and all pairs of the class are compatible with
it. Only an owner that comes from the batch meets itself, and this is what the comparison of values
has to be reflexive for. It need not be symmetric or transitive.
-/

set_option autoImplicit false

namespace RotaryTrie

variable {κ ν K V : Type} [KeyStrategy κ K] [ValueStrategy ν V]

/-- A comparison takes every value for equal to itself. -/
def ReflexiveValues (values : ν) : Prop :=
  ∀ value, ValueStrategy.equals values value value = true

namespace Map

variable {m made : Map κ ν K V} {write : ℕ} {pairs : List (K × V)}

/-! ## Edits without effect -/

/-- An edit that is without effect leaves the very map. -/
theorem Sound.edit_of_keeps (h : m.Sound) (write : ℕ) {edit : Edit K V} (hkeeps : m.Keeps edit) :
    m.edit write edit = .ok m := by
  cases hedit : m.edit write edit with
  | ok made => rw [(h.editEffect hedit).eq_of_keeps hkeeps]
  | error error =>
    -- only an addition is refused, and not for an equal value
    cases edit with
    | add key value =>
      obtain ⟨-, stored, hstored, hdiffers⟩ := (h.add_eq_error_iff write key value error).mp hedit
      obtain ⟨other, hother, hequals⟩ := hkeeps
      rw [hstored] at hother
      rw [← Option.some_inj.mp hother, hdiffers] at hequals
      cases hequals
    | set => cases hedit
    | erase => cases hedit

theorem Sound.replay_of_keeps (h : m.Sound) (write : ℕ) {edits : List (Edit K V)}
    (hkeeps : ∀ edit ∈ edits, m.Keeps edit) : m.replay write edits = m := by
  induction edits generalizing write with
  | nil => rfl
  | cons edit edits ih =>
    rw [List.forall_mem_cons] at hkeeps
    rw [replay, edited, h.edit_of_keeps write hkeeps.1]
    exact ih (write + 1) hkeeps.2

theorem Sound.addAll_of_keeps (h : m.Sound) (write : ℕ)
    (hkeeps : ∀ pair ∈ pairs, m.Keeps (.add pair.1 pair.2)) : m.addAll write pairs = .ok m := by
  induction pairs generalizing write with
  | nil => rfl
  | cons pair pairs ih =>
    rw [List.forall_mem_cons] at hkeeps
    have hadd := h.edit_of_keeps write hkeeps.1
    rw [edit] at hadd
    rw [addAll, hadd]
    exact ih (write + 1) hkeeps.2

/-- Whether a pair is there already does not depend on whether it is to be added or set. -/
theorem Sound.setAll_of_keeps (h : m.Sound) (write : ℕ)
    (hkeeps : ∀ pair ∈ pairs, m.Keeps (.add pair.1 pair.2)) : m.setAll write pairs = m := by
  rw [setAll_eq_replay]
  refine h.replay_of_keeps write fun edit hedit ↦ ?_
  obtain ⟨pair, hpair, rfl⟩ := List.mem_map.mp hedit
  exact hkeeps pair hpair

theorem Sound.eraseAll_of_keeps (h : m.Sound) (write : ℕ) {keys : List K}
    (hkeeps : ∀ key ∈ keys, m.Keeps (.erase key)) : m.eraseAll write keys = m := by
  rw [h.eraseAll_eq_replay]
  refine h.replay_of_keeps write fun edit hedit ↦ ?_
  obtain ⟨key, hkey, rfl⟩ := List.mem_map.mp hedit
  exact hkeeps key hkey

/-! ## What is there already -/

theorem keeps_of_getEntry? {pair entry : K × V} (hentry : m.getEntry? pair.1 = some entry)
    (hequals : ValueStrategy.equals m.strategies.value entry.2 pair.2 = true) :
    m.Keeps (.add pair.1 pair.2) := by
  refine ⟨entry.2, ?_, hequals⟩
  rw [(m.answers_found pair.1).get?_eq, hentry]
  rfl

/-- A batch that has been added is there: each pair finds the owner of its class. -/
theorem Regular.keeps_of_addAll (h : m.Regular) (hreflexive : ReflexiveValues m.strategies.value)
    (hadd : m.addAll write pairs = .ok made) :
    ∀ pair ∈ pairs, made.Keeps (.add pair.1 pair.2) := by
  intro pair hpair
  have hcompatible := (h.exists_addAll_eq_ok_iff write pairs).mp ⟨made, hadd⟩
  obtain ⟨before, after, rfl⟩ := List.append_of_mem hpair
  have hentry := h.getEntry?_of_addAll hadd pair.1
  by_cases howned : m.owner? before pair.1 = none
  · -- the pair is an owner itself
    rw [owner?_append, howned, Option.none_or, List.find?_cons_of_pos] at hentry
    · apply keeps_of_getEntry? hentry
      rw [strategies_addAll hadd]
      exact hreflexive pair.2
    · exact decide_eq_true (h.lawful.sameKey_refl pair.1)
  · obtain ⟨owner, howner, hequals⟩ := hcompatible before pair after rfl howned
    rw [howner] at hentry
    apply keeps_of_getEntry? hentry
    rw [strategies_addAll hadd]
    exact hequals

/-- Keys that have been erased are not there. -/
theorem Regular.keeps_of_eraseAll (h : m.Regular) (write : ℕ) (keys : List K) :
    ∀ key ∈ keys, (m.eraseAll write keys).Keeps (.erase key) := by
  intro key hkey
  have hreplay := h.replay write (keys.map .erase)
  rw [← h.eraseAll_eq_replay] at hreplay
  obtain ⟨hmade, hstrategies⟩ := hreplay
  rw [Keeps, containsKey, Option.isSome_eq_false_iff, Option.isNone_iff_eq_none,
    Option.eq_none_iff_forall_ne_some]
  intro entry hentry
  obtain ⟨hmem, hsame⟩ := (hmade.find?_eq_some_iff key entry).mp hentry
  rw [hstrategies] at hsame
  exact ((h.mem_leaves_eraseAll write).mp hmem).2 key hkey hsame

/-- The entries of a map are there. -/
theorem Regular.keeps_pairs (h : m.Regular) (hreflexive : ReflexiveValues m.strategies.value) :
    ∀ pair ∈ m.pairs, m.Keeps (.add pair.1 pair.2) := by
  intro pair hpair
  apply keeps_of_getEntry? ((h.getEntry?_eq_some_iff pair.1 pair).mpr ?_) (hreflexive pair.2)
  exact ⟨hpair, h.lawful.sameKey_refl pair.1⟩

/-! ## Repetition -/

variable [DecidableEq κ]

theorem withStrategies_self (m : Map κ ν K V) (write : ℕ) :
    m.withStrategies write m.strategies = m :=
  if_pos rfl

theorem Regular.addFrom_self (h : m.Regular) (hreflexive : ReflexiveValues m.strategies.value)
    (write : ℕ) : m.addFrom write m = .ok m := by
  rw [addFrom, withStrategies_self, h.addAll_of_keeps write (h.keeps_pairs hreflexive), ite_self]

theorem Regular.setFrom_self (h : m.Regular) (hreflexive : ReflexiveValues m.strategies.value)
    (write : ℕ) : m.setFrom write m = m := by
  rw [setFrom, withStrategies_self, h.setAll_of_keeps write (h.keeps_pairs hreflexive), ite_self]

/-- A write leads back to the very snapshot that it was applied to. -/
structure LeadsBack [DecidableEq ν] (m made : Map κ ν K V) : Prop where
  /-- The contents, the trie and the strategies are as before. -/
  eq : made = m
  /-- The nodes are the same ones. -/
  sameSnapshot_eq : made.sameSnapshot m = true

omit [KeyStrategy κ K] [ValueStrategy ν V] in
theorem LeadsBack.of_eq [DecidableEq ν] (h : made = m) : m.LeadsBack made where
  eq := h
  sameSnapshot_eq := by
    rw [h]
    exact m.sameSnapshot_refl

/-- **Repetition.** Under a lawful comparison of keys, what has been written to a reachable map is
without effect when it is written again. Keys may be erased again in any case. Pairs may be added
again, or set, if the comparison of values is reflexive, and then also the own entries of a map. -/
theorem Reachable.repetition [DecidableEq ν] (h : m.Reachable)
    (hlawful : LawfulKeys m.strategies.key) (write next : ℕ) :
    (ReflexiveValues m.strategies.value → ∀ pairs made, m.addAll write pairs = .ok made →
      (∃ again, made.addAll next pairs = .ok again ∧ made.LeadsBack again) ∧
        made.LeadsBack (made.setAll next pairs)) ∧
    (∀ keys, (m.eraseAll write keys).LeadsBack ((m.eraseAll write keys).eraseAll next keys)) ∧
    (ReflexiveValues m.strategies.value →
      (∃ again, m.addFrom next m = .ok again ∧ m.LeadsBack again) ∧
        m.LeadsBack (m.setFrom next m)) := by
  have hregular := h.written.regular hlawful
  refine ⟨fun hreflexive pairs made hadd ↦ ?_, fun keys ↦ ?_, fun hreflexive ↦ ?_⟩
  · have hkeeps := hregular.keeps_of_addAll hreflexive hadd
    have hmade : made.Sound := (h.written.addAll hadd).sound
    constructor
    · exact ⟨made, hmade.addAll_of_keeps next hkeeps, .of_eq rfl⟩
    · exact .of_eq (hmade.setAll_of_keeps next hkeeps)
  · have hmade : (m.eraseAll write keys).Sound := (h.written.eraseAll write keys).sound
    exact .of_eq (hmade.eraseAll_of_keeps next (hregular.keeps_of_eraseAll write keys))
  · constructor
    · exact ⟨m, hregular.addFrom_self hreflexive next, .of_eq rfl⟩
    · exact .of_eq (hregular.setFrom_self hreflexive next)

/-- A batch in which no pair has a smaller value than the owner of its class. -/
def risingPairs : List (UInt32 × Int32) := [(13, 40), (4, 7), (14, 9), (23, 30), (14, 7)]

theorem repetition_graded :
    (graded.addAll 2 risingPairs).map Map.size = .ok 3 ∧
      (∀ made, graded.addAll 2 risingPairs = .ok made →
        made.LeadsBack (made.setAll 7 risingPairs)) ∧
      (graded.eraseAll 2 [13, 5, 3]).size = 1 ∧
      (graded.eraseAll 2 [13, 5, 3]).LeadsBack
        ((graded.eraseAll 2 [13, 5, 3]).eraseAll 7 [13, 5, 3]) ∧
      graded.LeadsBack (graded.setFrom 7 graded) := by
  have h : graded.Reachable := .setAll (.emptyUnder _) 0 _
  have hreflexive : ReflexiveValues graded.strategies.value :=
    fun value ↦ decide_eq_true (Int32.le_refl value)
  obtain ⟨hadd, herase, hself⟩ := h.repetition (.of_wordRule (by decide) none) 2 7
  refine ⟨by rfl, fun made hmade ↦ (hadd hreflexive risingPairs made hmade).2, by decide,
    herase [13, 5, 3], (hself hreflexive).2⟩

end Map

end RotaryTrie
