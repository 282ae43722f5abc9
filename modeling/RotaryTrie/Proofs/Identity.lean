import RotaryTrie.Catalog.Words
import RotaryTrie.Proofs.ById

/-!
# Identity tells about changes

Whether a write has changed anything can be seen from the result alone, without looking at an entry:
it is the same snapshot as before if and only if the write had nothing to do. This is a statement
about nodes in memory, so it is made about the maps of a workspace, whose clock gives every write a
number of its own.

No law of the strategies is needed. What a search finds under a key decides about every write of the
key, as all of them compare in the same direction.
-/

set_option autoImplicit false

namespace RotaryTrie

variable {κ ν K V : Type} [KeyStrategy κ K] [ValueStrategy ν V]

namespace Map

variable {m made : Map κ ν K V} {write : ℕ} {edit : Edit K V}

/-- An addition is refused exactly if the key is there with a different value. -/
theorem Sound.add_eq_error_iff (h : m.Sound) (write : ℕ) (key : K) (value : V)
    (error : MapError) :
    m.add write key value = .error error ↔ error = .duplicateKey ∧
      ∃ stored, m.get? key = some stored ∧
        ValueStrategy.equals m.strategies.value stored value = false := by
  obtain ⟨result, hinsert, houtcome⟩ := h.exists_insert .reject write key value
  rw [add, hinsert]
  cases houtcome with
  | entered place_eq =>
    constructor
    · intro herror
      cases herror
    · rintro ⟨-, stored, hstored, -⟩
      rw [get?, h.find?_eq_none place_eq] at hstored
      cases hstored
  | kept row_eq place_eq equals_eq =>
    constructor
    · intro herror
      cases herror
    · rintro ⟨-, stored, hstored, hequals⟩
      rw [get?, h.find?_eq_some row_eq place_eq] at hstored
      rw [← Option.some_inj.mp hstored, equals_eq] at hequals
      cases hequals
  | refused row_eq place_eq equals_eq =>
    constructor
    · intro herror
      refine ⟨(Except.error.inj herror).symm, _, ?_, equals_eq⟩
      rw [get?, h.find?_eq_some row_eq place_eq]
      rfl
    · rintro ⟨rfl, -⟩
      rfl

variable [DecidableEq κ] [DecidableEq ν]

omit [KeyStrategy κ K] [ValueStrategy ν V] in
theorem sameSnapshot_refl (m : Map κ ν K V) : m.sameSnapshot m = true := by
  rw [sameSnapshot, sameRoot_refl, decide_eq_true rfl]
  rfl

omit [KeyStrategy κ K] [ValueStrategy ν V] in
theorem Renewed.sameSnapshot_eq (h : m.Renewed write made) : made.sameSnapshot m = false := by
  rw [sameSnapshot, h.sameRoot_eq, Bool.false_and]

/-- The same snapshot comes of an edit exactly if the edit is without effect. -/
theorem EditEffect.sameSnapshot_iff (heffect : EditEffect m write edit made) (hm : m.Dated write) :
    made.sameSnapshot m = true ↔ m.Keeps edit := by
  rcases heffect.eq_or_renewed hm with ⟨rfl, hkeeps⟩ | ⟨hrenewed, hchanges⟩
  · exact iff_of_true made.sameSnapshot_refl hkeeps
  · rw [hrenewed.sameSnapshot_eq]
    exact iff_of_false Bool.false_ne_true hchanges

/-- The results of writes tell by their identity what the writes have done. -/
structure TellsChanges (m : Map κ ν K V) (write : ℕ) : Prop where
  /-- An addition is refused for one reason only. -/
  add_eq_error_iff : ∀ key value error, m.add write key value = .error error ↔
    error = .duplicateKey ∧ ∃ stored, m.get? key = some stored ∧
      ValueStrategy.equals m.strategies.value stored value = false
  /-- One that goes through makes the same snapshot if the key is there with an equal value. -/
  add_same_iff : ∀ key value made, m.add write key value = .ok made →
    (made.sameSnapshot m = true ↔ ∃ stored, m.get? key = some stored ∧
      ValueStrategy.equals m.strategies.value stored value = true)
  /-- Setting makes the same snapshot in the same case. -/
  set_same_iff : ∀ key value, (m.set write key value).sameSnapshot m = true ↔
    ∃ stored, m.get? key = some stored ∧
      ValueStrategy.equals m.strategies.value stored value = true
  /-- Erasing makes the same snapshot if the key is not there. -/
  erase_same_iff : ∀ key, (m.erase write key).sameSnapshot m = true ↔ m.containsKey key = false
  /-- Any other snapshot has another root, or one of the two has none, and the same strategies. -/
  sameRoot_eq_of_changed : ∀ edit made, m.edit write edit = .ok made →
    made.sameSnapshot m = false →
    sameRoot made.root m.root = false ∧ made.strategies = m.strategies
  /-- It is enough to compare nodes at every level to tell what has changed. -/
  addById_eq : ∀ key value, m.insertById .reject write key value = .ok (m.add write key value)
  /-- The same holds for setting. -/
  setById_eq : ∀ key value,
    m.insertById .overwrite write key value = .ok (.ok (m.set write key value))
  /-- The same holds for erasing. -/
  eraseById_eq : ∀ key, m.eraseById write key = .ok (m.erase write key)

theorem Sound.tells_of_dated (h : m.Sound) (hm : m.Dated write) : m.TellsChanges write where
  add_eq_error_iff := h.add_eq_error_iff write
  add_same_iff key value _ hmade := by
    have hedit : m.edit write (.add key value) = _ := hmade
    exact (h.editEffect hedit).sameSnapshot_iff hm
  set_same_iff key value := by
    have hedit : m.edit write (.set key value) = .ok (m.set write key value) := rfl
    exact (h.editEffect hedit).sameSnapshot_iff hm
  erase_same_iff key := by
    have hedit : m.edit write (.erase key) = .ok (m.erase write key) := rfl
    exact (h.editEffect hedit).sameSnapshot_iff hm
  sameRoot_eq_of_changed edit made hedit hsame := by
    rcases (h.editEffect hedit).eq_or_renewed hm with ⟨rfl, -⟩ | ⟨hrenewed, -⟩
    · rw [made.sameSnapshot_refl] at hsame
      cases hsame
    · exact ⟨hrenewed.sameRoot_eq, hrenewed.strategies_eq⟩
  addById_eq := h.addById_eq hm
  setById_eq := h.setById_eq hm
  eraseById_eq := h.eraseById_eq hm

end Map

namespace Workspace

variable [DecidableEq κ] [DecidableEq ν] {w : Workspace κ ν K V} {m : Map κ ν K V}

/-- **Identity tells about changes.** Whatever commands a workspace has carried out, each of its
maps tells by identity what the writes to come do to it. -/
theorem Reached.tellsChanges (h : w.Reached) {name : String} (hm : w.lookup name = .ok m)
    {write : ℕ} (hwrite : w.clock ≤ write) : m.TellsChanges write := by
  obtain ⟨entry, hentry, rfl⟩ := exists_mem_of_lookup hm
  exact (h.forall_reachable entry hentry).sound.tells_of_dated
    ((h.forall_dated entry hentry).mono hwrite)

/-- Two nodes, one below the other, under keys that agree in their last bits. -/
def twoLevelWords : Map (Named WordRule) (Named IntegerRule) UInt32 Int32 :=
  (Map.emptyUnder ⟨⟨.identity, none⟩, ⟨.tens, none⟩⟩).setAll 0
    [(1, 10), (33, 20), (1057, 30), (2, 40)]

/-- The same without the only entry outside of the lower node, which comes to the top. -/
def collapsedWords : Map (Named WordRule) (Named IntegerRule) UInt32 Int32 :=
  twoLevelWords.erase 4 2

/-- A workspace with a map of two levels and what it collapses to. -/
def afterCollapse : Workspace (Named WordRule) (Named IntegerRule) UInt32 Int32 :=
  ((opening "nested" twoLevelWords.strategies).store "nested" twoLevelWords 4).store "collapsed"
    collapsedWords 1

theorem reached_afterCollapse : afterCollapse.Reached := by
  have hempty : (opening "nested" twoLevelWords.strategies :
      Workspace (Named WordRule) (Named IntegerRule) UInt32 Int32).Reached := .opening _ _
  have hset : (opening "nested" twoLevelWords.strategies).perform "nested"
      (.change "nested" (.setAll [(1, 10), (33, 20), (1057, 30), (2, 40)]))
      = .ok ((opening "nested" twoLevelWords.strategies).store "nested" twoLevelWords 4) := rfl
  have herase : ((opening "nested" twoLevelWords.strategies).store "nested" twoLevelWords 4).perform
      "collapsed" (.change "nested" (.erase 2)) = .ok afterCollapse := rfl
  exact (hempty.perform hset).perform herase

theorem tellsChanges_afterCollapse :
    collapsedWords.TellsChanges afterCollapse.clock ∧
      (collapsedWords.set 5 33 25).sameSnapshot collapsedWords = true ∧
      (collapsedWords.set 5 33 35).sameSnapshot collapsedWords = false ∧
      (collapsedWords.erase 5 1).sameSnapshot collapsedWords = false := by
  have hcollapsed : afterCollapse.lookup "collapsed" = .ok collapsedWords := rfl
  exact ⟨reached_afterCollapse.tellsChanges hcollapsed (Nat.le_refl _), by decide, by decide,
    by decide⟩

end Workspace

end RotaryTrie
