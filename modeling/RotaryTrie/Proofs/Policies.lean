import RotaryTrie.Proofs.Identity
import RotaryTrie.Proofs.Renumbering
import RotaryTrie.Proofs.Sequence
import RotaryTrie.Proofs.Transfer

/-!
# Adding and setting

To add and to set a pair are one and the same walk under two policies, which make a difference only
where the key is found with a different value. As long as no addition is refused, adding pairs and
setting them therefore build the same trie, node by node, and where an addition is refused, setting
exchanges an entry and nothing else.

The two runs build their nodes independently, so the comparison is made up to the numbers of the
writes. `Map.setAll_eq_renumber` says that one run is the other one renumbered, and the rest is
read off from that. No law of the strategies is needed.
-/

set_option autoImplicit false

namespace RotaryTrie

variable {κ ν K V : Type}

/-- The insertion under another policy. -/
def Insertion.under (r : Insertion K V) (policy : Policy) : Insertion K V := { r with policy }

namespace Insertion

variable (r : Insertion K V) (policy : Policy)

@[simp] theorem under_entry : (r.under policy).entry = r.entry := rfl

@[simp] theorem under_sameKey : (r.under policy).sameKey = r.sameKey := rfl

@[simp] theorem under_probe : (r.under policy).probe = r.probe := rfl

@[simp] theorem under_stampAt (depth : ℕ) : (r.under policy).stampAt depth = r.stampAt depth := rfl

theorem verdict_under (stored : Leaf K V) :
    (r.under .reject).verdict stored = .refuse ∨
      (r.under .overwrite).verdict stored = (r.under .reject).verdict stored := by
  rw [verdict, verdict]
  by_cases hequals : r.sameValue stored.value r.entry.value = true
  · exact .inr ((if_pos hequals).trans (if_pos hequals).symm)
  · exact .inl (if_neg hequals)

end Insertion

namespace Bucket

/-- An insertion that rejects different values comes to a conflict, or to what one that overwrites
them comes to. -/
theorem insert_under (r : Insertion K V) (depth : ℕ) (suggested : UInt32) (bucket : Bucket K V) :
    bucket.insert (r.under .reject) depth suggested = .ok .conflict ∨
      bucket.insert (r.under .overwrite) depth suggested
        = bucket.insert (r.under .reject) depth suggested := by
  -- the policy is asked for at one point only, where an entry with the same key is found
  induction bucket using Bucket.structuralInduction generalizing depth suggested with
  | leaf stored =>
    by_cases hhash : stored.hash = r.entry.hash
    · by_cases hkey : r.sameKey stored.key r.entry.key = true
      · obtain hrefuse | hsame := r.verdict_under stored
        · left
          simp [insert, hhash, hkey, hrefuse]
        · right
          simp [insert, hhash, hkey, hsame]
      · right
        simp [insert, hhash, hkey]
    · right
      simp [insert, hhash]
  | chain stamp hash entries =>
    by_cases hhash : hash = r.entry.hash
    · cases hposition : r.probe.position? entries with
      | none =>
        right
        simp [insert, hhash, hposition]
      | some position =>
        obtain hrefuse | hsame := r.verdict_under entries[position.val]
        · left
          simp [insert, hhash, hposition, hrefuse]
        · right
          simp [insert, hhash, hposition, hsame]
    · right
      simp [insert, hhash]
  | trie stamp rotation occupancy count children ih =>
    by_cases hholds : Bitmap.holds occupancy (slotOf r.entry.hash rotation) = true
    · cases hchild : children[Bitmap.rank occupancy (slotOf r.entry.hash rotation)]? with
      | none =>
        right
        simp [insert, insertAt_eq, hholds, hchild]
      | some child =>
        obtain hconflict | hsame :=
          ih child (List.mem_of_getElem? hchild) (depth + 1) (rotation + bitsPerLevel)
        · left
          simp [insert, insertAt_eq, hholds, hchild, hconflict, Except.map]
        · right
          simp [insert, insertAt_eq, hholds, hchild, hsame]
    · right
      simp [insert, hholds]

end Bucket

namespace Map

variable [KeyStrategy κ K] [ValueStrategy ν V] {m made : Map κ ν K V} {write : ℕ}

/-! ## One pair -/

theorem insert_reject_or (m : Map κ ν K V) (write : ℕ) (key : K) (value : V) :
    m.insert .reject write key value = .ok .conflict ∨
      m.insert .overwrite write key value = m.insert .reject write key value := by
  cases hroot : m.root with
  | none =>
    right
    rw [insert_of_root_eq_none hroot, insert_of_root_eq_none hroot]
  | some bucket =>
    rw [insert_of_root_eq hroot, insert_of_root_eq hroot]
    exact bucket.insert_under (m.insertion .reject write key value) 0 0

theorem set_eq_of_add {key : K} {value : V} (hadd : m.add write key value = .ok made) :
    m.set write key value = made := by
  rw [add] at hadd
  obtain hconflict | hsame := m.insert_reject_or write key value
  · rw [hconflict] at hadd
    cases hadd
  · rw [set, hsame]
    generalize m.insert .reject write key value = result at hadd ⊢
    obtain fault | _ | _ | root := result
    · exact Except.ok.inj hadd
    · exact Except.ok.inj hadd
    · cases hadd
    · exact Except.ok.inj hadd

/-- A pair is set in place of an entry that has its key and a different value: the entry is
exchanged where it stands, and no node changes its shape. -/
def ExchangesAt (m : Map κ ν K V) (write : ℕ) (key : K) (value : V) : Prop :=
  ∃ stored, m.find? key = some stored ∧
    ValueStrategy.equals m.strategies.value stored.value value = false ∧
    ExchangedIn stored (m.entryOf write key value) m.leaves (m.set write key value).leaves ∧
    (m.set write key value).shape = m.shape

/-- Where a pair is refused, setting it exchanges an entry. -/
theorem Sound.exchangesAt_of_add (h : m.Sound) {key : K} {value : V} {error : MapError}
    (hadd : m.add write key value = .error error) (next : ℕ) : m.ExchangesAt next key value := by
  obtain ⟨-, _, hstored, hdiffers⟩ := (h.add_eq_error_iff write key value error).mp hadd
  obtain ⟨stored, hfind, rfl⟩ := Option.map_eq_some_iff.mp hstored
  have hset : m.edit next (.set key value) = .ok (m.set next key value) := rfl
  have hwrites := (h.editEffect hset).writesAt h rfl
  rw [WritesAt, hfind] at hwrites
  simp only [hdiffers, Bool.false_eq_true, if_false] at hwrites
  exact ⟨stored, hfind, hdiffers, hwrites⟩

/-! ## Many pairs -/

theorem setAll_eq_of_addAll {pairs : List (K × V)} (hadd : m.addAll write pairs = .ok made) :
    m.setAll write pairs = made := by
  induction pairs generalizing m write with
  | nil => exact Except.ok.inj hadd
  | cons pair pairs ih =>
    rw [addAll] at hadd
    split at hadd
    · cases hadd
    · next hnext =>
      rw [setAll, set_eq_of_add hnext]
      exact ih hadd

theorem exists_refused_of_addAll {pairs : List (K × V)} {error : MapError}
    (hadd : m.addAll write pairs = .error error) :
    ∃ before key value after made, pairs = before ++ (key, value) :: after ∧
      m.addAll write before = .ok made ∧
      made.add (write + before.length) key value = .error error := by
  induction pairs generalizing m write with
  | nil => cases hadd
  | cons pair pairs ih =>
    obtain ⟨first, stored⟩ := pair
    rw [addAll] at hadd
    split at hadd
    · next hrefused =>
      rw [Except.error.inj hadd] at hrefused
      exact ⟨[], first, stored, pairs, m, rfl, rfl, hrefused⟩
    · next next hnext =>
      obtain ⟨before, key, value, after, made, rfl, hbefore, hrefused⟩ := ih hadd
      refine ⟨(first, stored) :: before, key, value, after, made, rfl, ?_, ?_⟩
      · rw [addAll, hnext]
        exact hbefore
      · rwa [List.length_cons, Nat.add_comm before.length, ← Nat.add_assoc]

/-- Where pairs can be added to a map, setting them under other numbers leads to the renumbered
map. -/
theorem setAll_eq_renumber (hm : m.Dated write) {pairs : List (K × V)}
    (hadd : m.addAll write pairs = .ok made) (next : ℕ) :
    m.setAll next pairs = made.renumber (shift write next) := by
  have hself : m.renumber (shift write next) = m := hm.renumber_eq fun _ ↦ shift_of_lt
  rw [← setAll_eq_of_addAll hadd, ← setAll_renumber _ m (shift_add write next), hself]

/-! ## The two runs -/

/-- What there is between adding pairs to a map under numbers from `write` on and setting them under
numbers from `next` on. -/
structure PoliciesAgree [DecidableEq κ] [DecidableEq ν] (m : Map κ ν K V) (write next : ℕ)
    (pairs : List (K × V)) : Prop where
  /-- If the additions go through, both make the same trie, apart from the identity of its nodes. -/
  layout_eq : ∀ made, m.addAll write pairs = .ok made →
    (m.setAll next pairs).layout = made.layout
  /-- The strategies are the same. -/
  strategies_eq : ∀ made, m.addAll write pairs = .ok made →
    (m.setAll next pairs).strategies = made.strategies
  /-- Either both lead back to the snapshot that they began with, or none of them does. -/
  sameSnapshot_iff : ∀ made, m.addAll write pairs = .ok made →
    ((m.setAll next pairs).sameSnapshot m = true ↔ made.sameSnapshot m = true)
  /-- If an addition is refused, then up to the first one that is both make the same trie. There
  setting exchanges an entry, whichever of the two runs has led to this point. -/
  exists_exchangesAt : ∀ error, m.addAll write pairs = .error error →
    ∃ before key value after made, pairs = before ++ (key, value) :: after ∧
      m.addAll write before = .ok made ∧
      made.add (write + before.length) key value = .error .duplicateKey ∧
      (m.setAll next before).layout = made.layout ∧
      (m.setAll next before).ExchangesAt (next + before.length) key value ∧
      made.ExchangesAt (write + before.length) key value

theorem add_eq_error_of_setAll (hm : m.Dated write) {before : List (K × V)} {key : K} {value : V}
    {error : MapError} (hbefore : m.addAll write before = .ok made)
    (hrefused : made.add (write + before.length) key value = .error error) (next : ℕ) :
    (m.setAll next before).add (next + before.length) key value = .error error := by
  rw [setAll_eq_renumber hm hbefore, ← shift_add write next, add_renumber, hrefused]
  rfl

theorem Written.agree_of_dated [DecidableEq κ] [DecidableEq ν] {clock next : ℕ} (h : m.Written)
    (hm : m.Dated clock) (hwrite : clock ≤ write) (hnext : clock ≤ next) (pairs : List (K × V)) :
    m.PoliciesAgree write next pairs where
  layout_eq made hadd := by
    rw [setAll_eq_renumber (hm.mono hwrite) hadd, layout_renumber]
  strategies_eq made hadd := by
    rw [setAll_eq_renumber (hm.mono hwrite) hadd]
    rfl
  sameSnapshot_iff made hadd := by
    rw [setAll_eq_renumber (hm.mono hwrite) hadd, hm.sameSnapshot_renumber]
    intro number early hearly
    exact shift_eq_iff (hearly.trans_le hwrite) (hearly.trans_le hnext)
  exists_exchangesAt error hadd := by
    rw [eq_duplicateKey_of_addAll hadd] at hadd
    obtain ⟨before, key, value, after, made, hpairs, hbefore, hrefused⟩ :=
      exists_refused_of_addAll hadd
    refine ⟨before, key, value, after, made, hpairs, hbefore, hrefused, ?_, ?_, ?_⟩
    · rw [setAll_eq_renumber (hm.mono hwrite) hbefore, layout_renumber]
    · have hset : (m.setAll next before).Sound := (h.setAll next before).sound
      have hagain := add_eq_error_of_setAll (hm.mono hwrite) hbefore hrefused next
      exact hset.exchangesAt_of_add hagain _
    · exact (h.addAll hbefore).sound.exchangesAt_of_add hrefused _

end Map

namespace Workspace

variable [KeyStrategy κ K] [ValueStrategy ν V] [DecidableEq κ] [DecidableEq ν]
  {w : Workspace κ ν K V} {m : Map κ ν K V}

/-- **Agreement of the policies.** Adding pairs to a map of a workspace and setting them there
builds the same trie, up to the first addition that is refused. -/
theorem Reached.policiesAgree (h : w.Reached) {name : String} (hm : w.lookup name = .ok m)
    {write next : ℕ} (hwrite : w.clock ≤ write) (hnext : w.clock ≤ next) (pairs : List (K × V)) :
    m.PoliciesAgree write next pairs := by
  obtain ⟨entry, hentry, rfl⟩ := exists_mem_of_lookup hm
  have hwritten := (h.forall_reachable entry hentry).written
  exact hwritten.agree_of_dated (h.forall_dated entry hentry) hwrite hnext pairs

/-- Pairs that can be added: one splits an entry, one goes into an empty slot, and the others are
there by then. -/
def addablePairs : List (UInt32 × Int32) := [(33, 25), (3, 9), (65, 7), (65, 8)]

/-- A pair of which the key is there with a different value, and one more. -/
def refusedPairs : List (UInt32 × Int32) := [(1057, 40), (4, 4)]

theorem policiesAgree_afterCollapse :
    (collapsedWords.addAll 5 addablePairs).map Map.size = .ok 5 ∧
      (∀ made, collapsedWords.addAll 5 addablePairs = .ok made →
        (collapsedWords.setAll 20 addablePairs).layout = made.layout) ∧
      (collapsedWords.addAll 5 (addablePairs ++ refusedPairs)).map Map.size
        = .error .duplicateKey ∧
      ∃ before key value after, addablePairs ++ refusedPairs = before ++ (key, value) :: after ∧
        (collapsedWords.setAll 20 before).ExchangesAt (20 + before.length) key value := by
  have hcollapsed : afterCollapse.lookup "collapsed" = .ok collapsedWords := rfl
  have hwrite : afterCollapse.clock ≤ 5 := by decide
  have hnext : afterCollapse.clock ≤ 20 := by decide
  have haddable := reached_afterCollapse.policiesAgree hcollapsed hwrite hnext addablePairs
  have hwhole :=
    reached_afterCollapse.policiesAgree hcollapsed hwrite hnext (addablePairs ++ refusedPairs)
  have hrefused : (collapsedWords.addAll 5 (addablePairs ++ refusedPairs)).map Map.size
      = .error .duplicateKey := by decide +kernel
  refine ⟨by decide +kernel, haddable.layout_eq, hrefused, ?_⟩
  cases hadd : collapsedWords.addAll 5 (addablePairs ++ refusedPairs) with
  | ok made =>
    rw [hadd] at hrefused
    cases hrefused
  | error error =>
    obtain ⟨before, key, value, after, -, hpairs, -, -, -, hexchanges, -⟩ :=
      hwhole.exists_exchangesAt error hadd
    exact ⟨before, key, value, after, hpairs, hexchanges⟩

end Workspace

end RotaryTrie
