import RotaryTrie.Proofs.Identity
import RotaryTrie.Proofs.Rebuilding
import RotaryTrie.Proofs.Reordering

/-!
# Batches of pairs

Pairs that are added or set one after the other meet a map that the pairs before them have already
changed. Under a lawful comparison of keys the outcome can be told beforehand all the same, class by
class, from the map and the list alone.

The *owner* of a class is the entry that the map has for it, or else the first pair of the list. An
addition never takes the place of an owner away, so what all other pairs of the class are compared
with is the owner, and the batch is refused if one of them has a different value. Setting goes from
the owner through the pairs of the class, and each takes the place of the one before unless the two
have equal values.

Nothing is assumed of the comparison of values. Where it is not reflexive, even a pair that comes
twice may be refused, and where it is not transitive, pairs that are all equal to the owner may
differ among each other.

## The induction

One pair moves from the list into the map, and the owners stay who they are:
`Regular.owner?_of_add`. For settings, `Regular.getEntry?_set` says what a class holds after one
pair, and the batch is the fold of that.
-/

set_option autoImplicit false

namespace RotaryTrie

variable {κ ν K V : Type} [KeyStrategy κ K]

namespace Map

/-! ## Owners -/

/-- The pair that all others of its class are compared with: the entry of the map, or else the first
pair of the list. -/
def owner? (m : Map κ ν K V) (pairs : List (K × V)) (key : K) : Option (K × V) :=
  (m.getEntry? key).or (pairs.find? fun pair ↦ SameKey m.strategies.key pair.1 key)

section Owner

variable {m : Map κ ν K V} {pairs before after : List (K × V)} {pair : K × V} {key other : K}

theorem owner?_nil (m : Map κ ν K V) (key : K) : m.owner? [] key = m.getEntry? key := by
  simp [owner?]

theorem owner?_append (m : Map κ ν K V) (before after : List (K × V)) (key : K) :
    m.owner? (before ++ after) key
      = (m.owner? before key).or
          (after.find? fun pair ↦ SameKey m.strategies.key pair.1 key) := by
  rw [owner?, owner?, List.find?_append, Option.or_assoc]

theorem owner?_ne_none_iff :
    m.owner? pairs key ≠ none ↔
      m.getEntry? key ≠ none ∨ ∃ pair ∈ pairs, SameKey m.strategies.key pair.1 key := by
  simp [owner?, Option.or_eq_none_iff, or_iff_not_imp_left]

theorem Regular.getEntry?_congr (h : m.Regular) (hsame : SameKey m.strategies.key key other) :
    m.getEntry? key = m.getEntry? other := by
  ext entry
  rw [h.getEntry?_eq_some_iff, h.getEntry?_eq_some_iff]
  refine and_congr_right fun _ ↦ ⟨fun hentry ↦ h.lawful.sameKey_trans hentry hsame, ?_⟩
  exact fun hentry ↦ h.lawful.sameKey_trans hentry (h.lawful.sameKey_symm hsame)

end Owner

variable [ValueStrategy ν V] {m made : Map κ ν K V} {pairs : List (K × V)} {write : ℕ}
  {key other : K} {value : V}

/-- Whether pairs can be added: each one that is not itself the owner of its class has a value to
which the owner's is equal. A pair is the owner if neither the map nor a pair before it is. -/
def Compatible (m : Map κ ν K V) (pairs : List (K × V)) : Prop :=
  ∀ before pair after, pairs = before ++ pair :: after → m.owner? before pair.1 ≠ none →
    ∃ owner, m.owner? pairs pair.1 = some owner ∧
      ValueStrategy.equals m.strategies.value owner.2 pair.2 = true

/-! ## One pair -/

theorem Regular.getEntry?_of_insert (h : m.Regular) {policy : Policy} {root : Bucket K V}
    (houtcome : InsertOutcome m write key value policy (.changed root)) (other : K) :
    getEntry? { m with root := some root } other
      = if SameKey m.strategies.key key other then some (key, value) else m.getEntry? other := by
  have hmade := h.insert houtcome
  ext entry
  rw [hmade.getEntry?_eq_some_iff, h.mem_pairs_of_insert houtcome]
  split
  · next hsame =>
    constructor
    · rintro ⟨rfl | ⟨-, hne⟩, hentry⟩
      · rfl
      · exact absurd (h.lawful.sameKey_trans hentry (h.lawful.sameKey_symm hsame)) hne
    · intro heq
      rw [← Option.some_inj.mp heq]
      exact ⟨.inl rfl, hsame⟩
  · next hne =>
    rw [h.getEntry?_eq_some_iff]
    constructor
    · rintro ⟨rfl | ⟨hold, -⟩, hentry⟩
      · exact absurd hentry hne
      · exact ⟨hold, hentry⟩
    · rintro ⟨hold, hentry⟩
      refine ⟨.inr ⟨hold, fun hkey ↦ hne ?_⟩, hentry⟩
      exact h.lawful.sameKey_trans (h.lawful.sameKey_symm hkey) hentry

theorem Regular.getEntry?_of_add (h : m.Regular) (hadd : m.add write key value = .ok made)
    (other : K) :
    made.getEntry? other
      = if SameKey m.strategies.key key other then (m.getEntry? key).or (some (key, value))
        else m.getEntry? other := by
  obtain ⟨result, hinsert, houtcome⟩ := h.exists_insert .reject write key value
  rw [add, hinsert] at hadd
  cases houtcome with
  | entered place_eq entered =>
    have hentry : m.getEntry? key = none :=
      congrArg (Option.map Leaf.pair) (h.find?_eq_none place_eq)
    rw [← Except.ok.inj hadd, h.getEntry?_of_insert (.entered place_eq entered), hentry,
      Option.none_or]
  | kept row_eq place_eq =>
    rw [← Except.ok.inj hadd]
    split
    · next hsame =>
      rw [← h.getEntry?_congr hsame, getEntry?, h.find?_eq_some row_eq place_eq]
      rfl
    · rfl
  | refused => simp at hadd

/-- Sets a pair over one of its class. Of two with equal values, the first one stays. -/
def overlay (values : ν) (stored pair : K × V) : K × V :=
  if ValueStrategy.equals values stored.2 pair.2 then stored else pair

/-- What a class holds after one of its pairs is set. -/
def settle (values : ν) : Option (K × V) → K × V → Option (K × V)
  | none, pair => some pair
  | some stored, pair => some (overlay values stored pair)

/-- Setting a pair leaves it to its class, unless that has an entry with an equal value. -/
theorem Regular.getEntry?_set (h : m.Regular) (write : ℕ) (key : K) (value : V) (other : K) :
    getEntry? (m.set write key value) other
      = if SameKey m.strategies.key key other
        then settle m.strategies.value (m.getEntry? key) (key, value)
        else m.getEntry? other := by
  obtain ⟨result, hinsert, houtcome⟩ := h.exists_insert .overwrite write key value
  have hfound : m.getEntry? key = (m.find? key).map Leaf.pair := rfl
  rw [set, hinsert, hfound]
  cases houtcome with
  | entered place_eq entered =>
    rw [h.find?_eq_none place_eq]
    exact h.getEntry?_of_insert (.entered place_eq entered) other
  | kept row_eq place_eq equals_eq =>
    rw [h.find?_eq_some row_eq place_eq]
    dsimp only
    split
    · next hsame =>
      rw [← h.getEntry?_congr hsame, getEntry?, h.find?_eq_some row_eq place_eq]
      simp [settle, overlay, Leaf.pair, equals_eq]
    · rfl
  | replaced row_eq place_eq equals_eq root_eq replaced =>
    rw [h.find?_eq_some row_eq place_eq]
    dsimp only
    rw [h.getEntry?_of_insert (.replaced row_eq place_eq equals_eq root_eq replaced)]
    simp [settle, overlay, Leaf.pair, equals_eq]

theorem Regular.add (h : m.Regular) (hadd : m.add write key value = .ok made) : made.Regular := by
  have houtcome := h.editOutcome write (.add key value)
  rw [edited, edit, hadd] at houtcome
  exact houtcome.regular h

theorem Regular.set (h : m.Regular) (write : ℕ) (key : K) (value : V) :
    (m.set write key value).Regular :=
  (h.editOutcome write (.set key value)).regular h

/-! ## Adding a batch -/

/-- When a pair moves from the list into the map, all classes keep their owners. -/
theorem Regular.owner?_of_add (h : m.Regular) (hadd : m.add write key value = .ok made)
    (pairs : List (K × V)) (other : K) :
    made.owner? pairs other = m.owner? ((key, value) :: pairs) other := by
  rw [owner?, owner?, h.getEntry?_of_add hadd, strategies_add hadd, List.find?_cons]
  by_cases hsame : SameKey m.strategies.key key other
  · simp [hsame, h.getEntry?_congr hsame]
  · simp [hsame]

theorem Sound.add_refused_iff (h : m.Sound) (write : ℕ) (key : K) (value : V) :
    (∃ error, m.add write key value = .error error) ↔ ∃ stored, m.getEntry? key = some stored ∧
      ValueStrategy.equals m.strategies.value stored.2 value = false := by
  simp only [h.add_eq_error_iff, (m.answers_found key).get?_eq, Option.map_eq_some_iff]
  constructor
  · rintro ⟨_, -, _, ⟨stored, hstored, rfl⟩, hequals⟩
    exact ⟨stored, hstored, hequals⟩
  · rintro ⟨stored, hstored, hequals⟩
    exact ⟨_, rfl, _, ⟨stored, hstored, rfl⟩, hequals⟩

/-- The first pair is compatible if it can be added, and the others if they are with what is there
by then. -/
theorem Regular.compatible_cons_iff (h : m.Regular) (hadd : m.add write key value = .ok made)
    (pairs : List (K × V)) : m.Compatible ((key, value) :: pairs) ↔ made.Compatible pairs := by
  have hvalue : made.strategies.value = m.strategies.value := by rw [strategies_add hadd]
  constructor
  · intro hcompatible before pair after hpairs howned
    rw [h.owner?_of_add hadd] at howned
    rw [h.owner?_of_add hadd, hvalue]
    exact hcompatible ((key, value) :: before) pair after (congrArg _ hpairs) howned
  · intro hcompatible before pair after hpairs howned
    rcases before with _ | ⟨first, before⟩
    · obtain ⟨rfl, rfl⟩ := List.cons_eq_cons.mp hpairs
      rw [owner?_nil] at howned
      obtain ⟨stored, hstored⟩ := Option.ne_none_iff_exists'.mp howned
      refine ⟨stored, ?_, ?_⟩
      · rw [owner?, hstored, Option.some_or]
      · by_contra hne
        obtain ⟨error, herror⟩ := (h.add_refused_iff write key value).mpr
          ⟨stored, hstored, Bool.eq_false_iff.mpr hne⟩
        rw [hadd] at herror
        cases herror
    · obtain ⟨rfl, rfl⟩ := List.cons_eq_cons.mp hpairs
      rw [← h.owner?_of_add hadd] at howned ⊢
      rw [← hvalue]
      exact hcompatible before pair after rfl howned

theorem Compatible.equals_of_cons (hcompatible : m.Compatible ((key, value) :: pairs))
    {stored : K × V} (hstored : m.getEntry? key = some stored) :
    ValueStrategy.equals m.strategies.value stored.2 value = true := by
  have howned : m.owner? [] key ≠ none := by simp [owner?_nil, hstored]
  obtain ⟨owner, howner, hequals⟩ := hcompatible [] (key, value) pairs rfl howned
  rw [owner?, hstored, Option.some_or] at howner
  rwa [Option.some_inj.mp howner]

/-- A batch can be added if and only if it is compatible. -/
theorem Regular.exists_addAll_eq_ok_iff (h : m.Regular) (write : ℕ) (pairs : List (K × V)) :
    (∃ made, m.addAll write pairs = .ok made) ↔ m.Compatible pairs := by
  induction pairs generalizing m write with
  | nil =>
    refine iff_of_true ⟨m, rfl⟩ ?_
    intro before pair after hpairs
    simp at hpairs
  | cons pair pairs ih =>
    obtain ⟨key, value⟩ := pair
    rw [addAll]
    cases hadd : m.add write key value with
    | error error =>
      refine iff_of_false (by simp) fun hcompatible ↦ ?_
      obtain ⟨stored, hstored, hne⟩ :=
        (h.add_refused_iff write key value).mp ⟨error, hadd⟩
      rw [hcompatible.equals_of_cons hstored] at hne
      cases hne
    | ok next =>
      rw [h.compatible_cons_iff hadd]
      exact ih (h.add hadd) (write + 1)

theorem Regular.getEntry?_of_addAll (h : m.Regular) (hadd : m.addAll write pairs = .ok made)
    (key : K) : made.getEntry? key = m.owner? pairs key := by
  induction pairs generalizing m write with
  | nil => rw [← Except.ok.inj hadd, owner?_nil]
  | cons pair pairs ih =>
    rw [addAll] at hadd
    split at hadd
    · cases hadd
    · next hnext => rw [ih (h.add hnext) hadd, h.owner?_of_add hnext]

/-! ## Setting a batch -/

theorem Regular.getEntry?_setAll (h : m.Regular) (write : ℕ) (pairs : List (K × V)) (key : K) :
    getEntry? (m.setAll write pairs) key
      = (classmates m.strategies.key key pairs).foldl (settle m.strategies.value)
          (m.getEntry? key) := by
  induction pairs generalizing m write with
  | nil => rfl
  | cons pair pairs ih =>
    rw [setAll, ih (h.set write pair.1 pair.2), h.getEntry?_set, strategies_set, classmates,
      classmates, List.filter_cons]
    by_cases hsame : SameKey m.strategies.key pair.1 key
    · simp [hsame, h.getEntry?_congr hsame]
    · simp [hsame]

/-- What a class holds after pairs are set: beginning with its owner, each of its pairs is set over
what is there. -/
def survivor? (m : Map κ ν K V) (pairs : List (K × V)) (key : K) : Option (K × V) :=
  (m.owner? pairs key).map fun owner ↦
    (classmates m.strategies.key key pairs).foldl (overlay m.strategies.value) owner

private theorem foldl_settle_some (values : ν) (stored : K × V) (pairs : List (K × V)) :
    pairs.foldl (settle values) (some stored) = some (pairs.foldl (overlay values) stored) := by
  induction pairs generalizing stored with
  | nil => rfl
  | cons pair pairs ih => exact ih (overlay values stored pair)

/-- It makes no difference whether an owner that comes from the list is set over itself. -/
theorem survivor?_eq_foldl (m : Map κ ν K V) (pairs : List (K × V)) (key : K) :
    m.survivor? pairs key
      = (classmates m.strategies.key key pairs).foldl (settle m.strategies.value)
          (m.getEntry? key) := by
  rw [survivor?, owner?]
  cases m.getEntry? key with
  | some stored => rw [Option.some_or, foldl_settle_some, Option.map_some]
  | none =>
    rw [Option.none_or, ← List.head?_filter, ← classmates]
    cases classmates m.strategies.key key pairs with
    | nil => rfl
    | cons owner others =>
      have hself : overlay m.strategies.value owner owner = owner := ite_self owner
      rw [List.head?_cons, Option.map_some, List.foldl_cons, hself, List.foldl_cons, settle,
        foldl_settle_some]

/-! ## The outcome -/

/-- A map with the entries of another one and of a list of pairs, one for each class of keys, which
a function tells. -/
structure Absorbs (hlawful : LawfulKeys m.strategies.key) (pairs : List (K × V))
    (holder? : K → Option (K × V)) (made : Map κ ν K V) : Prop where
  /-- The strategies are kept. -/
  strategies_eq : made.strategies = m.strategies
  /-- The entry that a key belongs to is that of its class. -/
  getEntry?_eq : ∀ key, made.getEntry? key = holder? key
  /-- The entries of all classes are enumerated, and nothing else. -/
  mem_pairs_iff : ∀ entry, entry ∈ made.pairs ↔ holder? entry.1 = some entry
  /-- None is enumerated twice. -/
  distinct : DistinctKeys m.strategies.key made.pairs
  /-- A class without a pair in the list keeps the very entry that it had, if it had one. -/
  find?_eq : ∀ key, (∀ pair ∈ pairs, ¬ SameKey m.strategies.key pair.1 key) →
    made.find? key = m.find? key
  /-- The size grows by the number of classes that come with the list. -/
  size_eq : made.size = m.size + ((pairs.map fun pair ↦ hlawful.classOf pair.1).toFinset \
    (m.keys.map hlawful.classOf).toFinset).card

omit [ValueStrategy ν V] in
theorem Regular.classOf_mem_iff {s : κ} (h : m.Regular) (hs : m.strategies.key = s)
    (hlawful : LawfulKeys s) (key : K) :
    hlawful.classOf key ∈ (m.keys.map hlawful.classOf).toFinset ↔ m.getEntry? key ≠ none := by
  subst hs
  rw [List.mem_toFinset, List.mem_map, Option.ne_none_iff_exists']
  constructor
  · rintro ⟨stored, hstored, hclass⟩
    obtain ⟨entry, hentry, rfl⟩ := List.mem_map.mp hstored
    refine ⟨entry.pair, (h.getEntry?_eq_some_iff key entry.pair).mpr ?_⟩
    exact ⟨List.mem_map_of_mem hentry, hlawful.classOf_eq_iff.mp hclass⟩
  · rintro ⟨entry, hentry⟩
    obtain ⟨hmem, hsame⟩ := (h.getEntry?_eq_some_iff key entry).mp hentry
    obtain ⟨stored, hstored, rfl⟩ := List.mem_map.mp hmem
    exact ⟨stored.key, List.mem_map_of_mem hstored, hlawful.classOf_eq_iff.mpr hsame⟩

theorem Regular.find?_replay (h : m.Regular) (write : ℕ) {edits : List (Edit K V)} {key : K}
    (hne : ∀ edit ∈ edits, ¬ SameKey m.strategies.key key edit.key) :
    (m.replay write edits).find? key = m.find? key := by
  induction edits generalizing m write with
  | nil => rfl
  | cons edit edits ih =>
    rw [List.forall_mem_cons] at hne
    have houtcome := h.editOutcome write edit
    rw [Map.replay, ih (houtcome.regular h), h.find?_edited write hne.1]
    rw [houtcome.strategies_eq]
    exact hne.2

/-- A run of edits of the keys of a list absorbs it if every class has an entry afterwards that has
an owner. -/
theorem Regular.absorbs (h : m.Regular) (hlawful : LawfulKeys m.strategies.key) (write : ℕ)
    {edits : List (Edit K V)} (hkeys : edits.map Edit.key = pairs.map Prod.fst)
    {holder? : K → Option (K × V)}
    (hentry : ∀ key, getEntry? (m.replay write edits) key = holder? key)
    (howned : ∀ key, holder? key = none ↔ m.owner? pairs key = none) :
    Absorbs hlawful pairs holder? (m.replay write edits) := by
  obtain ⟨hmade, hstrategies⟩ := h.replay write edits
  have hfind : ∀ key, (∀ pair ∈ pairs, ¬ SameKey m.strategies.key pair.1 key) →
      (m.replay write edits).find? key = m.find? key := by
    intro key hne
    refine h.find?_replay write fun edit hedit hsame ↦ ?_
    have hkey : edit.key ∈ pairs.map Prod.fst := by
      rw [← hkeys]
      exact List.mem_map_of_mem hedit
    obtain ⟨pair, hpair, heq⟩ := List.mem_map.mp hkey
    rw [← heq] at hsame
    exact hne pair hpair (hlawful.sameKey_symm hsame)
  generalize m.replay write edits = made at hentry hmade hstrategies hfind
  have hkey : made.strategies.key = m.strategies.key := congrArg Strategies.key hstrategies
  have hdistinct := hmade.distinctKeys
  rw [hkey] at hdistinct
  refine ⟨hstrategies, hentry, ?_, hdistinct, hfind, ?_⟩
  · intro entry
    rw [← hentry, hmade.getEntry?_eq_some_iff, and_iff_left]
    exact hmade.lawful.sameKey_refl entry.1
  · -- the classes of the stored keys are those of the map and those of the list
    have hclasses : (made.keys.map hlawful.classOf).toFinset
        = (pairs.map fun pair ↦ hlawful.classOf pair.1).toFinset ∪
          (m.keys.map hlawful.classOf).toFinset := by
      ext c
      induction c using Quotient.inductionOn with
      | _ key =>
        change hlawful.classOf key ∈ _ ↔ hlawful.classOf key ∈ _
        rw [hmade.classOf_mem_iff hkey, hentry, Ne, howned, ← Ne, owner?_ne_none_iff,
          Finset.mem_union, h.classOf_mem_iff rfl, or_comm]
        simp [hlawful.classOf_eq_iff]
    rw [hmade.size_eq_card hkey hlawful, hclasses, h.size_eq_card rfl hlawful, Nat.add_comm]
    exact (Finset.card_sdiff_add_card _ _).symm

theorem Regular.absorbs_of_addAll (h : m.Regular) (hlawful : LawfulKeys m.strategies.key)
    (hadd : m.addAll write pairs = .ok made) : Absorbs hlawful pairs (m.owner? pairs) made := by
  have hentry := h.getEntry?_of_addAll hadd
  rw [eq_replay_of_addAll hadd] at hentry ⊢
  refine h.absorbs hlawful write ?_ hentry fun key ↦ Iff.rfl
  rw [List.map_map]
  rfl

theorem Regular.absorbs_setAll (h : m.Regular) (hlawful : LawfulKeys m.strategies.key) (write : ℕ)
    (pairs : List (K × V)) :
    Absorbs hlawful pairs (m.survivor? pairs) (m.setAll write pairs) := by
  have hentry : ∀ key, getEntry? (m.setAll write pairs) key = m.survivor? pairs key := by
    intro key
    rw [h.getEntry?_setAll, survivor?_eq_foldl]
  rw [setAll_eq_replay] at hentry ⊢
  refine h.absorbs hlawful write ?_ hentry fun key ↦ Option.map_eq_none_iff
  rw [List.map_map]
  rfl

/-- **Batches.** Under a lawful comparison of keys, a batch is added to a reachable map if and only
if all of its pairs are compatible with the owners of their classes, which are stored then. A batch
that is set leaves to every class what survives of its pairs. The same holds of a map that is
extended and of one that is made of a list. -/
theorem Reachable.batch_outcome [DecidableEq κ] (h : m.Reachable)
    (hlawful : LawfulKeys m.strategies.key) (write : ℕ) (pairs : List (K × V)) :
    ((∃ made, m.addAll write pairs = .ok made) ↔ m.Compatible pairs) ∧
    (m.addAll write pairs = .error .duplicateKey ↔ ¬ m.Compatible pairs) ∧
    (∀ made, m.addAll write pairs = .ok made → Absorbs hlawful pairs (m.owner? pairs) made) ∧
    Absorbs hlawful pairs (m.survivor? pairs) (m.setAll write pairs) ∧
    Absorbs hlawful pairs (m.survivor? pairs) (m.extend write pairs) ∧
    ∀ hcanonical : LawfulKeys (Map.empty : Map κ ν K V).strategies.key,
      Absorbs hcanonical pairs ((Map.empty : Map κ ν K V).survivor? pairs)
        (Map.ofList write pairs) := by
  have hregular := h.written.regular hlawful
  have hadd := hregular.exists_addAll_eq_ok_iff write pairs
  refine ⟨hadd, ?_, fun made ↦ hregular.absorbs_of_addAll hlawful,
    hregular.absorbs_setAll hlawful write pairs, hregular.absorbs_setAll hlawful write pairs, ?_⟩
  · rw [← hadd]
    cases hresult : m.addAll write pairs with
    | ok made => simp
    | error error => simp [eq_duplicateKey_of_addAll hresult]
  · intro hcanonical
    have hempty : (Map.empty : Map κ ν K V).Regular :=
      (Written.emptyUnder .canonical).regular hcanonical
    exact hempty.absorbs_setAll hcanonical write pairs

/-- A map whose values count as equal to all greater ones. -/
def graded : Map (Named WordRule) (Named IntegerRule) UInt32 Int32 :=
  (emptyUnder ⟨⟨.mod10, none⟩, ⟨.le, none⟩⟩).setAll 0 [(3, 30), (6, 1)]

/-- A batch in which the owner of one class is stored and that of another one comes first. -/
def gradedPairs : List (UInt32 × Int32) := [(13, 40), (4, 7), (14, 9), (24, 5), (34, 6)]

theorem batch_outcome_graded :
    ¬ graded.Compatible gradedPairs ∧ graded.Compatible (gradedPairs.take 3) ∧
      getEntry? (graded.setAll 2 gradedPairs) 44 = some (24, 5) ∧
      getEntry? (graded.setAll 2 gradedPairs) 23 = some (3, 30) ∧
      (graded.setAll 2 gradedPairs).find? 6 = graded.find? 6 ∧
      (graded.setAll 2 gradedPairs).size = 3 := by
  have h : graded.Reachable := .setAll (.emptyUnder _) 0 _
  have hlawful : LawfulKeys graded.strategies.key := .of_wordRule (by decide) none
  obtain ⟨-, hrefused, -, hset, -⟩ := h.batch_outcome hlawful 2 gradedPairs
  have hadded := (h.batch_outcome hlawful 2 (gradedPairs.take 3)).1
  have hforeign : (gradedPairs.all fun pair ↦
      !decide (SameKey graded.strategies.key pair.1 6)) = true := by decide
  refine ⟨hrefused.mp rfl, hadded.mp ⟨_, rfl⟩, (hset.getEntry?_eq 44).trans (by decide),
    (hset.getEntry?_eq 23).trans (by decide), hset.find?_eq 6 (by simpa using hforeign), by decide⟩

end Map

end RotaryTrie
