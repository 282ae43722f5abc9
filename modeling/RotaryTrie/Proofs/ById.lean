import RotaryTrie.Proofs.Clock

/-!
# Changes told by identity

A write that finds nothing to do says so. It could as well hand up the bucket as it is: a node then
takes its child for unchanged if it gets back the very node that it passed down, and hands up itself
in turn. This module has the walks in that form. They come to the same results on every dated
bucket, for two reasons, and both are needed at every level: what is handed up unchanged is the same
node, and what is renewed never is.

An erasure is the delicate case, as a node that collapses hands up one of its own children. That
child is an old node, and it would be taken for the parent if the two could have one stamp.
-/

set_option autoImplicit false

namespace RotaryTrie

open Bitmap

variable {κ ν K V : Type}

/-- What an insertion hands up. -/
def Inserted.handUp (bucket : Bucket K V) : Inserted K V → Except MapError (Bucket K V)
  | .unchanged => .ok bucket
  | .conflict => .error .duplicateKey
  | .changed grown => .ok grown

/-- What an erasure hands up. -/
def Erased.handUp (bucket : Bucket K V) : Erased K V → Option (Bucket K V)
  | .unchanged => some bucket
  | .emptied => none
  | .changed left => some left

namespace Bucket

mutual

/-- Inserts an entry into a bucket. A trie node is built if another node comes back from the child,
and is handed up itself otherwise. -/
def insertById (r : Insertion K V) (depth : ℕ) (suggested : UInt32) :
    Bucket K V → Except Fault (Except MapError (Bucket K V))
  | .leaf stored =>
    ((leaf stored).insert r depth suggested).map (Inserted.handUp (.leaf stored))
  | .chain stamp hash entries =>
    ((chain stamp hash entries).insert r depth suggested).map
      (Inserted.handUp (.chain stamp hash entries))
  | .trie stamp rotation occupancy count children =>
    if holds occupancy (slotOf r.entry.hash rotation) then
      match insertByIdAt r (depth + 1) (rotation + bitsPerLevel)
          (rank occupancy (slotOf r.entry.hash rotation)) children with
      | .error fault => .error fault
      | .ok (_, .error error) => .ok (.error error)
      | .ok (child, .ok grown) =>
        if grown.sameNode child then .ok (.ok (.trie stamp rotation occupancy count children))
        else (replaceSlot (r.stampAt depth) rotation occupancy count children
          (slotOf r.entry.hash rotation) child grown).map .ok
    else
      (fillSlot (r.stampAt depth) rotation occupancy count children (slotOf r.entry.hash rotation)
        r.entry).map .ok

/-- Inserts an entry into the child at a position, which is returned along with the result. -/
def insertByIdAt (r : Insertion K V) (depth : ℕ) (suggested : UInt32) :
    ℕ → List (Bucket K V) → Except Fault (Bucket K V × Except MapError (Bucket K V))
  | _, [] => .error .missingChild
  | 0, child :: _ => (child.insertById r depth suggested).map fun handed ↦ (child, handed)
  | index + 1, _ :: children => insertByIdAt r depth suggested index children

end

mutual

/-- Erases a key from a bucket. Nothing comes back from a leaf with the key, and a trie node is
built if another node comes back from the child. -/
def eraseById (p : Probe K) (write depth : ℕ) :
    Bucket K V → Except Fault (Option (Bucket K V))
  | .leaf entry => ((leaf entry).erase p write depth).map (Erased.handUp (.leaf entry))
  | .chain stamp hash entries =>
    ((chain stamp hash entries).erase p write depth).map
      (Erased.handUp (.chain stamp hash entries))
  | .trie stamp rotation occupancy count children =>
    if holds occupancy (slotOf p.hash rotation) then
      match eraseByIdAt p write (depth + 1) (rank occupancy (slotOf p.hash rotation))
          children with
      | .error fault => .error fault
      | .ok (child, none) =>
        (vacateSlot ⟨write, depth⟩ rotation occupancy count children (slotOf p.hash rotation)
          child).map some
      | .ok (child, some left) =>
        if left.sameNode child then .ok (some (.trie stamp rotation occupancy count children))
        else (replaceSlot ⟨write, depth⟩ rotation occupancy count children
          (slotOf p.hash rotation) child left).map some
    else
      .ok (some (.trie stamp rotation occupancy count children))

/-- Erases a key from the child at a position, which is returned along with the result. -/
def eraseByIdAt (p : Probe K) (write depth : ℕ) :
    ℕ → List (Bucket K V) → Except Fault (Bucket K V × Option (Bucket K V))
  | _, [] => .error .missingChild
  | 0, child :: _ => (child.eraseById p write depth).map fun handed ↦ (child, handed)
  | index + 1, _ :: children => eraseByIdAt p write depth index children

end

theorem insertByIdAt_eq (r : Insertion K V) (depth : ℕ) (suggested : UInt32) (index : ℕ)
    (children : List (Bucket K V)) :
    insertByIdAt r depth suggested index children =
      match children[index]? with
      | none => .error .missingChild
      | some child => (child.insertById r depth suggested).map fun handed ↦ (child, handed) := by
  induction children generalizing index with
  | nil => rfl
  | cons child children ih =>
    cases index with
    | zero => rfl
    | succ index => exact ih index

theorem eraseByIdAt_eq (p : Probe K) (write depth index : ℕ) (children : List (Bucket K V)) :
    eraseByIdAt p write depth index children =
      match children[index]? with
      | none => .error .missingChild
      | some child => (child.eraseById p write depth).map fun handed ↦ (child, handed) := by
  induction children generalizing index with
  | nil => rfl
  | cons child children ih =>
    cases index with
    | zero => rfl
    | succ index => exact ih index

variable {bucket : Bucket K V}

theorem InsertOutcome.renewed {r : Insertion K V} {depth : ℕ} {grown : Bucket K V}
    (h : InsertOutcome r depth bucket (.changed grown))
    (hbucket : bucket.Dated r.entry.stamp.write) :
    Renewed r.entry.stamp.write depth bucket grown := by
  cases h with
  | joined _ joined => exact joined.renewed hbucket
  | replaced _ _ _ replaced => exact replaced.renewed hbucket

/-- **Insertion.** On a dated bucket, an insertion that is told by identity hands up what an
insertion comes to. -/
theorem Sound.insertById_eq (h : bucket.Sound) (r : Insertion K V)
    (hdated : bucket.Dated r.entry.stamp.write) (depth : ℕ) (suggested : UInt32) :
    bucket.insertById r depth suggested
      = (bucket.insert r depth suggested).map (Inserted.handUp bucket) := by
  induction h generalizing depth suggested with
  | leaf => rfl
  | chain => rfl
  | @trie stamp rotation occupancy count children _ _ _ routed sound ih =>
    have hslot := slotOf_lt r.entry.hash rotation
    by_cases hholds : holds occupancy (slotOf r.entry.hash rotation) = true
    · obtain ⟨front, child, rest, rfl, filled⟩ := exists_filledAt routed hslot hholds
      have hmem : child ∈ front ++ child :: rest := List.mem_append_right _ List.mem_cons_self
      have hchild := hdated.forall_mem child hmem
      obtain ⟨result, hinsert, houtcome⟩ :=
        (sound child hmem).exists_insert r (depth + 1) (rotation + bitsPerLevel)
      have hitem : (front ++ child :: rest)[rank occupancy (slotOf r.entry.hash rotation)]?
          = some child := Dense.getElem?_rank child filled.length_front
      rw [filled.insert_eq, insertById, if_pos hholds, insertByIdAt_eq, hitem]
      dsimp only
      rw [ih child hmem hchild, hinsert]
      cases result with
      | unchanged => exact if_pos child.sameNode_refl
      | conflict => rfl
      | changed grown =>
        -- another node has come back, so the update is not lost
        have hrenewed := houtcome.renewed hchild
        refine (if_neg (Bool.eq_false_iff.mp hrenewed.sameNode_eq)).trans ?_
        dsimp only [Except.map]
        cases replaceSlot (r.stampAt depth) rotation occupancy count (front ++ child :: rest)
          (slotOf r.entry.hash rotation) child grown <;> rfl
    · rw [insertById, if_neg hholds, insert, if_neg hholds]
      cases fillSlot (r.stampAt depth) rotation occupancy count children
        (slotOf r.entry.hash rotation) r.entry <;> rfl

/-- **Erasure.** On a dated bucket, an erasure that is told by identity hands up what an erasure
comes to. -/
theorem Sound.eraseById_eq (h : bucket.Sound) (p : Probe K) {write : ℕ}
    (hdated : bucket.Dated write) (depth : ℕ) :
    bucket.eraseById p write depth
      = (bucket.erase p write depth).map (Erased.handUp bucket) := by
  induction h generalizing depth with
  | leaf => rfl
  | chain => rfl
  | @trie stamp rotation occupancy count children _ _ _ routed sound ih =>
    have hslot := slotOf_lt p.hash rotation
    by_cases hholds : holds occupancy (slotOf p.hash rotation) = true
    · obtain ⟨front, child, rest, rfl, filled⟩ := exists_filledAt routed hslot hholds
      have hmem : child ∈ front ++ child :: rest := List.mem_append_right _ List.mem_cons_self
      have hchild := hdated.forall_mem child hmem
      obtain ⟨result, herase, houtcome⟩ := (sound child hmem).exists_erase p write (depth + 1)
      have hitem : (front ++ child :: rest)[rank occupancy (slotOf p.hash rotation)]?
          = some child := Dense.getElem?_rank child filled.length_front
      rw [filled.erase_eq, eraseById, if_pos hholds, eraseByIdAt_eq, hitem]
      dsimp only
      rw [ih child hmem hchild, herase]
      cases houtcome with
      | missing => exact if_pos child.sameNode_refl
      | emptied =>
        dsimp only [Except.map, Erased.handUp]
        cases vacateSlot ⟨write, depth⟩ rotation occupancy count (front ++ child :: rest)
          (slotOf p.hash rotation) child <;> rfl
      | @removed _ _ _ left _ _ removed =>
        -- this holds also where the child has collapsed and an old node comes back
        have hrenewed := removed.renewed hchild
        refine (if_neg (Bool.eq_false_iff.mp hrenewed.sameNode_eq)).trans ?_
        dsimp only [Except.map]
        cases replaceSlot ⟨write, depth⟩ rotation occupancy count (front ++ child :: rest)
          (slotOf p.hash rotation) child left <;> rfl
    · rw [eraseById, if_neg hholds, erase, if_neg hholds]
      rfl

end Bucket

/-! ## Maps -/

namespace Map

/-- The map with the root that a write hands up. If that is the same node, or both are absent, it is
the very map. -/
def wrap (m : Map κ ν K V) (root : Option (Bucket K V)) : Map κ ν K V :=
  if sameRoot root m.root then m else { m with root }

section Operations

variable [KeyStrategy κ K] (m : Map κ ν K V)

/-- Writes a pair, as far as the policy allows. -/
def insertById [ValueStrategy ν V] (policy : Policy) (write : ℕ) (key : K) (value : V) :
    Except Fault (Except MapError (Map κ ν K V)) :=
  match m.root with
  | none => .ok (.ok (m.wrap (some (.leaf (m.entryOf write key value)))))
  | some root =>
    (root.insertById (m.insertion policy write key value) 0 0).map fun handed ↦
      handed.map fun grown ↦ m.wrap (some grown)

/-- Erases a key. -/
def eraseById (write : ℕ) (key : K) : Except Fault (Map κ ν K V) :=
  match m.root with
  | none => .ok m
  | some root => (root.eraseById (m.probe key) write 0).map m.wrap

end Operations

variable {m made : Map κ ν K V} {write : ℕ}

theorem wrap_root (m : Map κ ν K V) : m.wrap m.root = m := if_pos (sameRoot_refl m.root)

theorem Renewed.wrap_eq {root : Option (Bucket K V)} (h : m.Renewed write { m with root }) :
    m.wrap root = { m with root } := if_neg (Bool.eq_false_iff.mp h.sameRoot_eq)

variable [KeyStrategy κ K]

theorem EraseOutcome.wrap_eq {key : K} {rest : Option (Bucket K V)}
    (h : EraseOutcome m write key rest) (hm : m.Dated write) :
    m.wrap rest = { m with root := rest } := by
  cases h with
  | missing => exact m.wrap_root
  | dropped _ _ dropped => exact (dropped.renewed hm).wrap_eq

theorem eraseRoot_some (m : Map κ ν K V) (write : ℕ) (key : K) (root : Bucket K V) :
    m.eraseRoot write key (some root)
      = (root.erase (m.probe key) write 0).map (Erased.handUp root) := by
  rw [eraseRoot]
  cases root.erase (m.probe key) write 0 with
  | error => rfl
  | ok result => cases result <;> rfl

/-- An erasure that is told by identity is an erasure. -/
theorem Sound.eraseById_eq (h : m.Sound) (hm : m.Dated write) (key : K) :
    m.eraseById write key = .ok (m.erase write key) := by
  obtain ⟨rest, herase, houtcome⟩ := h.exists_eraseRoot write key
  have hwrap := houtcome.wrap_eq hm
  rw [eraseById, erase, herase]
  cases hroot : m.root with
  | none =>
    rw [hroot] at herase
    cases herase
    -- an absent root counts as the same, so both ways end with the very map
    have hself := m.wrap_root
    rw [hroot, hwrap] at hself
    exact congrArg Except.ok hself.symm
  | some root =>
    rw [hroot, eraseRoot_some] at herase
    dsimp only
    rw [(h.root root hroot).eraseById_eq _ (hm root hroot), herase]
    exact congrArg Except.ok hwrap

variable [ValueStrategy ν V]

theorem InsertOutcome.wrap_eq {key : K} {value : V} {policy : Policy} {grown : Bucket K V}
    (h : InsertOutcome m write key value policy (.changed grown)) (hm : m.Dated write) :
    m.wrap (some grown) = { m with root := some grown } := by
  cases h with
  | entered _ entered => exact (entered.renewed hm).wrap_eq
  | replaced _ _ _ root_eq replaced =>
    exact (Renewed.of_bucket root_eq (replaced.renewed (hm _ root_eq))).wrap_eq

/-- An insertion that is told by identity wraps what an insertion comes to. -/
theorem Sound.insertById_eq (h : m.Sound) (hm : m.Dated write) (policy : Policy) (key : K)
    (value : V) :
    m.insertById policy write key value = (m.insert policy write key value).map fun result ↦
      match result with
      | .unchanged => .ok m
      | .conflict => .error .duplicateKey
      | .changed grown => .ok { m with root := some grown } := by
  obtain ⟨result, hinsert, houtcome⟩ := h.exists_insert policy write key value
  rw [insertById, hinsert]
  cases hroot : m.root with
  | none =>
    rw [insert_of_root_eq_none hroot] at hinsert
    cases hinsert
    dsimp only
    rw [houtcome.wrap_eq hm]
    rfl
  | some root =>
    have hdated : root.Dated (m.insertion policy write key value).entry.stamp.write :=
      hm root hroot
    rw [insert_of_root_eq hroot] at hinsert
    dsimp only
    rw [(h.root root hroot).insertById_eq _ hdated, hinsert]
    cases result with
    | unchanged =>
      have hwrap := m.wrap_root
      rw [hroot] at hwrap
      exact congrArg (fun made ↦ Except.ok (Except.ok made)) hwrap
    | conflict => rfl
    | changed => exact congrArg (fun made ↦ Except.ok (Except.ok made)) (houtcome.wrap_eq hm)

theorem Sound.addById_eq (h : m.Sound) (hm : m.Dated write) (key : K) (value : V) :
    m.insertById .reject write key value = .ok (m.add write key value) := by
  obtain ⟨result, hinsert, -⟩ := h.exists_insert .reject write key value
  rw [h.insertById_eq hm, add, hinsert]
  cases result <;> rfl

theorem Sound.setById_eq (h : m.Sound) (hm : m.Dated write) (key : K) (value : V) :
    m.insertById .overwrite write key value = .ok (.ok (m.set write key value)) := by
  obtain ⟨result, hinsert, houtcome⟩ := h.exists_insert .overwrite write key value
  rw [h.insertById_eq hm, set, hinsert]
  cases houtcome <;> rfl

end Map

end RotaryTrie
