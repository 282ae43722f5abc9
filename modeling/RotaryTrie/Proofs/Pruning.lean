import RotaryTrie.Bucket.Layout
import RotaryTrie.Proofs.Outcome

/-!
# Pruning

Which layout does a trie have once some of its entries are gone? Removals may come in any order, and
each may shrink a chain, empty a slot or let a child take the place of its node. `Bucket.prune`
answers without any order: it keeps the entries that a predicate selects, leaves out what is
then empty, and puts a lone child in place of its node.

A write that only concerns entries that are not kept does not change what pruning leaves, in
whatever way it rebuilds the trie: new nodes over a kept bucket have nothing else to keep, and a
node that collapses had only one child worth keeping. A sound bucket all of whose entries are kept
is its own pruning. Together this determines a layout at the end of a run from that at the
beginning.
-/

set_option autoImplicit false

namespace RotaryTrie

open Bitmap

variable {K V : Type}

namespace Layout

/-- The number of entries, read off the top. -/
def count : Layout K V → ℕ
  | .leaf _ => 1
  | .chain _ entries => entries.length
  | .trie _ _ count _ => count

/-- The layout of the entries left of a chain. -/
def ofChain (hash : UInt32) : List (Content K V) → Option (Layout K V)
  | [] => none
  | [entry] => some (.leaf entry)
  | entries => some (.chain hash entries)

/-- The layout of the children left of a node, each with its slot. -/
def ofParts (rotation : UInt32) : List (UInt32 × Layout K V) → Option (Layout K V)
  | [] => none
  | [part] => some part.2
  | parts =>
    some (.trie rotation (wordOf (parts.map Prod.fst)) (parts.map fun part ↦ part.2.count).sum
      (parts.map Prod.snd))

/-- The children that are left, each with its slot. -/
def parts : List UInt32 → List (Option (Layout K V)) → List (UInt32 × Layout K V)
  | slot :: slots, some child :: children => (slot, child) :: parts slots children
  | _ :: slots, none :: children => parts slots children
  | _, _ => []

theorem parts_append {l₁ l₂ : List UInt32} {front rest : List (Option (Layout K V))}
    (h : l₁.length = front.length) :
    parts (l₁ ++ l₂) (front ++ rest) = parts l₁ front ++ parts l₂ rest := by
  induction l₁ generalizing front with
  | nil =>
    rw [List.eq_nil_of_length_eq_zero h.symm]
    rfl
  | cons slot l₁ ih =>
    cases front with
    | nil => exact absurd h (Nat.succ_ne_zero _)
    | cons child front =>
      have ih := ih (Nat.succ_inj.mp h)
      cases child with
      | none => exact ih
      | some child => exact congrArg ((slot, child) :: ·) ih

/-- Nothing comes of a slot whose child is not left. -/
theorem parts_append_none_cons {l₁ l₂ : List UInt32} {front rest : List (Option (Layout K V))}
    (h : l₁.length = front.length) (slot : UInt32) :
    parts (l₁ ++ slot :: l₂) (front ++ none :: rest) = parts (l₁ ++ l₂) (front ++ rest) := by
  rw [parts_append h, parts_append h, parts]

/-- A node with one child is as good as the child. -/
theorem ofParts_parts_singleton (rotation slot : UInt32) (child : Option (Layout K V)) :
    ofParts rotation (parts [slot] [child]) = child := by
  cases child <;> rfl

theorem parts_map_some {l : List UInt32} {children : List (Layout K V)}
    (h : l.length = children.length) : parts l (children.map some) = l.zip children := by
  induction l generalizing children with
  | nil => rfl
  | cons slot l ih =>
    cases children with
    | nil => exact absurd h (Nat.succ_ne_zero _)
    | cons child children => exact congrArg ((slot, child) :: ·) (ih (Nat.succ_inj.mp h))

theorem ofParts_of_two_le (rotation : UInt32) {parts : List (UInt32 × Layout K V)}
    (h : 2 ≤ parts.length) :
    ofParts rotation parts = some (.trie rotation (wordOf (parts.map Prod.fst))
      (parts.map fun part ↦ part.2.count).sum (parts.map Prod.snd)) := by
  match parts, h with
  | _ :: _ :: _, _ => rfl

theorem ofChain_of_two_le (hash : UInt32) {entries : List (Content K V)} (h : 2 ≤ entries.length) :
    ofChain hash entries = some (.chain hash entries) := by
  match entries, h with
  | _ :: _ :: _, _ => rfl

end Layout

namespace Bucket

mutual

/-- The layout of what is left of a bucket if only some entries are kept. -/
def prune (keep : Leaf K V → Bool) : Bucket K V → Option (Layout K V)
  | .leaf entry => if keep entry then some (.leaf entry.content) else none
  | .chain _ hash entries => Layout.ofChain hash ((entries.filter keep).map Leaf.content)
  | .trie _ rotation occupancy _ children =>
    Layout.ofParts rotation (Layout.parts (slots occupancy) (pruneAll keep children))

/-- The layouts of what is left of several buckets. -/
def pruneAll (keep : Leaf K V → Bool) : List (Bucket K V) → List (Option (Layout K V))
  | [] => []
  | child :: children => child.prune keep :: pruneAll keep children

end

section Prune

variable {keep : Leaf K V → Bool}

theorem pruneAll_append (front rest : List (Bucket K V)) :
    pruneAll keep (front ++ rest) = pruneAll keep front ++ pruneAll keep rest := by
  induction front with
  | nil => rfl
  | cons child front ih => exact congrArg (child.prune keep :: ·) ih

theorem length_pruneAll (children : List (Bucket K V)) :
    (pruneAll keep children).length = children.length := by
  induction children with
  | nil => rfl
  | cons child children ih => exact congrArg Nat.succ ih

theorem prune_leaf_of_not_keep {entry : Leaf K V} (h : keep entry = false) :
    (leaf entry).prune keep = none := by
  rw [prune, h, if_neg Bool.false_ne_true]

/-! ## One slot -/

variable {rotation occupancy slot : UInt32} {front rest : List (Bucket K V)} {entry : Leaf K V}

private theorem length_eq_of_front
    (h : List.Forall₂ (RoutedTo rotation) (below occupancy slot) front) :
    (below occupancy slot).length = (pruneAll keep front).length := by
  rw [h.length_eq, length_pruneAll]

/-- A vacant slot and one whose leaf is not kept are the same. -/
theorem VacantAt.parts_fill (h : VacantAt rotation occupancy slot front rest)
    (hentry : keep entry = false) :
    Layout.parts (slots (fill occupancy slot)) (pruneAll keep (front ++ .leaf entry :: rest))
      = Layout.parts (slots occupancy) (pruneAll keep (front ++ rest)) := by
  rw [slots_fill h.slot_lt, slots_eq_of_not_holds h.holds, pruneAll_append, pruneAll_append,
    pruneAll, prune_leaf_of_not_keep hentry,
    Layout.parts_append_none_cons (length_eq_of_front h.front)]

theorem FilledAt.parts_vacate (h : FilledAt rotation occupancy slot front (.leaf entry) rest)
    (hentry : keep entry = false) :
    Layout.parts (slots (vacate occupancy slot)) (pruneAll keep (front ++ rest))
      = Layout.parts (slots occupancy) (pruneAll keep (front ++ .leaf entry :: rest)) := by
  rw [slots_vacate h.slot_lt, slots_eq_of_holds h.slot_lt h.holds, pruneAll_append,
    pruneAll_append, pruneAll, prune_leaf_of_not_keep hentry,
    Layout.parts_append_none_cons (length_eq_of_front h.front)]

theorem pruneAll_append_cons {child new : Bucket K V} (h : new.prune keep = child.prune keep) :
    pruneAll keep (front ++ new :: rest) = pruneAll keep (front ++ child :: rest) := by
  rw [pruneAll_append, pruneAll_append, pruneAll, pruneAll, h]

end Prune

/-! ## Writes of entries that are not kept -/

variable {keep : Leaf K V → Bool} {r : Insertion K V} {write depth : ℕ} {stored : Leaf K V}
  {before after : List (Leaf K V)} {bucket grown new left : Bucket K V}

private theorem filter_append_cons (before after : List (Leaf K V)) (h : keep stored = false) :
    (before ++ stored :: after).filter keep = (before ++ after).filter keep := by
  rw [List.filter_append, List.filter_append, List.filter_cons_of_neg (Bool.eq_false_iff.mp h)]

private theorem ofChain_singleton (hash : UInt32) (entry : Leaf K V) :
    Layout.ofChain hash (([entry].filter keep).map Leaf.content) = (leaf entry).prune keep := by
  rw [prune, List.filter_singleton]
  cases keep entry <;> rfl

/-- An entry that is not kept joins. -/
theorem Joined.prune_eq (h : Joined r depth bucket grown) (hkeep : keep r.entry = false) :
    grown.prune keep = bucket.prune keep := by
  induction h with
  | @split _ bucket hash rotation _ _ _ _ _ alone vacant =>
    -- without the entry, the new node has the one child it was built over
    have hslots := slots_bit (slotOf_lt hash rotation)
    rw [prune, vacant.parts_fill hkeep, alone, hslots]
    exact Layout.ofParts_parts_singleton rotation _ _
  | @pair _ stored _ =>
    have hfilter : [stored, r.entry].filter keep = [stored].filter keep :=
      filter_append_cons [stored] [] hkeep
    rw [← ofChain_singleton r.entry.hash, prune, hfilter]
  | @append _ _ entries =>
    rw [prune, prune, filter_append_cons entries [] hkeep, List.append_nil]
  | fill vacant => rw [prune, prune, vacant.parts_fill hkeep]
  | descend filled below ih => rw [prune, prune, pruneAll_append_cons ih]

/-- An entry that is not kept takes the place of another one. -/
theorem Replaced.prune_eq (h : Replaced r stored before after depth bucket new)
    (hstored : keep stored = false) (hkeep : keep r.entry = false) :
    new.prune keep = bucket.prune keep := by
  induction h with
  | leaf => rw [prune_leaf_of_not_keep hstored, prune_leaf_of_not_keep hkeep]
  | @chain before after =>
    rw [prune, prune, filter_append_cons before after hkeep,
      filter_append_cons before after hstored]
  | descend filled below ih => rw [prune, prune, pruneAll_append_cons ih]

/-- An entry that is not kept is taken out. -/
theorem Removed.prune_eq (h : Removed write stored before after depth bucket left)
    (hstored : keep stored = false) : left.prune keep = bucket.prune keep := by
  induction h with
  | @survivor before after _ _ _ alone =>
    rw [← ofChain_singleton stored.hash, prune, filter_append_cons before after hstored, alone]
  | @chain before after => rw [prune, prune, filter_append_cons before after hstored]
  | @collapse _ _ rotation occupancy _ front rest other filled alone =>
    -- without the entry, the node has one child, the one that takes its place
    have hlength : (slots (Bitmap.vacate occupancy (slotOf stored.hash rotation))).length = 1 := by
      rw [filled.routed_vacate.length_eq, alone]
      rfl
    obtain ⟨slot, hslot⟩ := List.length_eq_one_iff.mp hlength
    rw [prune, ← filled.parts_vacate hstored, alone, hslot]
    exact (Layout.ofParts_parts_singleton rotation slot _).symm
  | vacate filled => rw [prune, prune, filled.parts_vacate hstored]
  | descend filled below ih => rw [prune, prune, pruneAll_append_cons ih]

/-! ## Keeping everything -/

theorem count_layout (bucket : Bucket K V) : bucket.layout.count = bucket.count := by
  cases bucket with
  | leaf => rfl
  | chain => exact List.length_map _
  | trie => rfl

private theorem sum_count_layoutAll (children : List (Bucket K V)) :
    ((layoutAll children).map Layout.count).sum = countAll children := by
  induction children with
  | nil => rfl
  | cons child children ih =>
    rw [layoutAll, List.map_cons, List.sum_cons, ih, count_layout, countAll]

private theorem pruneAll_eq_map_some {children : List (Bucket K V)}
    (h : ∀ child ∈ children, child.prune keep = some child.layout) :
    pruneAll keep children = (layoutAll children).map some := by
  induction children with
  | nil => rfl
  | cons child children ih =>
    rw [List.forall_mem_cons] at h
    rw [pruneAll, layoutAll, List.map_cons, h.1, ih h.2]

/-- If all entries are kept, the bucket stays as it is. -/
theorem Sound.prune_eq_self (h : bucket.Sound)
    (hkeep : ∀ entry ∈ bucket.leaves, keep entry = true) :
    bucket.prune keep = some bucket.layout := by
  induction h with
  | leaf entry =>
    rw [prune, if_pos (hkeep entry (List.mem_singleton_self entry))]
    rfl
  | @chain _ _ entries two_le =>
    have hfilter : entries.filter keep = entries := List.filter_eq_self.mpr hkeep
    rw [prune, hfilter, Layout.ofChain_of_two_le]
    · rfl
    · rwa [List.length_map]
  | @trie _ rotation occupancy count children _ two_le count_eq routed _ ih =>
    have hchildren : ∀ child ∈ children, child.prune keep = some child.layout := by
      intro child hchild
      exact ih child hchild fun entry hentry ↦
        hkeep entry (mem_leavesAll.mpr ⟨child, hchild, hentry⟩)
    have hlength : (slots occupancy).length = (layoutAll children).length := by
      rw [routed.length_eq, layoutAll_eq_map, List.length_map]
    have hzip : 2 ≤ ((slots occupancy).zip (layoutAll children)).length := by
      rwa [List.length_zip, ← hlength, Nat.min_self, routed.length_eq]
    -- the count of a pruned node is summed up anew, and comes to what it was
    have hsum : (((slots occupancy).zip (layoutAll children)).map fun part ↦ part.2.count).sum
        = count := by
      have hsnd := List.map_snd_zip (Nat.le_of_eq hlength.symm)
      rw [count_eq, ← sum_count_layoutAll, ← congrArg (List.map Layout.count) hsnd, List.map_map]
      rfl
    rw [prune, pruneAll_eq_map_some hchildren, Layout.parts_map_some hlength,
      Layout.ofParts_of_two_le rotation hzip, List.map_fst_zip (Nat.le_of_eq hlength),
      List.map_snd_zip (Nat.le_of_eq hlength.symm), hsum, wordOf_slots]
    rfl

end Bucket

/-! ## Maps -/

namespace Map

variable {κ ν : Type}

/-- The layout of a map's trie. -/
def layout (m : Map κ ν K V) : Option (Layout K V) := m.root.map Bucket.layout

/-- The layout of what is left of a map if only some entries are kept. -/
def prune (keep : Leaf K V → Bool) (m : Map κ ν K V) : Option (Layout K V) :=
  m.root.bind (Bucket.prune keep)

variable {m : Map κ ν K V} {keep : Leaf K V → Bool}

theorem Entered.prune_eq {r : Insertion K V} {grown : Bucket K V} (h : Entered r m.root grown)
    (hkeep : keep r.entry = false) : grown.prune keep = m.prune keep := by
  obtain ⟨root, _⟩ := m
  cases h with
  | first => exact Bucket.prune_leaf_of_not_keep hkeep
  | joined joined => exact joined.prune_eq hkeep

theorem Dropped.prune_eq {write : ℕ} {stored : Leaf K V} {before after : List (Leaf K V)}
    {rest : Option (Bucket K V)} (h : Dropped write stored before after m.root rest)
    (hkeep : keep stored = false) :
    ({ m with root := rest } : Map κ ν K V).prune keep = m.prune keep := by
  obtain ⟨root, _⟩ := m
  cases h with
  | last => exact (Bucket.prune_leaf_of_not_keep hkeep).symm
  | removed removed => exact removed.prune_eq hkeep

/-- If all entries are kept, the map stays as it is. -/
theorem prune_eq_layout (hm : ∀ bucket, m.root = some bucket → bucket.Sound)
    (hkeep : ∀ entry ∈ m.leaves, keep entry = true) : m.prune keep = m.layout := by
  cases hroot : m.root with
  | none =>
    rw [prune, layout, hroot]
    rfl
  | some bucket =>
    rw [leaves_of_root_eq hroot] at hkeep
    rw [prune, layout, hroot]
    exact (hm bucket hroot).prune_eq_self hkeep

end Map

end RotaryTrie
