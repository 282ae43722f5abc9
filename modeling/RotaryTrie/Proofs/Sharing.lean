import RotaryTrie.Proofs.Depth
import RotaryTrie.Proofs.Sequence

/-!
# Sharing

A write of one key builds new nodes only on the *descent* of the key's hash, the nodes that a search
for it would meet, and takes all others over. This module says so in both directions, node by node
and entry by entry, and bounds the number of new nodes by thirty: a descent has twenty-nine nodes
at most, and a chain at its end may hold one new entry more.

Nodes are compared here together with their stamps and everything below them. So what is taken over
is the very same node, and a node that is not among those of the old map is a new one.

## Two tries at a hash

`Bucket.Shared` relates a bucket and what becomes of it. It is shown for a leaf or chain that
becomes another one, for a node that gets, loses or passes on a leaf, and, going up, for a node with
a child it holds of. The inductions over the effects of writes then consist of these cases.
-/

set_option autoImplicit false

namespace RotaryTrie

open Bitmap

variable {K V : Type}

namespace Bucket

/-! ## Nodes and entries -/

/-- A bucket and, if it is a chain, its entries. -/
def withEntries : Bucket K V → List (Bucket K V)
  | .chain stamp hash entries => .chain stamp hash entries :: entries.map .leaf
  | bucket => [bucket]

/-- The buckets of a trie and the entries of its chains. -/
def cells (bucket : Bucket K V) : List (Bucket K V) := bucket.nodes.flatMap withEntries

section Trie

variable (stamp : Stamp) (rotation occupancy : UInt32) (count : ℕ) (children : List (Bucket K V))

theorem nodes_trie : (trie stamp rotation occupancy count children).nodes
    = trie stamp rotation occupancy count children :: children.flatMap nodes := by
  rw [nodes, nodesAll_eq_flatMap]

theorem cells_trie : (trie stamp rotation occupancy count children).cells
    = trie stamp rotation occupancy count children :: children.flatMap cells := by
  rw [cells, nodes_trie, List.flatMap_cons, List.flatMap_assoc]
  rfl

end Trie

theorem mem_cells_chain {stamp : Stamp} {hash : UInt32} {entries : List (Leaf K V)}
    {cell : Bucket K V} :
    cell ∈ (chain stamp hash entries).cells
      ↔ cell = chain stamp hash entries ∨ ∃ entry ∈ entries, leaf entry = cell := by
  rw [cells, nodes, List.flatMap_singleton, withEntries, List.mem_cons, List.mem_map]

theorem self_mem_cells (bucket : Bucket K V) : bucket ∈ bucket.cells := by
  cases bucket with
  | leaf => exact List.mem_cons_self
  | chain => exact List.mem_cons_self
  | trie =>
    rw [cells_trie]
    exact List.mem_cons_self

section AppendCons

variable {stamp : Stamp} {rotation occupancy : UInt32} {count : ℕ} {front rest : List (Bucket K V)}
  {child : Bucket K V}

theorem mem_nodes_append_cons {node : Bucket K V} :
    node ∈ (trie stamp rotation occupancy count (front ++ child :: rest)).nodes
      ↔ node = trie stamp rotation occupancy count (front ++ child :: rest) ∨
        node ∈ child.nodes ∨ node ∈ (front ++ rest).flatMap nodes := by
  simp only [nodes_trie, List.mem_cons, List.flatMap_append, List.flatMap_cons, List.mem_append]
  tauto

theorem mem_cells_append_cons {cell : Bucket K V} :
    cell ∈ (trie stamp rotation occupancy count (front ++ child :: rest)).cells
      ↔ cell = trie stamp rotation occupancy count (front ++ child :: rest) ∨
        cell ∈ child.cells ∨ cell ∈ (front ++ rest).flatMap cells := by
  simp only [cells_trie, List.mem_cons, List.flatMap_append, List.flatMap_cons, List.mem_append]
  tauto

/-- The nodes beside a child are nodes of its parent. -/
theorem mem_nodes_of_mem_others {node : Bucket K V} (h : node ∈ (front ++ rest).flatMap nodes) :
    node ∈ (trie stamp rotation occupancy count (front ++ child :: rest)).nodes :=
  mem_nodes_append_cons.mpr (.inr (.inr h))

variable (stamp rotation occupancy count front rest child) in
/-- The cells of a node, counted apart for one child. -/
theorem countP_cells_append_cons_le (p : Bucket K V → Bool) :
    (trie stamp rotation occupancy count (front ++ child :: rest)).cells.countP p
      ≤ child.cells.countP p + ((front ++ rest).flatMap cells).countP p + 1 := by
  simp only [cells_trie, List.countP_cons, List.flatMap_append, List.flatMap_cons,
    List.countP_append]
  split <;> omega

end AppendCons

/-- If the nodes below some buckets are among those of another one, so are the cells. -/
theorem mem_cells_of_nodes {bucket node : Bucket K V} {children : List (Bucket K V)}
    (h : ∀ node ∈ children.flatMap nodes, node ∈ bucket.nodes)
    (hnode : node ∈ children.flatMap cells) : node ∈ bucket.cells := by
  obtain ⟨child, hchild, hnode⟩ := List.mem_flatMap.mp hnode
  obtain ⟨inner, hinner, hnode⟩ := List.mem_flatMap.mp hnode
  exact List.mem_flatMap.mpr ⟨inner, h inner (List.mem_flatMap.mpr ⟨child, hchild, hinner⟩), hnode⟩

/-! ## The descent of a hash -/

mutual

/-- The nodes that a hash leads through: the bucket itself and, while the hash's slot is filled, the
child in this slot and what the hash leads through there. -/
def descent (hash : UInt32) : Bucket K V → List (Bucket K V)
  | .leaf entry => [.leaf entry]
  | .chain stamp own entries => [.chain stamp own entries]
  | .trie stamp rotation occupancy count children =>
    let slot := slotOf hash rotation
    .trie stamp rotation occupancy count children ::
      if holds occupancy slot then descentAt hash (rank occupancy slot) children else []

/-- The descent of a hash in the child at a position. -/
def descentAt (hash : UInt32) : ℕ → List (Bucket K V) → List (Bucket K V)
  | _, [] => []
  | 0, child :: _ => child.descent hash
  | index + 1, _ :: children => descentAt hash index children

end

theorem descentAt_eq (hash : UInt32) (index : ℕ) (children : List (Bucket K V)) :
    descentAt hash index children = (children[index]?).elim [] (descent hash) := by
  induction children generalizing index with
  | nil => simp [descentAt]
  | cons child children ih => cases index <;> simp [descentAt, ih]

theorem descent_of_rotation? {bucket : Bucket K V} (h : bucket.rotation? = none) (hash : UInt32) :
    bucket.descent hash = [bucket] := by
  cases bucket with
  | leaf => rfl
  | chain => rfl
  | trie => simp [rotation?] at h

theorem self_mem_descent (hash : UInt32) (bucket : Bucket K V) : bucket ∈ bucket.descent hash := by
  cases bucket <;> simp [descent]

section Trie

variable {hash rotation occupancy : UInt32} {front rest : List (Bucket K V)}
  (stamp : Stamp) (count : ℕ) (child : Bucket K V)

theorem descent_append_cons (hholds : holds occupancy (slotOf hash rotation) = true)
    (hlength : front.length = rank occupancy (slotOf hash rotation)) :
    (trie stamp rotation occupancy count (front ++ child :: rest)).descent hash
      = trie stamp rotation occupancy count (front ++ child :: rest) :: child.descent hash := by
  simp only [descent, hholds, if_true, descentAt_eq, Dense.getElem?_rank child hlength,
    Option.elim_some]

/-- A filled slot is met by the hashes of this slot. -/
theorem VacantAt.descent_fill
    (h : VacantAt rotation occupancy (slotOf hash rotation) front rest) :
    (trie stamp rotation (fill occupancy (slotOf hash rotation)) count
        (front ++ child :: rest)).descent hash
      = trie stamp rotation (fill occupancy (slotOf hash rotation)) count (front ++ child :: rest)
        :: child.descent hash := by
  refine descent_append_cons stamp count child ?_ ?_
  · simp [holds_fill occupancy h.slot_lt h.slot_lt]
  · rw [h.length_front, ← length_below _ h.slot_lt, ← length_below _ h.slot_lt,
      below_fill h.slot_lt]

end Trie

theorem Sound.exists_along_eq_descent {bucket : Bucket K V} (h : bucket.Sound) (hash : UInt32) :
    ∃ path, bucket.along path = bucket.descent hash := by
  induction h with
  | leaf => exact ⟨[], along_nil _⟩
  | chain => exact ⟨[], along_nil _⟩
  | @trie stamp rotation occupancy count children _ _ _ routed _ ih =>
    have hslot := slotOf_lt hash rotation
    cases hholds : holds occupancy (slotOf hash rotation) with
    | false =>
      refine ⟨[], ?_⟩
      rw [along_nil]
      simp [descent, hholds]
    | true =>
      obtain ⟨front, child, rest, rfl, filled⟩ := exists_filledAt routed hslot hholds
      obtain ⟨path, hpath⟩ := ih child (by simp)
      refine ⟨front.length :: path, ?_⟩
      rw [along_trie_cons, getElem?_append_cons rfl, Option.elim_some, hpath,
        descent_append_cons stamp count child hholds filled.length_front]

/-- A descent leads through no more than twenty-nine nodes. -/
theorem Sound.length_descent_le {bucket : Bucket K V} (h : bucket.Sound) (hash : UInt32) :
    (bucket.descent hash).length ≤ 29 := by
  obtain ⟨path, hpath⟩ := h.exists_along_eq_descent hash
  rw [← hpath]
  exact h.length_along_le path

/-! ## What is shared -/

/-- What becomes of a bucket differs from it only where a hash leads, and by one entry. -/
structure Shared (hash : UInt32) (bucket new : Bucket K V) : Prop where
  /-- Every node is an old one or on the descent. -/
  nodes_new : ∀ node ∈ new.nodes, node ∈ bucket.nodes ∨ node ∈ new.descent hash
  /-- Every old node is kept or was on the descent. -/
  nodes_old : ∀ node ∈ bucket.nodes, node ∈ new.nodes ∨ node ∈ bucket.descent hash
  /-- There are not more new nodes than the descent has, and one. -/
  count_le : ∀ known : Bucket K V → Bool, (∀ node ∈ bucket.cells, known node = true) →
    new.cells.countP (fun node ↦ !known node) ≤ (new.descent hash).length + 1

section Shared

variable {hash rotation occupancy : UInt32} {bucket new child : Bucket K V}
  {front rest : List (Bucket K V)} {known : Bucket K V → Bool}

theorem countP_cells_eq_zero {children : List (Bucket K V)}
    (hknown : ∀ node ∈ bucket.cells, known node = true)
    (h : ∀ node ∈ children.flatMap nodes, node ∈ bucket.nodes) :
    (children.flatMap cells).countP (fun node ↦ !known node) = 0 := by
  refine List.countP_eq_zero.mpr fun node hnode ↦ ?_
  simp [hknown node (mem_cells_of_nodes h hnode)]

/-- The cells of a leaf or chain are the bucket and entries. -/
theorem countP_cells_le_of_rotation? (h : new.rotation? = none) (p : Bucket K V → Bool) :
    new.cells.countP p ≤ new.leaves.countP (fun entry ↦ p (.leaf entry)) + 1 := by
  cases new with
  | leaf entry =>
    have hlength := List.countP_le_length (p := p) (l := (leaf entry).cells)
    exact hlength.trans (Nat.le_add_left 1 _)
  | chain stamp hash entries =>
    simp only [cells, nodes, List.flatMap_singleton, withEntries, List.countP_cons, leaves,
      List.countP_map, Function.comp_def]
    split <;> omega
  | trie => simp [rotation?] at h

theorem leaf_mem_cells (h : bucket.rotation? = none) {entry : Leaf K V}
    (hentry : entry ∈ bucket.leaves) : leaf entry ∈ bucket.cells := by
  cases bucket with
  | leaf => simpa [cells, nodes, withEntries, leaves] using hentry
  | chain => simpa [cells, nodes, withEntries, leaves] using hentry
  | trie => simp [rotation?] at h

theorem nodes_of_rotation? (h : bucket.rotation? = none) : bucket.nodes = [bucket] := by
  cases bucket with
  | leaf => rfl
  | chain => rfl
  | trie => simp [rotation?] at h

/-- A leaf or chain becomes another one, with one new entry at most. -/
theorem Shared.flat (entry : Leaf K V) (hbucket : bucket.rotation? = none)
    (hnew : new.rotation? = none) (hleaves : new.leaves.Subperm (entry :: bucket.leaves)) :
    Shared hash bucket new := by
  refine ⟨?_, ?_, ?_⟩
  · intro node hnode
    rw [descent_of_rotation? hnew]
    rw [nodes_of_rotation? hnew] at hnode
    exact .inr hnode
  · intro node hnode
    rw [descent_of_rotation? hbucket]
    rw [nodes_of_rotation? hbucket] at hnode
    exact .inr hnode
  · intro known hknown
    have hold : bucket.leaves.countP (fun entry ↦ !known (.leaf entry)) = 0 := by
      refine List.countP_eq_zero.mpr fun other hother ↦ ?_
      simp [hknown _ (leaf_mem_cells hbucket hother)]
    have hcells := countP_cells_le_of_rotation? hnew fun node ↦ !known node
    have hentries := hleaves.countP_le fun entry ↦ !known (.leaf entry)
    rw [descent_of_rotation? hnew, List.length_singleton]
    rw [List.countP_cons, hold] at hentries
    split at hentries <;> omega

/-- A leaf comes to a vacant slot of a node, or of what is seen as one. -/
theorem Shared.fill (entry : Leaf K V) (stamp : Stamp) (count : ℕ)
    (vacant : VacantAt rotation occupancy (slotOf entry.hash rotation) front rest)
    (hnew : ∀ node ∈ (front ++ rest).flatMap nodes, node ∈ bucket.nodes)
    (hold : ∀ node ∈ bucket.nodes,
      node ∈ (front ++ rest).flatMap nodes ∨ node ∈ bucket.descent entry.hash) :
    Shared entry.hash bucket (.trie stamp rotation
      (Bitmap.fill occupancy (slotOf entry.hash rotation)) count
      (front ++ .leaf entry :: rest)) := by
  have hdescent := vacant.descent_fill stamp count (.leaf entry)
  refine ⟨?_, ?_, ?_⟩
  · intro node hnode
    rw [hdescent, List.mem_cons]
    rcases mem_nodes_append_cons.mp hnode with rfl | hleaf | hothers
    · exact .inr (.inl rfl)
    · exact .inr (.inr hleaf)
    · exact .inl (hnew node hothers)
  · intro node hnode
    rw [mem_nodes_append_cons]
    exact (hold node hnode).imp_left fun hothers ↦ .inr (.inr hothers)
  · intro known hknown
    have hcells := countP_cells_append_cons_le stamp rotation
      (Bitmap.fill occupancy (slotOf entry.hash rotation)) count front rest (.leaf entry)
      fun node ↦ !known node
    have hleaf := List.countP_le_length (p := fun node ↦ !known node) (l := (leaf entry).cells)
    have hothers := countP_cells_eq_zero hknown hnew
    rw [hdescent]
    simp only [cells, nodes, List.flatMap_singleton, withEntries, descent, List.length_cons,
      List.length_nil] at hleaf hcells hothers ⊢
    omega

/-- A node passes on what becomes of a child. -/
theorem Shared.descend (stamp stamp' : Stamp) (count count' : ℕ)
    (hholds : holds occupancy (slotOf hash rotation) = true)
    (hlength : front.length = rank occupancy (slotOf hash rotation)) (h : Shared hash child new) :
    Shared hash (.trie stamp rotation occupancy count (front ++ child :: rest))
      (.trie stamp' rotation occupancy count' (front ++ new :: rest)) := by
  have hothers : ∀ node ∈ (front ++ rest).flatMap nodes,
      node ∈ (trie stamp rotation occupancy count (front ++ child :: rest)).nodes :=
    fun _ ↦ mem_nodes_of_mem_others
  have hchild : ∀ node ∈ child.cells,
      node ∈ (trie stamp rotation occupancy count (front ++ child :: rest)).cells := by
    intro node hnode
    rw [cells_trie]
    exact List.mem_cons_of_mem _ (List.mem_flatMap.mpr ⟨child, by simp, hnode⟩)
  refine ⟨?_, ?_, ?_⟩
  · intro node hnode
    rw [descent_append_cons stamp' count' new hholds hlength, mem_nodes_append_cons, List.mem_cons]
    rcases mem_nodes_append_cons.mp hnode with rfl | hnew | hothers
    · exact .inr (.inl rfl)
    · exact (h.nodes_new node hnew).imp (fun hold ↦ .inr (.inl hold)) .inr
    · exact .inl (.inr (.inr hothers))
  · intro node hnode
    rw [descent_append_cons stamp count child hholds hlength, mem_nodes_append_cons, List.mem_cons]
    rcases mem_nodes_append_cons.mp hnode with rfl | hold | hothers
    · exact .inr (.inl rfl)
    · exact (h.nodes_old node hold).imp (fun hnew ↦ .inr (.inl hnew)) .inr
    · exact .inl (.inr (.inr hothers))
  · intro known hknown
    have hcells := countP_cells_append_cons_le stamp' rotation occupancy count' front rest new
      fun node ↦ !known node
    have hnew := h.count_le known fun node hnode ↦ hknown node (hchild node hnode)
    have hzero := countP_cells_eq_zero hknown hothers
    rw [descent_append_cons stamp' count' new hholds hlength, List.length_cons]
    omega

/-- Without a leaf in the slot of a hash, a node has lost nothing beside the descent. -/
theorem FilledAt.mem_nodes_or_mem_descent {entry : Leaf K V} {stamp : Stamp} {count : ℕ}
    (h : FilledAt rotation occupancy (slotOf hash rotation) front (.leaf entry) rest)
    {node : Bucket K V}
    (hnode : node ∈ (trie stamp rotation occupancy count (front ++ .leaf entry :: rest)).nodes) :
    node ∈ (front ++ rest).flatMap nodes ∨
      node ∈ (trie stamp rotation occupancy count (front ++ .leaf entry :: rest)).descent hash := by
  rw [descent_append_cons stamp count _ h.holds h.length_front, List.mem_cons]
  rcases mem_nodes_append_cons.mp hnode with rfl | hleaf | hothers
  · exact .inr (.inl rfl)
  · exact .inr (.inr hleaf)
  · exact .inl hothers

end Shared

/-! ## Writes -/

section Writes

variable {r : Insertion K V} {write depth : ℕ} {stored : Leaf K V} {before after : List (Leaf K V)}
  {bucket grown new left : Bucket K V}

theorem Joined.shared (h : Joined r depth bucket grown) : Shared r.entry.hash bucket grown := by
  induction h with
  | split _ _ _ alone vacant =>
    -- here the bucket is all that the node holds beside the new leaf
    refine .fill r.entry _ _ vacant ?_ ?_
    · simp [alone]
    · simp only [alone, List.flatMap_singleton]
      intro node hnode
      exact .inl hnode
  | pair => exact .flat r.entry rfl rfl (List.Perm.swap ..).subperm
  | append => exact .flat r.entry rfl rfl (List.perm_append_singleton ..).subperm
  | fill vacant =>
    refine .fill r.entry _ _ vacant ?_ ?_
    · intro node hnode
      rw [nodes_trie]
      exact List.mem_cons_of_mem _ hnode
    · intro node hnode
      rw [nodes_trie, List.mem_cons] at hnode
      rcases hnode with rfl | hnode
      · exact .inr (self_mem_descent _ _)
      · exact .inl hnode
  | descend filled _ ih => exact ih.descend _ _ _ _ filled.holds filled.length_front

theorem Replaced.shared (h : Replaced r stored before after depth bucket new) :
    Shared r.entry.hash bucket new := by
  induction h with
  | leaf => exact .flat r.entry rfl rfl ((List.nil_sublist _).cons_cons _).subperm
  | @chain before after =>
    have hsublist := ((List.sublist_cons_self stored after).append_left before).cons_cons r.entry
    exact .flat r.entry rfl rfl (List.perm_middle.subperm.trans hsublist.subperm)
  | descend filled _ ih => exact ih.descend _ _ _ _ filled.holds filled.length_front

private theorem subperm_of_removed (before after : List (Leaf K V)) (stored : Leaf K V) :
    (before ++ after).Subperm (stored :: (before ++ stored :: after)) :=
  (((List.sublist_cons_self stored after).append_left before).cons stored).subperm

theorem Removed.shared (h : Removed write stored before after depth bucket left) :
    Shared stored.hash bucket left := by
  induction h with
  | @survivor before after _ _ _ alone =>
    have hleaves := subperm_of_removed before after stored
    rw [alone] at hleaves
    exact .flat stored rfl rfl hleaves
  | @chain before after => exact .flat stored rfl rfl (subperm_of_removed before after stored)
  | @collapse _ _ _ _ _ front rest other filled alone =>
    have hnodes : (front ++ rest).flatMap nodes = other.nodes := by simp [alone]
    refine ⟨?_, ?_, ?_⟩
    · intro node hnode
      rw [← hnodes] at hnode
      exact .inl (mem_nodes_of_mem_others hnode)
    · intro node hnode
      rw [← hnodes]
      exact filled.mem_nodes_or_mem_descent hnode
    · intro known hknown
      have hzero := countP_cells_eq_zero hknown fun _ ↦ mem_nodes_of_mem_others
      rw [alone, List.flatMap_singleton] at hzero
      rw [hzero]
      exact Nat.zero_le _
  | vacate filled =>
    refine ⟨?_, ?_, ?_⟩
    · intro node hnode
      rw [nodes_trie, List.mem_cons] at hnode
      rcases hnode with rfl | hnode
      · exact .inr (self_mem_descent _ _)
      · exact .inl (mem_nodes_of_mem_others hnode)
    · intro node hnode
      rw [nodes_trie, List.mem_cons]
      exact (filled.mem_nodes_or_mem_descent hnode).imp_left .inr
    · intro known hknown
      rw [cells_trie, List.countP_cons, countP_cells_eq_zero hknown fun _ ↦ mem_nodes_of_mem_others]
      split <;> omega
  | descend filled _ ih => exact ih.descend _ _ _ _ filled.holds filled.length_front

end Writes

end Bucket

/-! ## Maps -/

namespace Map

variable {κ ν : Type}

/-- The buckets of a map's trie and the entries of its chains. -/
def cells (m : Map κ ν K V) : List (Bucket K V) := m.root.elim [] Bucket.cells

/-- The nodes that a hash leads through in a map's trie. -/
def descent (m : Map κ ν K V) (hash : UInt32) : List (Bucket K V) :=
  m.root.elim [] (Bucket.descent hash)

open Classical in
private theorem exists_perm_of_countP_le {α : Type} {old all : List α} {bound : ℕ}
    (h : ∀ known : α → Bool, (∀ x ∈ old, known x = true) →
      all.countP (fun x ↦ !known x) ≤ bound) :
    ∃ new kept, all.Perm (new ++ kept) ∧ new.length ≤ bound ∧ ∀ x ∈ kept, x ∈ old := by
  let known : α → Bool := fun x ↦ decide (x ∈ old)
  refine ⟨all.filter fun x ↦ !known x, all.filter known, ?_, ?_, ?_⟩
  · exact (List.perm_append_comm.trans (List.filter_append_perm known all)).symm
  · rw [← List.countP_eq_length_filter]
    exact h known fun x hx ↦ decide_eq_true hx
  · intro x hx
    exact of_decide_eq_true (List.mem_filter.mp hx).2

/-- What becomes of a map differs from it only where a hash leads. -/
structure SharedAt (m : Map κ ν K V) (hash : UInt32) (made : Map κ ν K V) : Prop where
  /-- Every node is an old one or on the descent. -/
  nodes_new : ∀ node ∈ made.nodes, node ∈ m.nodes ∨ node ∈ made.descent hash
  /-- Every old node is kept or was on the descent. -/
  nodes_old : ∀ node ∈ m.nodes, node ∈ made.nodes ∨ node ∈ m.descent hash
  /-- At most thirty of the nodes and entries are new. -/
  exists_perm : ∃ new kept, made.cells.Perm (new ++ kept) ∧ new.length ≤ 30 ∧
    ∀ node ∈ kept, node ∈ m.cells

theorem SharedAt.refl (m : Map κ ν K V) (hash : UInt32) : m.SharedAt hash m where
  nodes_new _ hnode := .inl hnode
  nodes_old _ hnode := .inl hnode
  exists_perm := ⟨[], m.cells, .refl _, Nat.zero_le _, fun _ hnode ↦ hnode⟩

theorem SharedAt.of_shared {hash : UInt32} {bucket new : Bucket K V} (strategies : Strategies κ ν)
    (hnew : new.Sound) (h : Bucket.Shared hash bucket new) :
    (⟨some bucket, strategies⟩ : Map κ ν K V).SharedAt hash ⟨some new, strategies⟩ where
  nodes_new := h.nodes_new
  nodes_old := h.nodes_old
  exists_perm := by
    refine exists_perm_of_countP_le fun known hknown ↦ ?_
    exact (h.count_le known hknown).trans (Nat.succ_le_succ (hnew.length_descent_le hash))

variable [KeyStrategy κ K] [ValueStrategy ν V] {m made : Map κ ν K V} {write : ℕ} {edit : Edit K V}

theorem EditEffect.sharedAt (heffect : EditEffect m write edit made) (h : m.Sound)
    (hmade : made.Sound) :
    m.SharedAt (KeyStrategy.hash m.strategies.key edit.key) made := by
  cases heffect with
  | kept => exact .refl m _
  | missing => exact .refl m _
  | entered pair?_eq _ entered =>
    rw [edit.key_of_pair? pair?_eq]
    obtain ⟨root, strategies⟩ := m
    cases entered with
    | first =>
      refine ⟨fun node hnode ↦ .inr hnode, by simp [nodes], [.leaf _], [], .refl _, ?_, nofun⟩
      simp
    | joined joined => exact .of_shared strategies (hmade.root _ rfl) joined.shared
  | replaced _ _ _ root_eq replaced =>
    obtain ⟨root, strategies⟩ := m
    subst root_eq
    exact .of_shared strategies (hmade.root _ rfl) replaced.shared
  | dropped find?_eq _ dropped =>
    rw [Edit.key, ← h.hash_eq_of_find? find?_eq]
    obtain ⟨root, strategies⟩ := m
    cases dropped with
    | last =>
      exact ⟨by simp [nodes], fun node hnode ↦ .inr hnode, [], [], .refl _, Nat.zero_le _, nofun⟩
    | removed removed => exact .of_shared strategies (hmade.root _ rfl) removed.shared

/-! ## Entries -/

/-- The entry that an edit puts another one in place of, or takes out. -/
def displaced? (m : Map κ ν K V) : Edit K V → Option (Leaf K V)
  | .add _ _ => none
  | .set key value => (m.find? key).filter fun stored ↦
    !ValueStrategy.equals m.strategies.value stored.value value
  | .erase key => m.find? key

theorem EditEffect.mem_leaves_or_new (heffect : EditEffect m write edit made) (h : m.Sound)
    {entry : Leaf K V} (hentry : entry ∈ made.leaves) :
    entry ∈ m.leaves ∨
      ∃ key value, edit.pair? = some (key, value) ∧ entry = m.entryOf write key value := by
  cases heffect with
  | kept => exact .inl hentry
  | missing => exact .inl hentry
  | entered pair?_eq _ entered =>
    rcases entered.insertedIn.mem_iff.mp hentry with rfl | hentry
    · exact .inr ⟨_, _, pair?_eq, rfl⟩
    · exact .inl hentry
  | replaced _ _ notMem root_eq replaced =>
    have hexchanged := exchangedIn_of_replaced (h.root _ root_eq) root_eq replaced notMem
    exact (hexchanged.mem_or_eq hentry).imp_right fun heq ↦ ⟨_, _, rfl, heq⟩
  | dropped _ notMem dropped => exact .inl ((dropped.erasedIn h.root notMem).mem_of_mem hentry)

theorem EditEffect.mem_leaves_or_displaced (heffect : EditEffect m write edit made) (h : m.Sound)
    {entry : Leaf K V} (hentry : entry ∈ m.leaves) :
    entry ∈ made.leaves ∨ m.displaced? edit = some entry := by
  cases heffect with
  | kept => exact .inl hentry
  | missing => exact .inl hentry
  | entered _ _ entered => exact .inl (entered.insertedIn.mem_iff.mpr (.inr hentry))
  | @replaced _ _ stored _ _ _ _ find?_eq equals_eq notMem root_eq replaced =>
    by_cases heq : entry = stored
    · right
      simp [displaced?, find?_eq, equals_eq, heq]
    · have hexchanged := exchangedIn_of_replaced (h.root _ root_eq) root_eq replaced notMem
      exact .inl (hexchanged.mem_of_ne hentry heq)
  | @dropped _ stored _ _ _ find?_eq notMem dropped =>
    by_cases heq : entry = stored
    · right
      rw [displaced?, find?_eq, heq]
    · exact .inl ((dropped.erasedIn h.root notMem).mem_of_ne hentry heq)

/-! ## Edits -/

/-- What a map and the one that an edit of it makes have in common. -/
structure Shares (m : Map κ ν K V) (write : ℕ) (edit : Edit K V) (made : Map κ ν K V) : Prop
    extends SharedAt m (KeyStrategy.hash m.strategies.key edit.key) made where
  /-- A new entry is that of the pair. -/
  leaves_new : ∀ entry ∈ made.leaves, entry ∈ m.leaves ∨
    ∃ key value, edit.pair? = some (key, value) ∧ entry = m.entryOf write key value
  /-- An entry that is not kept was replaced or taken out. -/
  leaves_old : ∀ entry ∈ m.leaves, entry ∈ made.leaves ∨ m.displaced? edit = some entry

/-- **Sharing.** An edit of a reachable map takes over all nodes off the descent of the key's hash
and all entries but one, and makes thirty nodes at most. -/
theorem Reachable.shares [DecidableEq κ] (h : m.Reachable)
    (made_eq : m.edit write edit = .ok made) : m.Shares write edit made := by
  have hm := h.sound
  have hmade : made.Sound := by
    have hsound := (hm.editOutcome write edit).sound hm
    rwa [edited, made_eq] at hsound
  have heffect := hm.editEffect made_eq
  exact ⟨heffect.sharedAt hm hmade, fun _ ↦ heffect.mem_leaves_or_new hm,
    fun _ ↦ heffect.mem_leaves_or_displaced hm⟩

theorem shares_siblingWords :
    siblingWords.sharing (siblingWords.set 5 3 70) = [false, false, false, true, true, true] ∧
      siblingWords.Shares 5 (.set 3 70) (siblingWords.set 5 3 70) := by
  have h : siblingWords.Reachable := .setAll (.emptyUnder _) 0 _
  exact ⟨by decide, h.shares rfl⟩

end Map

end RotaryTrie
