import RotaryTrie.Proofs.Calls

/-!
# The order of entries

Nothing is compared with less or greater when entries are enumerated. Their order comes of the
slots: a trie node lists its children by slot, and every entry below a child has the child's slot.
So of two entries the one that comes first is the one with the lower slot at the node where they
part, which is the last one that they have in common on their ways from the top.

Entries of one hash have the same slot at every node. They never part, and are found together in a
leaf or chain. Entries of different hashes part somewhere, because a leaf or chain has only one
hash.

## Descending

Both facts are proved by going down the slot of a hash. `FilledAt.eq_of_mem_leaves` says that there
is no other way: of all children, only the one at this slot has entries of this slot.
-/

set_option autoImplicit false

namespace RotaryTrie

variable {K V : Type}

/-! ## Lists in the order of slots -/

section Positions

variable {rotation : UInt32} {entries : List (Leaf K V)} {x y : Leaf K V} {i j : ℕ}

theorem lt_iff_slotOf_lt
    (h : entries.Pairwise fun a b ↦ slotOf a.hash rotation ≤ slotOf b.hash rotation)
    (hx : entries[i]? = some x) (hy : entries[j]? = some y)
    (hne : slotOf x.hash rotation ≠ slotOf y.hash rotation) :
    i < j ↔ slotOf x.hash rotation < slotOf y.hash rotation := by
  have hle : ∀ {i j : ℕ} {x y : Leaf K V}, entries[i]? = some x → entries[j]? = some y → i < j →
      slotOf x.hash rotation ≤ slotOf y.hash rotation := by
    intro i j x y hx hy hij
    obtain ⟨hi, rfl⟩ := List.getElem?_eq_some_iff.mp hx
    obtain ⟨hj, rfl⟩ := List.getElem?_eq_some_iff.mp hy
    exact List.pairwise_iff_getElem.mp h i j hi hj hij
  constructor
  · intro hij
    exact UInt32.lt_of_le_of_ne (hle hx hy hij) hne
  · intro hlt
    rcases Nat.lt_trichotomy i j with hij | rfl | hji
    · exact hij
    · rw [Option.some_inj.mp (hx.symm.trans hy)] at hne
      exact absurd rfl hne
    · exact absurd (UInt32.lt_of_lt_of_le hlt (hle hy hx hji)) (UInt32.lt_irrefl _)

private theorem getElem?_of_getElem?_append {α : Type} {front middle rest : List α} {item : α}
    (h : (front ++ (middle ++ rest))[i]? = some item) (hfront : item ∉ front)
    (hrest : item ∉ rest) : front.length ≤ i ∧ middle[i - front.length]? = some item := by
  have hle : front.length ≤ i := by
    by_contra hlt
    rw [List.getElem?_append_left (not_le.mp hlt)] at h
    exact hfront (List.mem_of_getElem? h)
  refine ⟨hle, ?_⟩
  rw [List.getElem?_append_right hle] at h
  rcases Nat.lt_or_ge (i - front.length) middle.length with hlt | hge
  · rwa [List.getElem?_append_left hlt] at h
  · rw [List.getElem?_append_right hge] at h
    exact absurd (List.mem_of_getElem? h) hrest

end Positions

namespace Bucket

section Routing

variable {rotation : UInt32} {slots : List UInt32} {children : List (Bucket K V)}

theorem slotOf_mem_of_mem_leavesAll (h : List.Forall₂ (RoutedTo rotation) slots children)
    {entry : Leaf K V} (hentry : entry ∈ leavesAll children) :
    slotOf entry.hash rotation ∈ slots := by
  induction h with
  | nil => exact absurd hentry List.not_mem_nil
  | cons hchild _ ih =>
    rw [leavesAll, List.mem_append] at hentry
    rcases hentry with hentry | hentry
    · rw [hchild entry hentry]
      exact List.mem_cons_self
    · exact List.mem_cons_of_mem _ (ih hentry)

/-- The entries of children in the order of their slots are in the order of their slots. -/
theorem pairwise_slotOf_leavesAll (hslots : slots.Pairwise (· < ·))
    (h : List.Forall₂ (RoutedTo rotation) slots children) :
    (leavesAll children).Pairwise fun a b ↦
      slotOf a.hash rotation ≤ slotOf b.hash rotation := by
  induction h with
  | nil => exact List.Pairwise.nil
  | cons hchild hchildren ih =>
    rw [List.pairwise_cons] at hslots
    refine List.pairwise_append.mpr ⟨?_, ih hslots.2, ?_⟩
    · refine List.pairwise_of_forall_mem_list fun a ha b hb ↦ ?_
      rw [hchild a ha, hchild b hb]
      exact UInt32.le_refl _
    · intro a ha b hb
      rw [hchild a ha]
      exact UInt32.le_of_lt (hslots.1 _ (slotOf_mem_of_mem_leavesAll hchildren hb))

end Routing

/-! ## What is on a path -/

theorem mem_leaves_of_at? {bucket node : Bucket K V} {path : List ℕ}
    (h : bucket.at? path = some node) {entry : Leaf K V} (hentry : entry ∈ node.leaves) :
    entry ∈ bucket.leaves := by
  induction path generalizing bucket with
  | nil => rwa [Option.some_inj.mp h]
  | cons index path ih =>
    match bucket, h with
    | .trie _ _ _ _ children, h =>
      obtain ⟨child, hchild, h⟩ := Option.bind_eq_some_iff.mp h
      exact mem_leavesAll.mpr ⟨child, List.mem_of_getElem? hchild, ih h⟩

theorem eq_nil_of_at? {bucket node : Bucket K V} (hbucket : bucket.rotation? = none)
    {path : List ℕ} (h : bucket.at? path = some node) : path = [] ∧ node = bucket := by
  match path, bucket, h with
  | [], _, rfl => exact ⟨rfl, rfl⟩
  | _ :: _, .trie .., _ => exact absurd hbucket nofun

section TakenApart

variable {stamp : Stamp} {rotation occupancy slot : UInt32} {count : ℕ}
  {front rest : List (Bucket K V)} {child : Bucket K V}

theorem FilledAt.eq_of_mem_leaves (h : FilledAt rotation occupancy slot front child rest)
    {index : ℕ} {other : Bucket K V} (hother : (front ++ child :: rest)[index]? = some other)
    {entry : Leaf K V} (hentry : entry ∈ other.leaves) (hslot : slotOf entry.hash rotation = slot) :
    index = front.length ∧ other = child := by
  -- to the left and to the right of the child are those of other slots
  rcases Nat.lt_trichotomy index front.length with hlt | hself | hgt
  · rw [List.getElem?_append_left hlt] at hother
    have hmem := mem_leavesAll.mpr ⟨other, List.mem_of_getElem? hother, hentry⟩
    exact absurd hslot (h.slotOf_ne (.inl hmem))
  · rw [getElem?_append_cons hself.symm] at hother
    exact ⟨hself, (Option.some_inj.mp hother).symm⟩
  · obtain ⟨beyond, rfl⟩ := Nat.exists_eq_add_of_lt hgt
    rw [List.getElem?_append_right (by omega), Nat.add_assoc, Nat.add_sub_cancel_left,
      List.getElem?_cons_succ] at hother
    have hmem := mem_leavesAll.mpr ⟨other, List.mem_of_getElem? hother, hentry⟩
    exact absurd hslot (h.slotOf_ne (.inr hmem))

/-- Of the entries below a node, those of a slot are below the child of the slot. -/
theorem FilledAt.mem_leaves (h : FilledAt rotation occupancy slot front child rest)
    {entry : Leaf K V} (hentry : entry ∈ leavesAll (front ++ child :: rest))
    (hslot : slotOf entry.hash rotation = slot) : entry ∈ child.leaves := by
  obtain ⟨other, hother, hentry⟩ := mem_leavesAll.mp hentry
  obtain ⟨index, hindex⟩ := List.mem_iff_getElem?.mp hother
  rwa [← (h.eq_of_mem_leaves hindex hentry hslot).2]

theorem at?_length_cons (path : List ℕ) :
    (trie stamp rotation occupancy count (front ++ child :: rest)).at? (front.length :: path)
      = child.at? path := by
  rw [at?, getElem?_append_cons rfl]
  rfl

theorem FilledAt.eq_nil_or_cons (h : FilledAt rotation occupancy slot front child rest)
    {path : List ℕ} {node : Bucket K V}
    (hnode : (trie stamp rotation occupancy count (front ++ child :: rest)).at? path = some node)
    {entry : Leaf K V} (hentry : entry ∈ node.leaves) (hslot : slotOf entry.hash rotation = slot) :
    path = [] ∨ ∃ further, path = front.length :: further ∧ child.at? further = some node := by
  match path, hnode with
  | [], _ => exact .inl rfl
  | index :: further, hnode =>
    obtain ⟨other, hother, hfurther⟩ := Option.bind_eq_some_iff.mp hnode
    obtain ⟨rfl, rfl⟩ := h.eq_of_mem_leaves hother (mem_leaves_of_at? hfurther hentry) hslot
    exact .inr ⟨further, rfl, hfurther⟩

end TakenApart

/-! ## Entries of one hash -/

/-- All entries of a hash are in the leaf or chain at the end of a path. -/
structure Gathers (bucket : Bucket K V) (hash : UInt32) (path : List ℕ) (node : Bucket K V) :
    Prop where
  /-- This is the bucket at the end of the path. -/
  at?_eq : bucket.at? path = some node
  /-- It is not a trie node. -/
  rotation?_eq_none : node.rotation? = none
  /-- Its entries are those of the hash, in their order. -/
  leaves_eq : node.leaves = bucket.row hash
  /-- They follow upon each other in the enumeration. -/
  isInfix : bucket.row hash <:+: bucket.leaves
  /-- No other leaf or chain has any of them. -/
  path_eq : ∀ other place, bucket.at? other = some place → place.rotation? = none →
    (∃ entry ∈ place.leaves, entry.hash = hash) → other = path

theorem gathers_self {bucket : Bucket K V} (hbucket : bucket.rotation? = none) {hash : UInt32}
    (h : ∀ entry ∈ bucket.leaves, entry.hash = hash) : bucket.Gathers hash [] bucket := by
  have hrow : bucket.row hash = bucket.leaves := rowOf_eq_self h
  refine ⟨rfl, hbucket, hrow.symm, ?_, ?_⟩
  · rw [hrow]
  · rintro other place hplace - -
    exact (eq_nil_of_at? hbucket hplace).1

theorem Gathers.above {stamp : Stamp} {rotation occupancy hash : UInt32} {count : ℕ}
    {front rest : List (Bucket K V)} {child node : Bucket K V} {path : List ℕ}
    (h : child.Gathers hash path node)
    (hat : FilledAt rotation occupancy (slotOf hash rotation) front child rest) :
    (trie stamp rotation occupancy count (front ++ child :: rest)).Gathers hash
      (front.length :: path) node := by
  have hrow : (trie stamp rotation occupancy count (front ++ child :: rest)).row hash
      = child.row hash := hat.rowOf_eq
  refine ⟨?_, h.rotation?_eq_none, ?_, ?_, ?_⟩
  · rw [at?_length_cons]
    exact h.at?_eq
  · rw [hrow]
    exact h.leaves_eq
  · have hchild : child.leaves <:+: leavesAll (front ++ child :: rest) := by
      rw [leavesAll_append, leavesAll]
      exact List.infix_append' ..
    rw [hrow]
    exact h.isInfix.trans hchild
  · rintro other place hplace hrotation ⟨entry, hentry, rfl⟩
    rcases hat.eq_nil_or_cons hplace hentry rfl with rfl | ⟨further, rfl, hfurther⟩
    · -- a trie node is not a leaf or chain
      rw [← Option.some_inj.mp hplace] at hrotation
      cases hrotation
    · rw [h.path_eq further place hfurther hrotation ⟨entry, hentry, rfl⟩]

/-- In a sound bucket, every hash that occurs has its leaf or chain. -/
theorem Sound.exists_gathers {bucket : Bucket K V} (h : bucket.Sound) {x : Leaf K V}
    (hx : x ∈ bucket.leaves) : ∃ path node, bucket.Gathers x.hash path node := by
  induction h with
  | leaf entry =>
    refine ⟨[], _, gathers_self rfl fun other hother ↦ ?_⟩
    rw [List.mem_singleton.mp hx, List.mem_singleton.mp hother]
  | chain _ hash_eq =>
    refine ⟨[], _, gathers_self rfl fun other hother ↦ ?_⟩
    rw [hash_eq other hother, hash_eq x hx]
  | @trie _ rotation occupancy _ _ _ _ _ routed _ ih =>
    obtain ⟨hslot, hholds⟩ := Bitmap.mem_slots.mp (slotOf_mem_of_mem_leavesAll routed hx)
    obtain ⟨front, child, rest, rfl, hat⟩ := exists_filledAt routed hslot hholds
    obtain ⟨path, node, hgathers⟩ :=
      ih child (List.mem_append_right _ List.mem_cons_self) (hat.mem_leaves hx rfl)
    exact ⟨front.length :: path, node, hgathers.above hat⟩

/-! ## Entries of different hashes -/

/-- Two entries part at the end of a path, and are enumerated in the order of their slots there. -/
structure Fork (bucket : Bucket K V) (x y : Leaf K V) (path : List ℕ) (rotation : UInt32) :
    Prop where
  /-- At the end of the path there is a trie node with this rotation. It has both entries below. -/
  exists_node : ∃ node, bucket.at? path = some node ∧ node.rotation? = some rotation ∧
    x ∈ node.leaves ∧ y ∈ node.leaves
  /-- There is no deeper one: every bucket with both entries is on the path. -/
  on_path : ∀ other node, bucket.at? other = some node → x ∈ node.leaves → y ∈ node.leaves →
    other <+: path
  /-- The node sends the entries to different slots. -/
  slotOf_ne : slotOf x.hash rotation ≠ slotOf y.hash rotation
  /-- All trie nodes above send both entries to one slot. -/
  slotOf_eq : ∀ other node above, other <+: path → other ≠ path → bucket.at? other = some node →
    node.rotation? = some above → slotOf x.hash above = slotOf y.hash above
  /-- Wherever the two come in the enumeration, the one with the lower slot comes first. -/
  lt_iff : ∀ i j : ℕ, bucket.leaves[i]? = some x → bucket.leaves[j]? = some y →
    (i < j ↔ slotOf x.hash rotation < slotOf y.hash rotation)

section Trie

variable {stamp : Stamp} {rotation occupancy : UInt32} {count : ℕ}
  {children front rest : List (Bucket K V)} {child : Bucket K V} {x y : Leaf K V}

theorem fork_of_slotOf_ne
    (h : List.Forall₂ (RoutedTo rotation) (Bitmap.slots occupancy) children)
    (hx : x ∈ leavesAll children) (hy : y ∈ leavesAll children)
    (hne : slotOf x.hash rotation ≠ slotOf y.hash rotation) :
    (trie stamp rotation occupancy count children).Fork x y [] rotation := by
  refine ⟨⟨_, rfl, rfl, hx, hy⟩, ?_, hne, ?_, ?_⟩
  · intro other node hnode hx hy
    match other, hnode with
    | [], _ => exact List.prefix_rfl
    | _ :: _, hnode =>
      -- both entries are below one child, so they have its slot
      obtain ⟨child, hchild, hnode⟩ := Option.bind_eq_some_iff.mp hnode
      obtain ⟨slot, hslot⟩ := exists_routedTo h (List.mem_of_getElem? hchild)
      refine absurd ?_ hne
      rw [hslot x (mem_leaves_of_at? hnode hx), hslot y (mem_leaves_of_at? hnode hy)]
  · intro other _ _ hother hself
    exact absurd (List.prefix_nil.mp hother) hself
  · intro i j hi hj
    exact lt_iff_slotOf_lt (pairwise_slotOf_leavesAll (Bitmap.pairwise_slots _) h) hi hj hne

theorem Fork.above {path : List ℕ} {below : UInt32} (h : child.Fork x y path below)
    (hat : FilledAt rotation occupancy (slotOf x.hash rotation) front child rest)
    (heq : slotOf y.hash rotation = slotOf x.hash rotation) :
    (trie stamp rotation occupancy count (front ++ child :: rest)).Fork x y
      (front.length :: path) below := by
  refine ⟨?_, ?_, h.slotOf_ne, ?_, ?_⟩
  · rw [at?_length_cons]
    exact h.exists_node
  · intro other node hnode hx hy
    rcases hat.eq_nil_or_cons hnode hx rfl with rfl | ⟨further, rfl, hfurther⟩
    · exact List.nil_prefix
    · exact (List.prefix_cons_inj _).mpr (h.on_path further node hfurther hx hy)
  · intro other node above hother hne hnode hrotation
    match other, hother with
    | [], _ =>
      rw [← Option.some_inj.mp hnode, rotation?, Option.some_inj] at hrotation
      rw [← hrotation, heq]
    | index :: further, hother =>
      obtain ⟨rfl, hfurther⟩ := List.cons_prefix_cons.mp hother
      rw [at?_length_cons] at hnode
      exact h.slotOf_eq further node above hfurther (fun heq ↦ hne (by rw [heq])) hnode hrotation
  · -- both entries are in the child, and what stands in front of it shifts them alike
    intro i j hi hj
    rw [leaves, leavesAll_append, leavesAll] at hi hj
    obtain ⟨hle, hi⟩ := getElem?_of_getElem?_append hi (fun hmem ↦ hat.slotOf_ne (.inl hmem) rfl)
      fun hmem ↦ hat.slotOf_ne (.inr hmem) rfl
    obtain ⟨hle', hj⟩ := getElem?_of_getElem?_append hj (fun hmem ↦ hat.slotOf_ne (.inl hmem) heq)
      fun hmem ↦ hat.slotOf_ne (.inr hmem) heq
    rw [← h.lt_iff _ _ hi hj]
    omega

end Trie

/-- In a sound bucket, entries of different hashes part somewhere. -/
theorem Sound.exists_fork {bucket : Bucket K V} (h : bucket.Sound) {x y : Leaf K V}
    (hx : x ∈ bucket.leaves) (hy : y ∈ bucket.leaves) (hne : x.hash ≠ y.hash) :
    ∃ path rotation, bucket.Fork x y path rotation := by
  induction h with
  | leaf entry =>
    rw [List.mem_singleton.mp hx, List.mem_singleton.mp hy] at hne
    exact absurd rfl hne
  | chain _ hash_eq =>
    rw [hash_eq x hx, hash_eq y hy] at hne
    exact absurd rfl hne
  | @trie _ rotation occupancy _ _ _ _ _ routed _ ih =>
    by_cases hslots : slotOf y.hash rotation = slotOf x.hash rotation
    · obtain ⟨hslot, hholds⟩ := Bitmap.mem_slots.mp (slotOf_mem_of_mem_leavesAll routed hx)
      obtain ⟨front, child, rest, rfl, hat⟩ := exists_filledAt routed hslot hholds
      obtain ⟨path, below, hfork⟩ := ih child (List.mem_append_right _ List.mem_cons_self)
        (hat.mem_leaves hx rfl) (hat.mem_leaves hy hslots)
      exact ⟨front.length :: path, below, hfork.above hat hslots⟩
    · exact ⟨[], rotation, fork_of_slotOf_ne routed hx hy (Ne.symm hslots)⟩

end Bucket

/-! ## Maps -/

namespace Map

variable {κ ν : Type}

/-- The order in which a map is enumerated, as it is given by the slots of the hashes. -/
structure OrderedBySlots (m : Map κ ν K V) : Prop where
  /-- Call after call, an enumeration hands out the entries from left to right. -/
  handed_out : ∀ calls, (stateAfter Traversal.next calls m.traversal).next.1 = m.leaves[calls]?
  /-- The entries of a hash are in one leaf or chain, and follow upon each other. -/
  gathered : ∀ x ∈ m.leaves, ∃ root, m.root = some root ∧
    ∃ path node, root.Gathers x.hash path node
  /-- Entries of different hashes part at a trie node, and come in the order of their slots. -/
  forked : ∀ x ∈ m.leaves, ∀ y ∈ m.leaves, x.hash ≠ y.hash → ∃ root, m.root = some root ∧
    ∃ path rotation, root.Fork x y path rotation

variable [KeyStrategy κ K] {m : Map κ ν K V}

private theorem Sound.exists_root (h : m.Sound) {x : Leaf K V} (hx : x ∈ m.leaves) :
    ∃ root, m.root = some root ∧ root.Sound ∧ m.leaves = root.leaves := by
  cases hroot : m.root with
  | none =>
    rw [leaves_of_root_eq_none hroot] at hx
    exact absurd hx List.not_mem_nil
  | some root => exact ⟨root, rfl, h.root root hroot, leaves_of_root_eq hroot⟩

variable [ValueStrategy ν V] [DecidableEq κ]

/-- **Order.** The entries of every reachable map are enumerated in the order of their slots, under
any strategies. -/
theorem Reachable.ordered (h : m.Reachable) : m.OrderedBySlots := by
  refine ⟨h.sound.handsOut_leaves.fst_next, ?_, ?_⟩
  · intro x hx
    obtain ⟨root, hroot, hsound, hleaves⟩ := h.sound.exists_root hx
    rw [hleaves] at hx
    exact ⟨root, hroot, hsound.exists_gathers hx⟩
  · intro x hx y hy hne
    obtain ⟨root, hroot, hsound, hleaves⟩ := h.sound.exists_root hx
    rw [hleaves] at hx hy
    exact ⟨root, hroot, hsound.exists_fork hx hy hne⟩

/-- Two chains at different depths. The order of the entries is not that of their hashes. -/
def chainedWords : Map (Named WordRule) (Named IntegerRule) UInt32 Int32 :=
  (emptyUnder ⟨⟨.pairs, none⟩, ⟨.default, none⟩⟩).setAll 0
    [(2, 1), (66, 2), (0x40000000, 3), (3, 4), (0x40000001, 5), (2050, 6)]

theorem ordered_chainedWords :
    chainedWords.OrderedBySlots ∧
      chainedWords.leaves.map Leaf.hash = [1, 1, 1025, 0x20000000, 0x20000000, 33] := by
  have h : chainedWords.Reachable := .setAll (.emptyUnder _) 0 _
  exact ⟨h.ordered, by decide⟩

end Map

end RotaryTrie
