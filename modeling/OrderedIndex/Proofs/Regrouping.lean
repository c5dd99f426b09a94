import OrderedIndex.Proofs.Path

/-!
# Regrouping

To divide a node, to pass a pair from a node to its sibling, and to merge two siblings are three
ways to group the same pairs differently under one parent.  Each of them keeps what a layout is
asked for besides the number of pairs in a block: cached keys stay exact, the entries are the same,
and the leaves stay linked.
-/

namespace OrderedIndex

/-! ## Positions in lists -/

section Positions

variable {α : Type} (front back : List α) (a x : α)

theorem insertIdx_between : (front ++ back).insertIdx front.length x = front ++ x :: back := by
  induction front with
  | nil => exact List.insertIdx_zero
  | cons b front ih => exact congrArg (List.cons b) ih

theorem eraseIdx_between : (front ++ x :: back).eraseIdx front.length = front ++ back := by
  rw [List.eraseIdx_append_of_length_le (Nat.le_refl _), Nat.sub_self, List.eraseIdx_zero,
    List.tail_cons]

theorem insertIdx_behind :
    (front ++ a :: back).insertIdx (front.length + 1) x = front ++ a :: x :: back := by
  have hbetween := insertIdx_between (front ++ [a]) back x
  rwa [List.length_append, List.append_assoc, List.append_assoc] at hbetween

theorem eraseIdx_behind :
    (front ++ a :: x :: back).eraseIdx (front.length + 1) = front ++ a :: back := by
  have hbetween := eraseIdx_between (front ++ [a]) back x
  rwa [List.length_append, List.append_assoc, List.append_assoc] at hbetween

end Positions

variable {K V A : Type} {n : Nat}

/-! ## New groups of pairs -/

namespace Block

/-- The lower half of a block, which stays where it was. -/
def lower (right : Handle) (b : Block K A) : Block K A :=
  ⟨b.handle, some right, b.pairs.take (b.count / 2)⟩

/-- The upper half of a block, which moves to a new slot. -/
def upper (right : Handle) (b : Block K A) : Block K A :=
  ⟨right, b.next, b.pairs.drop (b.count / 2)⟩

/-- A block with the pairs of the one behind it. -/
def merge (left right : Block K A) : Block K A :=
  ⟨left.handle, right.next, left.pairs ++ right.pairs⟩

/-- A block with other pairs. -/
def withPairs (b : Block K A) (pairs : List (K × A)) : Block K A := { b with pairs }

@[simp] theorem handle_withPairs (b : Block K A) (pairs : List (K × A)) :
    (b.withPairs pairs).handle = b.handle := rfl

@[simp] theorem pairs_withPairs (b : Block K A) (pairs : List (K × A)) :
    (b.withPairs pairs).pairs = pairs := rfl

section Count

variable (b : Block K A) {right : Handle}

@[simp] theorem handle_lower : (b.lower right).handle = b.handle := rfl

@[simp] theorem handle_upper : (b.upper right).handle = right := rfl

@[simp] theorem lower_append_upper (right : Handle) :
    (b.lower right).pairs ++ (b.upper right).pairs = b.pairs :=
  List.take_append_drop _ _

theorem count_lower : (b.lower right).count = b.count / 2 := by
  have hle : b.count / 2 ≤ b.pairs.length := Nat.div_le_self _ _
  simp [lower, count] at hle ⊢
  omega

theorem count_upper : (b.upper right).count = b.count - b.count / 2 := by
  simp [upper, count]

@[simp] theorem count_merge (left right : Block K A) :
    (left.merge right).count = left.count + right.count := by
  simp [merge, count]

/-- The last key of a block that is divided is the last key of its upper half. -/
theorem maxKey?_upper (hpos : 0 < b.count) : (b.upper right).maxKey? = b.maxKey? := by
  -- The lower half leaves at least one pair behind, so the last one is in the upper half.
  have hlt : b.count / 2 < b.pairs.length := Nat.div_lt_self hpos (by decide)
  simp [upper, maxKey?, List.getLast?_drop, Nat.not_le.2 hlt]

/-- The last key of two merged blocks is that of the second one. -/
theorem maxKey?_merge {left right : Block K A} (hpos : 0 < right.count) :
    (left.merge right).maxKey? = right.maxKey? := by
  -- The second block is not empty, so its last key is the last one of both.
  obtain ⟨k, hk⟩ := Option.isSome_iff_exists.1 ((maxKey?_isSome right).2 hpos)
  unfold maxKey? at hk ⊢
  simp only [merge, List.map_append, List.getLast?_append, hk, Option.some_or]

end Count

end Block

/-! ## Groups under one parent -/

/-- Some subtrees side by side are exchanged for others with the same entries and the same place in
the chain of leaves. -/
structure Regroups (slots slots' : List (K × Subtree K V n)) : Prop where
  exact : ExactEach slots → ExactEach slots'
  last : (slots'.map Prod.fst).getLast? = (slots.map Prod.fst).getLast?
  entries : entriesOf (leavesEach slots') = entriesOf (leavesEach slots)
  first (next : Option Handle) :
    firstOr next (leavesEach slots') = firstOr next (leavesEach slots)
  linked (next : Option Handle) : Linked next (leavesEach slots) → Linked next (leavesEach slots')

section Slots

variable {slots slots' : List (K × Subtree K V n)}

theorem leavesEach_zero (slots : List (K × Block K V)) :
    leavesEach (n := 0) slots = slots.map Prod.snd := by
  induction slots with
  | nil => rfl
  | cons slot slots ih => rw [leavesEach_cons, ih]; rfl

theorem leavesEach_succ (slots : List (K × Subtree K V (n + 1))) :
    leavesEach slots = leavesEach (slots.flatMap fun slot => slot.2.pairs) := by
  induction slots with
  | nil => rfl
  | cons slot slots ih =>
    rw [leavesEach_cons, ih, List.flatMap_cons, leavesEach_append]
    rfl

theorem exactEach_succ (slots : List (K × Subtree K V (n + 1))) : ExactEach slots ↔
    (∀ slot ∈ slots, slot.2.maxKey? = some slot.1) ∧
      ExactEach (slots.flatMap fun slot => slot.2.pairs) := by
  induction slots with
  | nil => exact iff_of_true exactEach_nil ⟨by simp, exactEach_nil⟩
  | cons slot slots ih =>
    rw [exactEach_cons, ih, List.forall_mem_cons, List.flatMap_cons, exactEach_append,
      Block.exact_succ]
    tauto

/-- Subtrees are regrouped if their pairs are the same in sequence, their keys are exact and their
topmost blocks are linked alike. -/
theorem regroups_of_pairs
    (hpairs : (slots'.flatMap fun slot => slot.2.pairs) = slots.flatMap fun slot => slot.2.pairs)
    (hkeys : ∀ slot ∈ slots', slot.2.maxKey? = some slot.1)
    (hlast : (slots'.map Prod.fst).getLast? = (slots.map Prod.fst).getLast?)
    (hfirst : ∀ next, firstOr next (slots'.map Prod.snd) = firstOr next (slots.map Prod.snd))
    (hlinked : ∀ next, Linked next (slots.map Prod.snd) → Linked next (slots'.map Prod.snd)) :
    Regroups slots slots' := by
  -- Leaves are regrouped themselves; above them only the topmost blocks are.
  cases n with
  | zero =>
    refine ⟨fun _ slot hslot => ⟨hkeys slot hslot, trivial⟩, hlast, ?_, ?_, ?_⟩
    · rw [leavesEach_zero, leavesEach_zero]
      simpa [entriesOf, List.flatMap_map] using hpairs
    · simpa only [leavesEach_zero] using hfirst
    · simpa only [leavesEach_zero] using hlinked
  | succ n =>
    -- The leaves stand further down, so they are the same in sequence.
    have hleaves : leavesEach slots' = leavesEach slots := by
      rw [leavesEach_succ, leavesEach_succ, hpairs]
    refine ⟨?_, hlast, by rw [hleaves], fun _ => by rw [hleaves], fun _ h => hleaves ▸ h⟩
    intro he
    rw [exactEach_succ, hpairs]
    exact ⟨hkeys, ((exactEach_succ slots).1 he).2⟩

/-- A block is divided in two. -/
theorem regroups_halves {t : Subtree K V n} {k k₁ : K} (right : Handle) (hpos : 0 < t.count)
    (hk : t.maxKey? = some k) (hk₁ : (t.lower right).maxKey? = some k₁) :
    Regroups [(k, t)] [(k₁, t.lower right), (k, t.upper right)] := by
  apply regroups_of_pairs
  · simp
  · simp [hk₁, Block.maxKey?_upper t hpos, hk]
  · simp
  · intro next
    rfl
  · -- The lower half is linked to the upper one, which takes over the link of the whole.
    intro next hlinked
    exact ⟨rfl, hlinked.1, trivial⟩

/-- Pairs are passed from a block to the one beside it. -/
theorem regroups_passed {l r : Subtree K V n} {kl kl' kr kr' : K}
    {lpairs rpairs : List (K × Beside K V n)} (hpairs : lpairs ++ rpairs = l.pairs ++ r.pairs)
    (hr : r.maxKey? = some kr) (hl' : (l.withPairs lpairs).maxKey? = some kl')
    (hr' : (r.withPairs rpairs).maxKey? = some kr') :
    Regroups [(kl, l), (kr, r)] [(kl', l.withPairs lpairs), (kr', r.withPairs rpairs)] := by
  -- The last key of the pairs in sequence is that of the right block, before and after.
  have hlast : some kr' = some kr := by
    have hkeys := congrArg (fun pairs => (pairs.map Prod.fst).getLast?) hpairs
    simp only [Block.maxKey?, Block.withPairs] at hr hr'
    simpa [List.getLast?_append, hr, hr'] using hkeys
  apply regroups_of_pairs
  · simpa [Block.withPairs] using hpairs
  · simp [hl', hr']
  · simpa using hlast
  · intro next
    rfl
  · intro next hlinked
    exact hlinked

/-- Two blocks are merged. -/
theorem regroups_merge {l r : Subtree K V n} {kl kr : K} (hr : r.maxKey? = some kr) :
    Regroups [(kl, l), (kr, r)] [(kr, l.merge r)] := by
  -- A block with a last key is not empty.
  have hpos : 0 < r.count := (Block.maxKey?_isSome r).1 (by rw [hr]; rfl)
  apply regroups_of_pairs
  · simp [Block.merge]
  · simp [Block.maxKey?_merge hpos, hr]
  · simp
  · intro next
    rfl
  · -- The first block takes over the link of the second one.
    intro next hlinked
    exact ⟨hlinked.2.1, trivial⟩

end Slots

/-! ## Whole layouts -/

/-- A layout is exchanged for another one with the same entries that is as sound, but for the number
of pairs in its blocks. -/
structure Layout.Rearranges (layout layout' : Layout K V) : Prop where
  exact : layout.root.Exact → layout'.root.Exact
  entries : layout'.entries = layout.entries
  linked : Linked none layout.leaves → Linked none layout'.leaves

namespace Layout

theorem Rearranges.refl (layout : Layout K V) : layout.Rearranges layout :=
  ⟨id, rfl, id⟩

theorem Rearranges.trans {layout layout' layout'' : Layout K V} (h : layout.Rearranges layout')
    (h' : layout'.Rearranges layout'') : layout.Rearranges layout'' :=
  ⟨h'.exact ∘ h.exact, h'.entries.trans h.entries, h'.linked ∘ h.linked⟩

end Layout

theorem Frame.fill_singleton (f : Frame K A) (a : A) : f.fill [(f.key, a)] = f.plug a := by
  simp [Frame.fill, Frame.plug]

namespace Regroups

variable {slots slots' : List (K × Subtree K V n)}

/-- A branch some of whose children are regrouped keeps its last key. -/
theorem maxKey?_fill (hr : Regroups slots slots') (f : Frame K (Subtree K V n)) :
    (f.fill slots').maxKey? = (f.fill slots).maxKey? := by
  simp only [Block.maxKey?, Frame.fill, List.map_append, List.getLast?_append, hr.last]

/-- Regrouping the children of one branch rearranges the layout. -/
theorem rearranges (hr : Regroups slots slots') (f : Frame K (Subtree K V n))
    (rest : Path K V (n + 1)) :
    (rest.fill (f.fill slots)).Rearranges (rest.fill (f.fill slots')) := by
  -- The leaves of the regrouped subtrees stand in one piece between those of the others.
  have hleaves (slots : List (K × Subtree K V n)) : (rest.fill (f.fill slots)).leaves =
      rest.left ++ leavesEach f.before ++ leavesEach slots ++
        (leavesEach f.after ++ rest.right) := by
    rw [Path.leaves_fill, Block.leaves_succ]
    simp [Frame.fill]
  refine ⟨?_, ?_, ?_⟩
  · rw [Path.exact_fill, Path.exact_fill, hr.maxKey?_fill, Frame.exact_fill, Frame.exact_fill]
    exact And.imp_right (And.imp_left hr.exact)
  · simp [Layout.entries, hleaves, hr.entries]
  · rw [hleaves, hleaves]
    intro hlinked
    obtain ⟨hfront, hback⟩ := linked_append.1 hlinked
    obtain ⟨hleft, hslots⟩ := linked_append.1 hfront
    -- What is to the left leads to the first new leaf, which is where the old first one was.
    exact linked_append.2 ⟨linked_append.2 ⟨hr.first _ ▸ hleft, hr.linked _ hslots⟩, hback⟩

/-- Putting a root above new groups rearranges the layout. -/
theorem rearranges_promoted {t : Subtree K V n} {k : K} (hr : Regroups [(k, t)] slots')
    (hk : t.maxKey? = some k) (root : Handle) :
    Layout.Rearranges ⟨n, t⟩ ⟨n + 1, ⟨root, none, slots'⟩⟩ := by
  refine ⟨?_, ?_, ?_⟩
  · -- The root caches the last keys of the groups, which are exact.
    intro he
    exact hr.exact (exactEach_cons.2 ⟨⟨hk, he⟩, exactEach_nil⟩)
  · -- A group alone has the entries and links of its subtree.
    have hentries := hr.entries
    rw [leavesEach_cons, leavesEach_nil, List.append_nil] at hentries
    exact hentries
  · intro hlinked
    have hnext := hr.linked none
    rw [leavesEach_cons, leavesEach_nil, List.append_nil] at hnext
    exact hnext hlinked

end Regroups

/-- Putting an only child in the place of the root rearranges the layout. -/
theorem Layout.rearranges_collapsed (handle : Handle) (next : Option Handle) (k : K)
    (c : Subtree K V n) : Layout.Rearranges ⟨n + 1, ⟨handle, next, [(k, c)]⟩⟩ ⟨n, c⟩ := by
  have hleaves : (⟨n + 1, ⟨handle, next, [(k, c)]⟩⟩ : Layout K V).leaves = c.leaves := by
    show leavesEach [(k, c)] = c.leaves
    simp
  refine ⟨?_, ?_, ?_⟩
  · intro he
    exact (he (k, c) (List.mem_singleton_self _)).2
  · simp only [Layout.entries, hleaves]
    rfl
  · rw [hleaves]
    exact id

end OrderedIndex
