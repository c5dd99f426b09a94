import OrderedIndex.Proofs.Occupancy
import OrderedIndex.Proofs.Trails

/-!
# Loading in order

Entries that come in key order all go to the outermost leaf on one side, so only nodes on the spine
of this side are ever divided.  The half that is left behind by a division does not change any more,
and the half on the spine starts with what the division has left it.  Hence all nodes but those on
the spine have the same number of keys, and the number of entries determines how many nodes there
are on each level.

What is kept is a predicate on layouts.  An insertion at the end of a path along the spine keeps it,
whether the leaf has room or the climb divides nodes up to the root.
-/

namespace OrderedIndex

variable {K V A : Type} {n : Nat} {fanout : Fanout} {side : Side}

/-! ## The numbers of keys -/

namespace Fanout

/-- The number of keys in the half of a divided node that is left behind, where all entries come in
on the given side. -/
def inner (fanout : Fanout) : Side → Nat
  | .left => fanout.max + 1 - fanout.min
  | .right => fanout.min

/-- The number of keys in the other half. -/
def outer (fanout : Fanout) : Side → Nat
  | .left => fanout.min
  | .right => fanout.max + 1 - fanout.min

theorem inner_add_outer (fanout : Fanout) (side : Side) :
    fanout.inner side + fanout.outer side = fanout.max + 1 := by
  have hlt := fanout.min_lt_max
  cases side with
  | left => exact Nat.sub_add_cancel (Nat.le_succ_of_le hlt.le)
  | right => exact Nat.add_sub_of_le (Nat.le_succ_of_le hlt.le)

theorem two_le_inner (fanout : Fanout) (side : Side) : 2 ≤ fanout.inner side := by
  have htwo := fanout.two_le_min
  have hlt := fanout.two_mul_min_le
  cases side with
  | left =>
    show 2 ≤ fanout.max + 1 - fanout.min
    omega
  | right => exact htwo

theorem outer_le_max (fanout : Fanout) (side : Side) : fanout.outer side ≤ fanout.max := by
  have hsum := fanout.inner_add_outer side
  have htwo := fanout.two_le_inner side
  omega

end Fanout

/-! ## Packed layouts -/

/-- A number of keys that a node on the spine may have. -/
def Fanout.Fits (fanout : Fanout) (side : Side) (count : Nat) : Prop :=
  fanout.outer side ≤ count ∧ count ≤ fanout.max

/-- Numbers of keys that the nodes of one level may have: a fitting one where the spine passes, and
else the one that is left behind. -/
def Fanout.FitsLevel (fanout : Fanout) (side : Side) (counts : List Nat) : Prop :=
  ∃ count others, counts = side.cons count others ∧ fanout.Fits side count ∧
    ∀ other ∈ others, other = fanout.inner side

namespace Block

/-- The topmost block of a subtree and all those below it have the given number of pairs. -/
def Solid (count : Nat) : {n : Nat} → Subtree K V n → Prop
  | 0, b => b.count = count
  | _ + 1, b => b.count = count ∧ ∀ slot ∈ b.pairs, Solid count slot.2

/-- Below the topmost block of a subtree all blocks but those on the spine are solid. -/
def Packed (fanout : Fanout) (side : Side) : {n : Nat} → Subtree K V n → Prop
  | 0, _ => True
  | _ + 1, b => ∃ slot others, b.pairs = side.cons slot others ∧
      (fanout.Fits side slot.2.count ∧ Packed fanout side slot.2) ∧
      ∀ other ∈ others, Solid (fanout.inner side) other.2

theorem Solid.count_eq {count : Nat} {b : Subtree K V n} (hs : b.Solid count) :
    b.count = count := by
  cases n with
  | zero => exact hs
  | succ n => exact hs.1

end Block

/-- Each of some subtrees is solid. -/
def SolidEach (count : Nat) (slots : List (K × Subtree K V n)) : Prop :=
  ∀ slot ∈ slots, slot.2.Solid count

namespace Path

/-- A path on the spine: there is nothing beside it on the given side. -/
def Along (side : Side) : {n : Nat} → Path K V n → Prop
  | _, .top => True
  | _, .step f rest => f.beside side = none ∧ rest.Along side

/-- A number of keys that a node at the end of a path on the spine may have. -/
def Fits (fanout : Fanout) (side : Side) (count : Nat) : {n : Nat} → Path K V n → Prop
  | _, .top => True
  | _, .step _ _ => fanout.Fits side count

/-- All blocks beside a path are solid. -/
def Packed (fanout : Fanout) (side : Side) : {n : Nat} → Path K V n → Prop
  | _, .top => True
  | _, .step f rest => SolidEach (fanout.inner side) (f.before ++ f.after) ∧
      rest.Fits fanout side f.count ∧ rest.Packed fanout side

end Path

theorem Side.cons_inj {α : Type} {x y : α} {xs ys : List α} :
    side.cons x xs = side.cons y ys ↔ x = y ∧ xs = ys := by
  cases side with
  | left => simp [cons]
  | right => simp [cons, and_comm]

theorem Side.cons_nil {α : Type} {x : α} : side.cons x [] = [x] := by
  cases side with
  | left => rfl
  | right => rfl

/-- The outermost element is still that when lists are put together. -/
theorem Side.exists_flatMap_cons {α β : Type} (f : α → List β) {x : α} (xs : List α) {y : β}
    {ys : List β} (hx : f x = side.cons y ys) :
    ∃ rest, (side.cons x xs).flatMap f = side.cons y rest ∧
      ∀ z ∈ rest, z ∈ ys ∨ ∃ w ∈ xs, z ∈ f w := by
  cases side with
  | left =>
    refine ⟨ys ++ xs.flatMap f, ?_, ?_⟩
    · rw [cons, List.flatMap_cons, hx]
      rfl
    · exact fun z hz => (List.mem_append.1 hz).imp_right List.mem_flatMap.1
  | right =>
    refine ⟨xs.flatMap f ++ ys, ?_, ?_⟩
    · rw [cons, List.flatMap_append, List.flatMap_singleton, hx, cons, cons, List.append_assoc]
    · exact fun z hz => (List.mem_append.1 hz).symm.imp_right List.mem_flatMap.1

/-- Without a child beside the gap the one in it is the outermost one. -/
theorem Frame.pairs_plug {f : Frame K A} (hnone : f.beside side = none) (a : A) :
    (f.plug a).pairs = side.cons (f.key, a) (f.before ++ f.after) := by
  cases side with
  | left =>
    have hbefore : f.before = [] := List.getLast?_eq_none_iff.1 hnone
    rw [plug, hbefore]
    rfl
  | right =>
    have hafter : f.after = [] := List.head?_eq_none_iff.1 hnone
    rw [plug, hafter, List.append_nil]
    rfl

theorem Frame.pairs_fill_both {f : Frame K A} (hnone : f.beside side = none) (x y : K × A) :
    (f.fill (side.both x y)).pairs = side.cons x (f.before ++ y :: f.after) := by
  cases side with
  | left =>
    have hbefore : f.before = [] := List.getLast?_eq_none_iff.1 hnone
    rw [fill, hbefore]
    rfl
  | right =>
    have hafter : f.after = [] := List.head?_eq_none_iff.1 hnone
    rw [fill, hafter]
    simp [Side.both, Side.cons]

theorem Frame.packed_plug {f : Frame K (Subtree K V n)} (hnone : f.beside side = none)
    (b : Subtree K V n) : Block.Packed (n := n + 1) fanout side (f.plug b) ↔
      (fanout.Fits side b.count ∧ b.Packed fanout side) ∧
        SolidEach (fanout.inner side) (f.before ++ f.after) := by
  have hpairs := f.pairs_plug hnone b
  constructor
  · rintro ⟨slot, others, hsame, hslot, hothers⟩
    obtain ⟨rfl, rfl⟩ := Side.cons_inj.1 (hpairs.symm.trans hsame)
    exact ⟨hslot, hothers⟩
  · rintro ⟨hb, hothers⟩
    exact ⟨_, _, hpairs, hb, hothers⟩

/-- A layout is packed if this holds of a subtree on the spine and of what is beside it. -/
theorem Path.packed_fill {p : Path K V n} (ha : p.Along side) (b : Subtree K V n) :
    (p.fill b).root.Packed fanout side ↔
      p.Packed fanout side ∧ p.Fits fanout side b.count ∧ b.Packed fanout side := by
  -- By induction up the path: each frame contributes its siblings and the branch that it fills to.
  induction p with
  | top => simp [fill, Packed, Fits]
  | step f rest ih =>
    simp only [fill, ih ha.2, Frame.packed_plug ha.1, Packed, Fits, Frame.count_plug]
    tauto

/-- A node on the spine may have more keys as long as there is room for them. -/
theorem Path.Fits.mono {p : Path K V n} {count count' : Nat} (hp : p.Fits fanout side count)
    (hle : count ≤ count') (hmax : count' ≤ fanout.max) : p.Fits fanout side count' := by
  cases p with
  | top => trivial
  | step f rest => exact ⟨hp.1.trans hle, hmax⟩

section Rekeys

variable {p q : Path K V n}

theorem Path.Rekeys.fits {count : Nat} (hr : p.Rekeys q) (hq : q.Fits fanout side count) :
    p.Fits fanout side count := by
  cases hr with
  | top => trivial
  | step f k hrest => exact hq

/-- Other cached keys along a path make no difference. -/
theorem Path.Rekeys.packed (hr : p.Rekeys q) (hq : q.Packed fanout side) :
    p.Packed fanout side := by
  induction hr with
  | top => trivial
  | step f k hrest ih => exact ⟨hq.1, hrest.fits hq.2.1, ih hq.2.2⟩

end Rekeys

/-! ## The climb -/

/-- The half of a block on the given side. -/
def Block.half (right : Handle) (b : Block K A) : Side → Block K A
  | .left => b.lower right
  | .right => b.upper right

/-- The half on one side has the outermost pair there, and the other half does not. -/
theorem Block.pairs_half {b : Block K A} {x : K × A} {xs : List (K × A)}
    (hpairs : b.pairs = side.cons x xs) (htwo : 2 ≤ b.count) (right : Handle) :
    (∃ kept, (b.half right side).pairs = side.cons x kept ∧ ∀ y ∈ kept, y ∈ xs) ∧
      ∀ y ∈ (b.half right side.opposite).pairs, y ∈ xs := by
  -- With two pairs or more the middle leaves one to each half, so the outermost pair goes to its
  -- side.
  obtain ⟨m, hm⟩ : ∃ m, b.count / 2 = m + 1 := Nat.exists_eq_succ_of_ne_zero (by omega)
  have hle : b.count / 2 ≤ xs.length := by
    have hcount : b.count = xs.length + 1 := by rw [count, hpairs, Side.length_cons]
    omega
  cases side with
  | left =>
    have hlower : (b.lower right).pairs = x :: xs.take m := by
      rw [lower, hm, hpairs]
      rfl
    have hupper : (b.upper right).pairs = xs.drop m := by
      rw [upper, hm, hpairs]
      rfl
    refine ⟨⟨_, hlower, fun y => List.mem_of_mem_take⟩, ?_⟩
    intro y hy
    exact List.mem_of_mem_drop (hupper ▸ hy)
  | right =>
    have hlower : (b.lower right).pairs = xs.take (b.count / 2) := by
      simp only [lower, hpairs]
      exact List.take_append_of_le_length hle
    have hupper : (b.upper right).pairs = xs.drop (b.count / 2) ++ [x] := by
      simp only [upper, hpairs]
      exact List.drop_append_of_le_length hle
    refine ⟨⟨_, hupper, fun y => List.mem_of_mem_drop⟩, ?_⟩
    intro y hy
    exact List.mem_of_mem_take (hlower ▸ hy)

section Divided

variable {t : Subtree K V n}

theorem Block.exists_both (t : Subtree K V n) (right : Handle) (k₁ k : K) (side : Side) :
    ∃ ku kw, t.halves right k₁ k =
      side.both (ku, t.half right side) (kw, t.half right side.opposite) := by
  cases side with
  | left => exact ⟨k₁, k, rfl⟩
  | right => exact ⟨k, k₁, rfl⟩

namespace Overfull

variable {p : Path K V n}

theorem count_half (ho : Overfull fanout p t) (right : Handle) (side : Side) :
    (t.half right side).count = fanout.outer side ∧
      (t.half right side.opposite).count = fanout.inner side := by
  cases side with
  | left => exact ⟨ho.count_lower, ho.count_upper⟩
  | right => exact ⟨ho.count_upper, ho.count_lower⟩

/-- Of the halves of an overfull node on the spine one is packed, and the other one is solid. -/
theorem packed_half (ho : Overfull fanout p t) (ht : t.Packed fanout side) (right : Handle) :
    Block.Packed (n := n) fanout side (t.half right side) ∧
      Block.Solid (n := n) (fanout.inner side) (t.half right side.opposite) := by
  obtain ⟨-, hinner⟩ := ho.count_half right side
  -- A leaf is packed whatever it holds; what stands below the halves of a branch has stood below
  -- it.
  cases n with
  | zero => exact ⟨trivial, hinner⟩
  | succ n =>
    obtain ⟨slot, others, hpairs, hslot, hothers⟩ := ht
    obtain ⟨⟨kept, hkept, hsub⟩, hleft⟩ := Block.pairs_half hpairs ho.two_le right
    refine ⟨⟨slot, kept, hkept, hslot, ?_⟩, hinner, ?_⟩
    · exact fun other hother => hothers other (hsub other hother)
    · exact fun other hother => hothers other (hleft other hother)

/-- The halves of an overfull node on the spine fit in its parent. -/
theorem packed_fill (ho : Overfull fanout p t) (ht : t.Packed fanout side)
    {f : Frame K (Subtree K V n)} (hnone : f.beside side = none)
    (hf : SolidEach (fanout.inner side) (f.before ++ f.after)) (right : Handle) (k₁ k : K) :
    Block.Packed (n := n + 1) fanout side (f.fill (t.halves right k₁ k)) := by
  obtain ⟨houter, -⟩ := ho.count_half right side
  obtain ⟨hpacked, hsolid⟩ := ho.packed_half ht right
  obtain ⟨ku, kw, hboth⟩ := t.exists_both right k₁ k side
  refine ⟨_, _, hboth ▸ f.pairs_fill_both hnone _ _, ⟨⟨houter.ge, ?_⟩, hpacked⟩, ?_⟩
  · exact houter.le.trans (fanout.outer_le_max side)
  · -- Beside the half on the spine there are now the other half and what has been beside the gap.
    intro other hother
    rw [List.mem_append, List.mem_cons, or_left_comm, ← List.mem_append] at hother
    rcases hother with rfl | hother
    · exact hsolid
    · exact hf other hother

end Overfull

end Divided

/-- The climb from an overfull node on the spine leaves a packed layout. -/
theorem Splits.packed {p : Path K V n} {t : Subtree K V n} {layout : Layout K V}
    {events : List Event} (hsplits : Splits fanout p t layout events) (ho : Overfull fanout p t)
    (ha : p.Along side) (hp : p.Packed fanout side) (ht : t.Packed fanout side) :
    layout.root.Packed fanout side := by
  -- The climb ends in a new root or in a parent that has room; else the parent is overfull in its
  -- turn, and packed up to that.
  induction hsplits with
  | @root n t right root k₁ k hright hroot hk₁ hk =>
    -- The new root is a branch with nothing but the two halves.
    have hnone : (⟨root, none, [], k, []⟩ : Frame K (Subtree K V n)).beside side = none := by
      cases side with
      | left => rfl
      | right => rfl
    have hpacked := ho.packed_fill ht hnone (fun slot hslot => absurd hslot List.not_mem_nil)
      right k₁ k
    rw [Frame.fill, List.append_nil] at hpacked
    exact hpacked
  | @fits n f rest t right k₁ hright hk₁ hk hroom =>
    refine (Path.packed_fill ha.2 _).2 ⟨hp.2.2, ?_, ho.packed_fill ht ha.1 hp.1 _ _ _⟩
    -- The parent had enough children before, and has room for one more.
    rw [Block.count_fill_halves] at hroom ⊢
    exact hp.2.1.mono (Nat.le_succ _) hroom
  | overflows hright hk₁ hk hfull hrest ih =>
    exact ih (ho.next hk₁ hk hfull) ha.2 hp.2.2 (ho.packed_fill ht ha.1 hp.1 _ _ _)

/-! ## Entries in order -/

/-- Filled subtrees without entries are none at all. -/
theorem FilledEach.eq_nil {slots : List (K × Subtree K V n)} (hf : FilledEach fanout slots)
    (hnone : entriesOf (leavesEach slots) = []) : slots = [] := by
  cases slots with
  | nil => rfl
  | cons slot slots =>
    rw [leavesEach_cons, entriesOf_append, List.append_eq_nil_iff] at hnone
    have hempty : slot.2.entries = [] := hnone.1
    obtain ⟨hcount, hbelow⟩ := hf slot List.mem_cons_self
    have hentries := hbelow.mul_pow_le
    -- A subtree that is filled has one entry at least for each leaf that its bounds ask for.
    have htwo := fanout.two_le_min
    have hpos : 0 < slot.2.count * fanout.min ^ n :=
      Nat.mul_pos (by omega) (Nat.pow_pos (by omega))
    rw [hempty, List.length_nil] at hentries
    exact absurd hpos (Nat.not_lt_of_le hentries)

/-- The leaves beside the end of a path on the given side. -/
def Path.beyond (p : Path K V n) : Side → List (Block K V)
  | .left => p.left
  | .right => p.right

theorem Path.Alike.beyond_eq {p q : Path K V n} (ha : p.Alike q) (side : Side) :
    p.beyond side = q.beyond side := by
  cases side with
  | left => exact ha.left
  | right => exact ha.right

/-- A path is on the spine if there are no entries on that side of it. -/
theorem Path.Filled.along {p : Path K V n} (hf : p.Filled fanout)
    (hnone : entriesOf (p.beyond side) = []) : p.Along side := by
  -- A sibling on that side would have entries, since it is filled.
  induction p with
  | top => trivial
  | step f rest ih =>
    obtain ⟨⟨hbefore, hafter⟩, -, hrest⟩ := hf
    cases side with
    | left =>
      rw [beyond, left, entriesOf_append, List.append_eq_nil_iff] at hnone
      exact ⟨List.getLast?_eq_none_iff.2 (hbefore.eq_nil hnone.2), ih hrest hnone.1⟩
    | right =>
      rw [beyond, right, entriesOf_append, List.append_eq_nil_iff] at hnone
      exact ⟨List.head?_eq_none_iff.2 (hafter.eq_nil hnone.1), ih hrest hnone.2⟩

/-- Some elements are added to a list one after the other, each at its end on the given side. -/
def Side.load {α : Type} (side : Side) (loaded xs : List α) : List α :=
  xs.foldl (fun loaded x => side.cons x loaded) loaded

namespace Side

variable {α : Type} {x : α} {loaded xs : List α}

theorem load_cons : side.load loaded (x :: xs) = side.load (side.cons x loaded) xs := rfl

theorem load_left : Side.left.load loaded xs = xs.reverse ++ loaded := by
  induction xs generalizing loaded with
  | nil => rfl
  | cons x xs ih => rw [load_cons, ih, List.reverse_cons, List.append_assoc]; rfl

theorem load_right : Side.right.load loaded xs = loaded ++ xs := by
  induction xs generalizing loaded with
  | nil => exact (List.append_nil _).symm
  | cons x xs ih => rw [load_cons, ih, cons, List.append_assoc]; rfl

theorem sublist_load : loaded.Sublist (side.load loaded xs) := by
  cases side with
  | left => exact load_left ▸ List.sublist_append_right _ _
  | right => exact load_right ▸ List.sublist_append_left _ _

end Side

namespace Tree

variable [Ord K] [Std.TransOrd K] {tree : Tree K V} {layout : Layout K V}

/-- A key that is beyond all others on one side compares with each of them in the same way. -/
theorem cut_of_beyond {k : K} {v : V} {entries : List (K × V)}
    (hasc : Ascending ((side.cons (k, v) entries).map Prod.fst)) :
    ∀ entry ∈ entries, Cut.of k entry.1 = match side with | .left => .gt | .right => .lt := by
  intro entry hentry
  have hkey : entry.1 ∈ entries.map Prod.fst := List.mem_map_of_mem hentry
  cases side with
  | left =>
    rw [Side.cons, List.map_cons, Ascending, List.pairwise_cons] at hasc
    show compare entry.1 k = .gt
    exact Std.OrientedCmp.gt_of_lt (hasc.1 entry.1 hkey)
  | right =>
    rw [Side.cons, List.map_append, Ascending, List.pairwise_append] at hasc
    exact hasc.2.2 entry.1 hkey k (List.mem_singleton_self k)

/-- A key beyond all others on one side lands at the end of the spine there. -/
theorem lands_beyond {k : K} {v : V} (hc : tree.Carries layout)
    (hasc : Ascending ((side.cons (k, v) layout.entries).map Prod.fst)) :
    ∃ q leaf lower upper,
      Lands (.of k) tree layout q leaf lower [] upper (.absent lower.length) ∧
      entriesOf (q.beyond side) = [] ∧
      Reference.insert k v layout.entries = side.cons (k, v) layout.entries := by
  have hbeyond := cut_of_beyond hasc
  rcases lands (Cut.agrees_of k) hc with
    ⟨q, leaf, lower, pair, upper, hl⟩ | ⟨q, leaf, lower, upper, hl⟩
  · -- A key that is present would be equal to one that all the present ones are beyond.
    have hpair : pair ∈ layout.entries := by
      rw [hl.entries]
      simp
    have hsame : Cut.of k pair.1 = .eq := hl.divides.same pair (List.mem_singleton_self pair)
    rw [hbeyond pair hpair] at hsame
    cases side with
    | left => exact Ordering.noConfusion hsame
    | right => exact Ordering.noConfusion hsame
  · refine ⟨q, leaf, lower, upper, hl, ?_⟩
    have hentries := hl.entries
    have hinsert := Reference.insert_of_not_mem (v := v) hl.divides
    rw [← hentries] at hinsert
    -- Of the two parts into which the key divides the entries the one beyond it is empty.
    cases side with
    | left =>
      have hnone : entriesOf q.left ++ lower = [] := by
        apply List.eq_nil_iff_forall_not_mem.2
        intro entry hentry
        have hmem : entry ∈ layout.entries :=
          hentries ▸ List.mem_append_left _ (List.mem_append_left _ hentry)
        have hbelow := hl.divides.below entry hentry
        rw [hbeyond entry hmem] at hbelow
        exact Ordering.noConfusion hbelow
      refine ⟨(List.append_eq_nil_iff.1 hnone).1, ?_⟩
      rw [hinsert, hentries, hnone]
      rfl
    | right =>
      have hnone : upper ++ entriesOf q.right = [] := by
        apply List.eq_nil_iff_forall_not_mem.2
        intro entry hentry
        have hmem : entry ∈ layout.entries := hentries ▸ List.mem_append_right _ hentry
        have habove := hl.divides.above entry hentry
        rw [hbeyond entry hmem] at habove
        exact Ordering.noConfusion habove
      refine ⟨(List.append_eq_nil_iff.1 hnone).2, ?_⟩
      rw [hinsert, hentries, hnone]
      simp [Side.cons]

/-- An insertion at the end of the spine keeps a layout packed. -/
theorem insert_packed {k : K} {v : V} (hc : tree.Carries layout)
    (hp : layout.root.Packed tree.fanout side)
    (hasc : Ascending ((side.cons (k, v) layout.entries).map Prod.fst)) :
    ∃ outcome layout', tree.insert k v = .ok outcome ∧
      tree.Advances layout outcome.events outcome.tree layout' ∧
      layout'.entries = side.cons (k, v) layout.entries ∧
      layout'.root.Packed tree.fanout side := by
  obtain ⟨q, leaf, lower, upper, hl, hnone, hplace⟩ := lands_beyond hc hasc
  have hfill := hl.fill
  subst hfill
  obtain ⟨outcome, q', layout', hinsert, -, halike, hadvances, hentries, hclimb⟩ :=
    insert_of_absent hc hl v
  refine ⟨outcome, layout', hinsert, hadvances, hentries.trans hplace, ?_⟩
  have hqfilled : q.Filled tree.fanout := ((q.filled_fill leaf).1 hc.sound.filled).1
  -- The refreshes on the way down change cached keys only, so the path is still on the spine.
  have halong : q'.Along side := by
    apply ((halike.filled tree.fanout).2 hqfilled).along
    rw [halike.beyond_eq]
    exact hnone
  obtain ⟨hqpacked, hqfits, -⟩ := (Path.packed_fill (hqfilled.along hnone) leaf).1 hp
  have hpacked : q'.Packed tree.fanout side := halike.rekeys.packed hqpacked
  rcases hclimb with ⟨rfl, -⟩ | ⟨ho, hsplits⟩
  · -- Nothing is divided: the leaf had a fitting number of entries, and has got one more that it
    -- admits.
    have hadmits := ((q'.filled_fill _).1 hadvances.carries.sound.filled).2.1
    rw [hadvances.fanout] at hadmits
    refine (Path.packed_fill halong _).2 ⟨hpacked, ?_, trivial⟩
    apply (halike.rekeys.fits hqfits).mono _ hadmits.le_max
    exact (Nat.le_succ _).trans hl.length_insert.ge
  · exact hsplits.packed ho halong hpacked trivial

/-- Entries in order keep a layout packed. -/
theorem insertMany_packed {entries : List (K × V)} (hc : tree.Carries layout)
    (hp : layout.root.Packed tree.fanout side)
    (hasc : Ascending ((side.load layout.entries entries).map Prod.fst)) :
    ∃ outcome layout', tree.insertMany entries = .ok outcome ∧
      outcome.tree.fanout = tree.fanout ∧ outcome.tree.Carries layout' ∧
      layout'.entries = side.load layout.entries entries ∧
      layout'.root.Packed tree.fanout side := by
  -- By induction on the entries that are left, each of which finds the tree packed.
  induction entries generalizing tree layout with
  | nil => exact ⟨⟨[], tree, []⟩, layout, rfl, rfl, hc, rfl, hp⟩
  | cons entry entries ih =>
    rw [Side.load_cons] at hasc
    obtain ⟨one, layout₁, hone, hadvances, hentries, hpacked⟩ :=
      insert_packed hc hp (hasc.sublist (Side.sublist_load.map Prod.fst))
    rw [← hentries] at hasc
    rw [← hadvances.fanout] at hpacked ⊢
    obtain ⟨many, layout₂, hmany, hfanout, hcarries, hentries₂, hpacked₂⟩ :=
      ih hadvances.carries hpacked hasc
    refine ⟨{ many with result := one.result :: many.result, events := one.events ++ many.events },
      layout₂, ?_, hfanout, hcarries, ?_, hpacked₂⟩
    · unfold insertMany
      rw [hone, ok_bind, hmany]
      rfl
    · rw [hentries₂, hentries, Side.load_cons]

end Tree

/-! ## Levels -/

theorem Side.sum_cons {m : Nat} {ms : List Nat} : (side.cons m ms).sum = m + ms.sum := by
  cases side with
  | left => exact List.sum_cons
  | right => rw [cons, List.sum_append, List.sum_singleton, Nat.add_comm]

/-- The keys of a level determine the number of its nodes: without the fewest that the node on the
spine may have, each of the other nodes has its share. -/
theorem Fanout.FitsLevel.length_eq {counts : List Nat} (hc : fanout.FitsLevel side counts) :
    counts.length = 1 + (counts.sum - fanout.outer side) / fanout.inner side := by
  obtain ⟨count, others, rfl, ⟨hle, hmax⟩, hothers⟩ := hc
  have hsum : others.sum = others.length * fanout.inner side := List.sum_eq_card_nsmul _ _ hothers
  -- What the node on the spine has beyond the fewest is less than the share of another one.
  have hbounds := fanout.inner_add_outer side
  have htwo := fanout.two_le_inner side
  have hrest : (count - fanout.outer side) / fanout.inner side = 0 :=
    Nat.div_eq_of_lt (by omega)
  rw [Side.length_cons, Side.sum_cons, hsum, Nat.sub_add_comm hle,
    Nat.add_mul_div_right _ _ (by omega), hrest]
  omega

/-! ## The nodes of a packed layout -/

namespace Block

variable {parent : Option Handle} {b : Subtree K V n}

theorem handle_mem_spine (b : Subtree K V n) (side : Side) : b.handle ∈ b.spine side := by
  cases n with
  | zero => exact List.mem_singleton_self _
  | succ n => exact List.mem_append_right _ (List.mem_singleton_self _)

/-- The spine of a branch is that of its outermost child and the branch itself. -/
theorem spine_of_pairs {b : Subtree K V (n + 1)} {slot : K × Subtree K V n}
    {others : List (K × Subtree K V n)} (hpairs : b.pairs = side.cons slot others) :
    b.spine side = slot.2.spine side ++ [b.handle] := by
  rw [spine_succ, spineEach, hpairs, Side.outermost?_cons, Option.elim_some]

theorem mem_handles_of_mem_spine (hp : b.Packed fanout side) {h : Handle}
    (hmem : h ∈ b.spine side) : h ∈ b.handles := by
  induction n with
  | zero => exact Multiset.mem_singleton.2 (List.mem_singleton.1 hmem)
  | succ n ih =>
    obtain ⟨slot, others, hpairs, hslot, -⟩ := hp
    rw [spine_of_pairs hpairs, List.mem_append, List.mem_singleton] at hmem
    rw [handles_succ, hpairs, handlesEach_side, Multiset.mem_cons, Multiset.mem_add]
    rcases hmem with hbelow | hself
    · exact .inr (.inl (ih hslot.2 hbelow))
    · exact .inl hself

theorem mem_handles_of_mem_cells {h : Handle} {node : Node K V}
    (hcell : (h, node) ∈ b.cells parent) : h ∈ b.handles := by
  rw [← map_fst_cells]
  exact Multiset.mem_map_of_mem Prod.fst hcell

theorem Solid.keyCount_eq {count : Nat} (hs : b.Solid count) {h : Handle} {node : Node K V}
    (hcell : (h, node) ∈ b.cells parent) : node.keyCount = count := by
  rw [cells_eq, Multiset.mem_cons] at hcell
  -- By induction on the level; the parent that the cells name is another one below.
  induction n generalizing parent h with
  | zero =>
    rcases hcell with hself | hnone
    · obtain ⟨-, rfl⟩ := Prod.mk.inj hself
      exact b.keyCount_node.trans hs
    · exact absurd hnone (Multiset.notMem_zero _)
  | succ n ih =>
    rcases hcell with hself | hbelow
    · obtain ⟨-, rfl⟩ := Prod.mk.inj hself
      exact b.keyCount_node.trans hs.1
    · obtain ⟨slot, hslot, hmem⟩ := mem_cellsEach.1 hbelow
      rw [cells_eq, Multiset.mem_cons] at hmem
      exact ih (hs.2 slot hslot) hmem

/-- Of the nodes below the topmost one those on the spine have a fitting number of keys, and all
others the same. -/
theorem Packed.keyCount_eq (hp : b.Packed fanout side) (hnodup : b.handles.Nodup) {h : Handle}
    {node : Node K V} (hcell : (h, node) ∈ b.below) :
    (h ∉ b.spine side → node.keyCount = fanout.inner side) ∧
      (h ∈ b.spine side → fanout.Fits side node.keyCount) := by
  -- The handles are different, so a slot off the spine of one child is not on that of another.
  induction n generalizing h with
  | zero => exact absurd hcell (Multiset.notMem_zero _)
  | succ n ih =>
    obtain ⟨slot, others, hpairs, ⟨hfits, hslot⟩, hothers⟩ := hp
    rw [handles_succ, hpairs, handlesEach_side, Multiset.nodup_cons, Multiset.nodup_add,
      Multiset.mem_add, not_or] at hnodup
    obtain ⟨⟨hself, hself'⟩, hnodupSlot, -, hdisjoint⟩ := hnodup
    rw [below, hpairs, cellsEach_side, Multiset.mem_add] at hcell
    simp only [spine_of_pairs hpairs, List.mem_append, List.mem_singleton]
    rcases hcell with hinner | hbeside
    · have hne : h ≠ b.handle := fun he => hself (he ▸ mem_handles_of_mem_cells hinner)
      simp only [hne, or_false]
      rw [cells_eq, Multiset.mem_cons] at hinner
      rcases hinner with htop | hbelow
      · obtain ⟨rfl, rfl⟩ := Prod.mk.inj htop
        refine ⟨absurd (slot.2.handle_mem_spine side), fun _ => ?_⟩
        rw [keyCount_node]
        exact hfits
      · exact ih hslot hnodupSlot hbelow
    · -- A node below another child has a slot that is not among those of the spine.
      obtain ⟨other, hother, hmem⟩ := mem_cellsEach.1 hbeside
      refine ⟨fun _ => (hothers other hother).keyCount_eq hmem, ?_⟩
      have hhandle := mem_handlesEach hother (mem_handles_of_mem_cells hmem)
      rintro (hspine | rfl)
      · have hinner := mem_handles_of_mem_spine hslot hspine
        exact absurd hhandle (Multiset.disjoint_left.1 hdisjoint hinner)
      · exact absurd hhandle hself'

/-! ## The number of nodes on each level -/

/-- The numbers of pairs in the blocks at a given depth, from left to right. -/
def countsAt : {n : Nat} → Nat → Subtree K V n → List Nat
  | _, 0, b => [b.count]
  | 0, _ + 1, _ => []
  | _ + 1, d + 1, b => b.pairs.flatMap fun slot => countsAt d slot.2

theorem countsAt_zero (b : Subtree K V n) : b.countsAt 0 = [b.count] := by
  cases n with
  | zero => rfl
  | succ n => rfl

theorem countsAt_succ (b : Subtree K V (n + 1)) (d : Nat) :
    b.countsAt (d + 1) = b.pairs.flatMap fun slot => slot.2.countsAt d := rfl

/-- In the deepest blocks stand the entries. -/
theorem countsAt_leaves (b : Subtree K V n) : b.countsAt n = b.leaves.map count := by
  induction n with
  | zero => rfl
  | succ n ih =>
    rw [countsAt_succ, leaves_succ, leavesEach, List.map_flatMap]
    exact congrArg (List.flatMap · b.pairs) (funext fun slot => ih slot.2)

/-- There is no level below the leaves. -/
theorem countsAt_of_lt {d : Nat} (hlt : n < d) : b.countsAt d = [] := by
  obtain ⟨d, rfl⟩ := Nat.exists_eq_succ_of_ne_zero (Nat.ne_zero_of_lt hlt)
  -- Each level down takes one off both numbers, and a leaf has no children.
  induction n generalizing d with
  | zero => rfl
  | succ n ih =>
    obtain ⟨d, rfl⟩ :=
      Nat.exists_eq_succ_of_ne_zero (Nat.ne_zero_of_lt (Nat.lt_of_succ_lt_succ hlt))
    rw [countsAt_succ, List.flatMap_eq_nil_iff]
    exact fun slot _ => ih d (Nat.lt_of_succ_lt_succ hlt)

theorem Solid.countsAt_eq {count : Nat} (hs : b.Solid count) (d : Nat) :
    ∀ m ∈ b.countsAt d, m = count := by
  induction d generalizing n with
  | zero =>
    intro m hm
    rw [countsAt_zero] at hm
    exact (List.mem_singleton.1 hm).trans hs.count_eq
  | succ d ih =>
    cases n with
    | zero => exact fun m hm => absurd hm List.not_mem_nil
    | succ n =>
      intro m hm
      obtain ⟨slot, hslot, hmem⟩ := List.mem_flatMap.1 hm
      exact ih (hs.2 slot hslot) m hmem

/-- Below an outermost child that has fitting numbers of pairs at some depth a branch has them one
level further down. -/
theorem fitsLevel_succ {b : Subtree K V (n + 1)} {slot : K × Subtree K V n}
    {others : List (K × Subtree K V n)} (hpairs : b.pairs = side.cons slot others)
    (hothers : SolidEach (fanout.inner side) others) {d : Nat}
    (hslot : fanout.FitsLevel side (slot.2.countsAt d)) :
    fanout.FitsLevel side (b.countsAt (d + 1)) := by
  obtain ⟨m, ms, hcounts, hfits, hms⟩ := hslot
  obtain ⟨rest, hrest, hmem⟩ :=
    Side.exists_flatMap_cons (fun slot : K × Subtree K V n => slot.2.countsAt d) others hcounts
  refine ⟨m, rest, ?_, hfits, ?_⟩
  · rw [countsAt_succ, hpairs, hrest]
  · intro i hi
    rcases hmem i hi with hbelow | ⟨other, hother, hbelow⟩
    · exact hms i hbelow
    · exact (hothers other hother).countsAt_eq d i hbelow

/-- On each level below the topmost block the numbers of pairs are fitting. -/
theorem Packed.fitsLevel {b : Subtree K V (n + 1)} (hp : b.Packed fanout side) {d : Nat}
    (hle : d ≤ n) : fanout.FitsLevel side (b.countsAt (d + 1)) := by
  -- By induction on the depth: the numbers that fit below the outermost child fit below the branch.
  induction d generalizing n with
  | zero =>
    obtain ⟨slot, others, hpairs, ⟨hfits, -⟩, hothers⟩ := hp
    apply fitsLevel_succ hpairs hothers
    exact ⟨slot.2.count, [], by rw [countsAt_zero, Side.cons_nil], hfits, by simp⟩
  | succ d ih =>
    obtain ⟨n, rfl⟩ := Nat.exists_eq_succ_of_ne_zero (Nat.ne_zero_of_lt hle)
    obtain ⟨slot, others, hpairs, ⟨-, hslot⟩, hothers⟩ := hp
    exact fitsLevel_succ hpairs hothers (ih hslot (Nat.le_of_succ_le_succ hle))

/-- The number of pairs on a level determines the number of blocks, if there are more than fit in
one. -/
theorem Packed.length_countsAt (hp : b.Packed fanout side) (hmax : b.count ≤ fanout.max) {d : Nat}
    (hmany : fanout.max < (b.countsAt d).sum) : (b.countsAt d).length =
      1 + ((b.countsAt d).sum - fanout.outer side) / fanout.inner side := by
  cases d with
  | zero =>
    -- At the top there is one number, which is not too large.
    rw [countsAt_zero, List.sum_singleton] at hmany
    exact absurd hmax (Nat.not_le_of_lt hmany)
  | succ d =>
    by_cases hlt : n < d + 1
    · rw [countsAt_of_lt hlt] at hmany
      exact absurd hmany (Nat.not_lt_zero _)
    · obtain ⟨n, rfl⟩ := Nat.exists_eq_succ_of_ne_zero (Nat.ne_zero_of_lt (Nat.le_of_not_lt hlt))
      exact (hp.fitsLevel (Nat.le_of_succ_le_succ (Nat.le_of_not_lt hlt))).length_eq

end Block

/-! ## Every loaded tree -/

namespace Shape

/-- The nodes at a given depth, from left to right. -/
def level : Nat → Shape K V → List (Shape K V)
  | 0, shape => [shape]
  | d + 1, shape => shape.children.flatMap (level d)

/-- The number of keys in the nodes at a given depth. -/
def keysAt (shape : Shape K V) (d : Nat) : Nat :=
  ((shape.level d).map fun node => node.keys.length).sum

end Shape

theorem Block.map_level_shape (b : Subtree K V n) (parent : Option Handle) (d : Nat) :
    ((b.shape parent).level d).map (fun node => node.keys.length) = b.countsAt d := by
  induction d generalizing n parent with
  | zero =>
    rw [Shape.level, List.map_singleton, keys_shape, List.length_map, countsAt_zero]
    rfl
  | succ d ih =>
    cases n with
    | zero => rfl
    | succ n =>
      rw [Shape.level, countsAt_succ, List.map_flatMap]
      show (b.pairs.map fun slot => slot.2.shape (some b.handle)).flatMap _ = _
      rw [List.flatMap_map]
      exact congrArg (List.flatMap · b.pairs) (funext fun slot => ih slot.2 _)

/-- A tree that has been loaded in order with a given number of entries: all nodes but those on the
spine of one side have `inner` keys, those on the spine `outer` keys or more, and the number of keys
on a level, or of entries, determines the number of nodes there. -/
structure Tree.Packed (tree : Tree K V) (side : Side) (inner outer entries : Nat) : Prop where
  size : tree.size = entries
  nodes : ∃ leaf above, tree.outermostLeaf side = .ok leaf ∧ tree.spine side = .ok (leaf :: above) ∧
    ∀ h node, tree.nodes.get? h = some node →
      (h ∉ leaf :: above → node.keyCount = inner) ∧
      (h ∈ leaf :: above → h ≠ tree.root →
        outer ≤ node.keyCount ∧ node.keyCount ≤ tree.fanout.max)
  leaves : ∃ leaves, tree.leaves = .ok leaves ∧
    (tree.fanout.max < entries → leaves.length = 1 + (entries - outer) / inner)
  levels : ∃ shape, tree.shape = .ok shape ∧ ∀ d, tree.fanout.max < shape.keysAt d →
    (shape.level d).length = 1 + (shape.keysAt d - outer) / inner

namespace Tree.Carries

variable [Ord K] {tree : Tree K V} {layout : Layout K V}

/-- A tree is packed if it carries a packed layout. -/
theorem packed (hc : tree.Carries layout) (hp : layout.root.Packed tree.fanout side) :
    tree.Packed side (tree.fanout.inner side) (tree.fanout.outer side) layout.entries.length where
  size := hc.size
  -- The spine is read along the links, and what the slots hold off the arena; both are in the
  -- layout.
  nodes := by
    have hne : layout.root.spine side ≠ [] := Block.spine_ne_nil layout.root
    obtain ⟨leaf, above, hspine⟩ := List.exists_cons_of_ne_nil hne
    have htrail := hc.spine_eq side
    rw [hspine] at htrail
    refine ⟨leaf, above, outermostLeaf_of_spine htrail, htrail, ?_⟩
    intro h node hnode
    rw [← hspine]
    have hcell := (hc.shows.holds.get?_iff h node).1 hnode
    rw [Layout.cells, Block.cells_eq, Multiset.mem_cons] at hcell
    rcases hcell with hself | hbelow
    · -- The root is on the spine, and it is the one node there without a lower bound.
      obtain ⟨rfl, rfl⟩ := Prod.mk.inj hself
      exact ⟨absurd (layout.root.handle_mem_spine side),
        fun _ hne => absurd hc.shows.root.symm hne⟩
    · obtain ⟨hinner, houter⟩ := hp.keyCount_eq hc.nodup hbelow
      exact ⟨hinner, fun hmem _ => houter hmem⟩
  leaves := by
    obtain ⟨leaves, hleaves, hmap⟩ := hc.leaves_eq
    refine ⟨leaves, hleaves, fun hmany => ?_⟩
    have hlength := congrArg List.length hmap
    rw [List.length_map, List.length_map] at hlength
    have hsum : (layout.root.countsAt layout.levels).sum = layout.entries.length := by
      rw [Block.countsAt_leaves, Layout.entries, entriesOf, List.length_flatMap]
      rfl
    have hcounts := hp.length_countsAt hc.sound.filled.le_max (hsum ▸ hmany)
    rw [hsum, Block.countsAt_leaves, List.length_map] at hcounts
    exact hlength.trans hcounts
  levels := by
    refine ⟨_, hc.shape_eq, fun d hmany => ?_⟩
    have hmap := layout.root.map_level_shape none d
    rw [Shape.keysAt, hmap] at hmany ⊢
    rw [← hp.length_countsAt hc.sound.filled.le_max hmany, ← hmap, List.length_map]

/-- The layout of a tree without entries is a single leaf, which is packed. -/
theorem packed_of_empty (hc : tree.Carries layout) (hsize : tree.size = 0) :
    layout.root.Packed tree.fanout side := by
  -- With a branch at the top there would be entries below it.
  by_cases hlevels : layout.levels = 0
  · obtain ⟨levels, root⟩ := layout
    obtain rfl : levels = 0 := hlevels
    trivial
  · have hle := hc.two_mul_pow_le hlevels
    have htwo := tree.fanout.two_le_min
    have hpos : 0 < tree.fanout.min ^ layout.levels := Nat.pow_pos (by omega)
    omega

end Tree.Carries

/-- Trees that are loaded in order are packed.  For every fanout and every tree without entries that
can be reached, entries with ascending keys leave each node that is not on the right spine with the
smallest number of keys, and entries with descending keys leave each node that is not on the left
spine with the number of the larger half.  A node on the spine but for the root has at least as many
keys as the other half, and a level has as many nodes as its keys ask for. -/
theorem run_packs [Ord K] [Std.TransOrd K] (fanout : Fanout) (operations : List (Operation K V)) :
    ∃ answers session, (Session.start fanout).run operations = .ok (answers, session) ∧
      (session.tree.size = 0 → ∀ entries : List (K × V),
        (Ascending (entries.map Prod.fst) →
          ∃ outcome, session.tree.insertMany entries = .ok outcome ∧
            outcome.tree.fanout = fanout ∧
            outcome.tree.Packed .right fanout.min (fanout.max + 1 - fanout.min) entries.length) ∧
        (Ascending (entries.reverse.map Prod.fst) →
          ∃ outcome, session.tree.insertMany entries = .ok outcome ∧
            outcome.tree.fanout = fanout ∧
            outcome.tree.Packed .left (fanout.max + 1 - fanout.min) fanout.min
              entries.length)) := by
  obtain ⟨session, layout, hrun, hs, -⟩ :=
    Session.run_eq (Session.start_carries fanout) operations
  have hc : session.tree.Carries layout := hs.tree
  have hfanout : session.tree.fanout = fanout := hs.fanout_eq
  refine ⟨_, session, hrun, fun hempty entries => ?_⟩
  have hnone : layout.entries = [] := List.length_eq_zero_iff.1 (hc.size ▸ hempty)
  -- Both directions are the same load, seen from the side at which the entries come in.
  have hload (side : Side) (hasc : Ascending ((side.load [] entries).map Prod.fst)) :
      ∃ outcome, session.tree.insertMany entries = .ok outcome ∧ outcome.tree.fanout = fanout ∧
        outcome.tree.Packed side (fanout.inner side) (fanout.outer side)
          (side.load [] entries).length := by
    rw [← hnone] at hasc ⊢
    obtain ⟨outcome, layout', hinsert, hsame, hcarries, hentries, hpacked⟩ :=
      Tree.insertMany_packed hc (hc.packed_of_empty hempty) hasc
    rw [← hsame] at hpacked
    have htree := hcarries.packed hpacked
    rw [hentries, hsame, hfanout] at htree
    exact ⟨outcome, hinsert, hsame.trans hfanout, htree⟩
  refine ⟨fun hasc => ?_, fun hasc => ?_⟩
  · have hright := hload .right
    rw [Side.load_right] at hright
    exact hright hasc
  · have hleft := hload .left
    rw [Side.load_left, List.append_nil, List.length_reverse] at hleft
    exact hleft hasc

/-- With four keys to a node, twelve entries stand in five leaves if they come in ascending order,
and in four leaves if they come in descending order. -/
theorem run_packs_twelve :
    ∃ (up down : Outcome Nat Nat (List (Option Nat)))
      (leaves leaves' : List (Handle × Leaf Nat Nat)),
      (Tree.empty ⟨4, by decide⟩).insertMany ((List.range 12).map fun i => (i, i)) = .ok up ∧
      up.tree.leaves = .ok leaves ∧ leaves.length = 5 ∧
      (Tree.empty ⟨4, by decide⟩).insertMany ((List.range 12).reverse.map fun i => (i, i)) =
        .ok down ∧
      down.tree.leaves = .ok leaves' ∧ leaves'.length = 4 := by
  obtain ⟨answers, session, hrun, hloads⟩ := run_packs (K := Nat) (V := Nat) ⟨4, by decide⟩ []
  obtain ⟨-, rfl⟩ := Prod.mk.inj (Except.ok.inj hrun)
  obtain ⟨up, hup, hfanout, hpacked⟩ := (hloads rfl ((List.range 12).map fun i => (i, i))).1
    (by rw [Ascending]; decide)
  obtain ⟨down, hdown, hfanout', hpacked'⟩ :=
    (hloads rfl ((List.range 12).reverse.map fun i => (i, i))).2 (by rw [Ascending]; decide)
  -- There are more entries than fit in one leaf, so their number determines that of the leaves.
  obtain ⟨leaves, hleaves, hlength⟩ := hpacked.leaves
  obtain ⟨leaves', hleaves', hlength'⟩ := hpacked'.leaves
  rw [hfanout] at hlength
  rw [hfanout'] at hlength'
  exact ⟨up, down, leaves, leaves', hup, hleaves, hlength (by decide), hdown, hleaves',
    hlength' (by decide)⟩

end OrderedIndex
