import OrderedIndex.Event
import OrderedIndex.Proofs.Regrouping

/-!
# Mending short nodes

The climb that mends short nodes, as a relation between layouts.  A short block borrows from the
sibling on one of its sides, or is merged with it, and the two cases of a side are treated alike:
what is on the left comes first.  The invariant of the climb is that the subtree at the end of the
path is short by no more than one pair and nothing else is wrong.
-/

namespace OrderedIndex

variable {K V A : Type} {n : Nat}

/-! ## Sides -/

namespace Side

/-- The other side. -/
def opposite : Side → Side
  | .left => .right
  | .right => .left

/-- A list with one more element at its end on the given side. -/
def cons {α : Type} : Side → α → List α → List α
  | .left, x, xs => x :: xs
  | .right, x, xs => xs ++ [x]

/-- Something and what stands on the given side of it, from left to right. -/
def both {α : Type} : Side → α → α → List α
  | .left, beside, x => [beside, x]
  | .right, beside, x => [x, beside]

variable {α : Type} {side : Side} {x y : α} {xs : List α}

@[simp] theorem mem_cons_iff : y ∈ side.cons x xs ↔ y = x ∨ y ∈ xs := by
  cases side with
  | left => simp [cons]
  | right => simp [cons, or_comm]

/-- What a lender keeps was its own. -/
theorem mem_of_mem_kept {lent : List α} (hlent : lent = side.opposite.cons x xs) :
    ∀ y ∈ xs, y ∈ lent := by
  intro y hy
  rw [hlent]
  exact mem_cons_iff.2 (.inr hy)

/-- What a borrower has afterwards was the lender's or its own. -/
theorem mem_of_mem_received {lent kept : List α} (hlent : lent = side.opposite.cons x kept) :
    ∀ y ∈ side.cons x xs, y ∈ lent ∨ y ∈ xs := by
  intro y hy
  rw [hlent]
  rcases mem_cons_iff.1 hy with rfl | hy
  · exact .inl (mem_cons_iff.2 (.inl rfl))
  · exact .inr hy

theorem exists_cons (side : Side) (hne : xs ≠ []) : ∃ x xs', xs = side.cons x xs' := by
  cases side with
  | left => exact List.exists_cons_of_ne_nil hne
  -- From the right, the closest of some elements is the last one.
  | right => exact ⟨xs.getLast hne, xs.dropLast, (List.dropLast_append_getLast hne).symm⟩

@[simp] theorem length_cons : (side.cons x xs).length = xs.length + 1 := by
  cases side with
  | left => rfl
  | right => simp [cons]

@[simp] theorem mem_both_iff {beside : α} : y ∈ side.both beside x ↔ y = beside ∨ y = x := by
  cases side with
  | left => simp [both]
  | right => simp [both, or_comm]

@[simp] theorem map_both {β : Type} {beside : α} (g : α → β) :
    (side.both beside x).map g = side.both (g beside) (g x) := by
  cases side with
  | left => rfl
  | right => rfl

@[simp] theorem length_both {beside : α} : (side.both beside x).length = 2 := by
  cases side with
  | left => rfl
  | right => rfl

end Side

theorem cellsEach_side {parent : Option Handle} {side : Side} {slot : K × Subtree K V n}
    {slots : List (K × Subtree K V n)} : cellsEach parent (side.cons slot slots) =
      slot.2.cells parent + cellsEach parent slots := by
  cases side with
  -- The cells are a sum, so on which side the subtree stands does not count.
  | left => exact cellsEach_cons
  | right =>
    rw [Side.cons, cellsEach_append, cellsEach_cons, cellsEach_nil, add_zero, add_comm]

theorem cellsEach_both {parent : Option Handle} {side : Side} {slot slot' : K × Subtree K V n} :
    cellsEach parent (side.both slot slot') = slot.2.cells parent + slot'.2.cells parent := by
  cases side with
  | left => simp [Side.both]
  | right => simp [Side.both, add_comm]

/-! ## Neighbours -/

namespace Frame

/-- The frame with one more child next to its gap on the given side. -/
def widen (f : Frame K A) (slot : K × A) : Side → Frame K A
  | .left => { f with before := f.before ++ [slot] }
  | .right => { f with after := slot :: f.after }

variable {side : Side} {slot : K × A} {f : Frame K A}

@[simp] theorem handle_widen : (f.widen slot side).handle = f.handle := by
  cases side with
  | left => rfl
  | right => rfl

/-- On the side on which a frame is widened, the new child stands next to the gap. -/
@[simp] theorem beside_widen : (f.widen slot side).beside side = some slot := by
  cases side with
  | left => simp [widen, beside]
  | right => rfl

@[simp] theorem beside_widen_opposite :
    (f.widen slot side).beside side.opposite = f.beside side.opposite := by
  cases side with
  | left => rfl
  | right => rfl

/-- What stands next to a gap is what a frame has been widened by. -/
theorem exists_widen (hslot : slot ∈ f.beside side) : ∃ g : Frame K A, f = g.widen slot side := by
  -- The list on that side splits at its end next to the gap.
  cases side with
  | left =>
    obtain ⟨before, hbefore⟩ := List.getLast?_eq_some_iff.1 hslot
    exact ⟨{ f with before }, by rw [widen, ← hbefore]⟩
  | right =>
    obtain ⟨after, hafter⟩ := List.head?_eq_some_iff.1 hslot
    exact ⟨{ f with after }, by rw [widen, ← hafter]⟩

theorem plug_widen (a : A) :
    (f.widen slot side).plug a = f.fill (side.both slot (f.key, a)) := by
  cases side with
  | left => simp [widen, plug, fill, Side.both]
  | right => simp [widen, plug, fill, Side.both]

theorem count_widen : (f.widen slot side).count = f.count + 1 := by
  cases side with
  | left =>
    simp [widen, count]
    omega
  | right =>
    simp [widen, count]
    omega

theorem filledEach_widen {fanout : Fanout} {slot : K × Subtree K V n}
    {f : Frame K (Subtree K V n)} :
    (FilledEach fanout (f.widen slot side).before ∧ FilledEach fanout (f.widen slot side).after) ↔
      ((fanout.min ≤ slot.2.count ∧ slot.2.count ≤ fanout.max) ∧ slot.2.FilledBelow fanout) ∧
        FilledEach fanout f.before ∧ FilledEach fanout f.after := by
  cases side with
  | left =>
    simp only [widen, filledEach_append, filledEach_cons, filledEach_nil, and_true]
    tauto
  | right =>
    simp only [widen, filledEach_cons]
    tauto

end Frame

/-! ## The relation -/

/-- The climb that starts with a short subtree at the end of a path gives a layout and leaves a
record of events. -/
inductive Mends (fanout : Fanout) :
    {n : Nat} → Path K V n → Subtree K V n → Layout K V → List Event → Prop where
  /-- A root that is a leaf may have any number of entries. -/
  | leaf {t : Block K V} : Mends fanout .top (n := 0) t ⟨0, t⟩ []
  /-- A root with some children stays. -/
  | branch {n : Nat} {t : Subtree K V (n + 1)} (hmany : t.count ≠ 1) :
      Mends fanout .top t ⟨n + 1, t⟩ []
  /-- The only child of the root becomes the root. -/
  | collapses {n : Nat} {handle : Handle} {next : Option Handle} {k : K} {c : Subtree K V n} :
      Mends fanout .top (n := n + 1) ⟨handle, next, [(k, c)]⟩ ⟨n, c⟩ [.collapsed c.handle (n + 1)]
  /-- The subtree is not short. -/
  | enough {n : Nat} {f : Frame K (Subtree K V n)} {rest : Path K V (n + 1)} {t : Subtree K V n}
      (hmin : fanout.min ≤ t.count) : Mends fanout (.step f rest) t (rest.fill (f.plug t)) []
  /-- A sibling that can spare a pair passes the closest one, the sibling on the right only if that
  on the left cannot. -/
  | borrows {n : Nat} {side : Side} {f : Frame K (Subtree K V n)} {rest : Path K V (n + 1)}
      {t : Subtree K V n} {slot : K × Subtree K V n} {pair : K × Beside K V n}
      {pairs : List (K × Beside K V n)} {k k' : K} (hshort : t.count < fanout.min)
      (hspare : fanout.min < slot.2.count)
      (hfirst : side = .right → ∀ other ∈ f.beside .left, other.2.count ≤ fanout.min)
      (hpairs : slot.2.pairs = side.opposite.cons pair pairs)
      (hk : (t.withPairs (side.cons pair t.pairs)).maxKey? = some k)
      (hk' : (slot.2.withPairs pairs).maxKey? = some k') :
      Mends fanout (.step (f.widen slot side) rest) t
        (rest.fill (f.fill (side.both (k', slot.2.withPairs pairs)
          (k, t.withPairs (side.cons pair t.pairs)))))
        [.borrowed side t.handle slot.2.handle (t.count + 1)]
  /-- Neither sibling can spare a pair.  The subtree is merged with one of them, with the one on the
  right only if there is none on the left, and the climb goes on. -/
  | merges {n : Nat} {side : Side} {f : Frame K (Subtree K V n)} {rest : Path K V (n + 1)}
      {t : Subtree K V n} {slot l r : K × Subtree K V n} {layout : Layout K V}
      {events : List Event} (hshort : t.count < fanout.min) (hfew : slot.2.count ≤ fanout.min)
      (hothers : ∀ other ∈ f.beside side.opposite, other.2.count ≤ fanout.min)
      (hfirst : side = .right → f.beside .left = none)
      (hlr : side.both slot (f.key, t) = [l, r])
      (hrest : Mends fanout rest (f.fill [(r.1, l.2.merge r.2)]) layout events) :
      Mends fanout (.step (f.widen slot side) rest) t layout
        (.merged l.2.handle r.2.handle (l.2.count + r.2.count) :: events)

/-- A leaf with enough entries is mended by doing nothing. -/
theorem Mends.of_le {fanout : Fanout} {t : Block K V} (hmin : fanout.min ≤ t.count)
    (q : Path K V 0) : Mends fanout q (n := 0) t (q.fill t) [] := by
  cases q with
  | top => exact .leaf
  | step f rest => exact .enough hmin

/-! ## The invariant of the climb -/

/-- Whether a block of that many pairs may be met at the end of a path while short nodes are mended:
below the root it is short by at most one pair, and at the root it has a child if it is a branch. -/
def Path.Tolerates (fanout : Fanout) (count : Nat) : {n : Nat} → Path K V n → Prop
  | n, .top => n ≠ 0 → 1 ≤ count
  | _, .step _ _ => fanout.min ≤ count + 1

/-- A subtree that may be short by one pair, in a layout with nothing else wrong. -/
structure Short (fanout : Fanout) (p : Path K V n) (t : Subtree K V n) : Prop where
  tolerated : p.Tolerates fanout t.count
  le_max : t.count ≤ fanout.max
  below : t.FilledBelow fanout
  path : p.Filled fanout
  exact : (p.fill t).root.Exact

namespace Short

variable {fanout : Fanout} {side : Side} {f : Frame K (Subtree K V n)} {rest : Path K V (n + 1)}
  {t : Subtree K V n} {slot : K × Subtree K V n}

theorem exact_parent (hs : Short fanout (.step (f.widen slot side) rest) t) :
    Block.Exact (n := n + 1) (f.fill (side.both slot (f.key, t))) := by
  have hexact : (rest.fill ((f.widen slot side).plug t)).root.Exact := hs.exact
  rw [Frame.plug_widen] at hexact
  exact ((rest.exact_fill _).1 hexact).2

theorem exact_beside (hs : Short fanout (.step (f.widen slot side) rest) t) :
    slot.2.maxKey? = some slot.1 ∧ slot.2.Exact :=
  (f.exact_fill.1 hs.exact_parent).1 slot (by simp)

theorem exact_self (hs : Short fanout (.step (f.widen slot side) rest) t) :
    t.maxKey? = some f.key ∧ t.Exact :=
  (f.exact_fill.1 hs.exact_parent).1 (f.key, t) (by simp)

theorem filled_beside (hs : Short fanout (.step (f.widen slot side) rest) t) :
    (fanout.min ≤ slot.2.count ∧ slot.2.count ≤ fanout.max) ∧ slot.2.FilledBelow fanout :=
  (Frame.filledEach_widen.1 hs.path.1).1

theorem filled_others (hs : Short fanout (.step (f.widen slot side) rest) t) :
    FilledEach fanout f.before ∧ FilledEach fanout f.after :=
  (Frame.filledEach_widen.1 hs.path.1).2

/-- Passing a pair to the short subtree rearranges the layout. -/
theorem rearranges_borrows {pair : K × Beside K V n} {pairs : List (K × Beside K V n)} {k k' : K}
    (hs : Short fanout (.step (f.widen slot side) rest) t)
    (hpairs : slot.2.pairs = side.opposite.cons pair pairs)
    (hk : (t.withPairs (side.cons pair t.pairs)).maxKey? = some k)
    (hk' : (slot.2.withPairs pairs).maxKey? = some k') :
    ((Path.step (f.widen slot side) rest).fill t).Rearranges
      (rest.fill (f.fill (side.both (k', slot.2.withPairs pairs)
        (k, t.withPairs (side.cons pair t.pairs))))) := by
  have hregroups : Regroups (side.both slot (f.key, t))
      (side.both (k', slot.2.withPairs pairs) (k, t.withPairs (side.cons pair t.pairs))) := by
    -- Whichever side the lender is on, the pair that is passed stands between what each keeps.
    cases side with
    | left =>
      refine regroups_passed ?_ hs.exact_self.1 hk' hk
      rw [hpairs]
      simp [Side.opposite, Side.cons]
    | right =>
      refine regroups_passed ?_ hs.exact_beside.1 hk hk'
      rw [hpairs]
      simp [Side.opposite, Side.cons]
  have hsame := hregroups.rearranges f rest
  rw [← Frame.plug_widen] at hsame
  exact hsame

/-- Merging the short subtree with a sibling rearranges the layout. -/
theorem rearranges_merges {l r : K × Subtree K V n}
    (hs : Short fanout (.step (f.widen slot side) rest) t)
    (hlr : side.both slot (f.key, t) = [l, r]) :
    ((Path.step (f.widen slot side) rest).fill t).Rearranges
      (rest.fill (f.fill [(r.1, l.2.merge r.2)])) := by
  -- The second of the two siblings has the last key of both, so its cached key stays.
  have hexact := (f.exact_fill.1 hs.exact_parent).1
  rw [hlr] at hexact
  have hregroups : Regroups [l, r] [(r.1, l.2.merge r.2)] :=
    regroups_merge (hexact r (by simp)).1
  have hsame := hregroups.rearranges f rest
  rw [← hlr, ← Frame.plug_widen] at hsame
  exact hsame

/-- A short subtree has exactly one pair less than it needs. -/
theorem count_succ_eq (hs : Short fanout (.step f rest) t) (hshort : t.count < fanout.min) :
    t.count + 1 = fanout.min := by
  have hnearly : fanout.min ≤ t.count + 1 := hs.tolerated
  omega

/-- The parent of a subtree below the root has another child. -/
theorem two_le_count (hs : Short fanout (.step f rest) t) : 2 ≤ f.count := by
  have hadmits := hs.path.2.1
  cases rest with
  -- A parent is the root or filled itself, and in either case it has two children.
  | top => exact hadmits.2 (Nat.succ_ne_zero _)
  | step g rest => exact fanout.two_le_min.trans hadmits.1

/-- A subtree that has got a pair and the sibling that it is from are filled. -/
theorem filled_borrows {pair : K × Beside K V n} {pairs : List (K × Beside K V n)} {k k' : K}
    (hs : Short fanout (.step (f.widen slot side) rest) t) (hshort : t.count < fanout.min)
    (hspare : fanout.min < slot.2.count) (hpairs : slot.2.pairs = side.opposite.cons pair pairs) :
    FilledEach fanout (side.both (k', slot.2.withPairs pairs)
      (k, t.withPairs (side.cons pair t.pairs))) := by
  have hlt := fanout.min_lt_max
  have hnearly := hs.count_succ_eq hshort
  have hlender : slot.2.count = (slot.2.withPairs pairs).count + 1 := by
    simp [Block.count, Block.withPairs, hpairs]
  have hnode : (t.withPairs (side.cons pair t.pairs)).count = t.count + 1 := by
    simp [Block.count, Block.withPairs]
  obtain ⟨⟨-, hmax⟩, hbelow⟩ := hs.filled_beside
  -- The lender had one pair more than it needs, the short subtree one less.
  have hbounds : (fanout.min ≤ (slot.2.withPairs pairs).count ∧
      (slot.2.withPairs pairs).count ≤ fanout.max) ∧
        fanout.min ≤ (t.withPairs (side.cons pair t.pairs)).count ∧
          (t.withPairs (side.cons pair t.pairs)).count ≤ fanout.max := by
    omega
  intro c hc
  rcases Side.mem_both_iff.1 hc with rfl | rfl
  · refine ⟨hbounds.1, hbelow.of_subset hbelow ?_⟩
    intro other hother
    exact .inl (Side.mem_of_mem_kept hpairs other hother)
  · exact ⟨hbounds.2, hbelow.of_subset hs.below (Side.mem_of_mem_received hpairs)⟩

/-- Two siblings that are merged have, together, one pair less than twice what a node needs. -/
theorem count_merged {l r : K × Subtree K V n}
    (hs : Short fanout (.step (f.widen slot side) rest) t) (hshort : t.count < fanout.min)
    (hfew : slot.2.count ≤ fanout.min) (hlr : side.both slot (f.key, t) = [l, r]) :
    l.2.count + r.2.count = 2 * fanout.min - 1 := by
  have hcount := hs.count_succ_eq hshort
  have hmin := hs.filled_beside.1.1
  have htwo := fanout.two_le_min
  -- The two are the short subtree and a sibling without a pair to spare, in one order or the other.
  cases side with
  | left =>
    obtain ⟨rfl, rfl⟩ : slot = l ∧ (f.key, t) = r := by simpa [Side.both] using hlr
    show slot.2.count + t.count = _
    omega
  | right =>
    obtain ⟨rfl, rfl⟩ : (f.key, t) = l ∧ slot = r := by simpa [Side.both] using hlr
    show t.count + slot.2.count = _
    omega

/-- The parent of two merged siblings is short by at most one child. -/
theorem next {l r : K × Subtree K V n} (hs : Short fanout (.step (f.widen slot side) rest) t)
    (hshort : t.count < fanout.min) (hfew : slot.2.count ≤ fanout.min)
    (hlr : side.both slot (f.key, t) = [l, r]) :
    Short fanout rest (f.fill [(r.1, l.2.merge r.2)]) := by
  -- The frame has lost the child that it was widened by.
  have hcount : (f.fill [(r.1, l.2.merge r.2)]).count = f.count := by
    rw [Frame.count_fill]
    rfl
  have hadmits := hs.path.2.1
  rw [Frame.count_widen] at hadmits
  have hmax := fanout.two_mul_min_le
  have htwo := fanout.two_le_min
  have hmerged := hs.count_merged hshort hfew hlr
  have hbelow : (l.2.merge r.2).FilledBelow fanout := by
    have heach : ∀ c ∈ [l, r], c.2.FilledBelow fanout := by
      rw [← hlr]
      intro c hc
      rcases Side.mem_both_iff.1 hc with rfl | rfl
      · exact hs.filled_beside.2
      · exact hs.below
    exact (heach l (by simp)).of_subset (heach r (by simp)) fun _ hpair => List.mem_append.1 hpair
  refine ⟨?_, ?_, f.filledBelow_fill.2 ⟨?_, hs.filled_others⟩, hs.path.2.2, ?_⟩
  · rw [hcount]
    cases rest with
    -- A root had at least two children, and any other node as many as it needs.
    | top => exact fun hn => Nat.le_of_succ_le_succ (hadmits.2 hn)
    | step g rest => exact hadmits.1
  · rw [hcount]
    cases rest with
    | top => exact Nat.le_of_succ_le hadmits.1
    | step g rest => exact Nat.le_of_succ_le hadmits.2
  · simp only [filledEach_cons, filledEach_nil, Block.count_merge, hbelow, and_true]
    omega
  · exact (hs.rearranges_merges hlr).exact hs.exact

end Short

/-! ## What the climb keeps -/

namespace Mends

variable {fanout : Fanout} {p : Path K V n} {t : Subtree K V n} {layout : Layout K V}
  {events : List Event}

/-- The climb rearranges the layout. -/
theorem rearranges (hmends : Mends fanout p t layout events) (hs : Short fanout p t) :
    (p.fill t).Rearranges layout := by
  -- Only borrowing, merging and the collapse of the root change anything, and each rearranges.
  induction hmends with
  | leaf => exact Layout.Rearranges.refl _
  | branch hmany => exact Layout.Rearranges.refl _
  | collapses => exact Layout.rearranges_collapsed _ _ _ _
  | enough hmin => exact Layout.Rearranges.refl _
  | borrows hshort hspare hfirst hpairs hk hk' => exact hs.rearranges_borrows hpairs hk hk'
  | merges hshort hfew hothers hfirst hlr hrest ih =>
    exact (hs.rearranges_merges hlr).trans (ih (hs.next hshort hfew hlr))

/-- The climb ends with all blocks filled within their bounds. -/
theorem filled (hmends : Mends fanout p t layout events) (hs : Short fanout p t) :
    layout.Filled fanout := by
  have htwo := fanout.two_le_min
  have hlt := fanout.min_lt_max
  -- Each case ends in a layout that is filled but for the node in hand, which is looked at here.
  induction hmends with
  | leaf => exact ⟨hs.below, hs.le_max, fun hn => absurd rfl hn⟩
  | branch hmany =>
    -- The root has a child, and it is not its only one.
    have hpos := hs.tolerated (Nat.succ_ne_zero _)
    exact ⟨hs.below, hs.le_max, fun _ => (Nat.two_le_iff _).2 ⟨Nat.ne_zero_of_lt hpos, hmany⟩⟩
  | collapses =>
    -- The new root was filled as a child, so a branch has at least two children of its own.
    obtain ⟨⟨hmin, hmax⟩, hbelow⟩ := hs.below _ (List.mem_singleton_self _)
    exact ⟨hbelow, hmax, fun _ => htwo.trans hmin⟩
  | enough hmin => exact (Path.filled_fill (.step _ _) _).2 ⟨hs.path, ⟨hmin, hs.le_max⟩, hs.below⟩
  | @borrows n side f rest t slot pair pairs k k' hshort hspare hfirst hpairs hk hk' =>
    -- The parent has as many children as before.
    have hcount : (f.fill (side.both (k', slot.2.withPairs pairs)
        (k, t.withPairs (side.cons pair t.pairs)))).count = (f.widen slot side).count := by
      rw [Frame.count_fill, Frame.count_widen, Side.length_both, Frame.count]
      omega
    refine (rest.filled_fill _).2 ⟨hs.path.2.2, ?_, f.filledBelow_fill.2 ⟨?_, hs.filled_others⟩⟩
    · rw [hcount]
      exact hs.path.2.1
    · exact hs.filled_borrows hshort hspare hpairs
  | merges hshort hfew hothers hfirst hlr hrest ih => exact ih (hs.next hshort hfew hlr)

end Mends

end OrderedIndex
