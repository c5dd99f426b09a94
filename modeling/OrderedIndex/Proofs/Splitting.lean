import OrderedIndex.Event
import OrderedIndex.Proofs.Regrouping

/-!
# Dividing overfull nodes

The climb that divides overfull nodes, as a relation between layouts that knows nothing of an arena
or of a bound on the number of steps.  What the climb keeps is shown by induction on a derivation;
the invariant is that the subtree at the end of the path has one pair too many and nothing else is
wrong.
-/

namespace OrderedIndex

variable {K V : Type} {n : Nat}

/-! ## The relation -/

/-- The record of the division of a block. -/
def Block.splitEvent (right : Handle) (t : Subtree K V n) : Event :=
  .split t.handle right (n == 0) (t.lower right).count (t.upper right).count

/-- The two halves of a block with the keys to be cached for them. -/
def Block.halves (right : Handle) (k₁ k : K) (t : Subtree K V n) : List (K × Subtree K V n) :=
  [(k₁, t.lower right), (k, t.upper right)]

/-- The halves of a block have its handles and one more. -/
theorem Block.handles_halves (right : Handle) (t : Subtree K V n) :
    (t.lower right).handles + (t.upper right).handles = right ::ₘ t.handles := by
  cases n with
  | zero =>
    -- A leaf has no handles but its own.
    show ({t.handle} : Multiset Handle) + {right} = right ::ₘ {t.handle}
    rw [add_comm, Multiset.singleton_add]
  | succ n =>
    -- The children of the two halves are those of the whole.
    rw [handles_succ, handles_succ, handles_succ, ← lower_append_upper t right,
      handlesEach_append]
    simp only [handle_lower, handle_upper, ← Multiset.singleton_add]
    abel

/-- The climb that starts with an overfull subtree at the end of a path gives a layout and leaves a
record of events. -/
inductive Splits (fanout : Fanout) :
    {n : Nat} → Path K V n → Subtree K V n → Layout K V → List Event → Prop where
  /-- The root is divided, and a new one is placed above the halves. -/
  | root {n : Nat} {t : Subtree K V n} {right root : Handle} {k₁ k : K}
      (hright : right ∉ t.handles) (hroot : root ∉ right ::ₘ t.handles)
      (hk₁ : (t.lower right).maxKey? = some k₁) (hk : t.maxKey? = some k) :
      Splits fanout .top t ⟨n + 1, ⟨root, none, t.halves right k₁ k⟩⟩
        [t.splitEvent right, .promoted root (n + 2)]
  /-- The parent has room for one more child. -/
  | fits {n : Nat} {f : Frame K (Subtree K V n)} {rest : Path K V (n + 1)} {t : Subtree K V n}
      {right : Handle} {k₁ : K} (hright : right ∉ ((Path.step f rest).fill t).handles)
      (hk₁ : (t.lower right).maxKey? = some k₁) (hk : t.maxKey? = some f.key)
      (hroom : (f.fill (t.halves right k₁ f.key)).count ≤ fanout.max) :
      Splits fanout (.step f rest) t (rest.fill (f.fill (t.halves right k₁ f.key)))
        [t.splitEvent right]
  /-- The new child is one too many for the parent. -/
  | overflows {n : Nat} {f : Frame K (Subtree K V n)} {rest : Path K V (n + 1)}
      {t : Subtree K V n} {right : Handle} {k₁ : K} {layout : Layout K V} {events : List Event}
      (hright : right ∉ ((Path.step f rest).fill t).handles)
      (hk₁ : (t.lower right).maxKey? = some k₁) (hk : t.maxKey? = some f.key)
      (hfull : fanout.max < (f.fill (t.halves right k₁ f.key)).count)
      (hrest : Splits fanout rest (f.fill (t.halves right k₁ f.key)) layout events) :
      Splits fanout (.step f rest) t layout (t.splitEvent right :: events)

/-! ## The invariant of the climb -/

/-- A subtree that has one pair too many, in a layout with nothing else wrong. -/
structure Overfull (fanout : Fanout) (p : Path K V n) (t : Subtree K V n) : Prop where
  count : t.count = fanout.max + 1
  below : t.FilledBelow fanout
  path : p.Filled fanout
  exact : (p.fill t).root.Exact

namespace Overfull

variable {fanout : Fanout} {p : Path K V n} {t : Subtree K V n} {right : Handle} {k₁ : K}

theorem two_le (ho : Overfull fanout p t) : 2 ≤ t.count := by
  have hmax := fanout.three_le_max
  have hcount := ho.count
  omega

theorem count_lower (ho : Overfull fanout p t) : (t.lower right).count = fanout.min := by
  rw [Block.count_lower, ho.count]
  rfl

theorem count_upper (ho : Overfull fanout p t) :
    (t.upper right).count = fanout.max + 1 - fanout.min := by
  rw [Block.count_upper, ho.count]
  rfl

theorem filledBelow_halves (ho : Overfull fanout p t) (right : Handle) :
    (t.lower right).FilledBelow fanout ∧ (t.upper right).FilledBelow fanout :=
  ⟨ho.below.of_subset ho.below fun _ hslot => .inl (List.mem_of_mem_take hslot),
    ho.below.of_subset ho.below fun _ hslot => .inl (List.mem_of_mem_drop hslot)⟩

/-- Both halves of an overfull block are filled. -/
theorem filled_halves (ho : Overfull fanout p t) {k : K} :
    FilledEach fanout (t.halves right k₁ k) := by
  have hmin := fanout.two_mul_min_le
  have hlt := fanout.min_lt_max
  have htwo := fanout.two_le_min
  have hbelow := ho.filledBelow_halves right
  -- By the counts of the halves these are bounds on the fanout only.
  simp only [Block.halves, filledEach_cons, filledEach_nil, ho.count_lower, ho.count_upper,
    hbelow, and_true]
  omega

theorem populated_halves (ho : Overfull fanout p t) (right : Handle) :
    (t.lower right).Populated ∧ (t.upper right).Populated := by
  have htwo := fanout.two_le_min
  have hlt := fanout.min_lt_max
  obtain ⟨hlower, hupper⟩ := ho.filledBelow_halves right
  refine ⟨hlower.populated ?_, hupper.populated ?_⟩
  · rw [ho.count_lower]
    omega
  · rw [ho.count_upper]
    omega

theorem regroups (ho : Overfull fanout p t) {k : K} (hk₁ : (t.lower right).maxKey? = some k₁)
    (hk : t.maxKey? = some k) : Regroups [(k, t)] (t.halves right k₁ k) :=
  regroups_halves right (Nat.lt_of_lt_of_le Nat.zero_lt_two ho.two_le) hk hk₁

end Overfull

section Step

variable {fanout : Fanout} {f : Frame K (Subtree K V n)} {rest : Path K V (n + 1)}
  {t : Subtree K V n} {right : Handle} {k₁ : K}

theorem Block.count_fill_halves : (f.fill (t.halves right k₁ f.key)).count = f.count + 1 := by
  rw [Frame.count_fill, Frame.count]
  simp [halves]
  omega

namespace Overfull

/-- The last key of the overfull node is the one that its parent has cached for it. -/
theorem maxKey?_eq (ho : Overfull fanout (.step f rest) t) : t.maxKey? = some f.key :=
  (((Path.step f rest).exact_fill t).1 ho.exact).1.1

theorem rearranges (ho : Overfull fanout (.step f rest) t)
    (hk₁ : (t.lower right).maxKey? = some k₁) (hk : t.maxKey? = some f.key) :
    ((Path.step f rest).fill t).Rearranges (rest.fill (f.fill (t.halves right k₁ f.key))) := by
  have hsame := (ho.regroups hk₁ hk).rearranges f rest
  rw [Frame.fill_singleton] at hsame
  exact hsame

theorem filledBelow_fill (ho : Overfull fanout (.step f rest) t) :
    Block.FilledBelow (n := n + 1) fanout (f.fill (t.halves right k₁ f.key)) :=
  f.filledBelow_fill.2 ⟨ho.filled_halves, ho.path.1⟩

theorem le_max (ho : Overfull fanout (.step f rest) t) : f.count ≤ fanout.max := by
  have hadmits := ho.path.2.1
  cases rest with
  | top => exact hadmits.1
  | step g rest => exact hadmits.2

/-- A parent that has no room for the new child is overfull in turn. -/
theorem next (ho : Overfull fanout (.step f rest) t) (hk₁ : (t.lower right).maxKey? = some k₁)
    (hk : t.maxKey? = some f.key) (hfull : fanout.max < (f.fill (t.halves right k₁ f.key)).count) :
    Overfull fanout rest (f.fill (t.halves right k₁ f.key)) where
  count := by
    -- The parent had room before, so the new child is the only one too many.
    have hle := ho.le_max
    rw [Block.count_fill_halves] at hfull ⊢
    omega
  below := ho.filledBelow_fill
  path := ho.path.2.2
  exact := (ho.rearranges hk₁ hk).exact ho.exact

end Overfull

end Step

/-! ## What the climb keeps -/

namespace Splits

variable {fanout : Fanout} {p : Path K V n} {t : Subtree K V n} {layout : Layout K V}
  {events : List Event}

/-- The climb rearranges the layout. -/
theorem rearranges (hsplits : Splits fanout p t layout events) (ho : Overfull fanout p t) :
    (p.fill t).Rearranges layout := by
  induction hsplits with
  | root hright hroot hk₁ hk => exact (ho.regroups hk₁ hk).rearranges_promoted hk _
  | fits hright hk₁ hk hroom => exact ho.rearranges hk₁ hk
  | overflows hright hk₁ hk hfull hrest ih =>
    exact (ho.rearranges hk₁ hk).trans (ih (ho.next hk₁ hk hfull))

/-- The climb ends with all blocks filled within their bounds. -/
theorem filled (hsplits : Splits fanout p t layout events) (ho : Overfull fanout p t) :
    layout.Filled fanout := by
  induction hsplits with
  | root hright hroot hk₁ hk =>
    -- The new root is a branch with two children.
    refine ⟨ho.filled_halves, ?_, fun _ => Nat.le_refl 2⟩
    exact Nat.le_of_succ_le fanout.three_le_max
  | @fits n f rest t right k₁ hright hk₁ hk hroom =>
    refine (rest.filled_fill _).2 ⟨ho.path.2.2, ?_, ho.filledBelow_fill⟩
    -- The parent was filled before and has one child more, for which there is room.
    have hadmits := ho.path.2.1
    rw [Block.count_fill_halves] at hroom ⊢
    cases rest with
    | top => exact ⟨hroom, fun hn => Nat.le_succ_of_le (hadmits.2 hn)⟩
    | step g rest => exact ⟨Nat.le_succ_of_le hadmits.1, hroom⟩
  -- The parent is overfull in turn, and the rest of the climb takes care of it.
  | overflows hright hk₁ hk hfull hrest ih => exact ih (ho.next hk₁ hk hfull)

end Splits

end OrderedIndex
