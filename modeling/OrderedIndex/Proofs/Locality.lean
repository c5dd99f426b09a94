import OrderedIndex.Proofs.Cascade
import OrderedIndex.Proofs.Repair
import OrderedIndex.Proofs.Trails

/-!
# Locality of updates

An update changes the nodes on the way from the leaf of its key up to the root, and where it takes
an entry out, the sibling that mends a short node on this way.  Every other node stays in its slot
with all that it holds.  Only its link to its parent may change: where the parent is divided, lends
it or is absorbed.  Slots that are released are those of absorbed nodes and of a root that gives
way.

The climbs are followed on layouts.  What they must not touch are the subtrees beside the path.
-/

namespace OrderedIndex

variable {K V : Type} {n : Nat}

/-! ## What events say about nodes -/

namespace Event

/-- The event brings two siblings together, of which one mends the other. -/
def Joins (a b : Handle) : Event → Prop
  | .borrowed _ node lender _ => a = node ∧ b = lender
  | .merged survivor released _ => a = survivor ∧ b = released
  | _ => False

/-- The event brings a node and a sibling together. -/
def Engages (h : Handle) (event : Event) : Prop :=
  ∃ other, event.Joins h other ∨ event.Joins other h

/-- The event gives a child of `old` to `new`: a lender passes the child that is closest to the
borrower, and all children of an absorbed node go to the one that absorbs it.  The nodes are those
before. -/
def Moves (nodes : Arena (Node K V)) (child old new : Handle) : Event → Prop
  | .borrowed side node lender _ => old = lender ∧ new = node ∧
      ∃ branch k rest, nodes.get? lender = some (.branch branch) ∧
        branch.lend? side = some ((k, child), rest)
  | .merged survivor released _ => old = released ∧ new = survivor
  | _ => False

end Event

/-! ## Subtrees beside a path -/

namespace Path

/-- The cells of the subtrees beside a path, without those of the nodes above its end. -/
def others : {n : Nat} → Path K V n → Multiset (Handle × Node K V)
  | _, .top => 0
  | _, .step f rest => cellsEach (some f.handle) f.before + cellsEach (some f.handle) f.after +
      rest.others

theorem others_le_cells (p : Path K V n) (hole : Handle) : p.others ≤ p.cells hole := by
  induction p generalizing hole with
  | top => exact Multiset.zero_le _
  | step f rest ih =>
    rw [others, cells]
    exact (add_le_add_right (ih f.handle) _).trans (Multiset.le_cons_self _ _)

/-- What is below the end of a path and beside it has its place in the filled path. -/
theorem below_add_others_subset (p : Path K V n) (b : Subtree K V n) :
    b.below + p.others ⊆ (p.fill b).cells := by
  intro cell hcell
  rw [cells_fill, Block.cells_eq]
  rcases Multiset.mem_add.1 hcell with hbelow | hother
  · exact Multiset.mem_add.2 (.inr (Multiset.mem_cons_of_mem hbelow))
  · exact Multiset.mem_add.2 (.inl (Multiset.mem_of_le (p.others_le_cells b.handle) hother))

/-- Other cached keys leave all nodes along a path in their slots. -/
theorem Rekeys.retains {p q : Path K V n} (hr : p.Rekeys q) (hole : Handle) :
    Retains (q.cells hole) (p.cells hole) := by
  -- By induction up the path: each branch stays in its slot, with other keys.
  induction hr generalizing hole with
  | top => exact .of_subset (Multiset.Subset.refl _)
  | step f k hrest ih =>
    rw [cells, cells, ← Multiset.singleton_add, ← Multiset.singleton_add]
    apply Retains.add
    · exact .singleton rfl
    · exact .add (.of_subset (Multiset.Subset.refl _)) (ih f.handle)

end Path

/-! ## Cells that survive -/

/-- A link to a parent is as before, or it has changed as allowed. -/
def Relinks (Moved : Handle → Handle → Prop) (parent parent' : Option Handle) : Prop :=
  parent' = parent ∨ ∃ old new, parent = some old ∧ parent' = some new ∧ Moved old new

/-- Each of some cells, but for the exempt ones, is among others as well, at most with another link
to its parent. -/
def Survive (Exempt : Handle → Prop) (Moved : Handle → Handle → Handle → Prop)
    (cells cells' : Multiset (Handle × Node K V)) : Prop :=
  ∀ h node, (h, node) ∈ cells → ¬Exempt h →
    ∃ parent, (h, node.setParent parent) ∈ cells' ∧ Relinks (Moved h) node.parent parent

namespace Survive

variable {Exempt Exempt' : Handle → Prop} {Moved Moved' : Handle → Handle → Handle → Prop}
  {cells cells' cells'' more more' : Multiset (Handle × Node K V)}

theorem of_subset (hsub : cells ⊆ cells') : Survive Exempt Moved cells cells' := by
  intro h node hcell _
  exact ⟨node.parent, by rw [Node.setParent_parent]; exact hsub hcell, .inl rfl⟩

theorem mono (hs : Survive Exempt Moved cells cells') (hexempt : ∀ h, Exempt h → Exempt' h)
    (hmoved : ∀ h old new, Moved h old new → Moved' h old new) :
    Survive Exempt' Moved' cells cells' := by
  intro h node hcell hnot
  obtain ⟨parent, hcell', hlink⟩ := hs h node hcell fun hexem => hnot (hexempt h hexem)
  refine ⟨parent, hcell', hlink.imp_right ?_⟩
  rintro ⟨old, new, hold, hnew, hmove⟩
  exact ⟨old, new, hold, hnew, hmoved h old new hmove⟩

theorem subset_left (hs : Survive Exempt Moved cells' cells'') (hsub : cells ⊆ cells') :
    Survive Exempt Moved cells cells'' :=
  fun h node hcell hnot => hs h node (hsub hcell) hnot

theorem subset_right (hs : Survive Exempt Moved cells cells') (hsub : cells' ⊆ cells'') :
    Survive Exempt Moved cells cells'' := by
  intro h node hcell hnot
  obtain ⟨parent, hcell', hlink⟩ := hs h node hcell hnot
  exact ⟨parent, hsub hcell', hlink⟩

theorem add (hs : Survive Exempt Moved cells cells') (hs' : Survive Exempt Moved more more') :
    Survive Exempt Moved (cells + more) (cells' + more') := by
  intro h node hcell hnot
  rcases Multiset.mem_add.1 hcell with hleft | hright
  · exact (hs.subset_right (Multiset.subset_of_le (Multiset.le_add_right _ _))) h node hleft hnot
  · exact (hs'.subset_right (Multiset.subset_of_le (Multiset.le_add_left _ _))) h node hright hnot

/-- Cells survive two steps if no child that the first one moves is moved again by the second. -/
theorem trans (hs : Survive Exempt Moved cells cells') (hs' : Survive Exempt' Moved' cells' cells'')
    (honce : ∀ h old new new', Moved h old new → ¬Moved' h new new') :
    Survive (fun h => Exempt h ∨ Exempt' h)
      (fun h old new => Moved h old new ∨ Moved' h old new) cells cells'' := by
  intro h node hcell hnot
  rw [not_or] at hnot
  obtain ⟨parent, hcell', hlink⟩ := hs h node hcell hnot.1
  obtain ⟨parent', hcell'', hlink'⟩ := hs' h _ hcell' hnot.2
  rw [Node.setParent_setParent] at hcell''
  rw [Node.parent_setParent] at hlink'
  refine ⟨parent', hcell'', ?_⟩
  -- Of the two steps at most one gives the node another parent.
  rcases hlink with rfl | ⟨old, new, hold, rfl, hmove⟩
  · rcases hlink' with rfl | ⟨old, new, hold, hnew, hmove⟩
    · exact .inl rfl
    · exact .inr ⟨old, new, hold, hnew, .inr hmove⟩
  · rcases hlink' with rfl | ⟨old', new', hnew, rfl, hmove'⟩
    · exact .inr ⟨old, new, hold, rfl, .inl hmove⟩
    · obtain rfl := Option.some.inj hnew
      exact absurd hmove' (honce h old new new' hmove)

end Survive

section Cells

variable {Exempt : Handle → Prop} {Moved : Handle → Handle → Handle → Prop}
  {parent : Option Handle} {old new : Handle} {cells : Multiset (Handle × Node K V)}

/-- Of a subtree with another parent only the topmost node changes, and that in its link only. -/
theorem Block.survive_cells {b : Subtree K V n} (hmoved : Moved b.handle old new) :
    Survive Exempt Moved (b.cells (some old)) (b.cells (some new)) := by
  intro h node hcell _
  rw [cells_eq, Multiset.mem_cons] at hcell
  -- The children name the block as their parent and know nothing of the parent of the block.
  rcases hcell with hself | hbelow
  · obtain ⟨rfl, rfl⟩ := Prod.mk.inj hself
    refine ⟨some new, ?_, .inr ⟨old, new, b.parent_node, rfl, hmoved⟩⟩
    rw [setParent_node]
    exact b.mem_cells_self
  · refine ⟨node.parent, ?_, .inl rfl⟩
    rw [cells_eq, Node.setParent_parent]
    exact Multiset.mem_cons_of_mem hbelow

theorem survive_cellsEach {slots : List (K × Subtree K V n)}
    (hmoved : ∀ slot ∈ slots, Moved slot.2.handle old new) :
    Survive Exempt Moved (cellsEach (some old) slots) (cellsEach (some new) slots) := by
  induction slots with
  | nil => exact .of_subset (Multiset.Subset.refl _)
  | cons slot slots ih =>
    rw [List.forall_mem_cons] at hmoved
    rw [cellsEach_cons, cellsEach_cons]
    exact (Block.survive_cells hmoved.1).add (ih hmoved.2)

theorem Block.below_le_cells (b : Subtree K V n) : b.below ≤ b.cells parent := by
  rw [cells_eq]
  exact Multiset.le_cons_self _ _

/-- Where a topmost node is exempt, only what is below it has to survive. -/
theorem Block.survive_of_exempt {b : Subtree K V n} {more : Multiset (Handle × Node K V)}
    (hb : Exempt b.handle) (hbelow : Survive Exempt Moved (b.below + more) cells) :
    Survive Exempt Moved (b.cells parent + more) cells := by
  intro h node hcell hnot
  rw [cells_eq, Multiset.cons_add, Multiset.mem_cons] at hcell
  rcases hcell with hself | hrest
  · exact absurd hb ((Prod.mk.inj hself).1 ▸ hnot)
  · exact hbelow h node hrest hnot

/-- Where both of two topmost nodes are exempt, only what is below them has to survive. -/
theorem Block.survive_both_of_exempt {b c : Subtree K V n} (hb : Exempt b.handle)
    (hc : Exempt c.handle) (hbelow : Survive Exempt Moved (b.below + c.below) cells) :
    Survive Exempt Moved (b.cells parent + c.cells parent) cells := by
  apply survive_of_exempt hb
  rw [add_comm]
  apply survive_of_exempt hc
  rw [add_comm]
  exact hbelow

/-- What is below a block that is divided survives below the halves. -/
theorem Block.survive_halves {t : Subtree K V n} {right : Handle}
    (hmoved : ∀ h, Moved h t.handle right) : Survive Exempt Moved t.below
      ((t.lower right).cells parent + (t.upper right).cells parent) := by
  -- A leaf has nothing below it; of the children of a branch those of the upper half are moved.
  cases n with
  | zero => exact .of_subset (Multiset.zero_subset _)
  | succ n =>
    rw [below, ← t.lower_append_upper right, cellsEach_append, cells_succ, cells_succ]
    apply Survive.add
    · exact .of_subset (Multiset.subset_cons _ _)
    · have hupper : Survive Exempt Moved (cellsEach (some t.handle) (t.upper right).pairs)
          (cellsEach (some right) (t.upper right).pairs) :=
        survive_cellsEach fun slot _ => hmoved slot.2.handle
      exact hupper.subset_right (Multiset.subset_cons _ _)

/-- What is below two siblings survives where one of them passes a pair to the other. -/
theorem Block.survive_passed {side : Side} {lender node : Subtree K V n} {pair : K × Beside K V n}
    {pairs : List (K × Beside K V n)} {nodes : Arena (Node K V)} {keys : Nat}
    (hpairs : lender.pairs = side.opposite.cons pair pairs)
    (hlender : nodes.get? lender.handle = some (lender.node parent)) :
    Survive Exempt ((Event.borrowed side node.handle lender.handle keys).Moves nodes ·)
      (lender.below + node.below)
      ((lender.withPairs pairs).cells parent +
        (node.withPairs (side.cons pair node.pairs)).cells parent) := by
  cases n with
  | zero => exact .of_subset (Multiset.zero_subset _)
  | succ n =>
    have hmoves : (Event.borrowed side node.handle lender.handle keys).Moves nodes pair.2.handle
        lender.handle node.handle := ⟨rfl, rfl, _, _, _, hlender, Tree.lend?_toBranch hpairs⟩
    have hpair : Survive Exempt
        ((Event.borrowed side node.handle lender.handle keys).Moves nodes ·)
        (pair.2.cells (some lender.handle)) (pair.2.cells (some node.handle)) :=
      survive_cells hmoves
    have hsame : lender.below + node.below = pair.2.cells (some lender.handle) +
        (cellsEach (some lender.handle) pairs + cellsEach (some node.handle) node.pairs) := by
      rw [below, below, hpairs, cellsEach_side, add_assoc]
    have hafter : pair.2.cells (some node.handle) +
        (cellsEach (some lender.handle) pairs + cellsEach (some node.handle) node.pairs) =
          (below (n := n + 1) (lender.withPairs pairs)) +
            below (n := n + 1) (node.withPairs (side.cons pair node.pairs)) := by
      simp only [below, handle_withPairs, pairs_withPairs, cellsEach_side]
      abel
    rw [hsame]
    apply (hpair.add (.of_subset (Multiset.Subset.refl _))).subset_right
    rw [hafter]
    exact Multiset.subset_of_le (add_le_add (below_le_cells _) (below_le_cells _))

/-- What is below two siblings survives where the first one absorbs the other. -/
theorem Block.survive_merge {l r : Subtree K V n} (hmoved : ∀ h, Moved h r.handle l.handle) :
    Survive Exempt Moved (l.below + r.below) ((l.merge r).cells parent) := by
  cases n with
  | zero => exact .of_subset (Multiset.zero_subset _)
  | succ n =>
    have hmerged : Survive Exempt Moved (l.below + r.below)
        (below (n := n + 1) (l.merge r)) := by
      simp only [below, merge, cellsEach_append]
      apply Survive.add
      · exact .of_subset (Multiset.Subset.refl _)
      · exact survive_cellsEach fun slot _ => hmoved slot.2.handle
    exact hmerged.subset_right (Multiset.subset_of_le (below_le_cells _))

/-- What is below a frame and beside it survives if this holds of what is in its gap. -/
theorem Survive.fill {f : Frame K (Subtree K V n)} {slots : List (K × Subtree K V n)}
    (hs : Survive Exempt Moved cells (cellsEach (some f.handle) slots)) (rest : Path K V (n + 1)) :
    Survive Exempt Moved (cells + (Path.step f rest).others)
      (Block.below (n := n + 1) (f.fill slots) + rest.others) := by
  have hsame : Block.below (n := n + 1) (f.fill slots) + rest.others =
      cellsEach (some f.handle) slots + (Path.step f rest).others := by
    simp only [Block.below, Frame.fill, cellsEach_append, Path.others]
    abel
  rw [hsame]
  exact hs.add (.of_subset (Multiset.Subset.refl _))

theorem cellsEach_halves {t : Subtree K V n} {right : Handle} {k₁ k : K} :
    cellsEach parent (t.halves right k₁ k) =
      (t.lower right).cells parent + (t.upper right).cells parent := by
  rw [Block.halves, cellsEach_cons, cellsEach_cons, cellsEach_nil, add_zero]

/-- A step of the climb that divides nodes leaves what is below the node and beside its path, but
for the children of the new half. -/
theorem survive_divided {f : Frame K (Subtree K V n)} {t : Subtree K V n} {k₁ : K}
    (right : Handle) (rest : Path K V (n + 1)) :
    Survive Exempt (fun _ old new => old = t.handle ∧ new = right)
      (t.below + (Path.step f rest).others)
      (Block.below (n := n + 1) (f.fill (t.halves right k₁ f.key)) + rest.others) := by
  apply Survive.fill
  rw [cellsEach_halves]
  exact Block.survive_halves fun _ => ⟨rfl, rfl⟩

end Cells

/-! ## The climb that divides nodes -/

namespace Splits

variable {fanout : Fanout} {p : Path K V n} {t : Subtree K V n} {layout : Layout K V}
  {events : List Event}

/-- The climb divides nodes from the end of the path upwards, and each new half has a slot that was
not in use. -/
theorem split_mem (hsplits : Splits fanout p t layout events) {left right : Handle} {leaf : Bool}
    {i j : Nat} (hevent : .split left right leaf i j ∈ events) :
    left ∈ t.handle :: p.ancestors ∧ right ∉ (p.fill t).handles := by
  -- By induction on the climb, which goes up one level with each node that it divides.
  induction hsplits with
  | root hright hroot hk₁ hk =>
    rcases List.mem_cons.1 hevent with hsplit | hpromoted
    · obtain ⟨rfl, rfl, -⟩ := Event.split.inj hsplit
      exact ⟨List.mem_cons_self, hright⟩
    · exact absurd (List.mem_singleton.1 hpromoted) Event.noConfusion
  | fits hright hk₁ hk hroom =>
    obtain ⟨rfl, rfl, -⟩ := Event.split.inj (List.mem_singleton.1 hevent)
    exact ⟨List.mem_cons_self, hright⟩
  | @overflows n f rest t right' k₁ layout events hright hk₁ hk hfull hrest ih =>
    rcases List.mem_cons.1 hevent with hsplit | habove
    · obtain ⟨rfl, rfl, -⟩ := Event.split.inj hsplit
      exact ⟨List.mem_cons_self, hright⟩
    · obtain ⟨hleft, hfresh⟩ := ih habove
      rw [handles_halves, Multiset.mem_cons, not_or] at hfresh
      exact ⟨List.mem_cons_of_mem _ hleft, hfresh.2⟩

/-- The climb leaves what is below its start and beside its path, but for links to divided nodes. -/
theorem survive (hsplits : Splits fanout p t layout events) :
    Survive (fun _ => False) (fun _ old new => ∃ leaf i j, .split old new leaf i j ∈ events)
      (t.below + p.others) layout.cells := by
  -- By induction on the climb: each step is confined, and what it leaves survives the further ones.
  induction hsplits with
  | @root n t right root k₁ k hright hroot hk₁ hk =>
    rw [Path.others, add_zero]
    have hbelow : Survive (fun _ => False)
        (fun _ old new => ∃ leaf i j,
          .split old new leaf i j ∈ [t.splitEvent right, .promoted root (n + 2)])
        t.below (cellsEach (some root) (t.halves right k₁ k)) := by
      rw [cellsEach_halves]
      exact Block.survive_halves fun _ => ⟨_, _, _, List.mem_cons_self⟩
    exact hbelow.subset_right (Multiset.subset_cons _ _)
  | @fits n f rest t right k₁ hright hk₁ hk hroom =>
    apply ((survive_divided right rest).subset_right (rest.below_add_others_subset _)).mono
    · exact fun _ => id
    · rintro h old new ⟨rfl, rfl⟩
      exact ⟨_, _, _, List.mem_singleton_self _⟩
  | @overflows n f rest t right k₁ layout events hright hk₁ hk hfull hrest ih =>
    -- A child that the new half has got is not moved again, as only nodes that were there before
    -- are divided further up.
    have honce : ∀ _ old new new' : Handle, (old = t.handle ∧ new = right) →
        ¬∃ leaf i j, .split new new' leaf i j ∈ events := by
      rintro - old new new' ⟨rfl, rfl⟩ ⟨leaf, i, j, hevent⟩
      have habove := (hrest.split_mem hevent).1
      apply hright
      rw [Path.handles_fill]
      exact Multiset.mem_add.2 (.inl (Path.ancestors_subset_handles habove))
    apply ((survive_divided right rest).trans ih honce).mono
    · exact fun _ => or_self_iff.1
    · rintro h old new (⟨rfl, rfl⟩ | ⟨leaf, i, j, hevent⟩)
      · exact ⟨_, _, _, List.mem_cons_self⟩
      · exact ⟨leaf, i, j, List.mem_cons_of_mem _ hevent⟩

end Splits

/-- What the part of an insertion that follows the edit of the leaf leaves alone. -/
structure Confined (p : Path K V n) (t : Subtree K V n) (layout : Layout K V)
    (events : List Event) : Prop where
  survive : Survive (fun _ => False) (fun _ old new => ∃ leaf i j, .split old new leaf i j ∈ events)
    (t.below + p.others) layout.cells
  retains : Retains (p.fill t).cells layout.cells
  divided {left right : Handle} {leaf : Bool} {i j : Nat} : .split left right leaf i j ∈ events →
    left ∈ t.handle :: p.ancestors ∧ right ∉ (p.fill t).handles

/-- Without a climb there is nothing to be changed. -/
theorem Confined.refl (p : Path K V n) (t : Subtree K V n) : Confined p t (p.fill t) [] where
  survive := .of_subset (p.below_add_others_subset t)
  retains := .of_subset (Multiset.Subset.refl _)
  divided hevent := absurd hevent List.not_mem_nil

section Mended

variable {Exempt : Handle → Prop} {Moved : Handle → Handle → Handle → Prop} {side : Side}
  {f : Frame K (Subtree K V n)} {rest : Path K V (n + 1)} {t : Subtree K V n}
  {slot : K × Subtree K V n} {slots : List (K × Subtree K V n)}

theorem others_widen : (Path.step (f.widen slot side) rest).others =
    slot.2.cells (some f.handle) + (Path.step f rest).others := by
  cases side with
  | left =>
    simp only [Path.others, Frame.widen, cellsEach_append, cellsEach_cons, cellsEach_nil]
    abel
  | right =>
    simp only [Path.others, Frame.widen, cellsEach_cons]
    abel

/-- What is below a node, below its sibling and beside both survives if this holds of the two. -/
theorem Survive.fill_widen
    (hs : Survive Exempt Moved (cellsEach (some f.handle) (side.both slot (f.key, t)))
      (cellsEach (some f.handle) slots)) (rest : Path K V (n + 1)) :
    Survive Exempt Moved (t.below + (Path.step (f.widen slot side) rest).others)
      (Block.below (n := n + 1) (f.fill slots) + rest.others) := by
  apply (hs.fill rest).subset_left
  -- The frame without the sibling has less beside it, so the sibling is one of the two in the gap.
  rw [others_widen, cellsEach_both, ← add_assoc, add_comm t.below]
  have hle : slot.2.cells (some f.handle) + t.below ≤
      slot.2.cells (some f.handle) + t.cells (some f.handle) :=
    add_le_add_right (Block.below_le_cells t) _
  exact Multiset.subset_of_le (add_le_add_left hle _)

/-- A merge leaves what is below two siblings and beside them, but for links to the one that is
absorbed. -/
theorem survive_merged {l r : K × Subtree K V n} (hlr : side.both slot (f.key, t) = [l, r])
    (rest : Path K V (n + 1)) :
    Survive (fun h => h = l.2.handle ∨ h = r.2.handle)
      (fun _ old new => old = r.2.handle ∧ new = l.2.handle)
      (t.below + (Path.step (f.widen slot side) rest).others)
      (Block.below (n := n + 1) (f.fill [(r.1, l.2.merge r.2)]) + rest.others) := by
  apply Survive.fill_widen
  rw [hlr]
  simp only [cellsEach_cons, cellsEach_nil, add_zero]
  apply Block.survive_both_of_exempt
  · exact .inl rfl
  · exact .inr rfl
  · exact Block.survive_merge fun _ => ⟨rfl, rfl⟩

theorem handles_widen : (Path.step (f.widen slot side) rest).handles =
    slot.2.handles + (Path.step f rest).handles := by
  cases side with
  | left =>
    simp only [Path.handles, Frame.widen, handlesEach_append, handlesEach_cons, handlesEach_nil,
      ← Multiset.singleton_add]
    abel
  | right =>
    simp only [Path.handles, Frame.widen, handlesEach_cons, ← Multiset.singleton_add]
    abel

/-- The two siblings at the end of a path are the node there and one beside it. -/
theorem handle_mem_of_both {c : K × Subtree K V n} (hc : c ∈ side.both slot (f.key, t)) :
    c.2.handle ∈ t.handle ::ₘ (Path.step (f.widen slot side) rest).handles := by
  rw [handles_widen, Multiset.mem_cons, Multiset.mem_add]
  rcases Side.mem_both_iff.1 hc with rfl | rfl
  · exact .inr (.inl c.2.handle_mem_handles)
  · exact .inl rfl

/-- The handle of a child is neither that of the branch nor one above or beside the branch. -/
theorem handle_not_mem_of_nodup (hnodup : (rest.fill (f.fill slots)).handles.Nodup)
    (hslot : slot ∈ slots) : slot.2.handle ∉ f.handle ::ₘ rest.handles := by
  -- The slots below the gap are apart from those of the rest, for no slot is used twice.
  rw [Path.handles_fill_slots] at hnodup
  have hdisjoint := (Multiset.nodup_add.1 hnodup).2.2
  intro hmem
  apply Multiset.disjoint_left.1 hdisjoint (Block.handle_mem_handlesEach hslot)
  rw [Multiset.mem_cons] at hmem ⊢
  exact hmem.imp_right fun habove => Multiset.mem_add.2 (.inr habove)

theorem fill_widen : (Path.step (f.widen slot side) rest).fill t =
    rest.fill (f.fill (side.both slot (f.key, t))) := by
  rw [Path.fill, Frame.plug_widen]

/-- Two siblings that are merged leave a layout without a slot used twice. -/
theorem nodup_merges {l r : K × Subtree K V n} (hlr : side.both slot (f.key, t) = [l, r])
    (hnodup : ((Path.step (f.widen slot side) rest).fill t).handles.Nodup) :
    (rest.fill (f.fill [(r.1, l.2.merge r.2)])).handles.Nodup := by
  rw [handles_merges rest hlr] at hnodup
  exact (Multiset.nodup_cons.1 hnodup).2

end Mended

namespace Event

variable {nodes : Arena (Node K V)} {event : Event} {h old new : Handle}

@[simp] theorem engages_borrowed {side : Side} {node lender : Handle} {keys : Nat} :
    (borrowed side node lender keys).Engages h ↔ h = node ∨ h = lender := by
  simp [Engages, Joins, exists_or]

@[simp] theorem engages_merged {survivor released : Handle} {keys : Nat} :
    (merged survivor released keys).Engages h ↔ h = survivor ∨ h = released := by
  simp [Engages, Joins, exists_or]

@[simp] theorem not_engages_collapsed {root : Handle} {height : Nat} :
    ¬(collapsed root height).Engages h := by
  simp [Engages, Joins]

/-- A node that loses a child is brought together with the one that gets it. -/
theorem Moves.engages (hmoves : event.Moves nodes h old new) : event.Engages old := by
  cases event with
  | borrowed side node lender keys => exact engages_borrowed.2 (.inr hmoves.1)
  | merged survivor released keys => exact engages_merged.2 (.inr hmoves.1)
  | split | promoted | collapsed => exact hmoves.elim

end Event

namespace Mends

variable {fanout : Fanout} {p : Path K V n} {t : Subtree K V n} {layout : Layout K V}
  {events : List Event} {event : Event}

/-- The climb brings nodes together from its start upwards. -/
theorem engaged_mem (hmends : Mends fanout p t layout events) (hevent : event ∈ events) {h : Handle}
    (hengages : event.Engages h) : h ∈ t.handle ::ₘ p.handles := by
  -- By induction on the climb: it brings together nodes on one level, and goes on with their
  -- parent.
  induction hmends with
  | leaf | branch | enough => exact absurd hevent List.not_mem_nil
  | collapses =>
    obtain rfl := List.mem_singleton.1 hevent
    exact absurd hengages Event.not_engages_collapsed
  | @borrows n side f rest t slot pair pairs k k' hshort hspare hfirst hpairs hk hk' =>
    obtain rfl := List.mem_singleton.1 hevent
    rcases Event.engages_borrowed.1 hengages with rfl | rfl
    · exact Multiset.mem_cons_self _ _
    · exact handle_mem_of_both (f := f) (Side.mem_both_iff.2 (.inl rfl))
  | @merges n side f rest t slot l r layout events hshort hfew hothers hfirst hlr hrest ih =>
    rcases List.mem_cons.1 hevent with rfl | hevent
    · rcases Event.engages_merged.1 hengages with rfl | rfl
      · exact handle_mem_of_both (hlr ▸ List.mem_cons_self)
      · exact handle_mem_of_both (hlr ▸ List.mem_cons_of_mem _ List.mem_cons_self)
    · -- Further up the parent comes in the place of the node.
      rw [handles_widen, Multiset.mem_cons, Multiset.mem_add]
      refine .inr (.inr ?_)
      rw [Path.handles, Multiset.mem_cons]
      exact (Multiset.mem_cons.1 (ih hevent)).imp_right fun habove =>
        Multiset.mem_add.2 (.inr habove)

/-- The climb leaves what is below its start and beside its path, but for the nodes that it brings
together, and for links to nodes that pass children to others. -/
theorem survive {nodes : Arena (Node K V)} {survivor : Option Handle}
    (hmends : Mends fanout p t layout events) (hkeeps : t.Keeps survivor)
    (hnodup : (p.fill t).handles.Nodup)
    (hbeside : ∀ h node, (h, node) ∈ p.others → nodes.get? h = some node) :
    Survive (fun h => (∃ event ∈ events, event.Engages h) ∨ survivor = some h)
      (fun h old new => ∃ event ∈ events, event.Moves nodes h old new)
      (t.below + p.others) layout.cells := by
  -- By induction on the climb.  The survivor of a merge is exempt, for the event of the merge names
  -- it.
  induction hmends generalizing survivor with
  | leaf => exact .of_subset (Path.below_add_others_subset .top _)
  | branch hmany => exact .of_subset (Path.below_add_others_subset .top _)
  | @enough n f rest t hmin => exact .of_subset (Path.below_add_others_subset (.step f rest) t)
  | @collapses n handle next k c =>
    -- The child of the root, which is the survivor of a merge, is the only node that changes.
    obtain ⟨slot, hslot, rfl⟩ := hkeeps
    obtain rfl := List.mem_singleton.1 hslot
    have hbelow : Block.below (n := n + 1) ⟨handle, next, [(k, c)]⟩ = c.cells (some handle) := by
      rw [Block.below, cellsEach_cons, cellsEach_nil, add_zero]
    rw [Path.others, add_zero, hbelow]
    rw [← add_zero (c.cells (some handle))]
    apply Block.survive_of_exempt
    · exact .inr rfl
    · rw [add_zero]
      exact .of_subset (Multiset.subset_of_le (Block.below_le_cells c))
  | @borrows n side f rest t slot pair pairs k k' hshort hspare hfirst hpairs hk hk' =>
    have hlender : nodes.get? slot.2.handle = some (slot.2.node (some f.handle)) := by
      apply hbeside
      rw [others_widen]
      exact Block.mem_cells_add slot.2 _
    refine Survive.subset_right ?_ (rest.below_add_others_subset _)
    apply Survive.fill_widen
    rw [cellsEach_both, cellsEach_both]
    apply Block.survive_both_of_exempt
    · exact .inl ⟨_, List.mem_singleton_self _, Event.engages_borrowed.2 (.inr rfl)⟩
    · exact .inl ⟨_, List.mem_singleton_self _, Event.engages_borrowed.2 (.inl rfl)⟩
    · apply (Block.survive_passed hpairs hlender).mono
      · exact fun _ => id
      · exact fun h old new hmoves => ⟨_, List.mem_singleton_self _, hmoves⟩
  | @merges n side f rest t slot l r layout events hshort hfew hothers hfirst hlr hrest ih =>
    have hnodup' := nodup_merges hlr hnodup
    have hbeside' : ∀ h node, (h, node) ∈ rest.others → nodes.get? h = some node := by
      intro h node hcell
      apply hbeside
      rw [others_widen, Path.others]
      exact Multiset.mem_add.2 (.inr (Multiset.mem_add.2 (.inr hcell)))
    -- A child that has moved to the survivor is not moved again, as only siblings of the nodes
    -- further up give children away.
    have honce : ∀ h old new new' : Handle, (old = r.2.handle ∧ new = l.2.handle) →
        ¬∃ event ∈ events, event.Moves nodes h new new' := by
      rintro h old new new' ⟨rfl, rfl⟩ ⟨event, hevent, hmoves⟩
      exact handle_not_mem_of_nodup hnodup' (List.mem_singleton_self _)
        (hrest.engaged_mem hevent hmoves.engages)
    have hrest' := ih (f.keeps_fill _) hnodup' hbeside'
    apply ((survive_merged hlr rest).trans hrest' honce).mono
    · rintro h (hpair | ⟨event, hevent, hengages⟩ | hsurvivor)
      · exact .inl ⟨_, List.mem_cons_self, Event.engages_merged.2 hpair⟩
      · exact .inl ⟨event, List.mem_cons_of_mem _ hevent, hengages⟩
      · exact .inl ⟨_, List.mem_cons_self,
          Event.engages_merged.2 (.inl (Option.some.inj hsurvivor).symm)⟩
    · rintro h old new (hmoved | ⟨event, hevent, hmoves⟩)
      · exact ⟨_, List.mem_cons_self, hmoved⟩
      · exact ⟨event, List.mem_cons_of_mem _ hevent, hmoves⟩

end Mends

/-! ## Every reachable tree -/

section Edit

variable {q q' : Path K V 0} {leaf : Block K V}

end Edit

namespace Tree

section Update

variable [Ord K] {tree : Tree K V} {q : Path K V 0} {leaf : Block K V} {lower upper : List (K × V)}

end Update

end Tree

end OrderedIndex
