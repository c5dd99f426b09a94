import Mathlib.Data.Finset.Basic
import OrderedIndex.Proofs.Mending
import OrderedIndex.Proofs.Splitting

/-!
# The record of events as a journal

The events that an operation leaves are a journal of the structure: whoever replays them knows which
slots are in use, which of them is the root, and how high the tree is.  An event that does not fit
what has been replayed so far, such as the release of a slot that is not in use, has no replay.
-/

namespace OrderedIndex

variable {K V : Type} {n : Nat}

/-- What a journal determines of a tree. -/
structure Outline where
  /-- The slots in use. -/
  live : Finset Handle
  root : Handle
  height : Nat
  deriving DecidableEq

namespace Outline

/-- The outline of a new tree: one leaf in the first slot. -/
def initial : Outline := ⟨{⟨0⟩}, ⟨0⟩, 1⟩

/-- The outline after one event, if the event fits. -/
def record (outline : Outline) : Event → Option Outline
  | .split _ right _ _ _ =>
    if right ∉ outline.live then some { outline with live := insert right outline.live } else none
  | .promoted root height =>
    if root ∉ outline.live ∧ height = outline.height + 1 then
      some ⟨insert root outline.live, root, height⟩
    else none
  | .borrowed .. => some outline
  | .merged _ released _ =>
    if released ∈ outline.live ∧ released ≠ outline.root then
      some { outline with live := outline.live.erase released }
    else none
  | .collapsed root height =>
    if root ∈ outline.live ∧ root ≠ outline.root ∧ height + 1 = outline.height then
      some ⟨outline.live.erase outline.root, root, height⟩
    else none

/-- The outline after some events in their order, if all of them fit. -/
def replay (outline : Outline) (events : List Event) : Option Outline :=
  events.foldlM record outline

variable {outline outline' : Outline} {event : Event} {events events' : List Event}

@[simp] theorem replay_nil : outline.replay [] = some outline := rfl

theorem replay_cons (h : outline.record event = some outline') :
    outline.replay (event :: events) = outline'.replay events := by
  unfold replay
  rw [List.foldlM_cons, h]
  rfl

theorem replay_append (h : outline.replay events = some outline') :
    outline.replay (events ++ events') = outline'.replay events' := by
  unfold replay at h ⊢
  rw [List.foldlM_append, h]
  rfl

end Outline

/-- The numbers of keys in an event are those that the fanout determines: a division leaves the
smallest half on the left, and a node that is mended was short by exactly one key. -/
def Event.Counts (fanout : Fanout) : Event → Prop
  | .split _ _ _ leftKeys rightKeys =>
    leftKeys = fanout.min ∧ rightKeys = fanout.max + 1 - fanout.min
  | .borrowed _ _ _ keys => keys = fanout.min
  | .merged _ _ keys => keys = 2 * fanout.min - 1
  | .promoted .. | .collapsed .. => True

/-! ## Outlines of layouts -/

/-- The outline of a layout. -/
def Layout.outline (layout : Layout K V) : Outline :=
  ⟨layout.handles.toFinset, layout.root.handle, layout.levels + 1⟩

/-- From a layout without a slot used twice, a journal leads to another such layout. -/
structure Layout.Journals (fanout : Fanout) (layout : Layout K V) (events : List Event)
    (layout' : Layout K V) : Prop where
  nodup : layout'.handles.Nodup
  replay : layout.outline.replay events = some layout'.outline
  counts : ∀ event ∈ events, event.Counts fanout

namespace Layout.Journals

variable {fanout : Fanout} {layout layout' layout'' : Layout K V} {event : Event}
  {events events' : List Event}

/-- A layout with the same handles in the same places needs no event. -/
theorem nil (hnodup : layout.handles.Nodup) (ho : layout'.outline = layout.outline)
    (hhandles : layout'.handles = layout.handles) : layout.Journals fanout [] layout' :=
  ⟨hhandles ▸ hnodup, by rw [ho, Outline.replay_nil], by simp⟩

theorem append (h : layout.Journals fanout events layout')
    (h' : layout'.Journals fanout events' layout'') :
    layout.Journals fanout (events ++ events') layout'' := by
  refine ⟨h'.nodup, ?_, ?_⟩
  · rw [Outline.replay_append h.replay, h'.replay]
  · intro event hevent
    exact (List.mem_append.1 hevent).elim (h.counts event) (h'.counts event)

theorem cons (hrecord : layout.outline.record event = some layout'.outline)
    (hcounts : event.Counts fanout) (h : layout'.Journals fanout events layout'') :
    layout.Journals fanout (event :: events) layout'' := by
  refine ⟨h.nodup, ?_, ?_⟩
  · rw [Outline.replay_cons hrecord, h.replay]
  · intro event hevent
    rcases List.mem_cons.1 hevent with rfl | hevent
    · exact hcounts
    · exact h.counts event hevent

theorem single (hnodup : layout'.handles.Nodup)
    (hrecord : layout.outline.record event = some layout'.outline)
    (hcounts : event.Counts fanout) : layout.Journals fanout [event] layout' :=
  cons hrecord hcounts (nil hnodup rfl rfl)

end Layout.Journals

theorem Layout.root_mem_handles (layout : Layout K V) : layout.root.handle ∈ layout.handles :=
  Block.handle_mem_handles layout.root

/-! ## Single events -/

section Events

variable {layout layout' : Layout K V} {h : Handle}

/-- A new node takes a slot that was not in use. -/
theorem Layout.record_split {left right : Handle} {leaf : Bool} {i j : Nat}
    (hfresh : right ∉ layout.handles) (hhandles : layout'.handles = right ::ₘ layout.handles)
    (hroot : layout'.root.handle = layout.root.handle) (hlevels : layout'.levels = layout.levels) :
    layout.outline.record (.split left right leaf i j) = some layout'.outline := by
  have hlive : right ∉ layout.outline.live := by simpa [outline] using hfresh
  apply (if_pos hlive).trans
  simp [outline, hhandles, hroot, hlevels]

/-- A merged node leaves a slot that was in use and not the root. -/
theorem Layout.record_merged (survivor : Handle) (i : Nat) {released : Handle}
    (hnodup : layout.handles.Nodup) (hhandles : layout.handles = released ::ₘ layout'.handles)
    (hroot : layout'.root.handle = layout.root.handle) (hlevels : layout'.levels = layout.levels) :
    layout.outline.record (.merged survivor released i) = some layout'.outline := by
  rw [hhandles] at hnodup
  have hnot := (Multiset.nodup_cons.1 hnodup).1
  -- The root is still there afterwards, and no slot is used twice.
  have hne : released ≠ layout.root.handle := by
    rw [← hroot]
    exact fun he => hnot (he ▸ layout'.root_mem_handles)
  have hlive : released ∈ layout.outline.live ∧ released ≠ layout.outline.root :=
    ⟨by simp [outline, hhandles], hne⟩
  have herase : (insert released layout'.handles.toFinset).erase released =
      layout'.handles.toFinset := Finset.erase_insert (by simpa using hnot)
  apply (if_pos hlive).trans
  simp [outline, hhandles, hroot, hlevels, herase]

/-- A root that gives way to its only child leaves its slot. -/
theorem record_collapsed {handle : Handle} {next : Option Handle} {k : K} {c : Subtree K V n}
    (hnodup : (⟨n + 1, ⟨handle, next, [(k, c)]⟩⟩ : Layout K V).handles.Nodup) :
    (⟨n + 1, ⟨handle, next, [(k, c)]⟩⟩ : Layout K V).outline.record
        (.collapsed c.handle (n + 1)) = some (⟨n, c⟩ : Layout K V).outline ∧
      (⟨n, c⟩ : Layout K V).handles.Nodup := by
  have hhandles : (⟨n + 1, ⟨handle, next, [(k, c)]⟩⟩ : Layout K V).handles =
      handle ::ₘ c.handles := by
    show Block.handles (n := n + 1) ⟨handle, next, [(k, c)]⟩ = _
    rw [Block.handles_succ, handlesEach_cons, handlesEach_nil, add_zero]
  rw [hhandles] at hnodup
  obtain ⟨hnot, hnodup'⟩ := Multiset.nodup_cons.1 hnodup
  have hne : c.handle ≠ handle := fun he => hnot (he ▸ c.handle_mem_handles)
  refine ⟨?_, hnodup'⟩
  have hlive : (⟨n + 1, ⟨handle, next, [(k, c)]⟩⟩ : Layout K V).outline =
      ⟨insert handle c.handles.toFinset, handle, n + 2⟩ := by
    unfold Layout.outline
    rw [hhandles, Multiset.toFinset_cons]
  rw [hlive]
  -- The child stays in use and is another node than the root.
  have hfits : c.handle ∈ insert handle c.handles.toFinset ∧ c.handle ≠ handle ∧
      n + 1 + 1 = n + 2 := ⟨by simp [c.handle_mem_handles], hne, rfl⟩
  have herase : (insert handle c.handles.toFinset).erase handle = c.handles.toFinset :=
    Finset.erase_insert (by simpa using hnot)
  apply (if_pos hfits).trans
  rw [herase]
  rfl

end Events

/-! ## The climbs -/

theorem Path.handles_fill_slots (rest : Path K V (n + 1)) (f : Frame K (Subtree K V n))
    (slots : List (K × Subtree K V n)) : (rest.fill (f.fill slots)).handles =
      handlesEach slots + (f.handle ::ₘ
        (handlesEach f.before + handlesEach f.after + rest.handles)) := by
  rw [handles_fill, Block.handles_succ, Frame.handle_fill]
  -- Both sides are sums of handles, and the children in the gap are first on either.
  simp only [Frame.fill, handlesEach_append, ← Multiset.singleton_add]
  abel

/-- The handles of two merged siblings are those of the result and that of the second one. -/
theorem Block.handles_merge (l r : Subtree K V n) :
    l.handles + r.handles = r.handle ::ₘ (l.merge r).handles := by
  -- A leaf has no handle but its own, so only the branches have something to regroup.
  cases n with
  | zero =>
    show ({l.handle} : Multiset Handle) + {r.handle} = r.handle ::ₘ {l.handle}
    rw [add_comm, Multiset.singleton_add]
  | succ n =>
    rw [handles_succ, handles_succ, handles_succ]
    simp only [merge, handlesEach_append, ← Multiset.singleton_add]
    abel

namespace Overfull

variable {fanout : Fanout} {p : Path K V n} {t : Subtree K V n} {right : Handle}

theorem counts (ho : Overfull fanout p t) : (t.splitEvent right).Counts fanout :=
  ⟨ho.count_lower, ho.count_upper⟩

end Overfull

section Divided

variable {f : Frame K (Subtree K V n)} {rest : Path K V (n + 1)} {t : Subtree K V n}
  {right : Handle} {k₁ : K}

/-- The division of a node below the root adds one handle. -/
theorem handles_halves (f : Frame K (Subtree K V n)) (rest : Path K V (n + 1)) :
    (rest.fill (f.fill (t.halves right k₁ f.key))).handles =
      right ::ₘ ((Path.step f rest).fill t).handles := by
  rw [Path.fill, ← Frame.fill_singleton, Path.handles_fill_slots, Path.handles_fill_slots]
  simp only [Block.halves, handlesEach_cons, handlesEach_nil, add_zero, Block.handles_halves,
    Multiset.cons_add]

theorem record_halves (hright : right ∉ ((Path.step f rest).fill t).handles) :
    ((Path.step f rest).fill t).outline.record (t.splitEvent right) =
      some (rest.fill (f.fill (t.halves right k₁ f.key))).outline := by
  refine Layout.record_split hright (handles_halves f rest) ?_ ?_
  · rw [Path.root_handle_fill, Path.root_handle_fill]
    rfl
  · rw [Path.levels_fill, Path.levels_fill, Path.length]
    omega

/-- The division of the root adds two handles, one of which is the new root. -/
theorem handles_promoted (root : Handle) (k : K) :
    (⟨n + 1, ⟨root, none, t.halves right k₁ k⟩⟩ : Layout K V).handles =
      root ::ₘ (right ::ₘ t.handles) := by
  show Block.handles (n := n + 1) ⟨root, none, t.halves right k₁ k⟩ = _
  simp [Block.handles_succ, Block.halves, Block.handles_halves]

theorem replay_promoted {root : Handle} {k : K} (hright : right ∉ t.handles)
    (hroot : root ∉ right ::ₘ t.handles) :
    (⟨n, t⟩ : Layout K V).outline.replay [t.splitEvent right, .promoted root (n + 2)] =
      some (⟨n + 1, ⟨root, none, t.halves right k₁ k⟩⟩ : Layout K V).outline := by
  -- Each of the two events finds its slot free, the second one after the first has taken its own.
  have hright' : right ∉ t.handles.toFinset := by simpa using hright
  have hroot' : root ∉ insert right t.handles.toFinset := by simpa using hroot
  have hfirst : (⟨n, t⟩ : Layout K V).outline.record (t.splitEvent right) =
      some ⟨insert right t.handles.toFinset, t.handle, n + 1⟩ := if_pos hright'
  have hsecond : (⟨insert right t.handles.toFinset, t.handle, n + 1⟩ : Outline).record
      (.promoted root (n + 2)) =
        some ⟨insert root (insert right t.handles.toFinset), root, n + 2⟩ :=
    if_pos ⟨hroot', rfl⟩
  rw [Outline.replay_cons hfirst, Outline.replay_cons hsecond, Outline.replay_nil]
  unfold Layout.outline
  rw [handles_promoted, Multiset.toFinset_cons, Multiset.toFinset_cons]

end Divided

/-- The record of a climb that divides overfull nodes is its journal. -/
theorem Splits.journals {fanout : Fanout} {p : Path K V n} {t : Subtree K V n}
    {layout : Layout K V} {events : List Event} (hsplits : Splits fanout p t layout events)
    (ho : Overfull fanout p t) (hnodup : (p.fill t).handles.Nodup) :
    (p.fill t).Journals fanout events layout := by
  -- The induction follows the climb; each division takes one fresh slot and keeps the others.
  induction hsplits with
  | root hright hroot hk₁ hk =>
    refine ⟨?_, replay_promoted hright hroot, ?_⟩
    · rw [handles_promoted]
      exact Multiset.nodup_cons.2 ⟨hroot, Multiset.nodup_cons.2 ⟨hright, hnodup⟩⟩
    · intro event hevent
      rcases List.mem_cons.1 hevent with rfl | hevent
      · exact ho.counts
      · obtain rfl := List.mem_singleton.1 hevent
        trivial
  | fits hright hk₁ hk hroom =>
    refine .single ?_ (record_halves hright) ho.counts
    rw [handles_halves]
    exact Multiset.nodup_cons.2 ⟨hright, hnodup⟩
  | overflows hright hk₁ hk hfull hrest ih =>
    refine .cons (record_halves hright) ho.counts (ih (ho.next hk₁ hk hfull) ?_)
    rw [handles_halves]
    exact Multiset.nodup_cons.2 ⟨hright, hnodup⟩

section Mended

variable {side : Side} {f : Frame K (Subtree K V n)} {rest : Path K V (n + 1)}
  {t : Subtree K V n} {slot : K × Subtree K V n}

theorem handlesEach_side (slots : List (K × Subtree K V n)) :
    handlesEach (side.cons slot slots) = slot.2.handles + handlesEach slots := by
  cases side with
  | left => exact handlesEach_cons
  | right =>
    rw [Side.cons, handlesEach_append, handlesEach_cons, handlesEach_nil, add_zero, add_comm]

theorem handlesEach_both (slot' : K × Subtree K V n) :
    handlesEach (side.both slot slot') = slot.2.handles + slot'.2.handles := by
  cases side with
  | left => simp [Side.both]
  | right => simp [Side.both, add_comm]

/-- Two siblings of which one passes a pair to the other have the same handles together. -/
theorem Block.handles_passed {lender node : Subtree K V n} {pair : K × Beside K V n}
    {pairs : List (K × Beside K V n)} (hpairs : lender.pairs = side.opposite.cons pair pairs) :
    (lender.withPairs pairs).handles + (node.withPairs (side.cons pair node.pairs)).handles =
      lender.handles + node.handles := by
  cases n with
  | zero => rfl
  | succ n =>
    simp only [handles_succ, hpairs, handlesEach_side, handle_withPairs, pairs_withPairs,
      ← Multiset.singleton_add]
    abel

theorem handles_borrows {pair : K × Beside K V n} {pairs : List (K × Beside K V n)}
    (rest : Path K V (n + 1)) (hpairs : slot.2.pairs = side.opposite.cons pair pairs) (k k' : K) :
    (rest.fill (f.fill (side.both (k', slot.2.withPairs pairs)
        (k, t.withPairs (side.cons pair t.pairs))))).handles =
      ((Path.step (f.widen slot side) rest).fill t).handles := by
  rw [Path.fill, Frame.plug_widen, Path.handles_fill_slots, Path.handles_fill_slots,
    handlesEach_both, handlesEach_both, Block.handles_passed hpairs]

theorem handles_merges {l r : K × Subtree K V n} (rest : Path K V (n + 1))
    (hlr : side.both slot (f.key, t) = [l, r]) :
    ((Path.step (f.widen slot side) rest).fill t).handles =
      r.2.handle ::ₘ (rest.fill (f.fill [(r.1, l.2.merge r.2)])).handles := by
  rw [Path.fill, Frame.plug_widen, hlr, Path.handles_fill_slots, Path.handles_fill_slots]
  simp only [handlesEach_cons, handlesEach_nil, add_zero, Block.handles_merge, Multiset.cons_add]

/-- Regrouping the children of one branch leaves the root and the number of levels. -/
theorem root_fill_slots (rest : Path K V (n + 1)) (slots slots' : List (K × Subtree K V n)) :
    (rest.fill (f.fill slots')).root.handle = (rest.fill (f.fill slots)).root.handle ∧
      (rest.fill (f.fill slots')).levels = (rest.fill (f.fill slots)).levels := by
  rw [Path.root_handle_fill, Path.root_handle_fill, Path.levels_fill, Path.levels_fill]
  exact ⟨rfl, rfl⟩

end Mended

/-- The record of a climb that mends short nodes is its journal. -/
theorem Mends.journals {fanout : Fanout} {p : Path K V n} {t : Subtree K V n}
    {layout : Layout K V} {events : List Event} (hmends : Mends fanout p t layout events)
    (hs : Short fanout p t) (hnodup : (p.fill t).handles.Nodup) :
    (p.fill t).Journals fanout events layout := by
  -- The induction follows the climb; only a merge and the collapse of the root release a slot.
  induction hmends with
  | leaf => exact .nil hnodup rfl rfl
  | branch hmany => exact .nil hnodup rfl rfl
  | collapses =>
    obtain ⟨hrecord, hnodup'⟩ := record_collapsed hnodup
    exact .single hnodup' hrecord trivial
  | enough hmin => exact .nil hnodup rfl rfl
  | @borrows n side f rest t slot pair pairs k k' hshort hspare hfirst hpairs hk hk' =>
    have hhandles := handles_borrows (f := f) (t := t) rest hpairs k k'
    -- The node that was short and its sibling are side by side, before and after.
    have hplug : (Path.step (f.widen slot side) rest).fill t =
        rest.fill (f.fill (side.both slot (f.key, t))) := by
      rw [Path.fill, Frame.plug_widen]
    obtain ⟨hroot, hlevels⟩ := root_fill_slots (f := f) rest (side.both slot (f.key, t))
      (side.both (k', slot.2.withPairs pairs) (k, t.withPairs (side.cons pair t.pairs)))
    rw [← hplug] at hroot hlevels
    -- A short node lacks exactly one pair, which it is given.
    refine .single (hhandles ▸ hnodup) ?_ (hs.count_succ_eq hshort)
    show some (Layout.outline _) = _
    unfold Layout.outline
    rw [hhandles, hroot, hlevels]
  | @merges n side f rest t slot l r layout events hshort hfew hothers hfirst hlr hrest ih =>
    have hhandles := handles_merges rest hlr
    have hplug : (Path.step (f.widen slot side) rest).fill t = rest.fill (f.fill [l, r]) := by
      rw [Path.fill, Frame.plug_widen, hlr]
    obtain ⟨hroot, hlevels⟩ := root_fill_slots (f := f) rest [l, r] [(r.1, l.2.merge r.2)]
    rw [← hplug] at hroot hlevels
    -- A merged node is one of the two, and it is the second that goes.
    have hrecord := Layout.record_merged l.2.handle (l.2.count + r.2.count) hnodup hhandles hroot
      hlevels
    refine .cons hrecord (hs.count_merged hshort hfew hlr) (ih (hs.next hshort hfew hlr) ?_)
    rw [hhandles] at hnodup
    exact (Multiset.nodup_cons.1 hnodup).2

end OrderedIndex
