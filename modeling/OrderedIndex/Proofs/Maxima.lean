import OrderedIndex.Proofs.Nodes
import OrderedIndex.Proofs.Path

/-!
# Bringing cached maxima up to date

A subtree whose last key has changed makes some cached keys above it stale: the one beside it, and
the ones above as long as each node on the way is the last child.  These are the keys that the climb
rewrites, so that a path which was exact for the old last key is exact for the new one.  What these
keys were before does not count; it is enough that all others along the path are exact.
-/

namespace OrderedIndex

variable {K V : Type} {n : Nat}

namespace Path

/-- A path with its cached keys brought up to date for a subtree with the last key `k`. -/
def refresh (k : K) : {n : Nat} → Path K V n → Path K V n
  | _, .top => .top
  | _, .step f rest => .step (f.rekey k) (if f.after.isEmpty then rest.refresh k else rest)

/-- The cached keys along a path are exact, except that those which stand for the subtree at its end
may be any keys: the one beside it, and the ones above as long as each branch on the way is the last
child. -/
def ExactElsewhere : {n : Nat} → Path K V n → Prop
  | _, .top => True
  | _, .step f rest => (ExactEach f.before ∧ ExactEach f.after) ∧
      (f.after = [] → rest.ExactElsewhere) ∧ (f.after ≠ [] → rest.Exact f.maxKey?)

/-- A path with other cached keys along it. -/
inductive Rekeys : {n : Nat} → Path K V n → Path K V n → Prop where
  | top {n : Nat} : Rekeys (top : Path K V n) top
  | step {n : Nat} {rest rest' : Path K V (n + 1)} (f : Frame K (Subtree K V n)) (k : K)
      (hrest : Rekeys rest' rest) : Rekeys (.step (f.rekey k) rest') (.step f rest)

theorem Rekeys.refl (p : Path K V n) : p.Rekeys p := by
  induction p with
  | top => exact .top
  | step f rest ih => exact .step f f.key ih

/-- Two paths with the same blocks, but for the cached keys. -/
structure Alike (p q : Path K V n) : Prop where
  rekeys : p.Rekeys q
  left : p.left = q.left
  right : p.right = q.right
  length : p.length = q.length
  rootHandle (hole : Handle) : p.rootHandle hole = q.rootHandle hole
  handles : p.handles = q.handles
  rungs (hole : Handle) (count : Nat) : p.rungs hole count = q.rungs hole count
  admits (fanout : Fanout) (count : Nat) : p.Admits fanout count ↔ q.Admits fanout count
  filled (fanout : Fanout) : p.Filled fanout ↔ q.Filled fanout

theorem Alike.refl (p : Path K V n) : p.Alike p :=
  ⟨.refl p, rfl, rfl, rfl, fun _ => rfl, rfl, fun _ _ => rfl, fun _ _ => Iff.rfl,
    fun _ => Iff.rfl⟩

section Refresh

variable {k : K} {largest : Option K}

theorem alike_refresh (p : Path K V n) : (p.refresh k).Alike p := by
  induction p with
  | top => exact Alike.refl _
  | step f rest ih =>
    -- Whether the climb goes on or stops at this frame, what is above has the same blocks.
    have hrest : Alike (if f.after.isEmpty then rest.refresh k else rest) rest := by
      split
      · exact ih
      · exact Alike.refl rest
    simp only [List.isEmpty_iff] at hrest
    -- The new key replaces a cached one only, and no count, handle or leaf is read off it.
    refine ⟨.step f k ?_, ?_, ?_, ?_, ?_, ?_, ?_, fun _ _ => Iff.rfl, ?_⟩
    · simpa only [List.isEmpty_iff] using hrest.rekeys
    · simp [refresh, left, hrest.left]
    · simp [refresh, right, hrest.right]
    · simp [refresh, length, hrest.length]
    · simp [refresh, rootHandle, hrest.rootHandle]
    · simp [refresh, handles, hrest.handles]
    · simp [refresh, rungs, hrest.rungs, Frame.rung, Frame.beside]
    · simp [refresh, Filled, hrest.admits, hrest.filled]

/-- A path on which only the keys that stand for what is at its end are stale is exact once it is up
to date. -/
theorem ExactElsewhere.refresh {p : Path K V n} (he : p.ExactElsewhere) :
    (p.refresh k).Exact (some k) := by
  induction p with
  | top => trivial
  | step f rest ih =>
    obtain ⟨heach, hlast, hother⟩ := he
    refine ⟨rfl, heach, ?_⟩
    by_cases hafter : f.after = []
    · -- Without later children the new key is the last key of the branch as well.
      have hmax : (f.rekey k).maxKey? = some k := Frame.maxKey?_of_nil hafter
      rw [hmax, if_pos (List.isEmpty_iff.2 hafter)]
      exact ih (hlast hafter)
    · -- The last key of the branch is that of a later child, which has not changed.
      rw [Frame.maxKey?_rekey hafter, if_neg (mt List.isEmpty_iff.1 hafter)]
      exact hother hafter

theorem Exact.elsewhere {p : Path K V n} (he : p.Exact largest) : p.ExactElsewhere := by
  -- What is asked here of the keys that stand for the end is nothing, so the rest is the same.
  induction p generalizing largest with
  | top => trivial
  | step f rest ih =>
    obtain ⟨-, heach, hrest⟩ := he
    exact ⟨heach, fun _ => ih hrest, fun _ => hrest⟩

/-- A path that was exact for any last key is exact for the new one once it is up to date. -/
theorem Exact.refresh {p : Path K V n} (he : p.Exact largest) : (p.refresh k).Exact (some k) :=
  he.elsewhere.refresh

end Refresh

end Path

namespace Tree

variable {nodes : Arena (Node K V)} {k : K}

/-- The block in the gap of a frame is listed at the position behind those before it. -/
theorem positionOf_hole {f : Frame K (Subtree K V n)} {rest : Path K V (n + 1)}
    {b : Subtree K V n} (hs : nodes.Holds ((Path.step f rest).fill b).cells)
    (parent : Option Handle) :
    (f.toBranch parent b.handle).positionOf b.handle = .ok f.before.length := by
  have hnodup := hs.nodup
  rw [Layout.map_fst_cells, Path.handles_fill, Path.handles, Multiset.cons_add] at hnodup
  -- No handle stands twice in the layout, so the one in the gap is not among those before it.
  have hnot : b.handle ∉ f.before.map fun slot => slot.2.handle := by
    intro hmem
    obtain ⟨slot, hslot, heq⟩ := List.mem_map.1 hmem
    have hbefore : b.handle ∈ handlesEach f.before + handlesEach f.after + rest.handles := by
      rw [← heq, add_assoc]
      exact Multiset.mem_add.2 (.inl (Block.handle_mem_handlesEach hslot))
    have hdisjoint := (Multiset.nodup_add.1 (Multiset.nodup_cons.1 hnodup).2).2.2
    exact Multiset.disjoint_left.1 hdisjoint hbefore (Block.handle_mem_handles b)
  have hchildren : (f.toBranch parent b.handle).children =
      f.before.map (fun slot => slot.2.handle) ++
        b.handle :: f.after.map fun slot => slot.2.handle := rfl
  have hpos := positionOf_eq hchildren hnot
  rwa [List.length_map] at hpos

/-- The key at the position of the gap is the one that is cached for what belongs there. -/
theorem setKey_hole (f : Frame K (Subtree K V n)) (parent : Option Handle) (hole : Handle) (k : K) :
    (f.toBranch parent hole).setKey f.before.length k = .ok ((f.rekey k).toBranch parent hole) := by
  simp [Branch.setKey, Frame.toBranch, Frame.rekey]

/-- What belongs in the gap of a frame is the last child exactly if there are none behind it. -/
theorem childCount_hole (f : Frame K (Subtree K V n)) (parent : Option Handle) (hole : Handle) :
    f.before.length + 1 = (f.toBranch parent hole).childCount ↔ f.after = [] := by
  rw [← List.length_eq_zero_iff]
  simp [Branch.childCount, Branch.children, Frame.toBranch]

section Hole

variable {f : Frame K (Subtree K V n)} {rest : Path K V (n + 1)} {b : Subtree K V n}

theorem getBranch_hole (hs : nodes.Holds ((Path.step f rest).fill b).cells) :
    getBranch nodes f.handle = .ok (f.toBranch rest.parent b.handle) := by
  apply getBranch_eq hs
  rw [Path.cells_fill, Path.cells, Multiset.cons_add]
  exact Multiset.mem_cons_self _ _

/-- Only the cell of the parent is exchanged where another key is cached for a subtree. -/
theorem put_hole (hs : nodes.Holds ((Path.step f rest).fill b).cells) (k : K) :
    (nodes.put f.handle (.branch ((f.rekey k).toBranch rest.parent b.handle))).Holds
      ((Path.step (f.rekey k) rest).fill b).cells := by
  rw [Path.cells_fill, Path.cells, Multiset.cons_add] at hs ⊢
  exact hs.put _

/-- One step of the climb caches the last key of a subtree beside it, and goes on where the subtree
is the last child. -/
theorem refreshUpward_step (hs : nodes.Holds ((Path.step f rest).fill b).cells)
    (hk : b.maxKey? = some k) (levels : Nat) : refreshUpward (levels + 1) nodes b.handle =
      if f.after = [] then
        refreshUpward levels
          (nodes.put f.handle (.branch ((f.rekey k).toBranch rest.parent b.handle))) f.handle
      else .ok (nodes.put f.handle (.branch ((f.rekey k).toBranch rest.parent b.handle))) := by
  have hlast : f.before.length + 1 =
      ((f.rekey k).toBranch rest.parent b.handle).childCount ↔ f.after = [] :=
    childCount_hole (f.rekey k) rest.parent b.handle
  conv_lhs => unfold refreshUpward
  rw [hs.get_of_mem (Path.mem_cells_fill _ b), ok_bind, Block.parent_node]
  simp only [Path.parent_step, maxKey_eq hs (Path.mem_cells_fill _ b) hk, ok_bind,
    getBranch_hole hs, positionOf_hole hs rest.parent, setKey_hole, hlast, pure_eq_ok]

end Hole

/-- The climb ends at the root. -/
theorem refreshUpward_top {b : Subtree K V n}
    (hs : nodes.Holds ((Path.top : Path K V n).fill b).cells) (levels : Nat) :
    refreshUpward (levels + 1) nodes b.handle = .ok nodes := by
  unfold refreshUpward
  rw [hs.get_of_mem (Path.mem_cells_fill .top b), ok_bind, Block.parent_node]
  rfl

/-- The climb brings the path above a subtree up to date. -/
theorem refreshUpward_eq {p : Path K V n} {b : Subtree K V n}
    (hs : nodes.Holds (p.fill b).cells) (hk : b.maxKey? = some k) (levels : Nat)
    (hlevels : p.length < levels) :
    ∃ nodes', refreshUpward levels nodes b.handle = .ok nodes' ∧
      nodes'.Holds ((p.refresh k).fill b).cells := by
  induction p generalizing nodes levels with
  | top =>
    obtain ⟨levels, rfl⟩ := Nat.exists_eq_succ_of_ne_zero (Nat.ne_zero_of_lt hlevels)
    exact ⟨nodes, refreshUpward_top hs levels, hs⟩
  | step f rest ih =>
    obtain ⟨levels, rfl⟩ := Nat.exists_eq_succ_of_ne_zero (Nat.ne_zero_of_lt hlevels)
    have hs₁ := put_hole hs k
    rw [refreshUpward_step hs hk]
    -- The parent is up to date itself now; only where the gap is its last one has its own last key
    -- changed.
    by_cases hlast : f.after = []
    · -- The new key is the parent's own last key too, so the climb goes on.
      have hmax : ((f.rekey k).plug b).maxKey? = some k :=
        (Frame.maxKey?_plug _ b).trans (Frame.maxKey?_of_nil hlast)
      obtain ⟨nodes', hrefresh, hs'⟩ := ih hs₁ hmax levels (Nat.lt_of_succ_lt_succ hlevels)
      refine ⟨nodes', ?_, ?_⟩
      · rw [if_pos hlast]
        exact hrefresh
      · simpa [Path.refresh, Path.fill, hlast] using hs'
    · -- A later child has the last key of the parent, so nothing above is stale.
      refine ⟨_, if_neg hlast, ?_⟩
      simpa [Path.refresh, Path.fill, hlast] using hs₁

/-- A path is shorter than there are slots. -/
theorem length_lt_slotCount {p : Path K V n} {b : Subtree K V n}
    (hs : nodes.Holds (p.fill b).cells) : p.length < nodes.slotCount := by
  have hcard := hs.card_le_slotCount
  have hpath := p.length_le_card_cells b.handle
  -- The frames and the block at the end have a cell each, and no two cells share a slot.
  rw [Path.cells_fill, Multiset.card_add, Block.cells_eq, Multiset.card_cons] at hcard
  omega

theorem refreshAbove_eq {p : Path K V n} {b : Subtree K V n}
    (hs : nodes.Holds (p.fill b).cells) (hk : b.maxKey? = some k) :
    ∃ nodes', refreshAbove nodes b.handle = .ok nodes' ∧
      nodes'.Holds ((p.refresh k).fill b).cells :=
  refreshUpward_eq hs hk nodes.slotCount (length_lt_slotCount hs)

/-- The keys that stand for a node in the branches above it are its last key, as it is stored there.
The first argument bounds the number of branches. -/
def UpToDateAbove (nodes : Arena (Node K V)) : Nat → Handle → Prop
  | 0, _ => False
  | levels + 1, child => ∃ node, nodes.get child = .ok node ∧
    ∀ parent, node.parent = some parent → ∃ k branch i, maxKey .emptyNode nodes child = .ok k ∧
      getBranch nodes parent = .ok branch ∧ branch.positionOf child = .ok i ∧
      branch.keys[i]? = some k ∧ (i + 1 = branch.childCount → UpToDateAbove nodes levels parent)

/-- A key that stands at a position already can be written there. -/
theorem setKey_self {branch : Branch K} {i : Nat} (hkey : branch.keys[i]? = some k) :
    branch.setKey i k = .ok branch := by
  obtain ⟨hlt, hsame⟩ := List.getElem?_eq_some_iff.1 hkey
  unfold Branch.setKey
  rw [if_pos hlt, ← hsame, List.set_getElem_self]

/-- A climb that finds each key up to date writes what stands there. -/
theorem refreshUpward_of_upToDate {levels : Nat} {child : Handle}
    (hup : UpToDateAbove nodes levels child) : refreshUpward levels nodes child = .ok nodes := by
  induction levels generalizing child with
  | zero => exact hup.elim
  | succ levels ih =>
    obtain ⟨node, hnode, habove⟩ := hup
    unfold refreshUpward
    rw [hnode, ok_bind]
    cases hparent : node.parent with
    | none => rfl
    | some parent =>
      -- What the definition says of the parent is what the climb reads on its way.
      obtain ⟨k, branch, i, hk, hbranch, hi, hkey, hlast⟩ := habove parent hparent
      simp only [hk, hbranch, hi, setKey_self hkey, ok_bind, pure_eq_ok,
        Arena.put_of_get? (getBranch_eq_ok_iff.1 hbranch)]
      split
      · next hlisted => exact ih (hlast hlisted)
      · rfl

theorem refreshAbove_of_upToDate {child : Handle}
    (hup : UpToDateAbove nodes nodes.slotCount child) : refreshAbove nodes child = .ok nodes :=
  refreshUpward_of_upToDate hup

/-- Above the end of an exact path all keys are up to date. -/
theorem upToDateAbove_of_exact {p : Path K V n} {b : Subtree K V n}
    (hs : nodes.Holds (p.fill b).cells) (hk : b.maxKey? = some k) (he : p.Exact (some k))
    (levels : Nat) (hlevels : p.length < levels) : UpToDateAbove nodes levels b.handle := by
  induction p generalizing k levels with
  | top =>
    obtain ⟨levels, rfl⟩ := Nat.exists_eq_succ_of_ne_zero (Nat.ne_zero_of_lt hlevels)
    -- A subtree at the root has no parent to ask about.
    exact ⟨_, hs.get_of_mem (Path.mem_cells_fill .top b), by simp⟩
  | step f rest ih =>
    obtain ⟨levels, rfl⟩ := Nat.exists_eq_succ_of_ne_zero (Nat.ne_zero_of_lt hlevels)
    obtain ⟨hkey, -, hrest⟩ := he
    obtain rfl : k = f.key := Option.some.inj hkey
    refine ⟨_, hs.get_of_mem (Path.mem_cells_fill _ b), ?_⟩
    rintro parent hparent
    obtain rfl : f.handle = parent := by simpa using hparent
    refine ⟨f.key, _, f.before.length, maxKey_eq hs (Path.mem_cells_fill _ b) hk, getBranch_hole hs,
      positionOf_hole hs rest.parent, by simp [Frame.toBranch], fun hlast => ?_⟩
    -- A key in the last slot of a branch is the last key of the branch as well.
    have hafter : f.after = [] := (childCount_hole f _ _).1 hlast
    have hmax : f.maxKey? = some f.key := Frame.maxKey?_of_nil hafter
    exact ih hs ((f.maxKey?_plug b).trans hmax) (hmax ▸ hrest) levels
      (Nat.lt_of_succ_lt_succ hlevels)

/-- There is nothing to bring up to date above the root. -/
theorem refreshAbove_root {b : Subtree K V n}
    (hs : nodes.Holds ((Path.top : Path K V n).fill b).cells) :
    refreshAbove nodes b.handle = .ok nodes := by
  obtain ⟨levels, hlevels⟩ :=
    Nat.exists_eq_succ_of_ne_zero (Nat.ne_zero_of_lt (length_lt_slotCount hs))
  unfold refreshAbove
  rw [hlevels]
  exact refreshUpward_top hs levels

end Tree

end OrderedIndex
