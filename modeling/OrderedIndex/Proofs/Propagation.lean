import OrderedIndex.Proofs.Coherence

/-!
# The early stop of a refresh

The keys that stand for a node in the branches above it are the one beside it in its parent and, as
long as each node on the way up is the last child of the next one, the one beside that.  A refresh
rewrites these and stops at the first node that is not a last child.  The way it takes is known by
positions only, not by keys, so it is the same whatever stands in the slots on it.

The module shows that nothing is lost by the stop.  A refresh writes to no other slots.  If these
slots are the only ones that may be stale, then beyond the stop every cached key is that of another
child, so it is exact already, and the climb that goes on up to the root writes what stands there.
-/

namespace OrderedIndex

variable {K V : Type} {n : Nat}

/-! ## The slots that stand for a node -/

/-- A node is listed in a branch, which is its parent, at a position. -/
structure ListedIn (nodes : Arena (Node K V)) (child parent : Handle) (branch : Branch K)
    (i : Nat) : Prop where
  parent_eq : (nodes.get? child).bind Node.parent = some parent
  branch_eq : nodes.get? parent = some (.branch branch)
  position : branch.positionOf child = .ok i

/-- The slots, each given by a branch and a position in it, in which the cached key is the last one
below a node because of the position alone: that of the node in its parent and, if this is the last
one there, those that stand for the parent. -/
inductive StandsFor (nodes : Arena (Node K V)) : Handle → Handle → Nat → Prop where
  | own {child parent : Handle} {branch : Branch K} {i : Nat}
      (hlisted : ListedIn nodes child parent branch i) : StandsFor nodes child parent i
  | above {child parent h : Handle} {branch : Branch K} {i j : Nat}
      (hlisted : ListedIn nodes child parent branch i) (hlast : i + 1 = branch.childCount)
      (habove : StandsFor nodes parent h j) : StandsFor nodes child h j

section Listed

variable {nodes : Arena (Node K V)} {child parent parent' h : Handle} {branch branch' : Branch K}
  {i i' : Nat}

theorem StandsFor.exists_listedIn (hs : StandsFor nodes child h i) :
    ∃ parent branch j, ListedIn nodes child parent branch j := by
  cases hs with
  | own hlisted => exact ⟨_, _, _, hlisted⟩
  | above hlisted hlast habove => exact ⟨_, _, _, hlisted⟩

/-- A node is listed once. -/
theorem ListedIn.unique (h : ListedIn nodes child parent branch i)
    (h' : ListedIn nodes child parent' branch' i') :
    parent' = parent ∧ branch' = branch ∧ i' = i := by
  obtain rfl := Option.some.inj (h.parent_eq.symm.trans h'.parent_eq)
  obtain rfl := Node.branch.inj (Option.some.inj (h.branch_eq.symm.trans h'.branch_eq))
  obtain rfl := Except.ok.inj (h.position.symm.trans h'.position)
  exact ⟨rfl, rfl, rfl⟩

end Listed

/-! ## Writes to some slots -/

theorem Branch.setKey_eq_ok_iff {branch branch' : Branch K} {i : Nat} {k : K} :
    branch.setKey i k = .ok branch' ↔
      i < branch.keys.length ∧ branch' = { branch with keys := branch.keys.set i k } := by
  unfold setKey
  split
  · next hlt => simp [hlt, eq_comm]
  · next hlt => simp [hlt]

/-- Two nodes differ in no more than the keys that a branch has at some positions. -/
inductive Node.AgreesExcept (stale : Nat → Prop) : Node K V → Node K V → Prop where
  | leaf (leaf : Leaf K V) : AgreesExcept stale (.leaf leaf) (.leaf leaf)
  | branch {branch branch' : Branch K} (hchildren : branch'.children = branch.children)
      (hparent : branch'.parent = branch.parent)
      (hlength : branch'.keys.length = branch.keys.length)
      (hkeys : ∀ i, ¬ stale i → branch'.keys[i]? = branch.keys[i]?) :
      AgreesExcept stale (.branch branch) (.branch branch')

/-- The nodes after some writes differ from those before in no more than the cached keys in some
slots. -/
structure RewritesOnly (stale : Handle → Nat → Prop) (nodes nodes' : Arena (Node K V)) : Prop where
  slotCount : nodes'.slotCount = nodes.slotCount
  released : nodes'.released = nodes.released
  agree (h : Handle) : Option.Rel (Node.AgreesExcept (stale h)) (nodes.get? h) (nodes'.get? h)

namespace Node.AgreesExcept

variable {stale stale' : Nat → Prop} {old new new' : Node K V}

theorem refl (node : Node K V) : AgreesExcept stale node node := by
  cases node with
  | leaf l => exact .leaf l
  | branch b => exact .branch rfl rfl rfl fun _ _ => rfl

theorem symm (h : AgreesExcept stale old new) : AgreesExcept stale new old := by
  cases h with
  | leaf l => exact .leaf l
  | branch hchildren hparent hlength hkeys =>
    exact .branch hchildren.symm hparent.symm hlength.symm fun i hi => (hkeys i hi).symm

theorem trans (h : AgreesExcept stale old new) (h' : AgreesExcept stale new new') :
    AgreesExcept stale old new' := by
  cases h with
  | leaf l => exact h'
  | branch hchildren hparent hlength hkeys =>
    cases h' with
    | branch hchildren' hparent' hlength' hkeys' =>
      exact .branch (hchildren'.trans hchildren) (hparent'.trans hparent)
        (hlength'.trans hlength) fun i hi => (hkeys' i hi).trans (hkeys i hi)

theorem mono (hsub : ∀ i, stale i → stale' i) (h : AgreesExcept stale old new) :
    AgreesExcept stale' old new := by
  cases h with
  | leaf l => exact .leaf l
  | branch hchildren hparent hlength hkeys =>
    exact .branch hchildren hparent hlength fun i hi => hkeys i (mt (hsub i) hi)

theorem parent_eq (h : AgreesExcept stale old new) : new.parent = old.parent := by
  cases h with
  | leaf l => rfl
  | branch hchildren hparent hlength hkeys => exact hparent

/-- Another key at one position changes nothing else. -/
theorem of_setKey {branch branch' : Branch K} {i : Nat} {k : K}
    (hset : branch.setKey i k = .ok branch') (hstale : stale i) :
    AgreesExcept stale (.branch branch : Node K V) (.branch branch') := by
  obtain ⟨-, rfl⟩ := Branch.setKey_eq_ok_iff.1 hset
  refine .branch rfl rfl (List.length_set ..) fun j hj => List.getElem?_set_ne ?_
  rintro rfl
  exact hj hstale

end Node.AgreesExcept

namespace RewritesOnly

variable {stale stale' : Handle → Nat → Prop} {nodes nodes' nodes'' : Arena (Node K V)}

theorem refl (nodes : Arena (Node K V)) : RewritesOnly stale nodes nodes where
  slotCount := rfl
  released := rfl
  agree h := by
    cases nodes.get? h with
    | none => exact .none
    | some node => exact .some (.refl node)

/-- A slot is empty before and after the writes, or in use and holds what agrees. -/
theorem get?_cases (hr : RewritesOnly stale nodes nodes') (h : Handle) :
    (nodes.get? h = none ∧ nodes'.get? h = none) ∨ ∃ old new, nodes.get? h = some old ∧
      nodes'.get? h = some new ∧ old.AgreesExcept (stale h) new := by
  have hagree := hr.agree h
  generalize nodes.get? h = old, nodes'.get? h = new at hagree ⊢
  cases hagree with
  | none => exact .inl ⟨rfl, rfl⟩
  | some hsame => exact .inr ⟨_, _, rfl, rfl, hsame⟩

theorem symm (hr : RewritesOnly stale nodes nodes') : RewritesOnly stale nodes' nodes where
  slotCount := hr.slotCount.symm
  released := hr.released.symm
  agree h := by
    rcases hr.get?_cases h with ⟨hold, hnew⟩ | ⟨old, new, hold, hnew, hsame⟩
    · rw [hold, hnew]
      exact .none
    · rw [hold, hnew]
      exact .some hsame.symm

theorem trans (hr : RewritesOnly stale nodes nodes') (hr' : RewritesOnly stale nodes' nodes'') :
    RewritesOnly stale nodes nodes'' where
  slotCount := hr'.slotCount.trans hr.slotCount
  released := hr'.released.trans hr.released
  agree h := by
    have hagree := hr'.agree h
    rcases hr.get?_cases h with ⟨hold, hnew⟩ | ⟨old, new, hold, hnew, hsame⟩
    · rwa [hold, ← hnew]
    · rcases hr'.get?_cases h with ⟨hnone, -⟩ | ⟨new', last, hnew', hlast, hsame'⟩
      · exact absurd (hnew.symm.trans hnone) (Option.some_ne_none _)
      · obtain rfl := Option.some.inj (hnew.symm.trans hnew')
        rw [hold, hlast]
        exact .some (hsame.trans hsame')

theorem mono (hsub : ∀ h i, stale h i → stale' h i) (hr : RewritesOnly stale nodes nodes') :
    RewritesOnly stale' nodes nodes' where
  slotCount := hr.slotCount
  released := hr.released
  agree h := by
    rcases hr.get?_cases h with ⟨hold, hnew⟩ | ⟨old, new, hold, hnew, hsame⟩
    · rw [hold, hnew]
      exact .none
    · rw [hold, hnew]
      exact .some (hsame.mono (hsub h))

/-- A key is written at one position of a branch. -/
theorem put {parent : Handle} {branch branch' : Branch K} {i : Nat} {k : K}
    (hbranch : nodes.get? parent = some (.branch branch)) (hset : branch.setKey i k = .ok branch')
    (hstale : stale parent i) : RewritesOnly stale nodes (nodes.put parent (.branch branch')) where
  slotCount := Array.size_setIfInBounds
  released := rfl
  agree h := by
    rw [Arena.get?_put (by rw [hbranch]; rfl)]
    split
    · next hsame =>
      obtain rfl := hsame
      rw [hbranch]
      exact .some (.of_setKey hset hstale)
    · exact (refl nodes).agree h

/-- A node is listed at the same position after the writes. -/
theorem listedIn (hr : RewritesOnly stale nodes nodes') {child parent : Handle}
    {branch : Branch K} {i : Nat} (hl : ListedIn nodes child parent branch i) :
    ∃ branch', ListedIn nodes' child parent branch' i ∧
      branch'.childCount = branch.childCount := by
  have hparent : (nodes'.get? child).bind Node.parent = some parent := by
    rw [← hl.parent_eq]
    rcases hr.get?_cases child with ⟨hold, hnew⟩ | ⟨old, new, hold, hnew, hsame⟩
    · rw [hold, hnew]
    · rw [hold, hnew]
      exact hsame.parent_eq
  have hagree := hr.agree parent
  rw [hl.branch_eq] at hagree
  -- A branch agrees with none but a branch that lists the same children.
  generalize hnew : nodes'.get? parent = new at hagree
  cases hagree with
  | some hsame =>
    cases hsame with
    | @branch _ branch' hchildren =>
      refine ⟨branch', ⟨hparent, hnew, ?_⟩, congrArg List.length hchildren⟩
      rw [← hl.position, Branch.positionOf, Branch.positionOf, hchildren]

/-- The writes do not change which slots stand for a node. -/
theorem standsFor (hr : RewritesOnly stale nodes nodes') {child h : Handle} {i : Nat}
    (hs : StandsFor nodes child h i) : StandsFor nodes' child h i := by
  -- By induction on the slots that stand for the node, from its own one upwards.
  induction hs with
  | own hlisted =>
    obtain ⟨branch', hlisted', -⟩ := hr.listedIn hlisted
    exact .own hlisted'
  | above hlisted hlast _ ih =>
    obtain ⟨branch', hlisted', hcount⟩ := hr.listedIn hlisted
    exact .above hlisted' (hlast.trans hcount.symm) ih

end RewritesOnly

namespace Tree

variable {nodes nodes' : Arena (Node K V)} {child : Handle}

/-! ## What a refresh writes -/

/-- A step of the climb ends it at the root, or writes a key beside the node; then the climb goes on
if the node is the last child, and ends if not. -/
theorem refreshUpward_cases {levels : Nat}
    (h : refreshUpward (levels + 1) nodes child = .ok nodes') :
    nodes' = nodes ∨ ∃ parent branch i k branch', ListedIn nodes child parent branch i ∧
      branch.setKey i k = .ok branch' ∧
      (i + 1 = branch.childCount ∧
          refreshUpward levels (nodes.put parent (.branch branch')) parent = .ok nodes' ∨
        i + 1 ≠ branch.childCount ∧ nodes' = nodes.put parent (.branch branch')) := by
  unfold refreshUpward at h
  obtain ⟨node, hnode, hrest⟩ := bind_eq_ok_iff.1 h
  -- The climb ends at the root; any other node is listed in its parent.
  cases hparent : node.parent with
  | none =>
    rw [hparent] at hrest
    exact .inl (Except.ok.inj hrest).symm
  | some parent =>
    rw [hparent] at hrest
    obtain ⟨k, -, hrest⟩ := bind_eq_ok_iff.1 hrest
    obtain ⟨branch, hbranch, hrest⟩ := bind_eq_ok_iff.1 hrest
    obtain ⟨i, hi, hrest⟩ := bind_eq_ok_iff.1 hrest
    obtain ⟨branch', hset, hrest⟩ := bind_eq_ok_iff.1 hrest
    have hlisted : ListedIn nodes child parent branch i := by
      refine ⟨?_, getBranch_eq_ok_iff.1 hbranch, hi⟩
      rw [Arena.get_eq_ok_iff.1 hnode]
      exact hparent
    have hcount : branch'.childCount = branch.childCount := by
      obtain ⟨-, rfl⟩ := Branch.setKey_eq_ok_iff.1 hset
      rfl
    simp only [hcount] at hrest
    refine .inr ⟨parent, branch, i, k, branch', hlisted, hset, ?_⟩
    split at hrest
    · next hlast => exact .inl ⟨hlast, hrest⟩
    · next hlast => exact .inr ⟨hlast, (Except.ok.inj hrest).symm⟩

/-- A climb writes to no other slots than those that stand for the node at which it starts. -/
theorem refreshUpward_rewritesOnly {levels : Nat}
    (h : refreshUpward levels nodes child = .ok nodes') :
    RewritesOnly (StandsFor nodes child) nodes nodes' := by
  -- By induction on the bound: after the first write the climb is one that starts at the parent.
  induction levels generalizing nodes child with
  | zero => exact absurd h (by simp [refreshUpward])
  | succ levels ih =>
    rcases refreshUpward_cases h with rfl | ⟨parent, branch, i, k, branch', hlisted, hset, hrest⟩
    · exact .refl nodes'
    · have hput : RewritesOnly (StandsFor nodes child) nodes
          (nodes.put parent (.branch branch')) := .put hlisted.branch_eq hset (.own hlisted)
      rcases hrest with ⟨hlast, hrest⟩ | ⟨-, rfl⟩
      · -- The slots that stand for the parent after the first write did so before, and they stand
        -- for the node as well.
        refine hput.trans ((ih hrest).mono fun h j hstands => ?_)
        exact .above hlisted hlast (hput.symm.standsFor hstands)
      · exact hput

/-! ## The plain form -/

/-- Rewrites the cached maximum of a node in its parent, and goes on with the parent in any case.
The first argument bounds the number of levels. -/
def rewriteUpward : Nat → Arena (Node K V) → Handle → Except Fault (Arena (Node K V))
  | 0, _, _ => .error .endlessLinks
  | levels + 1, nodes, child => do
    match (← nodes.get child).parent with
    | none => return nodes
    | some parent =>
      let largest ← maxKey .emptyNode nodes child
      let branch ← getBranch nodes parent
      let i ← branch.positionOf child
      let branch ← branch.setKey i largest
      rewriteUpward levels (nodes.put parent (.branch branch)) parent

/-- Rewrites one cached maximum in each branch on the way from a node up to the root. -/
def rewriteToRoot (nodes : Arena (Node K V)) (child : Handle) :
    Except Fault (Arena (Node K V)) :=
  rewriteUpward nodes.slotCount nodes child

section Along

variable {f : Frame K (Subtree K V n)} {rest : Path K V (n + 1)} {p : Path K V n}
  {b : Subtree K V n} {k : K} {h : Handle} {i : Nat}

/-- The plain form ends at the root. -/
theorem rewriteUpward_top
    (hs : nodes.Holds ((Path.top : Path K V n).fill b).cells) (levels : Nat) :
    rewriteUpward (levels + 1) nodes b.handle = .ok nodes := by
  unfold rewriteUpward
  rw [hs.get_of_mem (Path.mem_cells_fill .top b), ok_bind, Block.parent_node]
  rfl

/-- One step of the plain form caches the last key of a subtree beside it, and goes on. -/
theorem rewriteUpward_step (hs : nodes.Holds ((Path.step f rest).fill b).cells)
    (hk : b.maxKey? = some k) (levels : Nat) : rewriteUpward (levels + 1) nodes b.handle =
      rewriteUpward levels
        (nodes.put f.handle (.branch ((f.rekey k).toBranch rest.parent b.handle))) f.handle := by
  conv_lhs => unfold rewriteUpward
  rw [hs.get_of_mem (Path.mem_cells_fill _ b), ok_bind, Block.parent_node]
  simp only [Path.parent_step, maxKey_eq hs (Path.mem_cells_fill _ b) hk, ok_bind,
    getBranch_hole hs, positionOf_hole hs rest.parent, setKey_hole]

/-- On an exact path the plain form writes what stands there. -/
theorem rewriteUpward_of_exact (hs : nodes.Holds (p.fill b).cells) (hk : b.maxKey? = some k)
    (he : p.Exact (some k)) (levels : Nat) (hlevels : p.length < levels) :
    rewriteUpward levels nodes b.handle = .ok nodes := by
  -- By induction up the path: each write puts a key where it stands already.
  induction p generalizing k levels with
  | top =>
    obtain ⟨levels, rfl⟩ := Nat.exists_eq_succ_of_ne_zero (Nat.ne_zero_of_lt hlevels)
    exact rewriteUpward_top hs levels
  | step f rest ih =>
    obtain ⟨levels, rfl⟩ := Nat.exists_eq_succ_of_ne_zero (Nat.ne_zero_of_lt hlevels)
    obtain ⟨hkey, -, hrest⟩ := he
    obtain rfl : k = f.key := Option.some.inj hkey
    have hsame : nodes.put f.handle (.branch ((f.rekey f.key).toBranch rest.parent b.handle)) =
        nodes := Arena.put_of_get? (getBranch_eq_ok_iff.1 (getBranch_hole hs))
    obtain ⟨k', hk'⟩ := Option.isSome_iff_exists.1 f.isSome_maxKey?
    rw [rewriteUpward_step hs hk, hsame]
    exact ih hs ((f.maxKey?_plug b).trans hk') (hk' ▸ hrest) levels
      (Nat.lt_of_succ_lt_succ hlevels)

/-- Where only the keys that stand for a subtree are stale, the stop spares no write that changes a
key. -/
theorem rewriteUpward_eq_refreshUpward (hs : nodes.Holds (p.fill b).cells)
    (hk : b.maxKey? = some k) (he : p.ExactElsewhere) (levels : Nat) (hlevels : p.length < levels) :
    rewriteUpward levels nodes b.handle = refreshUpward levels nodes b.handle := by
  -- By induction up the path; the forms differ from the first node on that is not the last child.
  induction p generalizing nodes levels with
  | top =>
    obtain ⟨levels, rfl⟩ := Nat.exists_eq_succ_of_ne_zero (Nat.ne_zero_of_lt hlevels)
    rw [rewriteUpward_top hs, refreshUpward_top hs]
  | step f rest ih =>
    obtain ⟨levels, rfl⟩ := Nat.exists_eq_succ_of_ne_zero (Nat.ne_zero_of_lt hlevels)
    obtain ⟨-, hlast, hother⟩ := he
    have hlevels := Nat.lt_of_succ_lt_succ hlevels
    have hs₁ := put_hole hs k
    rw [rewriteUpward_step hs hk, refreshUpward_step hs hk]
    by_cases hafter : f.after = []
    · -- Both forms go on with the parent, of which the new key is the last one.
      have hmax : ((f.rekey k).plug b).maxKey? = some k :=
        (Frame.maxKey?_plug _ b).trans (Frame.maxKey?_of_nil hafter)
      rw [if_pos hafter]
      exact ih hs₁ hmax (hlast hafter) levels hlevels
    · -- The last key of the parent is that of a later child, and all keys above are exact for it.
      obtain ⟨k', hk'⟩ := Option.isSome_iff_exists.1 f.isSome_maxKey?
      have hmax : ((f.rekey k).plug b).maxKey? = some k' := by
        rw [Frame.maxKey?_plug, Frame.maxKey?_rekey hafter, hk']
      rw [if_neg hafter]
      exact rewriteUpward_of_exact (p := rest) hs₁ hmax (hk' ▸ hother hafter) levels hlevels

/-! ## Slots along a path -/

theorem listedIn_hole (hs : nodes.Holds ((Path.step f rest).fill b).cells) :
    ListedIn nodes b.handle f.handle (f.toBranch rest.parent b.handle) f.before.length where
  parent_eq := by
    rw [hs.get?_of_mem (Path.mem_cells_fill _ b)]
    exact Block.parent_node b
  branch_eq := getBranch_eq_ok_iff.1 (getBranch_hole hs)
  position := positionOf_hole hs rest.parent

/-- No slot stands for the root. -/
theorem not_standsFor_top (hs : nodes.Holds ((Path.top : Path K V n).fill b).cells) :
    ¬ StandsFor nodes b.handle h i := by
  intro hstands
  obtain ⟨parent, branch, j, hlisted⟩ := hstands.exists_listedIn
  have hparent := hlisted.parent_eq
  rw [hs.get?_of_mem (Path.mem_cells_fill _ b)] at hparent
  exact absurd (hparent.symm.trans (Block.parent_node b)) (Option.some_ne_none _)

theorem standsFor_step_iff (hs : nodes.Holds ((Path.step f rest).fill b).cells) :
    StandsFor nodes b.handle h i ↔
      (h = f.handle ∧ i = f.before.length) ∨ (f.after = [] ∧ StandsFor nodes f.handle h i) := by
  have hlisted := listedIn_hole hs
  constructor
  · intro hstands
    cases hstands with
    | own hown =>
      obtain ⟨rfl, -, rfl⟩ := hlisted.unique hown
      exact .inl ⟨rfl, rfl⟩
    | above hown hlast habove =>
      obtain ⟨rfl, rfl, rfl⟩ := hlisted.unique hown
      exact .inr ⟨(childCount_hole f _ _).1 hlast, habove⟩
  · rintro (⟨rfl, rfl⟩ | ⟨hafter, habove⟩)
    · exact .own hlisted
    · exact .above hlisted ((childCount_hole f _ _).2 hafter) habove

/-- The slots that stand for the subtree at the end of a path are in branches on the path. -/
theorem mem_handles_of_standsFor (hs : nodes.Holds (p.fill b).cells)
    (hstands : StandsFor nodes b.handle h i) : h ∈ p.handles := by
  -- By induction up the path; a slot that stands for the parent stands above the first frame.
  induction p with
  | top => exact absurd hstands (not_standsFor_top hs)
  | step f rest ih =>
    rw [Path.handles, Multiset.mem_cons, Multiset.mem_add]
    rcases (standsFor_step_iff hs).1 hstands with ⟨rfl, -⟩ | ⟨-, habove⟩
    · exact .inl rfl
    · exact .inr (.inr (ih (b := f.plug b) hs habove))

end Along

end Tree

/-! ## Keys that are exact besides -/

section Besides

variable {stale : Handle → Nat → Prop} {f : Frame K (Subtree K V n)} {rest : Path K V (n + 1)}
  {p : Path K V n} {b : Subtree K V n}

theorem Path.handles_fill_step : ((Path.step f rest).fill b).handles =
    f.handle ::ₘ (handlesEach (f.before ++ f.after) + (b.handles + rest.handles)) := by
  rw [Path.handles_fill, Path.handles, handlesEach_append]
  simp only [← Multiset.singleton_add]
  abel

/-- The keys beside a gap are exact, if only keys in the gap, below it or above may be stale. -/
theorem Path.exactEach_of_cachedExcept (hnodup : ((Path.step f rest).fill b).handles.Nodup)
    (hcached : (((Path.step f rest).fill b).root.shape none).CachedExcept stale)
    (hstale : ∀ h i, stale h i →
      (h = f.handle ∧ i = f.before.length) ∨ h ∈ b.handles + rest.handles) :
    ExactEach f.before ∧ ExactEach f.after := by
  rw [← exactEach_append]
  rw [Path.handles_fill_step, Multiset.nodup_cons, Multiset.nodup_add] at hnodup
  obtain ⟨hself, -, -, hdisjoint⟩ := hnodup
  intro slot hslot
  -- The key beside the gap is in the gap of another frame, at another position.
  obtain ⟨g, hhandle, hkey, hposition, hplug⟩ := Frame.exists_beside hslot b
  have hfill : (Path.step g rest).fill slot.2 = (Path.step f rest).fill b :=
    congrArg rest.fill hplug
  rw [← hfill] at hcached
  have hexact : slot.2.Exact := by
    apply Block.exact_of_cachedExcept (p := .step g rest) hcached
    intro h hh i hs
    have hbeside : h ∈ handlesEach (f.before ++ f.after) := Block.mem_handlesEach hslot hh
    rcases hstale h i hs with ⟨rfl, -⟩ | helse
    · exact hself (Multiset.mem_add.2 (.inl hbeside))
    · exact Multiset.disjoint_left.1 hdisjoint hbeside helse
  have hlast := Path.lastKey?_of_cachedExcept hcached fun hs => by
    rcases hstale _ _ hs with ⟨-, hsame⟩ | helse
    · exact hposition hsame
    · exact hself (Multiset.mem_add.2 (.inr (hhandle ▸ helse)))
  rw [hexact.lastKey?_shape_eq, hkey] at hlast
  exact ⟨hlast, hexact⟩

/-- The last key below a branch is that below its last child. -/
theorem Block.lastKey?_shape_of_getLast {parent : Option Handle} {b : Subtree K V (n + 1)}
    {slots : List (K × Subtree K V n)} {slot : K × Subtree K V n} {k : K}
    (hpairs : b.pairs = slots ++ [slot])
    (hlast : (slot.2.shape (some b.handle)).lastKey? = some k) :
    (b.shape parent).lastKey? = some k := by
  have hne := Shape.leaves_ne_nil_of_lastKey? hlast
  rw [Shape.lastKey?] at hlast ⊢
  rw [leaves_shape_succ, hpairs, List.flatMap_append, List.flatMap_singleton,
    List.getLast?_append_of_ne_nil _ hne]
  exact hlast

/-- The last key below the branch of a frame is the one that is cached for its last child, if this
is exact. -/
theorem Frame.lastKey?_shape_plug {parent : Option Handle} (hafter : ExactEach f.after)
    (hgap : f.after = [] → (b.shape (some f.handle)).lastKey? = some f.key) :
    (Block.shape (n := n + 1) parent (f.plug b)).lastKey? = f.maxKey? := by
  -- The last child is the one in the gap, or one behind it, of which the cached key is exact.
  rcases List.eq_nil_or_concat' f.after with hnil | ⟨slots, slot, hconcat⟩
  · have hpairs : (f.plug b).pairs = f.before ++ [(f.key, b)] := by rw [Frame.plug, hnil]
    rw [Frame.maxKey?_of_nil hnil]
    exact Block.lastKey?_shape_of_getLast hpairs (hgap hnil)
  · have hmax : f.maxKey? = some slot.1 := by
      rw [Frame.maxKey?, hconcat, List.map_append, ← List.cons_append, ← List.append_assoc]
      exact List.getLast?_concat
    have hpairs : (f.plug b).pairs = (f.before ++ (f.key, b) :: slots) ++ [slot] := by
      rw [Frame.plug, hconcat, List.append_assoc, List.cons_append]
    obtain ⟨hslot, hexact⟩ := hafter slot (by simp [hconcat])
    rw [hmax]
    exact Block.lastKey?_shape_of_getLast hpairs (hexact.lastKey?_shape hslot)

/-- A path is exact, if only keys below its end may be stale. -/
theorem Path.exact_of_cachedExcept {largest : Option K} (hnodup : (p.fill b).handles.Nodup)
    (hcached : ((p.fill b).root.shape none).CachedExcept stale)
    (hstale : ∀ h i, stale h i → h ∈ b.handles)
    (hlast : (b.shape p.parent).lastKey? = largest) : p.Exact largest := by
  -- By induction up the path: the last key below each frame is the one that the next frame has to
  -- cache for it.
  induction p generalizing largest with
  | top => trivial
  | step f rest ih =>
    have hfresh : ¬ stale f.handle f.before.length := by
      intro hs
      have hself := hnodup
      rw [Path.handles_fill_step, Multiset.nodup_cons] at hself
      exact hself.1 (by simp [hstale _ _ hs])
    have hkey := Path.lastKey?_of_cachedExcept hcached hfresh
    have heach := Path.exactEach_of_cachedExcept hnodup hcached
      fun h i hs => .inr (Multiset.mem_add.2 (.inl (hstale h i hs)))
    refine ⟨hlast.symm.trans hkey, heach, ?_⟩
    apply ih (b := f.plug b) hnodup hcached
    · exact fun h i hs => f.mem_handles_plug b (hstale h i hs)
    · exact Frame.lastKey?_shape_plug heach.2 fun _ => hkey

/-- Only keys that stand for the subtree at the end of a path are stale on it, if others may be
stale below its end only. -/
theorem Path.exactElsewhere_of_cachedExcept {nodes : Arena (Node K V)}
    (hs : nodes.Holds (p.fill b).cells)
    (hcached : ((p.fill b).root.shape none).CachedExcept stale)
    (hstale : ∀ h i, stale h i → h ∈ b.handles ∨ StandsFor nodes b.handle h i) :
    p.ExactElsewhere := by
  have hnodup := hs.nodup
  rw [Layout.map_fst_cells] at hnodup
  -- The slots that may be stale are split along the path: those of the first frame, and those
  -- above.
  induction p with
  | top => trivial
  | @step n f rest ih =>
    -- A stale slot is in the gap, below it, or, if the gap is the last one, stands for the parent.
    have hcases : ∀ h i, stale h i → h ∈ b.handles ∨ (h = f.handle ∧ i = f.before.length) ∨
        (f.after = [] ∧ StandsFor nodes f.handle h i) :=
      fun h i hs' => (hstale h i hs').imp_right (Tree.standsFor_step_iff hs).1
    have heach := Path.exactEach_of_cachedExcept hnodup hcached fun h i hs' => by
      rw [Multiset.mem_add]
      rcases hcases h i hs' with hbelow | hgap | ⟨-, habove⟩
      · exact .inr (.inl hbelow)
      · exact .inl hgap
      · exact .inr (.inr (Tree.mem_handles_of_standsFor (b := f.plug b) hs habove))
    have hself : f.handle ∈ Block.handles (n := n + 1) (f.plug b) :=
      Block.handle_mem_handles (n := n + 1) (f.plug b)
    refine ⟨heach, fun _ => ?_, fun hafter => ?_⟩
    · apply ih (b := f.plug b) hs hcached _ hnodup
      intro h i hs'
      rcases hcases h i hs' with hbelow | ⟨rfl, -⟩ | ⟨-, habove⟩
      · exact .inl (f.mem_handles_plug b hbelow)
      · exact .inl hself
      · exact .inr habove
    · -- No slot above stands for the gap, so the rest of the path is exact.
      apply Path.exact_of_cachedExcept (b := f.plug b) hnodup hcached
      · intro h i hs'
        rcases hcases h i hs' with hbelow | ⟨rfl, -⟩ | ⟨hnil, -⟩
        · exact f.mem_handles_plug b hbelow
        · exact hself
        · exact absurd hnil hafter
      · exact Frame.lastKey?_shape_plug heach.2 fun hnil => absurd hnil hafter

end Besides

/-! ## The refresh of one node -/

section Refresh

variable {p : Path K V n} {b : Subtree K V n} {k : K}

/-- The root of a layout has a last key, if some subtree in it has one. -/
theorem Path.isSome_maxKey?_fill (hk : b.maxKey?.isSome) : (p.fill b).root.maxKey?.isSome := by
  induction p with
  | top => exact hk
  | step f rest ih =>
    -- A frame is never without a key, so what is at the end of the path matters at the top only.
    apply ih (b := f.plug b)
    rw [Frame.maxKey?_plug]
    exact f.isSome_maxKey?

/-- Other cached keys along a path leave the leaves as they are. -/
theorem Path.leaves_refresh : ((p.refresh k).fill b).leaves = (p.fill b).leaves := by
  rw [Path.leaves_fill, Path.leaves_fill, (Path.alike_refresh p).left, (Path.alike_refresh p).right]

theorem Path.entries_refresh : ((p.refresh k).fill b).entries = (p.fill b).entries :=
  congrArg entriesOf Path.leaves_refresh

namespace Tree.Connected

variable [Ord K] {tree : Tree K V} {shape : Shape K V}

/-- In a connected tree in which only keys that stand for one node may be stale, this node is that
of an exact block, at the end of a path on which no other keys are stale. -/
theorem exists_place (hc : tree.Connected shape) {child : Handle} {node : Node K V}
    (hnode : tree.nodes.get? child = some node)
    (hcached : shape.CachedExcept (StandsFor tree.nodes child)) :
    ∃ (n : Nat) (p : Path K V n) (b : Subtree K V n), tree.Shows (p.fill b) ∧
      Linked none (p.fill b).leaves ∧ (p.fill b).root.shape none = shape ∧ b.handle = child ∧
      b.node p.parent = node ∧ b.Exact ∧ p.ExactElsewhere := by
  -- A layout is read off the connected tree first; the node is found in it by its cell.
  obtain ⟨layout, hshows, -, hlinked, rfl⟩ := hc.exists_shows
  have hcell : (child, node) ∈ layout.root.cells (Path.top : Path K V layout.levels).parent :=
    (hshows.holds.get?_iff child node).1 hnode
  obtain ⟨n, p, b, hfill, rfl, rfl⟩ := Block.exists_path_of_mem_cells hcell
  obtain rfl : p.fill b = layout := hfill
  refine ⟨n, p, b, hshows, hlinked, rfl, rfl, rfl, ?_, ?_⟩
  · -- The stale keys are in branches above the node, which are not below it.
    apply Block.exact_of_cachedExcept (p := p) hcached
    intro h hh i hstands
    have hnodup := hshows.holds.nodup
    rw [Layout.map_fst_cells, Path.handles_fill, Multiset.nodup_add] at hnodup
    exact Multiset.disjoint_left.1 hnodup.2.2
      (Tree.mem_handles_of_standsFor hshows.holds hstands) hh
  · exact Path.exactElsewhere_of_cachedExcept hshows.holds hcached fun _ _ => .inr

/-- The tree is coherent again once its nodes lay out the layout with that path up to date. -/
theorem coherent_refresh {nodes' : Arena (Node K V)}
    (hc : tree.Connected ((p.fill b).root.shape none)) (hshows : tree.Shows (p.fill b))
    (hlinked : Linked none (p.fill b).leaves) (hk : b.maxKey? = some k) (hexact : b.Exact)
    (helse : p.ExactElsewhere) (hs' : nodes'.Holds ((p.refresh k).fill b).cells) :
    ({ tree with nodes := nodes' } : Tree K V).Coherent
      (((p.refresh k).fill b).root.shape none) := by
  -- A refresh moves no block, so the root and the chain of the leaves are those from before.
  have hroot : tree.root = ((p.refresh k).fill b).root.handle := by
    rw [Path.root_handle_fill, (Path.alike_refresh p).rootHandle, ← Path.root_handle_fill]
    exact hshows.root
  have hexact' : ((p.refresh k).fill b).root.Exact :=
    (Path.exact_fill _ _).2 ⟨hk ▸ helse.refresh, hexact⟩
  have hrenders : ({ tree with nodes := nodes' } : Tree K V).Renders ((p.refresh k).fill b) := by
    refine ⟨⟨hs', hroot⟩, hexact', ?_, ?_, ?_⟩
    · rw [Path.leaves_refresh]
      exact hlinked
    · rw [Path.entries_refresh]
      exact hc.ascending_entries
    · rw [Path.entries_refresh]
      exact hc.size_eq_length
  apply hrenders.coherent
  exact hexact'.populated (Path.isSome_maxKey?_fill (by rw [hk]; rfl))

end Tree.Connected

end Refresh

/-- A refresh restores a tree in which only the cached keys that stand for one node, which is not
empty, may be stale.  It writes to no other slots, leaves the same nodes as the plain form, and
changes nothing when it is made again. -/
theorem refreshAbove_restores [Ord K] {tree : Tree K V} {shape : Shape K V} {child : Handle}
    {node : Node K V} (hc : tree.Connected shape) (hnode : tree.nodes.get? child = some node)
    (hne : node.keyCount ≠ 0) (hcached : shape.CachedExcept (StandsFor tree.nodes child)) :
    ∃ nodes' shape', Tree.refreshAbove tree.nodes child = .ok nodes' ∧
      ({ tree with nodes := nodes' } : Tree K V).Coherent shape' ∧
      shape'.entries = shape.entries ∧
      RewritesOnly (StandsFor tree.nodes child) tree.nodes nodes' ∧
      Tree.rewriteToRoot tree.nodes child = .ok nodes' ∧
      Tree.refreshAbove nodes' child = .ok nodes' := by
  -- All that is claimed follows from one place in a layout, with its path up to date.
  obtain ⟨n, p, b, hshows, hlinked, rfl, rfl, rfl, hexact, helse⟩ := hc.exists_place hnode hcached
  rw [Block.keyCount_node] at hne
  obtain ⟨k, hk⟩ := Option.isSome_iff_exists.1 (b.maxKey?_isSome.2 (Nat.pos_of_ne_zero hne))
  obtain ⟨nodes', hrefresh, hs'⟩ := Tree.refreshAbove_eq hshows.holds hk
  refine ⟨nodes', _, hrefresh, hc.coherent_refresh hshows hlinked hk hexact helse hs', ?_, ?_, ?_,
    ?_⟩
  · rw [Layout.entries_shape, Layout.entries_shape, Path.entries_refresh]
  · exact Tree.refreshUpward_rewritesOnly hrefresh
  · rw [← hrefresh]
    exact Tree.rewriteUpward_eq_refreshUpward hshows.holds hk helse _
      (Tree.length_lt_slotCount hshows.holds)
  · -- On the path that is up to date a climb finds what it would write.
    apply Tree.refreshAbove_of_upToDate
    exact Tree.upToDateAbove_of_exact hs' hk helse.refresh _ (Tree.length_lt_slotCount hs')

theorem Shape.cachedExcept_of_zipIdx {stale : Handle → Nat → Prop} {shape : Shape K V}
    (hslots : ∀ branch ∈ shape.nodes, ∀ slot ∈ (branch.keys.zip branch.children).zipIdx,
      stale branch.handle slot.2 ∨ slot.1.2.lastKey? = some slot.1.1) :
    shape.CachedExcept stale := by
  intro branch hbranch i k below hk hbelow hfresh
  have hzip : (branch.keys.zip branch.children)[i]? = some (k, below) :=
    List.getElem?_zip_eq_some.2 ⟨hk, hbelow⟩
  have hslot := hslots branch hbranch ((k, below), i) (List.mk_mem_zipIdx_iff_getElem?.2 hzip)
  exact hslot.resolve_left hfresh

/-- A tree of three levels in which two wrong keys stand for the last leaf. -/
def outdated : Tree Nat Nat where
  fanout := .standard
  nodes := .ofList
    [.leaf ⟨⟨[10, 20], [1, 2]⟩, some ⟨1⟩, some ⟨4⟩⟩,
      .leaf ⟨⟨[30, 40], [3, 4]⟩, some ⟨2⟩, some ⟨4⟩⟩,
      .leaf ⟨⟨[50, 60], [5, 6]⟩, some ⟨3⟩, some ⟨5⟩⟩,
      .leaf ⟨⟨[70, 80], [7, 8]⟩, none, some ⟨5⟩⟩,
      .branch ⟨⟨[20, 40], [⟨0⟩, ⟨1⟩]⟩, some ⟨6⟩⟩,
      .branch ⟨⟨[60, 99], [⟨2⟩, ⟨3⟩]⟩, some ⟨6⟩⟩,
      .branch ⟨⟨[40, 75], [⟨4⟩, ⟨5⟩]⟩, none⟩]
  root := ⟨6⟩
  size := 8

/-- What one finds on following the links of that tree. -/
def outdatedShape : Shape Nat Nat :=
  .branch ⟨6⟩ none [40, 75]
    [.branch ⟨4⟩ (some ⟨6⟩) [20, 40]
        [.leaf ⟨0⟩ (some ⟨4⟩) (some ⟨1⟩) [10, 20] [1, 2],
          .leaf ⟨1⟩ (some ⟨4⟩) (some ⟨2⟩) [30, 40] [3, 4]],
      .branch ⟨5⟩ (some ⟨6⟩) [60, 99]
        [.leaf ⟨2⟩ (some ⟨5⟩) (some ⟨3⟩) [50, 60] [5, 6],
          .leaf ⟨3⟩ (some ⟨5⟩) none [70, 80] [7, 8]]]

theorem outdated_connected : outdated.Connected outdatedShape := by
  have hhandles : outdatedShape.nodes.map Shape.handle =
      [⟨6⟩, ⟨4⟩, ⟨0⟩, ⟨1⟩, ⟨5⟩, ⟨2⟩, ⟨3⟩] := by
    simp [outdatedShape, Shape.nodes, Shape.handle]
  have hkeys : outdatedShape.leaves.flatMap Shape.keys = [10, 20, 30, 40, 50, 60, 70, 80] := by
    simp [outdatedShape, Shape.leaves, Shape.keys]
  have hplaces : ((outdatedShape.nodes.map Shape.handle).map Handle.index).Perm (List.range 7) := by
    rw [hhandles]
    decide
  exact {
    shape_eq := rfl
    sound := Arena.sound_ofList _
    nodup := Arena.nodup_of_perm_range hplaces
    live := Arena.isSome_get?_ofList hplaces
    root_parent := rfl
    parents := by
      simp [outdatedShape, Shape.nodes, Shape.children, Shape.parent, Shape.handle]
    paired := by
      simp [outdatedShape, Shape.nodes, Shape.children, Shape.isBranch, Shape.keys]
    populated := by
      simp [outdatedShape, Shape.nodes, Shape.children, Shape.leaves]
    aligned := by
      simp [outdatedShape, Shape.leaves, Shape.keys, Shape.values]
    ascending := by
      rw [hkeys, Ascending]
      decide
    depth := ⟨2, by simp [outdatedShape, Shape.depths]⟩
    chain := ⟨_, rfl, by simp [outdatedShape, Shape.leaves, Shape.handle]⟩
    size := by
      rw [hkeys]
      rfl }

theorem outdated_cachedExcept :
    outdatedShape.CachedExcept (StandsFor outdated.nodes ⟨3⟩) := by
  have hroot : ListedIn outdated.nodes ⟨5⟩ ⟨6⟩ ⟨⟨[40, 75], [⟨4⟩, ⟨5⟩]⟩, none⟩ 1 := ⟨rfl, rfl, rfl⟩
  have hbranch : ListedIn outdated.nodes ⟨3⟩ ⟨5⟩ ⟨⟨[60, 99], [⟨2⟩, ⟨3⟩]⟩, some ⟨6⟩⟩ 1 :=
    ⟨rfl, rfl, rfl⟩
  have hown : StandsFor outdated.nodes ⟨3⟩ ⟨5⟩ 1 := .own hbranch
  have habove : StandsFor outdated.nodes ⟨3⟩ ⟨6⟩ 1 := .above hbranch rfl (.own hroot)
  -- The two slots are named first; all others are compared with the keys below them one by one.
  apply Shape.cachedExcept_of_zipIdx
  simp [-Prod.forall, outdatedShape, Shape.nodes, Shape.keys, Shape.children, Shape.handle,
    Shape.lastKey?, Shape.leaves, hown, habove]

/-- The climb replaces both keys by the last one of the leaf. -/
theorem refreshAbove_restores_outdated :
    ∃ nodes' shape', Tree.refreshAbove outdated.nodes ⟨3⟩ = .ok nodes' ∧
      Tree.rewriteToRoot outdated.nodes ⟨3⟩ = .ok nodes' ∧
      nodes'.get? ⟨5⟩ = some (.branch ⟨⟨[60, 80], [⟨2⟩, ⟨3⟩]⟩, some ⟨6⟩⟩) ∧
      nodes'.get? ⟨6⟩ = some (.branch ⟨⟨[40, 80], [⟨4⟩, ⟨5⟩]⟩, none⟩) ∧
      ({ outdated with nodes := nodes' } : Tree Nat Nat).Coherent shape' ∧
      shape'.entries = outdatedShape.entries := by
  have hleaf : outdated.nodes.get? ⟨3⟩ =
      some (.leaf ⟨⟨[70, 80], [7, 8]⟩, none, some ⟨5⟩⟩) := by rfl
  obtain ⟨nodes', shape', hrefresh, hcoherent, hentries, -, hplain, -⟩ :=
    refreshAbove_restores outdated_connected hleaf (by decide) outdated_cachedExcept
  -- The climb is evaluated for the keys that it writes; that the tree is restored comes from the
  -- theorem.
  have hwritten : (Tree.refreshAbove outdated.nodes ⟨3⟩).map (fun nodes =>
      (nodes.get? ⟨5⟩, nodes.get? ⟨6⟩)) =
        .ok (some (.branch ⟨⟨[60, 80], [⟨2⟩, ⟨3⟩]⟩, some ⟨6⟩⟩),
          some (.branch ⟨⟨[40, 80], [⟨4⟩, ⟨5⟩]⟩, none⟩)) := by rfl
  rw [hrefresh] at hwritten
  obtain ⟨hbelow, habove⟩ := Prod.mk.inj (Except.ok.inj hwritten)
  exact ⟨nodes', shape', hrefresh, hplain, hbelow, habove, hcoherent, hentries⟩

end OrderedIndex
