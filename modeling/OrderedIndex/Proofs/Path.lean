import OrderedIndex.Proofs.Layout
import OrderedIndex.Handle

/-!
# Paths

A path leads from a subtree up to the root of a layout: at each level a frame, which is a branch
with a gap where the subtree below belongs.  Filling a path with a subtree gives the whole layout,
and what is read off the layout falls in two parts, one of the path and one of the subtree.  So a
climb along the path changes a subtree and its frame at a time, and leaves the rest alone.
-/

namespace OrderedIndex

variable {K V A : Type} {n : Nat}

/-- A branch with a gap among its children. -/
structure Frame (K A : Type) where
  handle : Handle
  next : Option Handle
  /-- The children before the gap, with their keys. -/
  before : List (K × A)
  /-- The key that is cached for what belongs in the gap. -/
  key : K
  /-- The children behind the gap, with their keys. -/
  after : List (K × A)

namespace Frame

variable (f : Frame K A)

/-- The branch with some pairs in place of the gap and its key. -/
def fill (slots : List (K × A)) : Block K A := ⟨f.handle, f.next, f.before ++ slots ++ f.after⟩

/-- The branch with a child in the gap. -/
def plug (a : A) : Block K A := ⟨f.handle, f.next, f.before ++ (f.key, a) :: f.after⟩

/-- The branch with another key cached for what belongs in the gap. -/
def rekey (k : K) : Frame K A := { f with key := k }

/-- The last key of the branch. -/
def maxKey? : Option K := (f.before.map Prod.fst ++ f.key :: f.after.map Prod.fst).getLast?

/-- The number of children with one in the gap. -/
def count : Nat := f.before.length + 1 + f.after.length

/-- The child next to the gap on the given side, with its key. -/
def beside (f : Frame K A) : Side → Option (K × A)
  | .left => f.before.getLast?
  | .right => f.after.head?

/-- The branch node with the child of the given handle in the gap. -/
def toBranch (parent : Option Handle) (hole : Handle) (f : Frame K (Block K A)) : Branch K :=
  ⟨⟨f.before.map Prod.fst ++ f.key :: f.after.map Prod.fst,
    f.before.map (fun slot => slot.2.handle) ++ hole :: f.after.map fun slot => slot.2.handle⟩,
    parent⟩

@[simp] theorem handle_rekey (k : K) : (f.rekey k).handle = f.handle := rfl

@[simp] theorem before_rekey (k : K) : (f.rekey k).before = f.before := rfl

@[simp] theorem after_rekey (k : K) : (f.rekey k).after = f.after := rfl

@[simp] theorem count_rekey (k : K) : (f.rekey k).count = f.count := rfl

@[simp] theorem maxKey?_plug (a : A) : (f.plug a).maxKey? = f.maxKey? := by
  simp [plug, maxKey?, Block.maxKey?]

theorem isSome_maxKey? : f.maxKey?.isSome := by simp [maxKey?]

/-- Where there are no children behind the gap, the key in it is the last one. -/
theorem maxKey?_of_nil {f : Frame K A} (hafter : f.after = []) : f.maxKey? = some f.key := by
  simp [maxKey?, hafter]

/-- Where there are children behind the gap, the key in it is not the last one. -/
theorem maxKey?_rekey {f : Frame K A} (hafter : f.after ≠ []) (k : K) :
    (f.rekey k).maxKey? = f.maxKey? := by
  obtain ⟨slot, after, hcons⟩ := List.exists_cons_of_ne_nil hafter
  simp [maxKey?, rekey, hcons]

@[simp] theorem count_plug (a : A) : (f.plug a).count = f.count := by
  simp [plug, count, Block.count]
  omega

theorem count_fill (slots : List (K × A)) :
    (f.fill slots).count = f.before.length + slots.length + f.after.length := by
  simp [fill, Block.count, Nat.add_assoc]

@[simp] theorem handle_fill (slots : List (K × A)) : (f.fill slots).handle = f.handle := rfl

@[simp] theorem handle_plug (a : A) : (f.plug a).handle = f.handle := rfl

@[simp] theorem toBranch_plug {parent : Option Handle} (f : Frame K (Block K A)) (b : Block K A) :
    (f.plug b).toBranch parent = f.toBranch parent b.handle := by
  simp [plug, toBranch, Block.toBranch]

/-- A branch has each of its children in the gap of some frame. -/
theorem exists_plug_eq {b : Block K A} {slot : K × A} (hslot : slot ∈ b.pairs) :
    ∃ f : Frame K A, f.key = slot.1 ∧ f.plug slot.2 = b := by
  obtain ⟨before, after, hpairs⟩ := List.append_of_mem hslot
  exact ⟨⟨b.handle, b.next, before, slot.1, after⟩, rfl, by rw [plug, ← hpairs]⟩

/-- A branch has each child beside the gap of a frame in the gap of another frame, which is at
another position. -/
theorem exists_beside {f : Frame K A} {slot : K × A} (hslot : slot ∈ f.before ++ f.after) (a : A) :
    ∃ g : Frame K A, g.handle = f.handle ∧ g.key = slot.1 ∧
      g.before.length ≠ f.before.length ∧ g.plug slot.2 = f.plug a := by
  rcases List.mem_append.1 hslot with hbefore | hafter
  · -- The other frame has its gap at the child, and the old gap among the children beside it.
    obtain ⟨before, after, hsplit⟩ := List.append_of_mem hbefore
    refine ⟨⟨f.handle, f.next, before, slot.1, after ++ (f.key, a) :: f.after⟩, rfl, rfl, ?_, ?_⟩
    · simp [hsplit]
    · simp [plug, hsplit]
  · obtain ⟨before, after, hsplit⟩ := List.append_of_mem hafter
    refine ⟨⟨f.handle, f.next, f.before ++ (f.key, a) :: before, slot.1, after⟩, rfl, rfl, ?_, ?_⟩
    · simp
    · simp [plug, hsplit]

section Plug

variable {fanout : Fanout} (f : Frame K (Subtree K V n)) (b : Subtree K V n)

theorem cells_plug {parent : Option Handle} : Block.cells (n := n + 1) parent (f.plug b) =
    (f.handle, .branch (f.toBranch parent b.handle)) ::ₘ
      (cellsEach (some f.handle) f.before + cellsEach (some f.handle) f.after) +
        b.cells (some f.handle) := by
  rw [← toBranch_plug]
  -- Multisets do not tell the children before the gap from those behind it.
  have heach : cellsEach (some f.handle) (f.before ++ (f.key, b) :: f.after) =
      cellsEach (some f.handle) f.before + cellsEach (some f.handle) f.after +
        b.cells (some f.handle) := by
    simp only [cellsEach_append, cellsEach_cons]
    abel
  rw [Multiset.cons_add, ← heach]
  rfl

theorem handles_plug : Block.handles (n := n + 1) (f.plug b) =
    f.handle ::ₘ (handlesEach f.before + handlesEach f.after) + b.handles := by
  have heach : handlesEach (f.before ++ (f.key, b) :: f.after) =
      handlesEach f.before + handlesEach f.after + b.handles := by
    simp only [handlesEach_append, handlesEach_cons]
    abel
  rw [Multiset.cons_add, ← heach]
  rfl

theorem mem_handles_plug {h : Handle} (hh : h ∈ b.handles) :
    h ∈ Block.handles (n := n + 1) (f.plug b) := by
  rw [handles_plug]
  exact Multiset.mem_add.2 (.inr hh)

theorem leaves_plug : Block.leaves (n := n + 1) (f.plug b) =
    leavesEach f.before ++ b.leaves ++ leavesEach f.after := by
  show leavesEach (f.before ++ (f.key, b) :: f.after) = _
  simp

theorem exact_plug : Block.Exact (n := n + 1) (f.plug b) ↔
    (b.maxKey? = some f.key ∧ (ExactEach f.before ∧ ExactEach f.after)) ∧ b.Exact := by
  show ExactEach (f.before ++ (f.key, b) :: f.after) ↔ _
  rw [exactEach_append, exactEach_cons]
  tauto

theorem exact_fill {slots : List (K × Subtree K V n)} : Block.Exact (n := n + 1) (f.fill slots) ↔
    ExactEach slots ∧ ExactEach f.before ∧ ExactEach f.after := by
  show ExactEach (f.before ++ slots ++ f.after) ↔ _
  rw [exactEach_append, exactEach_append]
  tauto

theorem filledBelow_fill {slots : List (K × Subtree K V n)} :
    Block.FilledBelow (n := n + 1) fanout (f.fill slots) ↔
      FilledEach fanout slots ∧ FilledEach fanout f.before ∧ FilledEach fanout f.after := by
  show FilledEach fanout (f.before ++ slots ++ f.after) ↔ _
  rw [filledEach_append, filledEach_append]
  tauto

theorem filledBelow_plug : Block.FilledBelow (n := n + 1) fanout (f.plug b) ↔
    (FilledEach fanout f.before ∧ FilledEach fanout f.after) ∧
      (fanout.min ≤ b.count ∧ b.count ≤ fanout.max) ∧ b.FilledBelow fanout := by
  show FilledEach fanout (f.before ++ (f.key, b) :: f.after) ↔ _
  rw [filledEach_append, filledEach_cons]
  tauto

end Plug

end Frame

/-- A node on the way from a leaf up to the root: what one sees of it and of the nodes beside it
without a look at their keys. -/
structure Rung where
  node : Handle
  /-- The number of its keys. -/
  keys : Nat
  /-- The sibling to the left and the number of its keys. -/
  left : Option (Handle × Nat)
  /-- The sibling to the right and the number of its keys. -/
  right : Option (Handle × Nat)
  deriving DecidableEq

/-- What one sees of a child. -/
def Block.gauge (slot : K × Block K A) : Handle × Nat := (slot.2.handle, slot.2.count)

/-- What one sees of the block of the given handle and number of pairs in the gap of a frame. -/
def Frame.rung (f : Frame K (Block K A)) (hole : Handle) (count : Nat) : Rung :=
  ⟨hole, count, (f.beside .left).map Block.gauge, (f.beside .right).map Block.gauge⟩

/-- The way from a subtree with `n` levels below its topmost block up to the root. -/
inductive Path (K V : Type) : Nat → Type where
  /-- The subtree is the whole tree. -/
  | top {n : Nat} : Path K V n
  /-- The subtree belongs in the gap of a frame. -/
  | step {n : Nat} (frame : Frame K (Subtree K V n)) (rest : Path K V (n + 1)) : Path K V n

namespace Path

/-- The layout with a subtree at the end of a path. -/
def fill : {n : Nat} → Path K V n → Subtree K V n → Layout K V
  | n, .top, b => ⟨n, b⟩
  | _, .step f rest, b => rest.fill (f.plug b)

/-- The number of frames. -/
def length : {n : Nat} → Path K V n → Nat
  | _, .top => 0
  | _, .step _ rest => rest.length + 1

/-- The parent of the block at the end of a path. -/
def parent : {n : Nat} → Path K V n → Option Handle
  | _, .top => none
  | _, .step f _ => some f.handle

@[simp] theorem parent_top : (top : Path K V n).parent = none := rfl

@[simp] theorem parent_step (f : Frame K (Subtree K V n)) (rest : Path K V (n + 1)) :
    (step f rest).parent = some f.handle := rfl

/-- The root, where `hole` is the handle of the block at the end of the path. -/
def rootHandle (hole : Handle) : {n : Nat} → Path K V n → Handle
  | _, .top => hole
  | _, .step f rest => rest.rootHandle f.handle

/-- The cells beside and above the subtree at the end of a path, of which `hole` is the handle. -/
def cells (hole : Handle) : {n : Nat} → Path K V n → Multiset (Handle × Node K V)
  | _, .top => 0
  | _, .step f rest => (f.handle, .branch (f.toBranch rest.parent hole)) ::ₘ
      (cellsEach (some f.handle) f.before + cellsEach (some f.handle) f.after +
        rest.cells f.handle)

/-- The handles beside and above the subtree at the end of a path. -/
def handles : {n : Nat} → Path K V n → Multiset Handle
  | _, .top => 0
  | _, .step f rest => f.handle ::ₘ (handlesEach f.before + handlesEach f.after + rest.handles)

/-- The leaves to the left of the end of a path. -/
def left : {n : Nat} → Path K V n → List (Block K V)
  | _, .top => []
  | _, .step f rest => rest.left ++ leavesEach f.before

/-- The leaves to the right of the end of a path. -/
def right : {n : Nat} → Path K V n → List (Block K V)
  | _, .top => []
  | _, .step f rest => leavesEach f.after ++ rest.right

/-- The nodes on the way from the end of a path up to the root, where `hole` is the handle of the
block at the end of the path and `count` the number of its pairs. -/
def rungs (hole : Handle) (count : Nat) : {n : Nat} → Path K V n → List Rung
  | _, .top => [⟨hole, count, none, none⟩]
  | _, .step f rest => f.rung hole count :: rest.rungs f.handle f.count

/-- The cached keys along a path are exact, where `largest` is the last key of the subtree at its
end. -/
def Exact (largest : Option K) : {n : Nat} → Path K V n → Prop
  | _, .top => True
  | _, .step f rest => largest = some f.key ∧ (ExactEach f.before ∧ ExactEach f.after) ∧
      rest.Exact f.maxKey?

/-- Whether a block of that many pairs at the end of a path is filled within the bounds of the
fanout.  At the top it is the root, which has no lower bound as a leaf. -/
def Admits (fanout : Fanout) (count : Nat) : {n : Nat} → Path K V n → Prop
  | n, .top => count ≤ fanout.max ∧ (n ≠ 0 → 2 ≤ count)
  | _, .step _ _ => fanout.min ≤ count ∧ count ≤ fanout.max

/-- The blocks beside and above the end of a path are filled within the bounds of the fanout. -/
def Filled (fanout : Fanout) : {n : Nat} → Path K V n → Prop
  | _, .top => True
  | _, .step f rest => (FilledEach fanout f.before ∧ FilledEach fanout f.after) ∧
      rest.Admits fanout f.count ∧ rest.Filled fanout

/-! ## Filled paths -/

section Fill

variable (p : Path K V n) (b : Subtree K V n)

theorem levels_fill : (p.fill b).levels = n + p.length := by
  -- By induction up the path: each frame adds a level.
  induction p with
  | top => rfl
  | step f rest ih =>
    have h := ih (f.plug b)
    simp only [fill, length]
    omega

theorem root_handle_fill : (p.fill b).root.handle = p.rootHandle b.handle := by
  induction p with
  | top => rfl
  | step f rest ih => exact ih (f.plug b)

theorem cells_fill : (p.fill b).cells = p.cells b.handle + b.cells p.parent := by
  induction p with
  | top => simp [fill, cells, parent, Layout.cells]
  | step f rest ih =>
    -- What the rest has to say about the plugged branch falls in its own cell and those of its
    -- children, of which the one in the gap is `b`.
    simp only [fill, ih, Frame.cells_plug, cells, parent, Frame.handle_plug,
      ← Multiset.singleton_add]
    abel

/-- The cells of some children of a branch, that of the branch itself, and all others. -/
theorem cells_fill_slots (rest : Path K V (n + 1)) (f : Frame K (Subtree K V n))
    (slots : List (K × Subtree K V n)) : (rest.fill (f.fill slots)).cells =
      cellsEach (some f.handle) slots +
        ((f.handle, .branch (Block.toBranch rest.parent (f.fill slots))) ::ₘ
          (cellsEach (some f.handle) f.before + cellsEach (some f.handle) f.after +
            rest.cells f.handle)) := by
  rw [cells_fill, Block.cells_branch, Frame.handle_fill]
  simp only [Frame.fill, cellsEach_append, ← Multiset.singleton_add]
  abel

/-- The block at the end of a path has its cell in the layout. -/
theorem mem_cells_fill : (b.handle, b.node p.parent) ∈ (p.fill b).cells := by
  rw [cells_fill]
  exact Multiset.mem_add.2 (.inr (Block.mem_cells_self b))

/-- The children beside a gap have their cells in the layout. -/
theorem mem_cells_sibling {f : Frame K (Subtree K V n)} {rest : Path K V (n + 1)}
    {slot : K × Subtree K V n} (hslot : slot ∈ f.before ++ f.after) :
    (slot.2.handle, slot.2.node (some f.handle)) ∈ ((step f rest).fill b).cells := by
  have hle : slot.2.cells (some f.handle) ≤ cellsEach (some f.handle) (f.before ++ f.after) :=
    Block.cells_le_cellsEach hslot
  have hmem := Multiset.mem_of_le hle (Block.mem_cells_self slot.2)
  rw [cellsEach_append] at hmem
  rw [cells_fill, cells, Multiset.cons_add, add_assoc]
  exact Multiset.mem_cons_of_mem (Multiset.mem_add.2 (.inl hmem))

/-- The children of a branch have their cells in the layout. -/
theorem mem_cells_child (rest : Path K V (n + 1)) (f : Frame K (Subtree K V n))
    {slots : List (K × Subtree K V n)} {slot : K × Subtree K V n} (hslot : slot ∈ slots) :
    (slot.2.handle, slot.2.node (some f.handle)) ∈ (rest.fill (f.fill slots)).cells := by
  have hle : slot.2.cells (some f.handle) ≤ cellsEach (some f.handle) slots :=
    Block.cells_le_cellsEach hslot
  rw [cells_fill_slots]
  exact Multiset.mem_add.2 (.inl (Multiset.mem_of_le hle slot.2.mem_cells_self))

theorem handles_fill : (p.fill b).handles = p.handles + b.handles := by
  induction p with
  | top => simp [fill, handles, Layout.handles]
  | step f rest ih =>
    simp only [fill, ih, Frame.handles_plug, handles, ← Multiset.singleton_add]
    abel

theorem leaves_fill : (p.fill b).leaves = p.left ++ b.leaves ++ p.right := by
  -- By induction up the path: the leaves of a frame stand closer to the gap than those above it.
  induction p with
  | top => simp [fill, left, right, Layout.leaves]
  | step f rest ih => simp [fill, ih, Frame.leaves_plug, left, right]

theorem exact_fill : (p.fill b).root.Exact ↔ p.Exact b.maxKey? ∧ b.Exact := by
  induction p with
  | top => simp [fill, Exact]
  | step f rest ih =>
    -- The last key of the plugged branch is that of the frame, whatever is in the gap.
    simp only [fill, ih, Frame.exact_plug, Exact, Frame.maxKey?_plug]
    tauto

theorem filled_fill {fanout : Fanout} : (p.fill b).Filled fanout ↔
    p.Filled fanout ∧ p.Admits fanout b.count ∧ b.FilledBelow fanout := by
  induction p with
  | top =>
    -- At the top the block is the root, for which the bounds are those of a whole layout.
    simp only [fill, Filled, Admits, true_and]
    exact ⟨fun h => ⟨⟨h.le_max, h.two_le⟩, h.below⟩, fun h => ⟨h.2, h.1.1, h.1.2⟩⟩
  | step f rest ih =>
    simp only [fill, ih, Frame.filledBelow_plug, Filled, Admits, Frame.count_plug]
    tauto

end Fill

/-! ## The nodes along a path -/

section Rungs

variable {p : Path K V n} {hole : Handle} {count : Nat}

theorem length_rungs : (p.rungs hole count).length = p.length + 1 := by
  induction p generalizing hole count with
  | top => rfl
  | step f rest ih => simp [rungs, length, ih]

/-- The first node along a path is that at its end. -/
theorem exists_rungs_eq_cons (p : Path K V n) (hole : Handle) (count : Nat) :
    ∃ rung above, p.rungs hole count = rung :: above ∧ rung.node = hole ∧ rung.keys = count := by
  cases p with
  | top => exact ⟨_, _, rfl, rfl, rfl⟩
  | step f rest => exact ⟨_, _, rfl, rfl, rfl⟩

theorem rungs_ne_nil : p.rungs hole count ≠ [] :=
  List.ne_nil_of_length_pos (length_rungs (p := p) ▸ Nat.succ_pos _)

end Rungs

/-- A path is no longer than there are cells beside it. -/
theorem length_le_card_cells (p : Path K V n) (hole : Handle) :
    p.length ≤ (p.cells hole).card := by
  induction p generalizing hole with
  | top => exact Nat.zero_le _
  | step f rest ih =>
    -- Each frame has a cell of its own.
    have hrest := ih f.handle
    simp only [length, cells, Multiset.card_cons, Multiset.card_add]
    omega

end Path

end OrderedIndex
