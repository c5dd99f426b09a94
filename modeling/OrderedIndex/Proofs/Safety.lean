import OrderedIndex.Proofs.Structure
import OrderedIndex.Proofs.Traversals

/-!
# Operations without a fault

A fault would mean that an operation has met broken links, a node of the wrong kind or a position
out of range, or that a walk along the links has not ended within as many steps as there are slots.
No tree that can be reached by operations lets that happen.  What remains are the two faults that a
caller provokes: a fanout that is too small, and a read of the value under a key that is absent.
-/

namespace OrderedIndex

variable {K V : Type}

/-! ## Questions about one tree -/

/-- Every question about a tree is answered; only the value under a key has to be there. -/
structure Tree.Answers [Ord K] [Described K] [Described V] (tree : Tree K V) : Prop where
  height : ∃ levels, tree.height = .ok levels
  firstLeaf : ∃ h, tree.firstLeaf = .ok h
  lastLeaf : ∃ h, tree.lastLeaf = .ok h
  findLeaf (key : SearchKey K) : ∃ h, tree.findLeaf key.cut = .ok h
  leaves : ∃ leaves, tree.leaves = .ok leaves
  keys : ∃ keys, tree.keys = .ok keys
  values : ∃ values, tree.values = .ok values
  /-- The value under a key is answered if the key is present, and there is a fault if it is
  absent. -/
  get (key : SearchKey K) :
    tree.contains key.cut = .ok true ∧ (∃ v, tree.get key.cut = .ok v) ∨
      tree.contains key.cut = .ok false ∧ tree.get key.cut = .error .absentKey
  /-- A dialogue with cursors is answered, as long as each cursor that is asked for is there. -/
  traversal (lens : Lens) (commands : List Command) (hfit : Command.FitEach 1 commands) :
    ∃ traversal replies, Traversal.start tree = .ok traversal ∧
      traversal.run tree lens commands = .ok replies
  inlined : ∃ text, tree.inlined = .ok text
  spread : ∃ text, tree.spread = .ok text
  /-- With no more slots than there are handles, each slot in use has a handle of its own. -/
  handles (hslots : tree.nodes.slotCount ≤ Handle.maxIndex) (h : Handle)
    (hlive : (tree.nodes.get? h).isSome) : Handle.ofIndex h.index = .ok h
  /-- With a slot left to name, there is room for one more node. -/
  room (hslots : tree.nodes.slotCount < Handle.maxIndex) (node : Node K V) :
    tree.nodes.allocChecked node = .ok (tree.nodes.alloc node)

namespace Tree.Carries

variable [Ord K] {tree : Tree K V} {layout : Layout K V}

/-- The form of a tree lists the entries of its layout. -/
theorem form_eq [Described K] [Described V] (hc : tree.Carries layout) : tree.form =
    .ok (.mapping (layout.entries.map fun (k, v) => (Described.form k, Described.form v))) := by
  unfold form
  rw [toList_eq hc]
  rfl

/-- Two trees that carry layouts can be compared. -/
theorem equal_eq [BEq K] [BEq V] {other : Tree K V} {layout' : Layout K V}
    (hc : tree.Carries layout) (hc' : other.Carries layout') : ∃ b, tree.equal other = .ok b :=
  ⟨_, equal_eq_beq hc hc'⟩

/-- A tree that carries a layout answers every question. -/
theorem answers [Std.TransOrd K] [Described K] [Described V] (hc : tree.Carries layout) :
    tree.Answers where
  height := ⟨_, height_eq hc.shows hc.populated⟩
  firstLeaf := by
    obtain ⟨q, leaf, -, -, hfirst⟩ := firstLeaf_eq hc.shows hc.populated
    exact ⟨leaf.handle, hfirst⟩
  lastLeaf := by
    obtain ⟨q, leaf, -, -, hlast⟩ := lastLeaf_eq hc.shows hc.populated
    exact ⟨leaf.handle, hlast⟩
  findLeaf key := by
    obtain ⟨q, leaf, -, -, hfind⟩ := findLeaf_eq key.agrees hc.shows hc.populated hc.sound.exact
      hc.sound.ascending
    exact ⟨leaf.handle, hfind⟩
  leaves := by
    obtain ⟨leaves, hleaves, -⟩ := hc.leaves_eq
    exact ⟨leaves, hleaves⟩
  keys := ⟨_, keys_eq hc⟩
  values := ⟨_, values_eq hc⟩
  get key := by
    -- The read of a value and the question whether it is there find the same entry.
    rw [contains_eq key.agrees hc, get_eq key.agrees hc]
    cases Reference.find? key.cut layout.entries with
    | none => exact .inr ⟨rfl, rfl⟩
    | some v => exact .inl ⟨rfl, v, rfl⟩
  traversal lens commands hfit := hc.traversal_answers lens hfit
  inlined := by
    unfold Tree.inlined
    rw [hc.form_eq]
    exact ⟨_, rfl⟩
  spread := by
    unfold Tree.spread
    rw [hc.form_eq]
    exact ⟨_, rfl⟩
  handles hslots h hlive := by
    obtain ⟨node, hnode⟩ := Option.isSome_iff_exists.1 hlive
    have hlt : h.index < tree.nodes.slotCount := Arena.index_lt_of_get? hnode
    -- A live slot is one of those that there are, so its index can be named.
    exact Handle.ofIndex_eq_ok_iff.2 ⟨Nat.le_of_lt (Nat.lt_of_lt_of_le hlt hslots), rfl⟩
  room hslots node := Arena.allocChecked_of_room hslots node

end Tree.Carries

/-! ## Every run -/

section Runs

variable [Ord K] [Std.TransOrd K] [Described K] [Described V] [BEq K] [BEq V]

/-- Nothing but a small fanout and a read of an absent value provokes a fault.  A fanout is refused
if it is below 3.  With any other fanout, every run of operations ends without a fault, and so does
every question about the tree it has led to, a comparison with another tree that can be reached
included. -/
theorem run_answers (max : Nat) (operations : List (Operation K V)) :
    max < 3 ∧ Fanout.ofMax max = .error .fanoutTooSmall ∨
    ∃ fanout answers session, Fanout.ofMax max = .ok fanout ∧
      (Session.start fanout).run operations = .ok (answers, session) ∧ session.tree.Answers ∧
      ∀ (fanout' : Fanout) (operations' : List (Operation K V)), ∃ answers' session' b,
        (Session.start fanout').run operations' = .ok (answers', session') ∧
          session.tree.equal session'.tree = .ok b := by
  rcases Nat.lt_or_ge max 3 with hsmall | hlarge
  · exact .inl ⟨hsmall, Fanout.ofMax_eq_error hsmall⟩
  · refine .inr ?_
    obtain ⟨session, layout, hrun, hs, -⟩ :=
      Session.run_eq (Session.start_carries ⟨max, hlarge⟩) operations
    have hc : session.tree.Carries layout := hs.tree
    -- All that is asked of the tree, and of the other one, is answered from their layouts.
    refine ⟨⟨max, hlarge⟩, _, session, Fanout.ofMax_eq_ok hlarge, hrun, hc.answers, ?_⟩
    intro fanout' operations'
    obtain ⟨session', layout', hrun', hs', -⟩ :=
      Session.run_eq (Session.start_carries fanout') operations'
    obtain ⟨b, hequal⟩ := hc.equal_eq (hs'.tree)
    exact ⟨_, session', b, hrun', hequal⟩

/-- No step of a run with the smallest fanout is a fault, although it divides a branch, borrows a
child, merges siblings, lets the tree collapse and removes a key that is absent. -/
theorem run_answers_smallest :
    ∃ (answers : List (Answer Nat Nat)) (session : Session Nat Nat),
      (Session.start .standard).run growThenShrink = .ok (answers, session) ∧
      answers.getLast? = some (.checked (.error .notFound)) ∧
      [.split ⟨2⟩ ⟨5⟩ false 2 2, .borrowed .right ⟨2⟩ ⟨5⟩ 2, .merged ⟨2⟩ ⟨5⟩ 3, .collapsed ⟨2⟩ 2] ⊆
        session.journal ∧
      session.tree.Answers := by
  rcases run_answers (K := Nat) (V := Nat) 3 growThenShrink with
    ⟨hsmall, -⟩ | ⟨fanout, answers, session, hfanout, hrun, hanswers, -⟩
  · exact absurd hsmall (by decide)
  · obtain rfl : Fanout.standard = fanout := Except.ok.inj hfanout
    -- What the run is for is evaluated; that nothing faults comes from the theorem.
    have hlast : ((Session.start .standard).run growThenShrink).map
        (fun result => result.1.getLast?) = .ok (some (.checked (.error .notFound))) := by rfl
    have hevents : ((Session.start .standard).run growThenShrink).map
        (fun result => decide ([.split ⟨2⟩ ⟨5⟩ false 2 2, .borrowed .right ⟨2⟩ ⟨5⟩ 2,
          .merged ⟨2⟩ ⟨5⟩ 3, .collapsed ⟨2⟩ 2] ⊆ result.2.journal)) = .ok true := by
      decide +kernel
    rw [hrun] at hlast hevents
    exact ⟨answers, session, hrun, Except.ok.inj hlast, of_decide_eq_true (Except.ok.inj hevents),
      hanswers⟩

end Runs

end OrderedIndex
