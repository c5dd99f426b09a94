import OrderedIndex.Key
import OrderedIndex.Proofs.Cursors
import OrderedIndex.Proofs.Updates

/-!
# Runs of operations

An ordered index is used by one operation after the other.  Each step keeps that the tree carries a
layout, that the entries of the layout are those of the reference, and that the events since the
last clear are a journal of it.  By induction every run from the empty tree keeps it as well, so
whatever is read off the layout is known of every tree that can be reached.
-/

namespace OrderedIndex

variable {K V : Type}

/-! ## Operations and their answers -/

/-- A key that can be looked for: a cut that agrees with the order of the stored keys. -/
structure SearchKey (K : Type) [Ord K] where
  cut : Cut K
  agrees : cut.Agrees

namespace SearchKey

/-- A key of the stored type. -/
def of [Ord K] [Std.TransOrd K] (key : K) : SearchKey K := ⟨.of key, Cut.agrees_of key⟩

theorem cut_of [Ord K] [Std.TransOrd K] (key k : K) : (of key).cut k = compare k key := rfl

/-- A key of another type, in the form `view` of which it is looked for. -/
def under {Q : Type} [Ord K] [Ord Q] [Std.TransOrd Q] (view : K → Q)
    (hview : ∀ a b, compare (view a) (view b) = compare a b) (key : Q) : SearchKey K :=
  ⟨.under view key, Cut.agrees_under hview key⟩

end SearchKey

/-- What an ordered index can be asked to do. -/
inductive Operation (K V : Type) [Ord K] where
  | insert (k : K) (v : V)
  | extend (entries : List (K × V))
  | remove (key : SearchKey K)
  | modify (key : SearchKey K) (v : V)
  /-- A search for a value, and a write over it where it is found. -/
  | write (key : SearchKey K) (v : V)
  | clear
  | search (key : SearchKey K)
  | contains (key : SearchKey K)
  | first
  | last
  | length
  | isEmpty
  /-- All entries, as a cursor passes them. -/
  | items

/-- What an operation answers. -/
inductive Answer (K V : Type) where
  | done
  | value (v : Option V)
  | checked (v : Except KeyError V)
  | flag (b : Bool)
  | count (n : Nat)
  | entry (entry : Option (K × V))
  | entries (entries : List (K × V))

/-- The events since the last clear, after an operation that has left some more. -/
def Operation.journal [Ord K] (before events : List Event) : Operation K V → List Event
  | .clear => events
  | _ => before ++ events

namespace Reference

variable [Ord K]

/-- What the reference answers, and its entries afterwards. -/
def perform (entries : List (K × V)) : Operation K V → Answer K V × List (K × V)
  | .insert k v => (.value (find? (.of k) entries), insert k v entries)
  | .extend more => (.done, insertMany more entries)
  | .remove key => (.checked (orNotFound (find? key.cut entries)), erase key.cut entries)
  | .modify key v => (.checked (orNotFound (find? key.cut entries)), replace key.cut v entries)
  | .write key v => (.value (find? key.cut entries), replace key.cut v entries)
  | .clear => (.done, [])
  | .search key => (.value (find? key.cut entries), entries)
  | .contains key => (.flag (find? key.cut entries).isSome, entries)
  | .first => (.entry entries.head?, entries)
  | .last => (.entry entries.getLast?, entries)
  | .length => (.count entries.length, entries)
  | .isEmpty => (.flag entries.isEmpty, entries)
  | .items => (.entries entries, entries)

/-- The answers of the reference to some operations in their order, and its entries afterwards. -/
def run (entries : List (K × V)) : List (Operation K V) → List (Answer K V) × List (K × V)
  | [] => ([], entries)
  | operation :: operations =>
    let (answer, entries) := perform entries operation
    let (answers, entries) := run entries operations
    (answer :: answers, entries)

end Reference

/-- The state of an index that is in use. -/
structure Session (K V : Type) where
  tree : Tree K V
  /-- The events since the tree was empty. -/
  journal : List Event

namespace Session

variable [Ord K]

/-- The session at the start. -/
def start (fanout : Fanout) : Session K V := ⟨.empty fanout, []⟩

/-- The session after an update, with the answer that is made of its result. -/
def update {R : Type} (session : Session K V) (operation : Operation K V) (answer : R → Answer K V)
    (outcome : Outcome K V R) : Answer K V × Session K V :=
  (answer outcome.result, ⟨outcome.tree, operation.journal session.journal outcome.events⟩)

/-- Does one operation. -/
def perform (session : Session K V) (operation : Operation K V)
    (calls : Refreshes K V := .written) : Except Fault (Answer K V × Session K V) :=
  match operation with
  | .insert k v => do
    return session.update operation .value (← session.tree.insert k v calls)
  | .extend entries => do
    return session.update operation (fun _ => .done) (← session.tree.extend entries calls)
  | .remove key => do
    return session.update operation .checked (← session.tree.remove key.cut calls)
  | .modify key v => do
    return session.update operation .checked (← session.tree.modify key.cut v)
  | .write key v => do
    return session.update operation .value (← session.tree.replace? key.cut v)
  | .clear =>
    return session.update operation (fun () => .done) ⟨(), session.tree.clear, []⟩
  | .search key => do return (.value (← session.tree.get? key.cut), session)
  | .contains key => do return (.flag (← session.tree.contains key.cut), session)
  | .first => do return (.entry (← session.tree.first?), session)
  | .last => do return (.entry (← session.tree.last?), session)
  | .length => return (.count session.tree.size, session)
  | .isEmpty => return (.flag session.tree.isEmpty, session)
  | .items => do return (.entries (← session.tree.toList), session)

/-- Does some operations in their order. -/
def run (session : Session K V) : List (Operation K V) → (calls : Refreshes K V := .written) →
    Except Fault (List (Answer K V) × Session K V)
  | [], _ => .ok ([], session)
  | operation :: operations, calls => do
    let (answer, session) ← session.perform operation calls
    let (answers, session) ← run session operations calls
    return (answer :: answers, session)

end Session

/-! ## Runs for the examples -/

/-- The first `n` tens are inserted in ascending order, each with its number. -/
def insertTens (n : Nat) : List (Operation Nat Nat) :=
  (List.range n).map fun i => .insert (10 * (i + 1)) (i + 1)

/-- Ten entries are added in their order, the first three removed, and the last of these once more,
in vain.  With three keys to a node, leaves and branches are divided on the way, borrow and are
merged, and the root changes each way. -/
def growThenShrink : List (Operation Nat Nat) :=
  [.extend ((List.range 10).map fun i => (i, i)), .remove (.of 0), .remove (.of 1), .remove (.of 2),
    .remove (.of 2)]

/-! ## What every step keeps -/

namespace Session

variable [Ord K]

/-- The tree of a session carries a layout, and the events since the tree was empty lead to it. -/
def Carries (fanout : Fanout) (session : Session K V) (layout : Layout K V) : Prop :=
  (Tree.empty fanout).Advances .initial session.journal session.tree layout

variable {fanout : Fanout} {session : Session K V} {layout layout' : Layout K V}

theorem start_carries (fanout : Fanout) : (start fanout : Session K V).Carries fanout .initial :=
  .refl (Tree.empty_carries fanout)

namespace Carries

theorem tree (hs : session.Carries fanout layout) : session.tree.Carries layout :=
  Tree.Advances.carries hs

theorem fanout_eq (hs : session.Carries fanout layout) : session.tree.fanout = fanout :=
  Tree.Advances.fanout hs

theorem journals (hs : session.Carries fanout layout) :
    Layout.initial.Journals fanout session.journal layout :=
  Tree.Advances.journals hs

/-- An update goes on with the journal. -/
theorem advance {tree : Tree K V} {events : List Event} (hs : session.Carries fanout layout)
    (ha : session.tree.Advances layout events tree layout') :
    (⟨tree, session.journal ++ events⟩ : Session K V).Carries fanout layout' :=
  Tree.Advances.trans hs ha

end Carries

variable [Std.TransOrd K]

/-- One operation answers what the reference answers, and keeps up with it. -/
theorem perform_eq (hs : session.Carries fanout layout) (operation : Operation K V) :
    ∃ session' layout',
      session.perform operation =
        .ok ((Reference.perform layout.entries operation).1, session') ∧
      session'.Carries fanout layout' ∧
      layout'.entries = (Reference.perform layout.entries operation).2 := by
  have hc : session.tree.Carries layout := hs.tree
  -- An update advances the tree, and the journal with it; a question leaves the session as it is.
  cases operation with
  | insert k v =>
    obtain ⟨outcome, layout', hinsert, hresult, hadvances, hentries⟩ := Tree.insert_eq hc k v
    refine ⟨_, layout', ?_, hs.advance hadvances, hentries⟩
    rw [perform, hinsert, ok_bind, update, hresult]
    rfl
  | extend entries =>
    obtain ⟨outcome, layout', hextend, hadvances, hentries⟩ := Tree.extend_eq hc entries
    refine ⟨_, layout', ?_, hs.advance hadvances, hentries⟩
    rw [perform, hextend]
    rfl
  | remove key =>
    obtain ⟨outcome, layout', hremove, hresult, hadvances, hentries⟩ := Tree.remove_eq key.agrees hc
    refine ⟨_, layout', ?_, hs.advance hadvances, hentries⟩
    rw [perform, hremove, ok_bind, update, hresult]
    rfl
  | modify key v =>
    obtain ⟨outcome, layout', hmodify, hresult, hadvances, hentries⟩ :=
      Tree.modify_eq key.agrees hc v
    refine ⟨_, layout', ?_, hs.advance hadvances, hentries⟩
    rw [perform, hmodify, ok_bind, update, hresult]
    rfl
  | write key v =>
    obtain ⟨outcome, layout', hwrite, hresult, hadvances, hentries⟩ :=
      Tree.replace?_eq key.agrees hc v
    refine ⟨_, layout', ?_, hs.advance hadvances, hentries⟩
    rw [perform, hwrite, ok_bind, update, hresult]
    rfl
  | clear =>
    -- The journal starts again with the tree.
    have hfanout : session.tree.fanout = fanout := hs.fanout_eq
    refine ⟨⟨session.tree.clear, []⟩, .initial, rfl, ?_, rfl⟩
    have hclear : session.tree.clear = .empty fanout := by
      rw [← hfanout]
      rfl
    rw [hclear]
    exact start_carries fanout
  | search key =>
    refine ⟨session, layout, ?_, hs, rfl⟩
    rw [perform, Tree.get?_eq key.agrees hc]
    rfl
  | contains key =>
    refine ⟨session, layout, ?_, hs, rfl⟩
    rw [perform, Tree.contains_eq key.agrees hc]
    rfl
  | first =>
    refine ⟨session, layout, ?_, hs, rfl⟩
    rw [perform, Tree.first?_eq hc]
    rfl
  | last =>
    refine ⟨session, layout, ?_, hs, rfl⟩
    rw [perform, Tree.last?_eq hc]
    rfl
  | length =>
    refine ⟨session, layout, ?_, hs, rfl⟩
    rw [perform, hc.size]
    rfl
  | isEmpty =>
    refine ⟨session, layout, ?_, hs, rfl⟩
    rw [perform, Tree.isEmpty, hc.size]
    cases layout.entries with
    | nil => rfl
    | cons entry entries => rfl
  | items =>
    refine ⟨session, layout, ?_, hs, rfl⟩
    rw [perform, Tree.toList_eq hc]
    rfl

/-- Some operations in their order answer what the reference answers, and keep up with it. -/
theorem run_eq (hs : session.Carries fanout layout) (operations : List (Operation K V)) :
    ∃ session' layout',
      session.run operations = .ok ((Reference.run layout.entries operations).1, session') ∧
      session'.Carries fanout layout' ∧
      layout'.entries = (Reference.run layout.entries operations).2 := by
  -- What an operation leaves carries a layout again, from which the next one starts.
  induction operations generalizing session layout with
  | nil => exact ⟨session, layout, rfl, hs, rfl⟩
  | cons operation operations ih =>
    obtain ⟨session₁, layout₁, hperform, hs₁, hentries₁⟩ := perform_eq hs operation
    obtain ⟨session₂, layout₂, hrun, hs₂, hentries₂⟩ := ih hs₁
    rw [hentries₁] at hrun hentries₂
    refine ⟨session₂, layout₂, ?_, hs₂, hentries₂⟩
    simp only [run, hperform, ok_bind, hrun]
    rfl

end Session

/-! ## Refinement -/

section Refinement

variable [Ord K] [Std.TransOrd K]

/-- An index refines the reference.  For every fanout and every run of operations from the empty
tree, each operation answers what the reference answers, and what a cursor passes afterwards are the
entries of the reference, with the keys as they were stored first.  The keys of the reference
ascend. -/
theorem run_refines (fanout : Fanout) (operations : List (Operation K V)) :
    ∃ session, (Session.start fanout).run operations =
        .ok ((Reference.run [] operations).1, session) ∧
      session.tree.fanout = fanout ∧
      session.tree.toList = .ok (Reference.run [] operations).2 ∧
      session.tree.size = (Reference.run [] operations).2.length ∧
      Ascending ((Reference.run [] operations).2.map Prod.fst) := by
  obtain ⟨session, layout, hrun, hs, hentries⟩ :=
    Session.run_eq (Session.start_carries fanout) operations
  have hc : session.tree.Carries layout := hs.tree
  refine ⟨session, hrun, hs.fanout_eq, ?_, ?_, ?_⟩
  · rw [Tree.toList_eq hc, hentries]
    rfl
  · rw [hc.size, hentries]
    rfl
  · have hasc := hc.sound.ascending
    rw [hentries] at hasc
    exact hasc

/-- An overwritten key keeps the spelling that was stored first, and one that is inserted again
after its removal has the new spelling. -/
theorem run_refines_spelling :
    ∃ session : Session Caseless Nat,
      (Session.start .standard).run [.insert ⟨"a"⟩ 1, .insert ⟨"A"⟩ 2, .items, .remove (.of ⟨"A"⟩),
          .insert ⟨"A"⟩ 3] =
        .ok ([.value none, .value (some 1), .entries [(⟨"a"⟩, 2)], .checked (.ok 2), .value none],
          session) ∧
      session.tree.toList = .ok [(⟨"A"⟩, 3)] := by
  -- The reference is followed for any two spellings, so that none of them is folded on the way.
  have hreference (a b : Caseless) (hequal : compare a b = .eq) :
      Reference.run ([] : List (Caseless × Nat)) [.insert a 1, .insert b 2, .items, .remove (.of b),
          .insert b 3] =
        ([.value none, .value (some 1), .entries [(a, 2)], .checked (.ok 2), .value none],
          [(b, 3)]) := by
    simp [Reference.run, Reference.perform, Reference.find?, Reference.insert, Reference.erase,
      Reference.orNotFound, SearchKey.cut_of, Cut.of, hequal]
  have hequal : compare (⟨"a"⟩ : Caseless) ⟨"A"⟩ = .eq :=
    Caseless.compare_eq_iff.2 (String.toList_inj.1 (by decide +kernel))
  obtain ⟨session, hrun, -, hitems, -, -⟩ := run_refines (K := Caseless) (V := Nat) .standard
    [.insert ⟨"a"⟩ 1, .insert ⟨"A"⟩ 2, .items, .remove (.of ⟨"A"⟩), .insert ⟨"A"⟩ 3]
  rw [hreference _ _ hequal] at hrun hitems
  exact ⟨session, hrun, hitems⟩

end Refinement

/-! ## Journals of runs -/

/-- An outline is that of a tree: its live slots are the slots in use, and root and height are those
of the tree. -/
structure Tree.HasOutline (tree : Tree K V) (outline : Outline) : Prop where
  live (h : Handle) : h ∈ outline.live ↔ (tree.nodes.get? h).isSome
  root : tree.root = outline.root
  height : tree.height = .ok outline.height

theorem Tree.Carries.hasOutline [Ord K] {tree : Tree K V} {layout : Layout K V}
    (hc : tree.Carries layout) : tree.HasOutline layout.outline where
  live h := by
    have hlive := hc.shows.holds.isSome_get?_iff h
    rw [Layout.map_fst_cells] at hlive
    rw [hlive]
    exact Multiset.mem_toFinset
  root := hc.shows.root
  height := Tree.height_eq hc.shows hc.populated

/-- The events are an exact journal of the structure.  For every fanout and every run of operations,
the events since the last clear can be replayed on the outline of an empty tree, what comes out is
the outline of the tree, and the numbers of keys in the events are those that the fanout
determines. -/
theorem run_journals [Ord K] [Std.TransOrd K] (fanout : Fanout)
    (operations : List (Operation K V)) :
    ∃ answers session outline, (Session.start fanout).run operations = .ok (answers, session) ∧
      Outline.initial.replay session.journal = some outline ∧ session.tree.HasOutline outline ∧
      ∀ event ∈ session.journal, event.Counts fanout := by
  obtain ⟨session, layout, hrun, hs, -⟩ :=
    Session.run_eq (Session.start_carries fanout) operations
  have hc : session.tree.Carries layout := hs.tree
  have hj := hs.journals
  exact ⟨_, session, layout.outline, hrun, hj.replay, hc.hasOutline, hj.counts⟩

/-- The fourth entry divides the only leaf of a tree with three keys to a node. -/
theorem run_journals_divided :
    ∃ (session : Session Nat Nat) (outline : Outline),
      session.journal = [.split ⟨0⟩ ⟨1⟩ true 2 2, .promoted ⟨2⟩ 2] ∧
      Outline.initial.replay session.journal = some outline ∧ session.tree.HasOutline outline := by
  obtain ⟨answers, session, outline, hrun, hreplay, houtline, -⟩ :=
    run_journals .standard (insertTens 4)
  -- The run is evaluated for the events; that they are a journal comes from the theorem.
  have hjournal : ((Session.start .standard).run (insertTens 4)).map (fun r => r.2.journal) =
      .ok [.split ⟨0⟩ ⟨1⟩ true 2 2, .promoted ⟨2⟩ 2] := by rfl
  rw [hrun] at hjournal
  exact ⟨session, outline, Except.ok.inj hjournal, hreplay, houtline⟩

end OrderedIndex
