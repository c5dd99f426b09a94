import OrderedIndex.Proofs.Operations
import OrderedIndex.Tree.Traversal

/-!
# Traversals

A traversal is a dialogue with some cursors.  Its reference is the same dialogue with lists: where
there is a cursor over the tree there is the list of the entries before it, and each command takes
from the current list what it takes from the cursor.  Both answer the same to any commands, on every
tree that can be reached by operations.
-/

namespace OrderedIndex

variable {K V : Type}

/-! ## The reference -/

/-- The entries before each cursor of a traversal, and the number of the current one. -/
structure Outlook (K V : Type) where
  views : List (List (K × V))
  current : Nat

namespace Outlook

/-- The entries before the current cursor. -/
def view (outlook : Outlook K V) : Except Fault (List (K × V)) :=
  orFault (.outOfBounds outlook.views.length outlook.current) outlook.views[outlook.current]?

/-- The outlook when other entries are before the current cursor. -/
def setView (outlook : Outlook K V) (view : List (K × V)) : Outlook K V :=
  { outlook with views := outlook.views.set outlook.current view }

/-- Answers a command from the lists. -/
def step [Described K] [Described V] (lens : Lens) (outlook : Outlook K V) :
    Command → Except Fault (Reply K V × Outlook K V)
  | .next => do
    let view ← outlook.view
    return (.item (view.head?.map lens.see), outlook.setView view.tail)
  | .nth n => do
    let view ← outlook.view
    return (.item (view[n]?.map lens.see), outlook.setView (view.drop (n + 1)))
  | .length => do return (.count (← outlook.view).length, outlook)
  | .sizeHint => do
    let view ← outlook.view
    return (.bounds view.length view.length, outlook)
  | .take n => do
    let view ← outlook.view
    return (.items ((view.take n).map lens.see), outlook.setView (view.drop n))
  | .rest => do return (.items ((← outlook.view).map lens.see), outlook.setView [])
  | .count => do return (.count (← outlook.view).length, outlook.setView [])
  | .last => do return (.item ((← outlook.view).getLast?.map lens.see), outlook.setView [])
  | .describe => do
    return (.text (Described.form ((← outlook.view).map lens.see)).inlined, outlook)
  | .clone => do
    let view ← outlook.view
    return (.count outlook.views.length, { outlook with views := outlook.views ++ [view] })
  | .use i =>
    if i < outlook.views.length then .ok (.count i, { outlook with current := i })
    else .error (.outOfBounds outlook.views.length i)

/-- Answers some commands in their order. -/
def run [Described K] [Described V] (lens : Lens) (outlook : Outlook K V) :
    List Command → Except Fault (List (Reply K V))
  | [] => .ok []
  | command :: commands => do
    let (reply, outlook) ← outlook.step lens command
    return reply :: (← run lens outlook commands)

end Outlook

/-! ## Steps of a traversal -/

/-- Each cursor of a traversal has the entries of an outlook before it, and one of them is
current. -/
structure Traversal.Faces (tree : Tree K V) (traversal : Traversal) (outlook : Outlook K V) :
    Prop where
  cursors : List.Forall₂ (Cursor.Faces tree) traversal.cursors outlook.views
  current : traversal.current = outlook.current
  lt : outlook.current < outlook.views.length

private theorem forall₂_set {α β : Type} {R : α → β → Prop} {xs : List α} {ys : List β}
    (h : List.Forall₂ R xs ys) {x : α} {y : β} (hxy : R x y) (i : Nat) :
    List.Forall₂ R (xs.set i x) (ys.set i y) := by
  induction h generalizing i with
  | nil => exact .nil
  | cons hab h ih =>
    cases i with
    | zero => exact .cons hxy h
    | succ i => exact .cons hab (ih i)

namespace Traversal

variable {tree : Tree K V} {traversal : Traversal} {outlook : Outlook K V}

/-- The current cursor has the current entries before it. -/
theorem Faces.current_eq (hf : traversal.Faces tree outlook) :
    ∃ cursor view, traversal.cursor = .ok cursor ∧ outlook.view = .ok view ∧
      cursor.Faces tree view := by
  -- There are as many cursors as lists, so the current one is there on both sides.
  have hlt : outlook.current < traversal.cursors.length := hf.cursors.length_eq ▸ hf.lt
  have hview : outlook.current < outlook.views.length := hf.lt
  refine ⟨traversal.cursors[outlook.current], outlook.views[outlook.current], ?_, ?_, ?_⟩
  · unfold Traversal.cursor
    rw [hf.current, List.getElem?_eq_getElem hlt]
    rfl
  · unfold Outlook.view
    rw [List.getElem?_eq_getElem hview]
    rfl
  · exact hf.cursors.get hlt hview

theorem Faces.set (hf : traversal.Faces tree outlook) {cursor : Cursor} {view : List (K × V)}
    (hc : cursor.Faces tree view) :
    (traversal.setCursor cursor).Faces tree (outlook.setView view) := by
  refine ⟨?_, hf.current, ?_⟩
  · unfold Traversal.setCursor Outlook.setView
    rw [hf.current]
    exact forall₂_set hf.cursors hc _
  · unfold Outlook.setView
    rw [List.length_set]
    exact hf.lt

section Commands

variable [Described K] [Described V] {lens : Lens}

/-- A command is answered as the reference answers it. -/
theorem step_eq (hf : traversal.Faces tree outlook) (command : Command) :
    (∃ fault, traversal.step tree lens command = .error fault ∧
      outlook.step lens command = .error fault ∧
      ∃ i, command = .use i ∧ outlook.views.length ≤ i) ∨
    ∃ reply traversal' outlook', traversal.step tree lens command = .ok (reply, traversal') ∧
      outlook.step lens command = .ok (reply, outlook') ∧ traversal'.Faces tree outlook' := by
  obtain ⟨cursor, view, hcursor, hview, hc⟩ := hf.current_eq
  -- What a copy of the cursor would take to the end is needed by each command that asks for all.
  obtain ⟨behind, hrest, hbehind⟩ := Cursor.rest_eq hc
  -- A command that takes entries moves the current cursor, and the current list is shortened; one
  -- that only asks leaves both as they are.
  cases command with
  | next =>
    obtain ⟨cursor', hnext, hc'⟩ := Cursor.next_eq hc
    refine .inr ⟨.item (view.head?.map lens.see), _, _, ?_, ?_, hf.set hc'⟩
    · simp only [step, hcursor, ok_bind, hnext, pure_eq_ok]
    · simp only [Outlook.step, hview, ok_bind, pure_eq_ok]
  | nth n =>
    obtain ⟨cursor', hnth, hc'⟩ := Cursor.nth_eq hc n
    refine .inr ⟨.item (view[n]?.map lens.see), _, _, ?_, ?_, hf.set hc'⟩
    · simp only [step, hcursor, ok_bind, hnth, pure_eq_ok]
    · simp only [Outlook.step, hview, ok_bind, pure_eq_ok]
  | length =>
    refine .inr ⟨.count view.length, _, _, ?_, ?_, hf⟩
    · simp only [step, hcursor, ok_bind, hc.remaining, pure_eq_ok]
    · simp only [Outlook.step, hview, ok_bind, pure_eq_ok]
  | sizeHint =>
    refine .inr ⟨.bounds view.length view.length, _, _, ?_, ?_, hf⟩
    · simp only [step, hcursor, ok_bind, hc.remaining, pure_eq_ok]
    · simp only [Outlook.step, hview, ok_bind, pure_eq_ok]
  | take n =>
    obtain ⟨cursor', htake, hc'⟩ := Cursor.take_eq hc n
    refine .inr ⟨.items ((view.take n).map lens.see), _, _, ?_, ?_, hf.set hc'⟩
    · simp only [step, hcursor, ok_bind, htake, pure_eq_ok]
    · simp only [Outlook.step, hview, ok_bind, pure_eq_ok]
  | rest =>
    refine .inr ⟨.items (view.map lens.see), _, _, ?_, ?_, hf.set hbehind⟩
    · simp only [step, hcursor, ok_bind, hrest, pure_eq_ok]
    · simp only [Outlook.step, hview, ok_bind, pure_eq_ok]
  | count =>
    refine .inr ⟨.count view.length, _, _, ?_, ?_, hf.set hbehind⟩
    · simp only [step, hcursor, ok_bind, hrest, pure_eq_ok]
    · simp only [Outlook.step, hview, ok_bind, pure_eq_ok]
  | last =>
    refine .inr ⟨.item (view.getLast?.map lens.see), _, _, ?_, ?_, hf.set hbehind⟩
    · simp only [step, hcursor, ok_bind, hrest, pure_eq_ok]
    · simp only [Outlook.step, hview, ok_bind, pure_eq_ok]
  | describe =>
    refine .inr ⟨.text (Described.form (view.map lens.see)).inlined, _, _, ?_, ?_, hf⟩
    · simp only [step, hcursor, ok_bind, hrest, pure_eq_ok]
    · simp only [Outlook.step, hview, ok_bind, pure_eq_ok]
  | clone =>
    -- The copy faces the same entries as the current cursor.
    refine .inr ⟨.count outlook.views.length,
      { traversal with cursors := traversal.cursors ++ [cursor] },
      { outlook with views := outlook.views ++ [view] }, ?_, ?_, ?_, hf.current, ?_⟩
    · simp only [step, hcursor, ok_bind, pure_eq_ok, hf.cursors.length_eq]
    · simp only [Outlook.step, hview, ok_bind, pure_eq_ok]
    · exact List.rel_append hf.cursors (.cons hc .nil)
    · rw [List.length_append]
      exact Nat.lt_add_right _ hf.lt
  | use i =>
    -- The only command that can fail asks for a cursor that has not been made, on both sides.
    by_cases hi : i < outlook.views.length
    · refine .inr ⟨.count i, { traversal with current := i }, { outlook with current := i }, ?_, ?_,
        hf.cursors, rfl, hi⟩
      · simp only [step, hf.cursors.length_eq, if_pos hi]
      · simp only [Outlook.step, if_pos hi]
    · refine .inl ⟨.outOfBounds outlook.views.length i, ?_, ?_, i, rfl, Nat.le_of_not_lt hi⟩
      · simp only [step, hf.cursors.length_eq, if_neg hi]
      · simp only [Outlook.step, if_neg hi]

/-- Some commands in their order are answered as the reference answers them. -/
theorem run_eq (hf : traversal.Faces tree outlook) (commands : List Command) :
    traversal.run tree lens commands = outlook.run lens commands := by
  -- Each step leads to a traversal that faces the outlook again, so the induction is over any two.
  induction commands generalizing traversal outlook with
  | nil => rfl
  | cons command commands ih =>
    unfold run Outlook.run
    rcases step_eq hf command with ⟨fault, hstep, href, -⟩ |
      ⟨reply, traversal', outlook', hstep, href, hf'⟩
    · rw [hstep, href]
      rfl
    · rw [hstep, href, ok_bind, ok_bind]
      show (do return reply :: (← run tree lens traversal' commands)) = _
      rw [ih hf']

end Commands

/-- A new traversal has all entries before its only cursor. -/
theorem start_eq [Ord K] {layout : Layout K V} (hc : tree.Carries layout) :
    ∃ traversal, start tree = .ok traversal ∧ traversal.Faces tree ⟨[layout.entries], 0⟩ := by
  obtain ⟨cursor, hstart, hf⟩ := Tree.start_eq hc
  refine ⟨⟨[cursor], 0⟩, ?_, .cons hf .nil, rfl, Nat.zero_lt_one⟩
  unfold start
  rw [hstart]
  rfl

end Traversal

/-! ## Commands without a fault -/

/-- Only a cursor that is there can be made current. -/
def Command.Fits (cursors : Nat) : Command → Prop
  | .use i => i < cursors
  | _ => True

/-- The number of cursors after a command. -/
def Command.cursorsAfter (cursors : Nat) : Command → Nat
  | .clone => cursors + 1
  | _ => cursors

/-- Each of some commands in their order fits. -/
def Command.FitEach : Nat → List Command → Prop
  | _, [] => True
  | cursors, command :: commands =>
    command.Fits cursors ∧ FitEach (command.cursorsAfter cursors) commands

namespace Outlook

variable [Described K] [Described V] {lens : Lens} {outlook : Outlook K V}

/-- A command that fits is answered. -/
theorem answers_step (hlt : outlook.current < outlook.views.length) {command : Command}
    (hfits : command.Fits outlook.views.length) :
    ∃ reply outlook', outlook.step lens command = .ok (reply, outlook') ∧
      outlook'.current < outlook'.views.length ∧
      outlook'.views.length = command.cursorsAfter outlook.views.length := by
  have hview : outlook.view = .ok outlook.views[outlook.current] := by
    unfold view
    rw [List.getElem?_eq_getElem hlt]
    rfl
  -- A shorter list takes the place of the current one, so the number of lists stays.
  have hset : ∀ view, (outlook.setView view).current < (outlook.setView view).views.length ∧
      (outlook.setView view).views.length = outlook.views.length := by
    intro view
    unfold setView
    rw [List.length_set]
    exact ⟨hlt, rfl⟩
  -- Of the commands that are left, one changes what is current, one adds a list, and the others
  -- leave the number of lists as it is.
  cases command with
  | use i => exact ⟨.count i, { outlook with current := i }, if_pos hfits, hfits, rfl⟩
  | clone =>
    simp only [step, hview, ok_bind, pure_eq_ok]
    refine ⟨_, _, rfl, ?_, ?_⟩
    · rw [List.length_append]
      exact Nat.lt_add_right _ hlt
    · exact List.length_append
  | length =>
    simp only [step, hview, ok_bind, pure_eq_ok]
    exact ⟨_, _, rfl, hlt, rfl⟩
  | sizeHint =>
    simp only [step, hview, ok_bind, pure_eq_ok]
    exact ⟨_, _, rfl, hlt, rfl⟩
  | describe =>
    simp only [step, hview, ok_bind, pure_eq_ok]
    exact ⟨_, _, rfl, hlt, rfl⟩
  | next | nth | take | rest | count | last =>
    simp only [step, hview, ok_bind, pure_eq_ok]
    exact ⟨_, _, rfl, hset _⟩

theorem answers_run (hlt : outlook.current < outlook.views.length) {commands : List Command}
    (hfit : Command.FitEach outlook.views.length commands) :
    ∃ replies, outlook.run lens commands = .ok replies := by
  -- The number of lists after a step is the number of cursors for which the rest has to fit.
  induction commands generalizing outlook with
  | nil => exact ⟨[], rfl⟩
  | cons command commands ih =>
    obtain ⟨reply, outlook', hstep, hlt', hlength⟩ : ∃ reply outlook',
        outlook.step lens command = .ok (reply, outlook') ∧
        outlook'.current < outlook'.views.length ∧
        outlook'.views.length = command.cursorsAfter outlook.views.length :=
      answers_step hlt hfit.1
    obtain ⟨replies, hrun⟩ := ih hlt' (hlength ▸ hfit.2)
    refine ⟨reply :: replies, ?_⟩
    simp only [run, hstep, ok_bind, hrun, pure_eq_ok]

end Outlook

/-- On a tree that carries a layout, commands that fit are answered. -/
theorem Tree.Carries.traversal_answers [Ord K] [Described K] [Described V] {tree : Tree K V}
    {layout : Layout K V} (hc : tree.Carries layout) (lens : Lens) {commands : List Command}
    (hfit : Command.FitEach 1 commands) :
    ∃ traversal replies, Traversal.start tree = .ok traversal ∧
      traversal.run tree lens commands = .ok replies := by
  obtain ⟨traversal, hstart, hf⟩ := Traversal.start_eq hc
  obtain ⟨replies, hrun⟩ : ∃ replies,
      Outlook.run lens ⟨[layout.entries], 0⟩ commands = .ok replies :=
    Outlook.answers_run hf.lt hfit
  exact ⟨traversal, replies, hstart, (Traversal.run_eq hf commands).trans hrun⟩

/-! ## Every reachable tree -/

section Runs

variable [Ord K] [Std.TransOrd K] [Described K] [Described V]

/-- Iterators are cursors into the entries.  For every fanout, every run of operations from the
empty tree and every lens, a dialogue with cursors over the tree is answered, whatever its commands
are, as long as each cursor that is asked for is there; and it is answered as the same dialogue with
lists, where one cursor in front of all entries of the reference is given at first. -/
theorem run_traverses (fanout : Fanout) (operations : List (Operation K V)) (lens : Lens)
    (commands : List Command) (hfit : Command.FitEach 1 commands) :
    ∃ answers session traversal replies,
      (Session.start fanout).run operations = .ok (answers, session) ∧
      session.tree.toList = .ok (Reference.run [] operations).2 ∧
      Ascending ((Reference.run [] operations).2.map Prod.fst) ∧
      Traversal.start session.tree = .ok traversal ∧
      traversal.run session.tree lens commands = .ok replies ∧
      Outlook.run lens ⟨[(Reference.run [] operations).2], 0⟩ commands = .ok replies := by
  obtain ⟨session, layout, hrun, hs, hentries⟩ :=
    Session.run_eq (Session.start_carries fanout) operations
  have hc : session.tree.Carries layout := hs.tree
  have hitems : layout.entries = (Reference.run [] operations).2 := hentries
  obtain ⟨traversal, hstart, hf⟩ := Traversal.start_eq hc
  obtain ⟨replies, hreplies⟩ : ∃ replies,
      Outlook.run lens ⟨[layout.entries], 0⟩ commands = .ok replies :=
    Outlook.answers_run hf.lt hfit
  have hsame : traversal.run session.tree lens commands = .ok replies :=
    (Traversal.run_eq hf commands).trans hreplies
  rw [← hitems]
  exact ⟨_, session, traversal, replies, hrun, Tree.toList_eq hc, hc.sound.ascending, hstart, hsame,
    hreplies⟩

/-- A copy goes on from where it was made while the cursor it was made from goes on as well, and a
cursor that has been asked for more than is left stays at the end. -/
theorem run_traverses_copy :
    ∃ (session : Session Int String) (traversal : Traversal),
      Traversal.start session.tree = .ok traversal ∧
      session.tree.toList = .ok [(10, "a"), (20, "b"), (30, "c"), (40, "d")] ∧
      traversal.run session.tree .values
          [.next, .clone, .nth 1, .use 1, .sizeHint, .describe, .nth 9, .next] =
        .ok [.item (some (.value "a")), .count 1, .item (some (.value "c")), .count 1,
          .bounds 3 3, .text "[\"b\", \"c\", \"d\"]", .item none, .item none] := by
  have hfit : Command.FitEach 1
      [.next, .clone, .nth 1, .use 1, .sizeHint, .describe, .nth 9, .next] := by
    simp [Command.FitEach, Command.Fits, Command.cursorsAfter]
  obtain ⟨answers, session, traversal, replies, -, hitems, -, hstart, hreplies, hlists⟩ :=
    run_traverses (K := Int) (V := String) .standard
      [.insert 40 "d", .insert 10 "a", .insert 30 "c", .insert 20 "b"] .values _ hfit
  -- The dialogue with lists is evaluated; that the cursors answer the same comes from the theorem.
  have hdialogue : Outlook.run .values
      ⟨[[((10 : Int), "a"), (20, "b"), (30, "c"), (40, "d")]], 0⟩
      [.next, .clone, .nth 1, .use 1, .sizeHint, .describe, .nth 9, .next] =
        .ok [.item (some (.value "a")), .count 1, .item (some (.value "c")), .count 1,
          .bounds 3 3, .text "[\"b\", \"c\", \"d\"]", .item none, .item none] := by
    decide +kernel
  rw [Except.ok.inj (hlists.symm.trans hdialogue)] at hreplies
  exact ⟨session, traversal, hstart, hitems, hreplies⟩

end Runs

end OrderedIndex
