import OrderedIndex.Proofs.Scans

/-!
# Overwrites

An update that meets a present key adds and removes nothing.  Insertion, modification and a write
behind a search reach the value by different ways, but all of them end in one write to one place:
the only place of a live leaf at which a key stands that equals the one looked for.  An update that
needs its key, and does not meet it, leaves the tree as it is.
-/

namespace OrderedIndex

variable {K V : Type}

namespace Tree

/-! ## One value is written over -/

/-- From one tree to another that differs from it in a single value: at a position of one leaf, `v`
stands in the place of `old`.  All keys and links, all other nodes and the stack of released slots
are the same. -/
structure Overwrites (tree : Tree K V) (h : Handle) (i : Nat) (old v : V) (tree' : Tree K V) :
    Prop where
  fanout : tree'.fanout = tree.fanout
  root : tree'.root = tree.root
  size : tree'.size = tree.size
  released : tree'.nodes.released = tree.nodes.released
  slotCount : tree'.nodes.slotCount = tree.nodes.slotCount
  elsewhere (g : Handle) : g ≠ h → tree'.nodes.get? g = tree.nodes.get? g
  here : ∃ leaf, getLeaf tree.nodes h = .ok leaf ∧ leaf.values[i]? = some old ∧
    getLeaf tree'.nodes h = .ok { leaf with items := leaf.values.set i v }

section Write

variable {tree : Tree K V} {leaf : Leaf K V} {h : Handle} {i : Nat} {old : V}

/-- A write over a value that is there changes nothing else. -/
theorem writeValue_overwrites (hleaf : getLeaf tree.nodes h = .ok leaf)
    (hold : leaf.value i = .ok old) (v : V) :
    ∃ tree', tree.writeValue h i v = .ok (old, tree') ∧ tree.Overwrites h i old v tree' := by
  have hnode : tree.nodes.get? h = some (.leaf leaf) := getLeaf_eq_ok_iff.1 hleaf
  have hget := Arena.get?_put (Option.isSome_of_eq_some hnode)
    (.leaf { leaf with items := leaf.items.set i v })
  have hwrite : tree.writeValue h i v = .ok (old, { tree with
      nodes := tree.nodes.put h (.leaf { leaf with items := leaf.items.set i v }) }) := by
    unfold writeValue Leaf.replaceValue
    simp only [hleaf, ok_bind, hold, pure_eq_ok]
  refine ⟨_, hwrite, rfl, rfl, rfl, rfl, Array.size_setIfInBounds, ?_, leaf, hleaf, ?_, ?_⟩
  · intro g hne
    rw [hget, if_neg hne]
  · -- The old value is what the leaf holds at the position.
    exact orFault_eq_ok_iff.1 hold
  · apply getLeaf_eq_ok_iff.2
    rw [hget, if_pos rfl]
    rfl

end Write

/-! ## The three ways to the value -/

section Ways

variable {tree : Tree K V} {layout : Layout K V} {cut : Cut K} {q : Path K V 0}
  {leaf : Block K V} {lower upper : List (K × V)} {pair : K × V}

/-- Every update of a key that is present makes the same write. -/
theorem Lands.overwrites [Ord K] (ha : cut.Agrees)
    (hl : Lands cut tree layout q leaf lower [pair] upper (.found lower.length)) (v : V) :
    ∃ tree', tree.Overwrites leaf.handle lower.length pair.2 v tree' ∧
      tree.replace? cut v = .ok ⟨some pair.2, tree', []⟩ ∧
      tree.modify cut v = .ok ⟨.ok pair.2, tree', []⟩ ∧
      ∀ k, cut k = .eq → tree.insert k v = .ok ⟨some pair.2, tree', []⟩ := by
  obtain ⟨tree', hwrite, hoverwrites⟩ := writeValue_overwrites hl.getLeaf hl.value_eq v
  have hreplace : tree.replace? cut v = .ok ⟨some pair.2, tree', []⟩ := by
    unfold replace?
    simp only [hl.locate_eq, ok_bind, hwrite, pure_eq_ok]
  refine ⟨tree', hoverwrites, hreplace, ?_, ?_⟩
  · unfold modify
    simp only [hreplace, ok_bind, pure_eq_ok]
  · -- The insertion searches by itself, and with the stored type's own order.
    intro k hk
    obtain rfl := ha.eq_of hk
    unfold insert
    simp only [hl.findLeaf, hl.getLeaf, ok_bind, hl.search, hwrite, pure_eq_ok]

/-- A change of a key that is absent leaves the tree as it is. -/
theorem modify_of_absent
    (hl : Lands cut tree layout q leaf lower [] upper (.absent lower.length)) (v : V) :
    tree.modify cut v = .ok ⟨.error .notFound, tree, []⟩ := by
  unfold modify
  simp only [replace?_of_absent hl, ok_bind, pure_eq_ok]

end Ways

end Tree

/-! ## Every reachable tree -/

/-- Updates that keep the structure leave everything else intact.  For every fanout, every run of
operations from the empty tree and every key: if an entry of a live leaf has the key, then no other
one has it, and a write behind a search, a modification and an insertion of the key in any spelling
all lead to the same tree, which differs in that value only; they answer the old value and leave no
event.  If no entry has the key, then modification and removal answer that it has not been found, a
search for a value to be written finds none, and each of them leaves the tree as it is and no
event. -/
theorem run_overwrites [Ord K] [Std.TransOrd K] (fanout : Fanout)
    (operations : List (Operation K V)) (key : SearchKey K) :
    ∃ answers session, (Session.start fanout).run operations = .ok (answers, session) ∧
      ((∃ h i, session.tree.StandsAt key.cut h i) →
        ∃ h i old, (∀ g j, session.tree.StandsAt key.cut g j ↔ g = h ∧ j = i) ∧
          ∀ v, ∃ tree', session.tree.Overwrites h i old v tree' ∧
            session.tree.replace? key.cut v = .ok ⟨some old, tree', []⟩ ∧
            session.tree.modify key.cut v = .ok ⟨.ok old, tree', []⟩ ∧
            ∀ k, key.cut k = .eq → session.tree.insert k v = .ok ⟨some old, tree', []⟩) ∧
      ((∀ h i, ¬ session.tree.StandsAt key.cut h i) →
        session.tree.remove key.cut = .ok ⟨.error .notFound, session.tree, []⟩ ∧
          ∀ v, session.tree.modify key.cut v = .ok ⟨.error .notFound, session.tree, []⟩ ∧
            session.tree.replace? key.cut v = .ok ⟨none, session.tree, []⟩) := by
  obtain ⟨session, layout, hrun, hs, -⟩ :=
    Session.run_eq (Session.start_carries fanout) operations
  have hc : session.tree.Carries layout := hs.tree
  refine ⟨_, session, hrun, ?_⟩
  rcases Tree.lands key.agrees hc with
    ⟨q, leaf, lower, pair, upper, hl⟩ | ⟨q, leaf, lower, upper, hl⟩
  · refine ⟨fun _ => ⟨leaf.handle, lower.length, pair.2, ?_, hl.overwrites key.agrees⟩, ?_⟩
    · intro g j
      constructor
      · intro hstands
        obtain ⟨-, -, hg, hj⟩ := hl.eq_of_standsAt hc hstands
        exact ⟨hg, hj⟩
      · rintro ⟨rfl, rfl⟩
        exact hl.standsAt
    · intro hnowhere
      exact absurd hl.standsAt (hnowhere _ _)
  · -- A key that lands between two entries stands nowhere.
    refine ⟨?_, fun _ => ⟨Tree.remove_of_absent hl, fun v => ⟨Tree.modify_of_absent hl v, ?_⟩⟩⟩
    · rintro ⟨h, i, hstands⟩
      obtain ⟨pair, hempty, -, -⟩ := hl.eq_of_standsAt hc hstands
      exact absurd hempty (List.cons_ne_nil _ _).symm
    · exact Tree.replace?_of_absent hl v

/-- Four letters in ascending order, which make two leaves with three keys to a node. -/
def insertLetters : List (Operation Caseless Nat) :=
  [.insert ⟨"a"⟩ 1, .insert ⟨"b"⟩ 2, .insert ⟨"c"⟩ 3, .insert ⟨"d"⟩ 4]

/-- A key that is overwritten in another spelling keeps its own; the entry beside it, the other leaf
and the root stay as they are. -/
theorem run_overwrites_spelling :
    ∃ (answers : List (Answer Caseless Nat)) (session : Session Caseless Nat)
      (tree' : Tree Caseless Nat),
      (Session.start .standard).run insertLetters = .ok (answers, session) ∧
      session.tree.root = ⟨2⟩ ∧
      Tree.getLeaf session.tree.nodes ⟨1⟩ = .ok ⟨⟨[⟨"c"⟩, ⟨"d"⟩], [3, 4]⟩, none, some ⟨2⟩⟩ ∧
      session.tree.insert ⟨"C"⟩ 9 = .ok ⟨some 3, tree', []⟩ ∧
      session.tree.modify (.of ⟨"C"⟩) 9 = .ok ⟨.ok 3, tree', []⟩ ∧
      session.tree.replace? (.of ⟨"C"⟩) 9 = .ok ⟨some 3, tree', []⟩ ∧
      Tree.getLeaf tree'.nodes ⟨1⟩ = .ok ⟨⟨[⟨"c"⟩, ⟨"d"⟩], [9, 4]⟩, none, some ⟨2⟩⟩ ∧
      ∀ g : Handle, g ≠ ⟨1⟩ → tree'.nodes.get? g = session.tree.nodes.get? g := by
  obtain ⟨answers, session, hrun, hpresent, -⟩ := run_overwrites .standard insertLetters (.of ⟨"C"⟩)
  -- The run is evaluated for its root and for the leaf of the key.
  have hroot : ((Session.start .standard).run insertLetters).map (fun r => r.2.tree.root) =
      .ok ⟨2⟩ := by decide +kernel
  have hleaf : ((Session.start .standard).run insertLetters).bind
        (fun r => Tree.getLeaf r.2.tree.nodes ⟨1⟩) =
      .ok ⟨⟨[⟨"c"⟩, ⟨"d"⟩], [3, 4]⟩, none, some ⟨2⟩⟩ := by decide +kernel
  rw [hrun] at hroot hleaf
  -- Both the stored and the given spelling are equal to the key.
  have hstored : (SearchKey.of (⟨"C"⟩ : Caseless)).cut ⟨"c"⟩ = .eq := by
    rw [SearchKey.cut_of]
    exact Caseless.compare_eq_iff.2 (String.toList_inj.1 (by decide +kernel))
  have hgiven : (SearchKey.of (⟨"C"⟩ : Caseless)).cut ⟨"C"⟩ = .eq := by
    rw [SearchKey.cut_of]
    exact Std.ReflCmp.compare_self
  have hstands : session.tree.StandsAt (.of ⟨"C"⟩) ⟨1⟩ 0 := ⟨_, ⟨"c"⟩, hleaf, rfl, hstored⟩
  obtain ⟨h, i, old, honly, hupdates⟩ := hpresent ⟨_, _, hstands⟩
  obtain ⟨rfl, rfl⟩ := (honly _ _).1 hstands
  obtain ⟨tree', hoverwrites, hreplace, hmodify, hinsert⟩ := hupdates 9
  obtain ⟨leaf, hbefore, hold, hafter⟩ := hoverwrites.here
  -- The leaf is the one that the run has left, so its old value is known.
  obtain rfl := Except.ok.inj (hleaf.symm.trans hbefore)
  obtain rfl : 3 = old := Option.some.inj hold
  exact ⟨answers, session, tree', hrun, Except.ok.inj hroot, hleaf,
    hinsert _ hgiven, hmodify, hreplace, hafter, hoverwrites.elsewhere⟩

end OrderedIndex
