import OrderedIndex.Key
import OrderedIndex.Proofs.Operations

/-!
# Equality

Equality of two trees sees their entries and nothing of what has led to them: not the fanout, not
the shape, not the slots.  Two lists of entries with ascending keys are equal exactly if every key
finds equal values in them, so two trees are equal exactly if their references are.  What remains of
some insertions is for each key its first spelling with its last value, in whatever tree that was
empty before.
-/

namespace OrderedIndex

variable {K V : Type}

/-! ## Equal references -/

namespace Reference

section Lookup

variable [Ord K]

/-- Whether an entry has a key that is equal to the given one. -/
def hasKey (k : K) (entry : K × V) : Bool := compare entry.1 k == .eq

/-- In each of two lists of entries, every key finds a value that is equal to the one in the other,
or finds none in both. -/
def Same [BEq V] (entries entries' : List (K × V)) : Prop :=
  ∀ k, find? (.of k) entries == find? (.of k) entries'

/-- The items are what is left of some entries if of those with equal keys the first key and the
last value count. -/
structure Condenses (entries items : List (K × V)) : Prop where
  ascending : Ascending (items.map Prod.fst)
  find? (k : K) : items.find? (hasKey k) = do
    let first ← entries.find? (hasKey k)
    let last ← entries.reverse.find? (hasKey k)
    return (first.1, last.2)

theorem Condenses.nil : Condenses ([] : List (K × V)) [] := ⟨List.Pairwise.nil, fun _ => rfl⟩

/-- No two entries have equal keys. -/
def Distinct (entries : List (K × V)) : Prop :=
  entries.Pairwise fun a b => compare a.1 b.1 ≠ .eq

end Lookup

/-! ## Entries with ascending keys -/

theorem ascending_cons [Ord K] {entry : K × V} {entries : List (K × V)} :
    Ascending ((entry :: entries).map Prod.fst) ↔
      (∀ other ∈ entries, compare entry.1 other.1 = .lt) ∧ Ascending (entries.map Prod.fst) := by
  simp [Ascending]

section Ascending

variable [Ord K] [Std.TransOrd K] {k : K} {v : V} {entry entry' : K × V}
  {entries entries' : List (K × V)}

/-- A key that is not above the first one is not found behind it. -/
theorem find?_tail (ha : Ascending ((entry :: entries).map Prod.fst))
    (hk : compare entry.1 k ≠ .lt) : find? (.of k) entries = none := by
  have habove : ∀ other ∈ entries, compare other.1 k = .gt := fun other hother =>
    (Cut.agrees_of k).gt_of_ne_lt hk ((ascending_cons.1 ha).1 other hother)
  have hd : (Cut.of k).Divides [] [] entries := ⟨by simp, by simp, habove, by simp⟩
  exact find?_of_not_mem hd

/-- Among ascending keys, the walk of the reference finds what any search finds. -/
theorem find?_eq_map (ha : Ascending (entries.map Prod.fst)) (k : K) :
    find? (.of k) entries = (entries.find? (hasKey k)).map Prod.snd := by
  induction entries with
  | nil => rfl
  | cons entry entries ih =>
    have htail := ih (ascending_cons.1 ha).2
    cases hc : compare entry.1 k with
    | lt => simp [find?, Cut.of, hasKey, hc, htail]
    | eq => simp [find?, Cut.of, hasKey, hc]
    | gt =>
      -- The walk stops here, and what follows is further above.
      have hnone := find?_tail ha (k := k) (by rw [hc]; decide)
      rw [htail] at hnone
      simpa [find?, Cut.of, hasKey, hc] using hnone.symm

/-- The keys still ascend after an insertion. -/
theorem ascending_insert (ha : Ascending (entries.map Prod.fst)) (k : K) (v : V) :
    Ascending ((insert k v entries).map Prod.fst) := by
  obtain ⟨lower, equal, upper, rfl, hd⟩ := Cut.exists_divides (Cut.agrees_of k) entries ha
  rcases hd.equal_cases with rfl | ⟨pair, rfl⟩
  · rw [insert_of_not_mem hd]
    exact ascending_of_divides hd ha
  · rw [insert_of_mem hd]
    simpa using ha

end Ascending

/-! ## Equal entries -/

/-- Where the equality of values is one, so is that of what is found. -/
instance partialEquivBEqOption [BEq V] [PartialEquivBEq V] : PartialEquivBEq (Option V) where
  symm {a b} hab := match a, b, hab with
    | none, none, _ => rfl
    | some _, some _, hab => BEq.symm (α := V) hab
  trans {a b c} hab hbc := match a, b, c, hab, hbc with
    | none, none, none, _, _ => rfl
    | some _, some _, some _, hab, hbc => BEq.trans (α := V) hab hbc

namespace Same

variable [Ord K] [BEq V] {entries entries' entries'' : List (K × V)}

protected theorem refl [ReflBEq V] (entries : List (K × V)) : Same entries entries :=
  fun _ => BEq.rfl

protected theorem symm [PartialEquivBEq V] (hs : Same entries entries') : Same entries' entries :=
  fun k => BEq.symm (hs k)

protected theorem trans [PartialEquivBEq V] (hs : Same entries entries')
    (hs' : Same entries' entries'') : Same entries entries'' :=
  fun k => BEq.trans (hs k) (hs' k)

end Same

section Equal

variable [Ord K] [Std.TransOrd K] [BEq V] {entry entry' : K × V} {entries entries' : List (K × V)}

/-- The first key of a list is not below that of the other one, or it would not be found there. -/
theorem Same.compare_ne_gt (hs : Same (entry :: entries) (entry' :: entries')) :
    compare entry'.1 entry.1 ≠ .gt := by
  intro hgt
  have hk := hs entry.1
  simp [find?, Cut.of, hgt] at hk

theorem Same.compare_eq [PartialEquivBEq V] (hs : Same (entry :: entries) (entry' :: entries')) :
    compare entry.1 entry'.1 = .eq := by
  have hle := hs.compare_ne_gt
  have hge := hs.symm.compare_ne_gt
  -- Each list finds the first key of the other, so neither of them is above the other.
  cases hc : compare entry.1 entry'.1 with
  | lt => exact absurd (Std.OrientedCmp.gt_of_lt hc) hle
  | eq => rfl
  | gt => exact absurd hc hge

/-- Behind equal first keys, two lists are the same if they are the same as a whole. -/
theorem same_cons_iff [PartialEquivBEq V] (ha : Ascending ((entry :: entries).map Prod.fst))
    (ha' : Ascending ((entry' :: entries').map Prod.fst))
    (hkey : compare entry.1 entry'.1 = .eq) :
    Same (entry :: entries) (entry' :: entries') ↔
      entry.2 == entry'.2 ∧ Same entries entries' := by
  have hsame (k : K) : compare entry'.1 k = compare entry.1 k := (Std.TransCmp.congr_left hkey).symm
  constructor
  · intro hs
    refine ⟨?_, fun k => ?_⟩
    · have hk := hs entry.1
      simpa [find?, Cut.of, hsame] using hk
    · -- What is not above the first keys is found behind neither of them.
      by_cases hlt : compare entry.1 k = .lt
      · have hk := hs k
        simpa [find?, Cut.of, hsame, hlt] using hk
      · rw [find?_tail ha hlt, find?_tail ha' (hsame k ▸ hlt)]
        rfl
  · rintro ⟨hvalue, hs⟩ k
    have hk := hs k
    -- A key below the first ones is found in neither list, and an equal one finds their values.
    cases hc : compare entry.1 k with
    | lt => simpa [find?, Cut.of, hsame, hc] using hk
    | eq => simpa [find?, Cut.of, hsame, hc] using hvalue
    | gt => simp [find?, Cut.of, hsame, hc]

/-- Two lists of entries with ascending keys are equal if every key finds equal values in them. -/
theorem beq_iff_same [BEq K] [Std.LawfulBEqOrd K] [PartialEquivBEq V]
    (ha : Ascending (entries.map Prod.fst)) (ha' : Ascending (entries'.map Prod.fst)) :
    entries == entries' ↔ Same entries entries' := by
  induction entries generalizing entries' with
  | nil =>
    cases entries' with
    | nil => exact iff_of_true rfl fun _ => rfl
    | cons entry' entries' =>
      -- A list with a first entry is told from the empty one by the key of that entry.
      refine iff_of_false Bool.false_ne_true fun hs => ?_
      have hk := hs entry'.1
      simp [find?, Cut.of] at hk
  | cons entry entries ih =>
    cases entries' with
    | nil =>
      refine iff_of_false Bool.false_ne_true fun hs => ?_
      have hk := hs entry.1
      simp [find?, Cut.of] at hk
    | cons entry' entries' =>
      -- Both lists start with equal keys, and then the equality of the rest decides.
      have htails := ih (ascending_cons.1 ha).2 (ascending_cons.1 ha').2
      have hbeq : (entry :: entries == entry' :: entries') =
          (entry.1 == entry'.1 && entry.2 == entry'.2 && (entries == entries')) := rfl
      rw [hbeq, Bool.and_eq_true, Bool.and_eq_true, ← Std.compare_eq_iff_beq, htails]
      constructor
      · rintro ⟨⟨hkey, hvalue⟩, hs⟩
        exact (same_cons_iff ha ha' hkey).2 ⟨hvalue, hs⟩
      · intro hs
        obtain ⟨hvalue, htail⟩ := (same_cons_iff ha ha' hs.compare_eq).1 hs
        exact ⟨⟨hs.compare_eq, hvalue⟩, htail⟩

end Equal

/-! ## What is left of some insertions -/

section Insertions

variable [Ord K] [Std.TransOrd K] {k x : K} {entries entries' items items' : List (K × V)}

/-- Equal keys are those of the same entries. -/
theorem hasKey_congr (hx : compare k x = .eq) : (hasKey x : K × V → Bool) = hasKey k := by
  funext entry
  rw [hasKey, hasKey, Std.TransCmp.congr_right hx]

/-- Under its key, an insertion leaves the new value with the old spelling, if there is one. -/
theorem find?_insert_self (ha : Ascending (items.map Prod.fst)) (k : K) (v : V) :
    (insert k v items).find? (hasKey k) =
      some (((items.find? (hasKey k)).map Prod.fst).getD k, v) := by
  induction items with
  | nil => simp [insert, hasKey]
  | cons item items ih =>
    -- The insertion takes one step past each key that is below its own.
    cases hc : compare item.1 k with
    | lt => simp [insert, hasKey, hc, ih (ascending_cons.1 ha).2]
    | eq => simp [insert, hasKey, hc]
    | gt =>
      -- All that follows is above the key as well.
      have hnone : items.find? (hasKey k) = none := by
        have htail := find?_tail ha (k := k) (by rw [hc]; decide)
        rwa [find?_eq_map (ascending_cons.1 ha).2, Option.map_eq_none_iff] at htail
      simp [insert, hasKey, hc, hnone]

/-- Under other keys, an insertion changes nothing. -/
theorem find?_insert_of_ne (hx : compare k x ≠ .eq) (v : V) :
    (insert k v items).find? (hasKey x) = items.find? (hasKey x) := by
  induction items with
  | nil => simp [insert, hasKey, hx]
  | cons item items ih =>
    cases hc : compare item.1 k with
    | lt => simp [insert, hc, List.find?_cons, ih]
    | eq =>
      have hitem : compare item.1 x ≠ .eq := by rwa [Std.TransCmp.congr_left hc]
      simp [insert, hasKey, hc, hitem]
    | gt => simp [insert, hasKey, hc, hx]

namespace Condenses

/-- One more insertion is condensed by the insertion into what is left of those before. -/
theorem insert (hc : Condenses entries items) (k : K) (v : V) :
    Condenses (entries ++ [(k, v)]) (insert k v items) where
  ascending := ascending_insert hc.ascending k v
  find? x := by
    rw [List.reverse_append, List.reverse_singleton, List.singleton_append, List.find?_append]
    by_cases hx : compare k x = .eq
    · rw [hasKey_congr hx, find?_insert_self hc.ascending, hc.find? k]
      -- The new entry is the last one of its key, and it is the first one if there is none before.
      have hlast : entries.reverse.find? (hasKey k) = none ↔ entries.find? (hasKey k) = none := by
        simp [List.find?_eq_none]
      cases hfirst : entries.find? (hasKey k) with
      | none => simp [hasKey]
      | some first =>
        obtain ⟨last, hsome⟩ := Option.ne_none_iff_exists'.1
          (mt hlast.1 (by rw [hfirst]; exact Option.some_ne_none first))
        simp [hsome, hasKey]
    · rw [find?_insert_of_ne hx, hc.find? x]
      simp [hasKey, hx]

/-- More insertions in their order are condensed by what they leave. -/
theorem insertMany (hc : Condenses entries items) (more : List (K × V)) :
    Condenses (entries ++ more) (insertMany more items) := by
  induction more generalizing entries items with
  | nil => rwa [List.append_nil]
  | cons entry more ih =>
    have hmore := ih (hc.insert entry.1 entry.2)
    rwa [List.append_assoc] at hmore

end Condenses

/-- Some insertions leave the first key and the last value of those with equal keys. -/
theorem condenses_insertMany (entries : List (K × V)) :
    Condenses entries (insertMany entries []) :=
  Condenses.nil.insertMany entries

theorem Distinct.perm (hd : Distinct entries) (hp : entries.Perm entries') : Distinct entries' :=
  hp.pairwise hd fun hne heq => hne (Std.OrientedCmp.eq_symm heq)

/-- Where no two keys are equal, the order of the entries does not count. -/
theorem find?_eq_of_perm (hd : Distinct entries) (hp : entries.Perm entries') (k : K) :
    entries.find? (hasKey k) = entries'.find? (hasKey k) := by
  induction hp with
  | nil => rfl
  | cons entry hp ih =>
    rw [List.find?_cons, List.find?_cons, ih hd.of_cons]
  | swap a b entries =>
    -- Only one of two entries with different keys is found, wherever it stands.
    have hne : compare b.1 a.1 ≠ .eq := List.rel_of_pairwise_cons hd (List.mem_cons_self ..)
    by_cases hb : compare b.1 k = .eq
    · have ha : compare a.1 k ≠ .eq := fun ha =>
        hne (Std.TransCmp.eq_trans hb (Std.OrientedCmp.eq_symm ha))
      simp [hasKey, hb, ha]
    · simp [hasKey, List.find?_cons, hb]
  | trans hp hp' ih ih' => exact (ih hd).trans (ih' (hd.perm hp))

/-- What is left of entries with different keys is the same in every order. -/
theorem Condenses.same_of_perm [BEq V] [ReflBEq V] (hc : Condenses entries items)
    (hc' : Condenses entries' items') (hd : Distinct entries) (hp : entries.Perm entries') :
    Same items items' := by
  intro k
  have hd' : Distinct entries.reverse := hd.perm (List.reverse_perm entries).symm
  have hp' : entries.reverse.Perm entries'.reverse :=
    (List.reverse_perm entries).trans (hp.trans (List.reverse_perm entries').symm)
  rw [find?_eq_map hc.ascending, find?_eq_map hc'.ascending, hc.find? k, hc'.find? k,
    find?_eq_of_perm hd hp, find?_eq_of_perm hd' hp']
  exact BEq.rfl

end Insertions

end Reference

/-! ## Equal trees -/

/-- The tree is reached from an empty one by operations that leave the reference with these
entries. -/
def Tree.Reached [Ord K] (tree : Tree K V) (entries : List (K × V)) : Prop :=
  ∃ (fanout : Fanout) (operations : List (Operation K V)) (answers : List (Answer K V))
    (journal : List Event),
    (Session.start fanout).run operations = .ok (answers, ⟨tree, journal⟩) ∧
      (Reference.run [] operations).2 = entries

namespace Tree

theorem reached_empty [Ord K] (fanout : Fanout) : (empty fanout : Tree K V).Reached [] :=
  ⟨fanout, [], [], [], rfl, rfl⟩

section Equal

variable [Ord K] [Std.TransOrd K] {tree tree' : Tree K V} {layout layout' : Layout K V}
  {entries entries' : List (K × V)}

theorem Reached.exists_layout (hr : tree.Reached entries) :
    ∃ layout, tree.Carries layout ∧ layout.entries = entries := by
  obtain ⟨fanout, operations, answers, journal, hrun, rfl⟩ := hr
  obtain ⟨session, layout, hrun', hs, hentries⟩ :=
    Session.run_eq (Session.start_carries fanout) operations
  -- The run has one outcome only.
  obtain ⟨-, rfl⟩ := Prod.mk.inj (Except.ok.inj (hrun.symm.trans hrun'))
  exact ⟨layout, hs.tree, hentries⟩

/-- A tree that was empty holds after some insertions what these leave of themselves. -/
theorem Reached.extend_eq (hr : tree.Reached []) (entries : List (K × V)) :
    ∃ outcome layout, tree.extend entries = .ok outcome ∧ outcome.tree.Carries layout ∧
      layout.entries = Reference.insertMany entries [] := by
  obtain ⟨layout, hc, hempty⟩ := hr.exists_layout
  obtain ⟨outcome, layout', hextend, hadvances, hentries⟩ := Tree.extend_eq hc entries
  exact ⟨outcome, layout', hextend, hadvances.carries, hempty ▸ hentries⟩

variable [BEq K] [Std.LawfulBEqOrd K] [BEq V]

/-- Trees are equal exactly if their entries are the same. -/
theorem Carries.equal_iff [PartialEquivBEq V] (hc : tree.Carries layout)
    (hc' : tree'.Carries layout') :
    tree.equal tree' = .ok true ↔ Reference.Same layout.entries layout'.entries := by
  rw [equal_eq_beq hc hc', Except.ok.injEq]
  exact Reference.beq_iff_same hc.sound.ascending hc'.sound.ascending

theorem Reached.equal_iff [PartialEquivBEq V] (hr : tree.Reached entries)
    (hr' : tree'.Reached entries') :
    tree.equal tree' = .ok true ↔ Reference.Same entries entries' := by
  obtain ⟨layout, hc, rfl⟩ := hr.exists_layout
  obtain ⟨layout', hc', rfl⟩ := hr'.exists_layout
  exact hc.equal_iff hc'

/-- Among the trees that can be reached, equality is an equivalence. -/
theorem equal_equivalence [EquivBEq V] :
    Equivalence fun a b : {tree : Tree K V // ∃ entries, tree.Reached entries} =>
      a.1.equal b.1 = .ok true where
  refl := by
    rintro ⟨a, entries, ha⟩
    exact (ha.equal_iff ha).2 (.refl entries)
  symm := by
    rintro ⟨a, entries, ha⟩ ⟨b, entries', hb⟩ hab
    exact (hb.equal_iff ha).2 ((ha.equal_iff hb).1 hab).symm
  trans := by
    rintro ⟨a, entries, ha⟩ ⟨b, entries', hb⟩ ⟨c, entries'', hc⟩ hab hbc
    exact (ha.equal_iff hc).2 (((ha.equal_iff hb).1 hab).trans ((hb.equal_iff hc).1 hbc))

end Equal

end Tree

/-! ## Every history -/

section Histories

variable [Ord K] [Std.TransOrd K] [BEq K] [Std.LawfulBEqOrd K] [BEq V] [EquivBEq V]

/-- Equality sees the contents and never the history.
1. For any two fanouts and any two runs of operations from the empty tree, the trees are compared,
   and they are equal exactly if their references hold equal keys with equal values.
2. Among the trees that can be reached, equality is an equivalence.
3. All trees that are made of a list of entries are equal, whether as a new tree or by an extension
   of a tree of any fanout that is empty; each key is there in its first spelling and with its last
   value.
4. If no two keys of the list are equal, neither does the order of its entries count. -/
theorem equal_forgets_history :
    (∀ (fanout fanout' : Fanout) (operations operations' : List (Operation K V)),
      ∃ answers session answers' session' b,
        (Session.start fanout).run operations = .ok (answers, session) ∧
        (Session.start fanout').run operations' = .ok (answers', session') ∧
        session.tree.equal session'.tree = .ok b ∧
        (b ↔ Reference.Same (Reference.run [] operations).2 (Reference.run [] operations').2)) ∧
    (Equivalence fun a b : {tree : Tree K V // ∃ entries, tree.Reached entries} =>
      a.1.equal b.1 = .ok true) ∧
    (∀ entries : List (K × V), ∃ items outcome, Reference.Condenses entries items ∧
      Tree.ofList entries = .ok outcome ∧ outcome.tree.toList = .ok items ∧
      ∀ tree : Tree K V, tree.Reached [] →
        ∃ outcome', tree.extend entries = .ok outcome' ∧ outcome'.tree.toList = .ok items ∧
          outcome.tree.equal outcome'.tree = .ok true) ∧
    (∀ entries entries' : List (K × V), Reference.Distinct entries → entries.Perm entries' →
      ∀ tree tree' : Tree K V, tree.Reached [] → tree'.Reached [] →
        ∃ outcome outcome', tree.extend entries = .ok outcome ∧
          tree'.extend entries' = .ok outcome' ∧ outcome.tree.equal outcome'.tree = .ok true) := by
  refine ⟨?_, Tree.equal_equivalence, ?_, ?_⟩
  · intro fanout fanout' operations operations'
    obtain ⟨session, layout, hrun, hs, hentries⟩ :=
      Session.run_eq (Session.start_carries fanout) operations
    obtain ⟨session', layout', hrun', hs', hentries'⟩ :=
      Session.run_eq (Session.start_carries fanout') operations'
    have hc : session.tree.Carries layout := hs.tree
    have hc' : session'.tree.Carries layout' := hs'.tree
    -- What both runs leave is compared as lists, and those are the references.
    refine ⟨_, session, _, session', _, hrun, hrun', Tree.equal_eq_beq hc hc', ?_⟩
    rw [Reference.beq_iff_same hc.sound.ascending hc'.sound.ascending, hentries, hentries']
    rfl
  · intro entries
    obtain ⟨outcome, layout, hlist, hc, hentries⟩ :=
      (Tree.reached_empty (K := K) (V := V) .standard).extend_eq entries
    refine ⟨layout.entries, outcome, hentries ▸ Reference.condenses_insertMany entries, hlist,
      Tree.toList_eq hc, ?_⟩
    intro tree hr
    obtain ⟨outcome', layout', hextend, hc', hentries'⟩ := hr.extend_eq entries
    -- The tree that is extended has no entries, so nothing of it is left to compare.
    have hsame : layout'.entries = layout.entries := hentries'.trans hentries.symm
    refine ⟨outcome', hextend, hsame ▸ Tree.toList_eq hc', (hc.equal_iff hc').2 ?_⟩
    rw [hsame]
    exact .refl _
  · intro entries entries' hd hp tree tree' hr hr'
    obtain ⟨outcome, layout, hextend, hc, hentries⟩ := hr.extend_eq entries
    obtain ⟨outcome', layout', hextend', hc', hentries'⟩ := hr'.extend_eq entries'
    refine ⟨outcome, outcome', hextend, hextend', (hc.equal_iff hc').2 ?_⟩
    -- The trees hold what is left of either list, which the order of distinct keys does not change.
    rw [hentries, hentries']
    exact (Reference.condenses_insertMany entries).same_of_perm
      (Reference.condenses_insertMany entries') hd hp

/-- Two spellings of a key are equal, and neither the fanout nor the order of the insertions
counts. -/
theorem equal_forgets_history_spelling :
    (∃ (answers answers' : List (Answer Caseless Nat)) (session session' : Session Caseless Nat),
      (Session.start .standard).run [.insert ⟨"a"⟩ 1] = .ok (answers, session) ∧
      (Session.start ⟨4, by decide⟩).run [.insert ⟨"A"⟩ 2, .insert ⟨"a"⟩ 1] =
        .ok (answers', session') ∧
      session.tree.equal session'.tree = .ok true) ∧
    ∃ outcome outcome' : Outcome Int Nat Unit,
      (Tree.empty .standard).extend [(20, 2), (10, 1)] = .ok outcome ∧
      (Tree.empty ⟨4, by decide⟩).extend [(10, 1), (20, 2)] = .ok outcome' ∧
      outcome.tree.equal outcome'.tree = .ok true := by
  constructor
  · have hequal : compare (⟨"A"⟩ : Caseless) ⟨"a"⟩ = .eq :=
      Caseless.compare_eq_iff.2 (String.toList_inj.1 (by decide +kernel))
    -- Each key that is looked for compares with both spellings in the same way.
    have hsame (a b : Caseless) (hequal : compare b a = .eq) :
        Reference.Same (Reference.run [] [.insert a 1]).2
          (Reference.run [] [.insert b 2, .insert a 1]).2 := by
      intro k
      have hk : compare b k = compare a k := Std.TransCmp.congr_left hequal
      simp [Reference.run, Reference.perform, Reference.insert, Reference.find?, Cut.of, hequal, hk]
    obtain ⟨answers, session, answers', session', b, hrun, hrun', hb, hiff⟩ :=
      (equal_forgets_history (K := Caseless) (V := Nat)).1 .standard ⟨4, by decide⟩
        [.insert ⟨"a"⟩ 1] [.insert ⟨"A"⟩ 2, .insert ⟨"a"⟩ 1]
    refine ⟨answers, answers', session, session', hrun, hrun', ?_⟩
    rw [hb, hiff.2 (hsame _ _ hequal)]
  · refine (equal_forgets_history (K := Int) (V := Nat)).2.2.2 _ _ ?_ (.swap _ _ _) _ _
      (Tree.reached_empty _) (Tree.reached_empty _)
    simp [Reference.Distinct]

end Histories

end OrderedIndex
