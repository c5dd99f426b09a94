import OrderedIndex.Columns.Lemmas
import OrderedIndex.Proofs.Operations

/-!
# Searches of single nodes

A node is searched by halving its keys.  Where they ascend, the outcome is the one of reading them
all: a leaf answers the only position at which the key stands, or else how many keys are below it,
which is the place where it can be inserted; a branch answers the position of the first cached key
that is not below, as a scan from the left finds it.
-/

namespace OrderedIndex

variable {K V : Type}

/-- The number of keys below a search key. -/
def Leaf.countBelow (cut : Cut K) (leaf : Leaf K V) : Nat :=
  leaf.keys.countP fun k => cut k == .lt

/-- The position of the child that a scan from the left chooses for a key: the first one whose
cached key is not below it, or the last one if there is none. -/
def Branch.scan (cut : Cut K) (branch : Branch K) : Nat :=
  (branch.keys.findIdx? fun k => cut k != .lt).getD (branch.childCount - 1)

/-! ## Divided keys -/

section Divided

variable {cut : Cut K} {keys : List K} {lower equal upper : List (K × Unit)}

/-- Ascending keys are divided by every agreeing cut, with nothing beside them. -/
theorem exists_divides_keys [Ord K] [Std.TransOrd K] (ha : cut.Agrees) (hk : Ascending keys) :
    ∃ lower equal upper : List (K × Unit), keys = (lower ++ equal ++ upper).map Prod.fst ∧
      cut.Divides lower equal upper := by
  -- The values do not matter for a search among keys, so each key is given the same one.
  have hkeys : (keys.map fun k => (k, ())).map Prod.fst = keys := by
    simp [Function.comp_def]
  obtain ⟨lower, equal, upper, hsplit, hd⟩ :=
    Cut.exists_divides ha (keys.map fun k => (k, ())) (hkeys.symm ▸ hk)
  exact ⟨lower, equal, upper, by rw [← hsplit, hkeys], hd⟩

/-- A key with the search key stands behind those that are below. -/
theorem Cut.Divides.position_of_key (hd : cut.Divides lower equal upper) {i : Nat} {k : K}
    (hi : ((lower ++ equal ++ upper).map Prod.fst)[i]? = some k) (heq : cut k = .eq) :
    ∃ pair, equal = [pair] ∧ i = lower.length := by
  rw [List.getElem?_map] at hi
  obtain ⟨pair, hpair, rfl⟩ := Option.map_eq_some_iff.1 hi
  exact hd.position hpair heq

/-- Without a key that equals the search key the second part is empty. -/
theorem Cut.Divides.eq_nil_of_absent (hd : cut.Divides lower equal upper)
    (habsent : ∀ k ∈ (lower ++ equal ++ upper).map Prod.fst, cut k ≠ .eq) : equal = [] := by
  rcases hd.equal_cases with rfl | ⟨pair, rfl⟩
  · rfl
  · exact absurd (hd.same pair (List.mem_singleton_self _)) (habsent pair.1 (by simp))

/-- The keys below a search key are those of the first part. -/
theorem Cut.Divides.countP_eq (hd : cut.Divides lower equal upper) :
    ((lower ++ equal ++ upper).map Prod.fst).countP (fun k => cut k == .lt) = lower.length := by
  -- All that come before the search key are counted, and none of the others.
  have hlower : lower.countP (fun pair => cut pair.1 == .lt) = lower.length := by
    rw [List.countP_eq_length]
    intro pair hpair
    rw [hd.below pair hpair]
    rfl
  have hrest : (equal ++ upper).countP (fun pair => cut pair.1 == .lt) = 0 := by
    rw [List.countP_eq_zero]
    intro pair hpair
    simp [hd.ne_lt hpair]
  rw [List.countP_map, List.append_assoc, List.countP_append]
  exact (congrArg₂ (· + ·) hlower hrest).trans (Nat.add_zero _)

/-- The first key that is not below a search key stands behind the first part, if there is any. -/
theorem Cut.Divides.findIdx?_eq (hd : cut.Divides lower equal upper) :
    ((lower ++ equal ++ upper).map Prod.fst).findIdx? (fun k => cut k != .lt) =
      if equal ++ upper = [] then none else some lower.length := by
  have hlower : (lower.map Prod.fst).findIdx? (fun k => cut k != .lt) = none := by
    rw [List.findIdx?_eq_none_iff]
    intro k hk
    obtain ⟨pair, hpair, rfl⟩ := List.mem_map.1 hk
    simp [hd.below pair hpair]
  -- The scan passes all keys below the search key, and stops at the first one that follows them.
  rw [List.append_assoc, List.map_append, List.findIdx?_append, hlower]
  cases hrest : equal ++ upper with
  | nil => rfl
  | cons pair rest =>
    have hne : cut pair.1 ≠ .lt := hd.ne_lt (by simp [hrest])
    simp [List.findIdx?_cons, hne]

/-- A key is found at a position exactly if it stands there. -/
theorem search_eq_found_iff (hd : cut.Divides lower equal upper)
    (hk : keys = (lower ++ equal ++ upper).map Prod.fst) {i : Nat} :
    search cut keys = .found i ↔ ∃ k, keys[i]? = some k ∧ cut k = .eq := by
  constructor
  · intro hfound
    -- What the search does is known of divided keys, with one key in the middle or with none.
    rcases hd.equal_cases with rfl | ⟨pair, rfl⟩
    · rw [hk, search_of_not_mem hd] at hfound
      cases hfound
    · rw [hk, search_of_mem hd] at hfound
      obtain rfl := Probe.found.inj hfound
      exact ⟨pair.1, by simp [hk], hd.same pair (List.mem_singleton_self _)⟩
  · rintro ⟨k, hi, heq⟩
    rw [hk] at hi
    obtain ⟨pair, rfl, rfl⟩ := hd.position_of_key hi heq
    rw [hk, search_of_mem hd]

/-- A key is reported absent exactly if it stands nowhere, with the number of keys below it. -/
theorem search_eq_absent_iff (hd : cut.Divides lower equal upper)
    (hk : keys = (lower ++ equal ++ upper).map Prod.fst) {i : Nat} :
    search cut keys = .absent i ↔
      (∀ k ∈ keys, cut k ≠ .eq) ∧ i = keys.countP fun k => cut k == .lt := by
  subst hk
  rw [hd.countP_eq]
  constructor
  · intro hsearch
    rcases hd.equal_cases with rfl | ⟨pair, rfl⟩
    · rw [search_of_not_mem hd] at hsearch
      refine ⟨fun k hmem heq => ?_, (Probe.absent.inj hsearch).symm⟩
      obtain ⟨i, hi⟩ := List.mem_iff_getElem?.1 hmem
      obtain ⟨pair, hnil, -⟩ := hd.position_of_key hi heq
      cases hnil
    · rw [search_of_mem hd] at hsearch
      cases hsearch
  · rintro ⟨habsent, rfl⟩
    obtain rfl := hd.eq_nil_of_absent habsent
    exact search_of_not_mem hd

end Divided

/-! ## Nodes -/

variable {cut : Cut K}

/-- An absent key that is inserted where it has been looked for leaves the keys ascending and the
values beside their keys. -/
theorem Leaf.insert_of_search [Ord K] [Std.TransOrd K] {leaf : Leaf K V} (ha : cut.Agrees)
    (hk : Ascending leaf.keys) {i : Nat} {k : K} (hi : leaf.search cut = .absent i)
    (heq : cut k = .eq) (v : V) :
    ∃ leaf', leaf.insert i k v = .ok leaf' ∧ Ascending leaf'.keys ∧
      (leaf.Aligned → leaf'.Aligned ∧ leaf'.pairs = leaf.pairs.insertIdx i (k, v)) := by
  obtain ⟨lower, equal, upper, hkeys, hd⟩ := exists_divides_keys ha hk
  obtain ⟨habsent, hcount⟩ := (search_eq_absent_iff hd hkeys).1 hi
  rw [hkeys] at habsent hcount
  obtain rfl := hd.eq_nil_of_absent habsent
  obtain rfl : i = lower.length := hcount.trans hd.countP_eq
  have hle : lower.length ≤ leaf.toColumns.keyCount := by
    simp [Columns.keyCount, hkeys]
  have hinsert : leaf.insert lower.length k v = .ok { leaf with
      keys := leaf.keys.insertIdx lower.length k,
      items := leaf.items.insertIdx lower.length v } := by
    unfold Leaf.insert
    rw [Columns.insert_of_le hle, ok_bind]
    rfl
  refine ⟨_, hinsert, ?_, fun haligned => ?_⟩
  · -- The new key stands between the keys below and those above.
    have hbetween := insertIdx_between (lower.map Prod.fst) (upper.map Prod.fst) k
    rw [List.length_map] at hbetween
    rw [ha.eq_of heq] at hd
    have hasc := Reference.ascending_of_divides (v := ()) hd (hkeys ▸ hk)
    simpa [hkeys, hbetween] using hasc
  · -- Of the pairs no more is known than that the columns have been aligned.
    obtain ⟨columns, hcolumns, haligned', hpairs⟩ := Columns.exists_insert_eq_ok haligned hle k v
    rw [Columns.insert_of_le hle] at hcolumns
    obtain rfl := Except.ok.inj hcolumns
    exact ⟨haligned', hpairs⟩

/-- A branch routes a key by halving to the position that a scan from the left finds. -/
theorem Branch.route_eq_scan [Ord K] [Std.TransOrd K] {branch : Branch K} (ha : cut.Agrees)
    (hk : Ascending branch.keys) (haligned : branch.Aligned) :
    branch.route cut = branch.scan cut := by
  obtain ⟨lower, equal, upper, hkeys, hd⟩ := exists_divides_keys ha hk
  have hcount : branch.childCount = (lower ++ equal ++ upper).length := by
    have hlen : branch.keys.length = branch.childCount := haligned
    rw [← hlen, hkeys, List.length_map]
  unfold Branch.route Branch.scan
  rw [hcount, hkeys, position_search hd, hd.findIdx?_eq]
  by_cases hrest : equal ++ upper = []
  · -- All cached keys are below, so both take the last child.
    rw [if_pos hrest, Option.getD_none, List.append_assoc, hrest, List.append_nil]
    exact Nat.min_eq_right (Nat.sub_le _ _)
  · have hpos := List.length_pos_iff.2 hrest
    rw [if_neg hrest, Option.getD_some, List.append_assoc, List.length_append]
    exact Nat.min_eq_left (by omega)

/-- The child to which a key is routed is one that the branch lists. -/
theorem Branch.route_lt {branch : Branch K} (hne : branch.children ≠ []) :
    branch.route cut < branch.childCount := by
  have hpos : 0 < branch.childCount := List.length_pos_iff.2 hne
  unfold Branch.route
  omega

/-- Halving is exact on ascending keys.  A leaf of any length finds a key at the position where it
stands, and only there; it reports a key absent that stands nowhere, at the number of keys below it,
and the key inserted there leaves the keys ascending and the values beside their keys.  A branch of
any length routes a key to one of its children, the one that a scan from the left chooses. -/
theorem search_exact [Ord K] [Std.TransOrd K] (key : SearchKey K) :
    (∀ leaf : Leaf K V, Ascending leaf.keys →
      (∀ i, leaf.search key.cut = .found i ↔ ∃ k, leaf.keys[i]? = some k ∧ key.cut k = .eq) ∧
      (∀ i, leaf.search key.cut = .absent i ↔
        (∀ k ∈ leaf.keys, key.cut k ≠ .eq) ∧ i = leaf.countBelow key.cut) ∧
      ∀ i k v, leaf.search key.cut = .absent i → key.cut k = .eq →
        ∃ leaf', leaf.insert i k v = .ok leaf' ∧ Ascending leaf'.keys ∧
          (leaf.Aligned → leaf'.Aligned ∧ leaf'.pairs = leaf.pairs.insertIdx i (k, v))) ∧
    ∀ branch : Branch K, Ascending branch.keys → branch.Aligned → branch.children ≠ [] →
      branch.route key.cut = branch.scan key.cut ∧
        branch.route key.cut < branch.childCount := by
  constructor
  · intro leaf hk
    obtain ⟨lower, equal, upper, hkeys, hd⟩ := exists_divides_keys key.agrees hk
    refine ⟨fun i => search_eq_found_iff hd hkeys, fun i => search_eq_absent_iff hd hkeys, ?_⟩
    intro i k v hi heq
    exact Leaf.insert_of_search key.agrees hk hi heq v
  · intro branch hk haligned hne
    exact ⟨Branch.route_eq_scan key.agrees hk haligned, Branch.route_lt hne⟩

/-- A key between two others is reported absent behind the first one and is inserted there; a key
above all others is routed to the last child. -/
theorem search_exact_between :
    Ascending [10, 20, 30] ∧
      (⟨⟨[10, 20, 30], [1, 2, 3]⟩, none, none⟩ : Leaf Nat Nat).search (.of 25) = .absent 2 ∧
      (∃ leaf', (⟨⟨[10, 20, 30], [1, 2, 3]⟩, none, none⟩ : Leaf Nat Nat).insert 2 25 9 = .ok leaf' ∧
        Ascending leaf'.keys ∧ leaf'.pairs = [(10, 1), (20, 2), (25, 9), (30, 3)]) ∧
      (⟨⟨[10, 20, 30], [⟨4⟩, ⟨5⟩, ⟨6⟩]⟩, none⟩ : Branch Nat).route (.of 99) = 2 := by
  have hk : Ascending [10, 20, 30] := by
    unfold Ascending
    decide
  obtain ⟨-, habsent, hinsert⟩ :=
    (search_exact (V := Nat) (.of 25)).1 ⟨⟨[10, 20, 30], [1, 2, 3]⟩, none, none⟩ hk
  have hroute :=
    (search_exact (V := Nat) (.of 99)).2 ⟨⟨[10, 20, 30], [⟨4⟩, ⟨5⟩, ⟨6⟩]⟩, none⟩ hk rfl (by decide)
  have hsearch := (habsent 2).2 ⟨by decide, by decide⟩
  obtain ⟨leaf', hok, hasc, hpaired⟩ := hinsert 2 25 9 hsearch rfl
  exact ⟨hk, hsearch, ⟨leaf', hok, hasc, (hpaired rfl).2⟩, hroute.1⟩

end OrderedIndex
