import OrderedIndex.Columns.Basic

/-!
# Columns as one list of pairs

Each operation on aligned columns leaves them aligned and acts on `pairs` as the list operation of
its name does.  Joining the two halves of columns gives them back.  So aligned columns are the two
sides of one list of pairs (`ofPairs`), on which the operations work as if there were only the list.
-/

namespace OrderedIndex.Columns

variable {K A : Type} {columns : Columns K A}

/-! ## Pairs of two lists -/

private theorem zip_insertIdx {ks : List K} {xs : List A} (hlen : ks.length = xs.length) (i : Nat)
    (k : K) (a : A) :
    (ks.insertIdx i k).zip (xs.insertIdx i a) = (ks.zip xs).insertIdx i (k, a) := by
  -- The position moves along both lists at once; only lists of the same length agree at their end.
  induction ks generalizing xs i with
  | nil =>
    cases xs with
    | nil => cases i <;> simp
    | cons x xs => simp at hlen
  | cons y ks ih =>
    cases xs with
    | nil => simp at hlen
    | cons x xs =>
      cases i with
      | zero => simp
      | succ i => simpa using ih (by simpa using hlen) i

private theorem zip_eraseIdx (ks : List K) (xs : List A) (i : Nat) :
    (ks.eraseIdx i).zip (xs.eraseIdx i) = (ks.zip xs).eraseIdx i := by
  -- Beyond the shorter list neither side has anything to erase.
  induction ks generalizing xs i with
  | nil => simp
  | cons y ks ih =>
    cases xs with
    | nil => simp
    | cons x xs =>
      cases i with
      | zero => simp
      | succ i => simpa using ih xs i

/-! ## Single pairs -/

theorem insert_of_le {i : Nat} (hi : i ≤ columns.keyCount) (k : K) (a : A) :
    columns.insert i k a = .ok ⟨columns.keys.insertIdx i k, columns.items.insertIdx i a⟩ :=
  if_pos hi

/-- On aligned columns one check of the position stands for both. -/
theorem insertEach_eq (ha : columns.Aligned) (i : Nat) (k : K) (a : A) :
    columns.insertEach i k a = columns.insert i k a := by
  have hlen : columns.keys.length = columns.items.length := ha
  unfold insertEach insert insertAt
  rw [← hlen]
  split <;> rfl

/-- An insertion in range succeeds and inserts a pair. -/
theorem exists_insert_eq_ok (ha : columns.Aligned) {i : Nat} (hi : i ≤ columns.keyCount) (k : K)
    (a : A) :
    ∃ columns', columns.insert i k a = .ok columns' ∧ columns'.Aligned ∧
      columns'.pairs = columns.pairs.insertIdx i (k, a) := by
  refine ⟨_, insert_of_le hi k a, ?_, zip_insertIdx ha i k a⟩
  -- The inserted pair makes both sides longer by one.
  have hlen : columns.keys.length = columns.items.length := ha
  simp [Aligned, List.length_insertIdx, hlen]

/-- A removal in range succeeds, answers a pair and removes it. -/
theorem exists_remove_eq_ok (ha : columns.Aligned) {i : Nat} (hi : i < columns.keyCount) :
    ∃ pair columns', columns.remove i = .ok (pair, columns') ∧ columns'.Aligned ∧
      columns.pairs[i]? = some pair ∧ columns'.pairs = columns.pairs.eraseIdx i := by
  have hk : i < columns.keys.length := hi
  have hx : i < columns.items.length := Nat.lt_of_lt_of_eq hi ha
  refine ⟨(columns.keys[i], columns.items[i]), ⟨columns.keys.eraseIdx i, columns.items.eraseIdx i⟩,
    ?_, ?_, ?_, zip_eraseIdx _ _ i⟩
  · simp [remove, orFault, hk, hx, bind, Except.bind, pure, Except.pure]
  · have hlen : columns.keys.length = columns.items.length := ha
    simp [Aligned, List.length_eraseIdx, hx, hlen]
  · exact List.getElem?_zip_eq_some.2
      ⟨List.getElem?_eq_getElem hk, List.getElem?_eq_getElem hx⟩

theorem pairs_push (ha : columns.Aligned) (k : K) (a : A) :
    (columns.push k a).pairs = columns.pairs ++ [(k, a)] :=
  List.zip_append ha

theorem Aligned.push (ha : columns.Aligned) (k : K) (a : A) : (columns.push k a).Aligned := by
  have hlen : columns.keys.length = columns.items.length := ha
  simp [Aligned, Columns.push, hlen]

theorem Aligned.pushFront (ha : columns.Aligned) (k : K) (a : A) :
    (columns.pushFront k a).Aligned :=
  congrArg Nat.succ ha

/-- Popping from the back undoes `push`, and fails without a pair. -/
theorem pop?_eq_some_iff (ha : columns.Aligned) {k : K} {a : A} {rest : Columns K A} :
    columns.pop? = some ((k, a), rest) ↔ rest.Aligned ∧ columns = rest.push k a := by
  obtain ⟨ks, xs⟩ := columns
  constructor
  · intro hp
    unfold pop? at hp
    -- Both sides end at once where they are aligned, so either both have a last element or none.
    cases hk : ks.getLast? with
    | none => simp [hk] at hp
    | some y =>
      cases hx : xs.getLast? with
      | none => simp [hk, hx] at hp
      | some x =>
        obtain ⟨ks, rfl⟩ := List.getLast?_eq_some_iff.1 hk
        obtain ⟨xs, rfl⟩ := List.getLast?_eq_some_iff.1 hx
        simp at hp
        obtain ⟨⟨rfl, rfl⟩, rfl⟩ := hp
        refine ⟨?_, rfl⟩
        simpa [Aligned] using ha
  · rintro ⟨-, he⟩
    obtain ⟨rs, rx⟩ := rest
    simp only [Columns.push, Columns.mk.injEq] at he
    obtain ⟨rfl, rfl⟩ := he
    simp [pop?]

/-- Popping from the front undoes `pushFront`, and fails without a pair. -/
theorem popFront?_eq_some_iff {k : K} {a : A} {rest : Columns K A} :
    columns.popFront? = some ((k, a), rest) ↔ columns = rest.pushFront k a := by
  obtain ⟨ks, xs⟩ := columns
  obtain ⟨rs, rx⟩ := rest
  -- Two lists that both start with something are split in the same way on both sides.
  cases ks with
  | nil => simp [popFront?, pushFront]
  | cons y ks =>
    cases xs with
    | nil => simp [popFront?, pushFront]
    | cons x xs =>
      simp only [popFront?, pushFront, Option.some.injEq, Prod.mk.injEq, Columns.mk.injEq,
        List.cons.injEq]
      constructor
      · rintro ⟨⟨rfl, rfl⟩, rfl, rfl⟩
        exact ⟨⟨rfl, rfl⟩, rfl, rfl⟩
      · rintro ⟨⟨rfl, rfl⟩, rfl, rfl⟩
        exact ⟨⟨rfl, rfl⟩, rfl, rfl⟩

/-! ## Halves -/

theorem pairs_split (columns : Columns K A) (middle : Nat) :
    (columns.split middle).1.pairs = columns.pairs.take middle ∧
      (columns.split middle).2.pairs = columns.pairs.drop middle :=
  ⟨List.take_zipWith.symm, List.drop_zipWith.symm⟩

theorem Aligned.split (ha : columns.Aligned) (middle : Nat) :
    (columns.split middle).1.Aligned ∧ (columns.split middle).2.Aligned := by
  have hlen : columns.keys.length = columns.items.length := ha
  simp [Aligned, Columns.split, hlen]

theorem pairs_append (ha : columns.Aligned) (right : Columns K A) :
    (columns.append right).pairs = columns.pairs ++ right.pairs :=
  List.zip_append ha

theorem Aligned.append {right : Columns K A} (ha : columns.Aligned) (hr : right.Aligned) :
    (columns.append right).Aligned := by
  have hlen : columns.keys.length = columns.items.length := ha
  have hlen' : right.keys.length = right.items.length := hr
  simp [Aligned, Columns.append, hlen, hlen']

/-- The two halves joined are the whole. -/
theorem append_split (columns : Columns K A) (middle : Nat) :
    (columns.split middle).1.append (columns.split middle).2 = columns := by
  simp [Columns.split, Columns.append]

/-! ## The two sides of a list -/

/-- The two sides of a list of pairs. -/
def ofPairs (pairs : List (K × A)) : Columns K A := ⟨pairs.map Prod.fst, pairs.map Prod.snd⟩

variable {pairs pairs' : List (K × A)} {pair : K × A} {i : Nat}

theorem aligned_ofPairs (pairs : List (K × A)) : (ofPairs pairs).Aligned := by
  simp [Aligned, ofPairs]

@[simp] theorem pairs_ofPairs (pairs : List (K × A)) : (ofPairs pairs).pairs = pairs :=
  (List.zip_of_prod rfl rfl).symm

@[simp] theorem keyCount_ofPairs (pairs : List (K × A)) :
    (ofPairs pairs).keyCount = pairs.length :=
  List.length_map _

/-- Aligned columns are the two sides of their pairs. -/
theorem Aligned.eq_ofPairs (ha : columns.Aligned) : columns = ofPairs columns.pairs := by
  have hlen : columns.keys.length = columns.items.length := ha
  have hkeys : columns.pairs.map Prod.fst = columns.keys := List.map_fst_zip (Nat.le_of_eq hlen)
  have hitems : columns.pairs.map Prod.snd = columns.items :=
    List.map_snd_zip (Nat.le_of_eq hlen.symm)
  rw [ofPairs, hkeys, hitems]

theorem insert_ofPairs (hi : i ≤ pairs.length) (k : K) (a : A) :
    (ofPairs pairs).insert i k a = .ok (ofPairs (pairs.insertIdx i (k, a))) := by
  obtain ⟨columns', hinsert, ha, hpairs⟩ :=
    exists_insert_eq_ok (aligned_ofPairs pairs) (by simpa using hi) k a
  rw [hinsert, ha.eq_ofPairs, hpairs, pairs_ofPairs]

theorem remove_ofPairs (hi : pairs[i]? = some pair) :
    (ofPairs pairs).remove i = .ok (pair, ofPairs (pairs.eraseIdx i)) := by
  have hlt : i < pairs.length := (List.getElem?_eq_some_iff.1 hi).1
  obtain ⟨pair', columns', hremove, ha, hpair, hpairs⟩ :=
    exists_remove_eq_ok (aligned_ofPairs pairs) (by simpa using hlt)
  rw [pairs_ofPairs] at hpair hpairs
  obtain rfl := Option.some.inj (hi.symm.trans hpair)
  rw [hremove, ha.eq_ofPairs, hpairs]

theorem push_ofPairs (pairs : List (K × A)) (k : K) (a : A) :
    (ofPairs pairs).push k a = ofPairs (pairs ++ [(k, a)]) := by
  have ha := aligned_ofPairs pairs
  rw [(ha.push k a).eq_ofPairs, pairs_push ha, pairs_ofPairs]

theorem pushFront_ofPairs (pairs : List (K × A)) (k : K) (a : A) :
    (ofPairs pairs).pushFront k a = ofPairs ((k, a) :: pairs) := rfl

theorem pop?_ofPairs (pairs : List (K × A)) : (ofPairs pairs).pop? =
    pairs.getLast?.map fun pair => (pair, ofPairs pairs.dropLast) := by
  cases hlast : pairs.getLast? with
  | none =>
    obtain rfl := List.getLast?_eq_none_iff.1 hlast
    rfl
  | some pair =>
    obtain ⟨rest, rfl⟩ := List.getLast?_eq_some_iff.1 hlast
    rw [List.dropLast_concat]
    exact (pop?_eq_some_iff (aligned_ofPairs _)).2
      ⟨aligned_ofPairs rest, (push_ofPairs rest pair.1 pair.2).symm⟩

theorem popFront?_ofPairs (pairs : List (K × A)) : (ofPairs pairs).popFront? =
    pairs.head?.map fun pair => (pair, ofPairs pairs.tail) := by
  cases pairs with
  | nil => rfl
  | cons pair pairs => exact popFront?_eq_some_iff.2 (pushFront_ofPairs pairs pair.1 pair.2).symm

theorem split_ofPairs (pairs : List (K × A)) (middle : Nat) : (ofPairs pairs).split middle =
    (ofPairs (pairs.take middle), ofPairs (pairs.drop middle)) := by
  obtain ⟨hlower, hupper⟩ := pairs_split (ofPairs pairs) middle
  obtain ⟨halower, haupper⟩ := (aligned_ofPairs pairs).split middle
  rw [pairs_ofPairs] at hlower hupper
  -- The halves are aligned, so they are the two sides of their pairs.
  rw [← hlower, ← hupper, ← halower.eq_ofPairs, ← haupper.eq_ofPairs]

theorem append_ofPairs (pairs pairs' : List (K × A)) :
    (ofPairs pairs).append (ofPairs pairs') = ofPairs (pairs ++ pairs') := by
  have ha := aligned_ofPairs pairs
  rw [(ha.append (aligned_ofPairs pairs')).eq_ofPairs, pairs_append ha, pairs_ofPairs,
    pairs_ofPairs]

/-- Another item beside a key leaves the keys as they are. -/
theorem ofPairs_set_item (hi : pairs[i]? = some pair) (a : A) :
    ofPairs (pairs.set i (pair.1, a)) =
      ⟨(ofPairs pairs).keys, (ofPairs pairs).items.set i a⟩ := by
  obtain ⟨hlt, rfl⟩ := List.getElem?_eq_some_iff.1 hi
  have hsame : (pairs.map Prod.fst).set i pairs[i].1 = pairs.map Prod.fst := by
    rw [← List.map_set, List.set_getElem_self]
  simp [ofPairs, List.map_set, hsame]

/-- Another key beside an item leaves the items as they are. -/
theorem ofPairs_set_key (hi : pairs[i]? = some pair) (k : K) :
    ofPairs (pairs.set i (k, pair.2)) =
      ⟨(ofPairs pairs).keys.set i k, (ofPairs pairs).items⟩ := by
  obtain ⟨hlt, rfl⟩ := List.getElem?_eq_some_iff.1 hi
  have hsame : (pairs.map Prod.snd).set i pairs[i].2 = pairs.map Prod.snd := by
    rw [← List.map_set, List.set_getElem_self]
  simp [ofPairs, List.map_set, hsame]

end OrderedIndex.Columns
