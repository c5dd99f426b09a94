import Mathlib.Data.List.Basic
import OrderedIndex.Search

/-!
# Ascending keys

A cut that agrees with the order divides ascending keys in three: those below the search key, at
most one that is equal to it, and those above.  The search among the keys finds the boundary between
these parts.
-/

namespace OrderedIndex

variable {K A : Type}

/-- Each key is below all that follow. -/
def Ascending [Ord K] (keys : List K) : Prop := keys.Pairwise fun a b => compare a b = .lt

namespace Cut

variable {cut : Cut K} {lower equal upper : List (K × A)}

/-- A cut divides pairs in three by their keys: below, equal to and above the search key. -/
structure Divides (cut : Cut K) (lower equal upper : List (K × A)) : Prop where
  below : ∀ pair ∈ lower, cut pair.1 = .lt
  same : ∀ pair ∈ equal, cut pair.1 = .eq
  above : ∀ pair ∈ upper, cut pair.1 = .gt
  length_le : equal.length ≤ 1

/-- At most one pair has the search key. -/
theorem Divides.equal_cases (hd : cut.Divides lower equal upper) :
    equal = [] ∨ ∃ pair, equal = [pair] :=
  (Nat.le_one_iff_eq_zero_or_eq_one.1 hd.length_le).imp List.length_eq_zero_iff.1
    List.length_eq_one_iff.1

/-- The pairs that follow those below are not below. -/
theorem Divides.ne_lt (hd : cut.Divides lower equal upper) {pair : K × A}
    (hpair : pair ∈ equal ++ upper) : cut pair.1 ≠ .lt := by
  rcases List.mem_append.1 hpair with heq | hup
  · simp [hd.same pair heq]
  · simp [hd.above pair hup]

/-- Without some pairs at both ends the rest is divided as before. -/
theorem Divides.inner {front back : List (K × A)}
    (hd : cut.Divides (front ++ lower) equal (upper ++ back)) : cut.Divides lower equal upper where
  below pair hpair := hd.below pair (List.mem_append_right _ hpair)
  same := hd.same
  above pair hpair := hd.above pair (List.mem_append_left _ hpair)
  length_le := hd.length_le

/-- A pair with the search key stands behind those that are below. -/
theorem Divides.position (hd : cut.Divides lower equal upper) {i : Nat} {pair : K × A}
    (hi : (lower ++ equal ++ upper)[i]? = some pair) (heq : cut pair.1 = .eq) :
    ∃ pair, equal = [pair] ∧ i = lower.length := by
  have hlower : pair ∉ lower := fun hmem => by simp [hd.below pair hmem] at heq
  have hupper : pair ∉ upper := fun hmem => by simp [hd.above pair hmem] at heq
  rw [List.append_assoc] at hi
  have hle : lower.length ≤ i := by
    apply Nat.le_of_not_lt
    intro hlt
    rw [List.getElem?_append_left hlt] at hi
    exact hlower (List.mem_of_getElem? hi)
  rw [List.getElem?_append_right hle] at hi
  rcases hd.equal_cases with rfl | ⟨only, rfl⟩
  · exact absurd (List.mem_of_getElem? hi) hupper
  · refine ⟨only, rfl, ?_⟩
    -- Behind the only pair with the key there are those above it.
    rcases Nat.eq_or_lt_of_le hle with hat | hbehind
    · exact hat.symm
    · rw [List.getElem?_append_right (Nat.sub_pos_of_lt hbehind)] at hi
      exact absurd (List.mem_of_getElem? hi) hupper

/-- A key of the stored type that equals a search key is looked for in the same way. -/
theorem Agrees.eq_of [Ord K] {k : K} (ha : cut.Agrees) (hk : cut k = .eq) : cut = .of k := by
  funext stored
  exact ha.eq_compare hk

/-- An agreeing cut sees what is above an equal key as above. -/
theorem Agrees.gt_of_eq [Ord K] [Std.TransOrd K] (ha : cut.Agrees) {a b : K}
    (heq : cut a = .eq) (hlt : compare a b = .lt) : cut b = .gt := by
  rw [ha.eq_compare heq]
  exact Std.OrientedCmp.gt_of_lt hlt

/-- An agreeing cut sees what is above a key that is not below as above. -/
theorem Agrees.gt_of_ne_lt [Ord K] [Std.TransOrd K] (ha : cut.Agrees) {a b : K}
    (hne : cut a ≠ .lt) (hlt : compare a b = .lt) : cut b = .gt := by
  cases hc : cut a with
  | lt => exact absurd hc hne
  | eq => exact ha.gt_of_eq hc hlt
  | gt => exact ha.gt_of_le (by rw [hlt]; rfl) hc

/-- Ascending keys are divided by every agreeing cut. -/
theorem exists_divides [Ord K] [Std.TransOrd K] (ha : cut.Agrees) (pairs : List (K × A))
    (hp : Ascending (pairs.map Prod.fst)) :
    ∃ lower equal upper, pairs = lower ++ equal ++ upper ∧ cut.Divides lower equal upper := by
  induction pairs with
  | nil => exact ⟨[], [], [], rfl, by simp, by simp, by simp, by simp⟩
  | cons pair pairs ih =>
    have hp' : (∀ q ∈ pairs, compare pair.1 q.1 = .lt) ∧ Ascending (pairs.map Prod.fst) := by
      simpa [Ascending] using hp
    -- All that follows is above the first key, so only a first key that is below leaves the
    -- rest to be divided.
    cases hc : cut pair.1 with
    | lt =>
      obtain ⟨lower, equal, upper, hsplit, hd⟩ := ih hp'.2
      refine ⟨pair :: lower, equal, upper, by rw [hsplit]; rfl, ?_, hd.same, hd.above,
        hd.length_le⟩
      intro q hq
      rcases List.mem_cons.1 hq with rfl | hq
      · exact hc
      · exact hd.below q hq
    | eq =>
      refine ⟨[], [pair], pairs, rfl, by simp, by simpa using hc, ?_, by simp⟩
      intro q hq
      exact ha.gt_of_eq hc (hp'.1 q hq)
    | gt =>
      refine ⟨[], [], pair :: pairs, rfl, by simp, by simp, ?_, by simp⟩
      intro q hq
      rcases List.mem_cons.1 hq with rfl | hq
      · exact hc
      · exact ha.gt_of_ne_lt (by rw [hc]; decide) (hp'.1 q hq)

end Cut

/-! ## The search -/

variable {cut : Cut K} {keys : List K}

/-- The window shrinks around the last key that is not above the search key; `p` counts the keys
that are not above. -/
private theorem narrow_eq {p : Nat} (hlow : ∀ i k, keys[i]? = some k → i < p → cut k ≠ .gt)
    (hup : ∀ i k, keys[i]? = some k → p ≤ i → cut k = .gt) (halvings : Nat) :
    ∀ start width, 1 ≤ width → width ≤ halvings → start + width ≤ keys.length →
      narrow cut keys halvings start width = max start (min (start + width - 1) (p - 1)) := by
  induction halvings with
  | zero =>
    intro start width hpos hle
    omega
  | succ halvings ih =>
    intro start width hpos hle hlen
    unfold narrow
    -- A window of one key is the answer; a wider one is halved at the key in its middle.
    by_cases hone : width ≤ 1
    · rw [if_pos hone]
      omega
    · have hmid : start + width / 2 < keys.length := by omega
      have hkey := List.getElem?_eq_getElem hmid
      simp only [hone, if_false, hkey]
      -- The middle key is above exactly if it is at or behind the boundary `p`.
      by_cases hp : p ≤ start + width / 2
      · rw [if_pos (hup _ _ hkey hp), ih start (width - width / 2) (by omega) (by omega) (by omega)]
        omega
      · rw [if_neg (hlow _ _ hkey (Nat.lt_of_not_le hp)),
          ih (start + width / 2) (width - width / 2) (by omega) (by omega) (by omega)]
        omega

/-- On divided keys the search looks at the last key that is not above, or at the first one. -/
private theorem narrow_of_divides {lower equal upper : List (K × A)}
    (hd : cut.Divides lower equal upper) (hk : keys = (lower ++ equal ++ upper).map Prod.fst)
    (hpos : 0 < keys.length) :
    narrow cut keys keys.length 0 keys.length = lower.length + equal.length - 1 := by
  have hlen : keys.length = lower.length + equal.length + upper.length := by
    simp [hk, Nat.add_assoc]
  -- The boundary is behind the equal key, or behind the lower ones where there is none.
  rw [narrow_eq (p := lower.length + equal.length) ?_ ?_ _ _ _ hpos (Nat.le_refl _) (by omega)]
  · omega
  · intro i k hi hlt
    obtain ⟨pair, hpair, rfl⟩ : ∃ pair, (lower ++ equal)[i]? = some pair ∧ pair.1 = k := by
      rw [hk, List.getElem?_map, List.getElem?_append_left (by simpa using hlt)] at hi
      simpa using hi
    rcases List.mem_append.1 (List.mem_of_getElem? hpair) with hmem | hmem
    · simp [hd.below pair hmem]
    · simp [hd.same pair hmem]
  · intro i k hi hge
    obtain ⟨pair, hpair, rfl⟩ : ∃ pair, upper[i - (lower ++ equal).length]? = some pair ∧
        pair.1 = k := by
      rw [hk, List.getElem?_map, List.getElem?_append_right (by simpa using hge)] at hi
      simpa using hi
    exact hd.above pair (List.mem_of_getElem? hpair)

/-- An equal key is found behind those below it. -/
theorem search_of_mem {lower upper : List (K × A)} {pair : K × A}
    (hd : cut.Divides lower [pair] upper) :
    search cut ((lower ++ [pair] ++ upper).map Prod.fst) = .found lower.length := by
  unfold search
  have hpos : 0 < ((lower ++ [pair] ++ upper).map Prod.fst).length := by
    simp only [List.length_map, List.length_append, List.length_singleton]
    omega
  -- The key that the search looks at is the equal one.
  rw [narrow_of_divides hd rfl hpos]
  have hsame : cut pair.1 = .eq := hd.same pair (by simp)
  simp [hsame]

/-- An absent key belongs behind those below it. -/
theorem search_of_not_mem {lower upper : List (K × A)} (hd : cut.Divides lower [] upper) :
    search cut ((lower ++ [] ++ upper).map Prod.fst) = .absent lower.length := by
  unfold search
  by_cases hpos : 0 < ((lower ++ [] ++ upper).map Prod.fst).length
  · rw [narrow_of_divides hd rfl hpos]
    rcases List.eq_nil_or_concat lower with rfl | ⟨lower, pair, rfl⟩
    · -- Nothing is below, so the first key is above.
      cases upper with
      | nil => simp at hpos
      | cons pair upper =>
        have habove : cut pair.1 = .gt := hd.above pair (by simp)
        simp [habove]
    · have hbelow : cut pair.1 = .lt := hd.below pair (by simp)
      simp [hbelow]
  · -- Without keys there is only one place.
    have hnil : lower = [] ∧ upper = [] := by
      simpa [List.length_eq_zero_iff] using hpos
    obtain ⟨rfl, rfl⟩ := hnil
    rfl

/-- Whether it is found or not, a key is looked for behind those below it. -/
theorem position_search {lower equal upper : List (K × A)} (hd : cut.Divides lower equal upper) :
    (search cut ((lower ++ equal ++ upper).map Prod.fst)).position = lower.length := by
  rcases hd.equal_cases with rfl | ⟨pair, rfl⟩
  · rw [search_of_not_mem hd]
    rfl
  · rw [search_of_mem hd]
    rfl

end OrderedIndex
