import OrderedIndex.Fault
import OrderedIndex.Proofs.Ascending

/-!
# The reference

What an ordered index is meant to be: a list of entries with ascending keys.  Each operation walks
along the list and stops at the first key that is not below the search key.  On a list that is
divided by the search key, this changes the part in the middle.
-/

namespace OrderedIndex.Reference

variable {K V : Type}

/-- The value under a key, if it is present. -/
def find? (cut : Cut K) : List (K × V) → Option V
  | [] => none
  | (k, v) :: entries => match cut k with
    | .lt => find? cut entries
    | .eq => some v
    | .gt => none

/-- Adds an entry, or writes over the value if the key is present; the stored key then stays. -/
def insert [Ord K] (k : K) (v : V) : List (K × V) → List (K × V)
  | [] => [(k, v)]
  | (k', v') :: entries => match compare k' k with
    | .lt => (k', v') :: insert k v entries
    | .eq => (k', v) :: entries
    | .gt => (k, v) :: (k', v') :: entries

/-- Removes the entry of a key, if it is present. -/
def erase (cut : Cut K) : List (K × V) → List (K × V)
  | [] => []
  | (k, v) :: entries => match cut k with
    | .lt => (k, v) :: erase cut entries
    | .eq => entries
    | .gt => (k, v) :: entries

/-- Writes over the value under a key, if it is present. -/
def replace (cut : Cut K) (v : V) : List (K × V) → List (K × V)
  | [] => []
  | (k, v') :: entries => match cut k with
    | .lt => (k, v') :: replace cut v entries
    | .eq => (k, v) :: entries
    | .gt => (k, v') :: entries

/-- The value of a key that has to be present. -/
def orNotFound : Option V → Except KeyError V
  | some v => .ok v
  | none => .error .notFound

/-- Adds entries in their order. -/
def insertMany [Ord K] : List (K × V) → List (K × V) → List (K × V)
  | [], entries => entries
  | (k, v) :: more, entries => insertMany more (insert k v entries)

/-- The old values when entries are added in their order. -/
def displaced [Ord K] : List (K × V) → List (K × V) → List (Option V)
  | [], _ => []
  | (k, v) :: more, entries => find? (.of k) entries :: displaced more (insert k v entries)

/-! ## Divided entries -/

section Below

variable {cut : Cut K} {lower : List (K × V)} (entries : List (K × V)) {k : K} {v : V}

theorem find?_below (hlow : ∀ entry ∈ lower, cut entry.1 = .lt) :
    find? cut (lower ++ entries) = find? cut entries := by
  -- By induction on the entries below, each of which the walk passes.
  induction lower with
  | nil => rfl
  | cons entry lower ih =>
    rw [List.forall_mem_cons] at hlow
    simp [find?, hlow.1, ih hlow.2]

theorem insert_below [Ord K] (hlow : ∀ entry ∈ lower, compare entry.1 k = .lt) :
    insert k v (lower ++ entries) = lower ++ insert k v entries := by
  induction lower with
  | nil => rfl
  | cons entry lower ih =>
    rw [List.forall_mem_cons] at hlow
    simp [insert, hlow.1, ih hlow.2]

theorem erase_below (hlow : ∀ entry ∈ lower, cut entry.1 = .lt) :
    erase cut (lower ++ entries) = lower ++ erase cut entries := by
  induction lower with
  | nil => rfl
  | cons entry lower ih =>
    rw [List.forall_mem_cons] at hlow
    simp [erase, hlow.1, ih hlow.2]

theorem replace_below (hlow : ∀ entry ∈ lower, cut entry.1 = .lt) :
    replace cut v (lower ++ entries) = lower ++ replace cut v entries := by
  induction lower with
  | nil => rfl
  | cons entry lower ih =>
    rw [List.forall_mem_cons] at hlow
    simp [replace, hlow.1, ih hlow.2]

end Below

section Divided

variable {cut : Cut K} {lower upper : List (K × V)} {pair : K × V} {k : K} {v : V}

theorem find?_of_mem (hd : cut.Divides lower [pair] upper) :
    find? cut (lower ++ [pair] ++ upper) = some pair.2 := by
  have hsame := hd.same pair (List.mem_singleton_self _)
  simp [find?_below _ hd.below, find?, hsame]

theorem find?_of_not_mem (hd : cut.Divides lower [] upper) :
    find? cut (lower ++ [] ++ upper) = none := by
  rw [List.append_nil, find?_below _ hd.below]
  -- The walk stops at the first key above.
  cases upper with
  | nil => rfl
  | cons entry upper =>
    have habove := hd.above entry (List.mem_cons_self ..)
    simp [find?, habove]

theorem insert_of_mem [Ord K] (hd : (Cut.of k).Divides lower [pair] upper) :
    insert k v (lower ++ [pair] ++ upper) = lower ++ [(pair.1, v)] ++ upper := by
  have hsame : compare pair.1 k = .eq := hd.same pair (List.mem_singleton_self _)
  rw [List.append_assoc, insert_below _ hd.below]
  simp [insert, hsame]

theorem insert_of_not_mem [Ord K] (hd : (Cut.of k).Divides lower [] upper) :
    insert k v (lower ++ [] ++ upper) = lower ++ [(k, v)] ++ upper := by
  rw [List.append_nil, insert_below _ hd.below]
  -- A new key comes in front of the first one above, or last.
  cases upper with
  | nil => simp [insert]
  | cons entry upper =>
    have habove : compare entry.1 k = .gt := hd.above entry (List.mem_cons_self ..)
    simp [insert, habove]

theorem erase_of_mem (hd : cut.Divides lower [pair] upper) :
    erase cut (lower ++ [pair] ++ upper) = lower ++ upper := by
  have hsame := hd.same pair (List.mem_singleton_self _)
  rw [List.append_assoc, erase_below _ hd.below]
  simp [erase, hsame]

theorem erase_of_not_mem (hd : cut.Divides lower [] upper) :
    erase cut (lower ++ [] ++ upper) = lower ++ [] ++ upper := by
  rw [List.append_nil, erase_below _ hd.below]
  cases upper with
  | nil => rfl
  | cons entry upper =>
    have habove := hd.above entry (List.mem_cons_self ..)
    simp [erase, habove]

theorem replace_of_mem (hd : cut.Divides lower [pair] upper) :
    replace cut v (lower ++ [pair] ++ upper) = lower ++ [(pair.1, v)] ++ upper := by
  have hsame := hd.same pair (List.mem_singleton_self _)
  rw [List.append_assoc, replace_below _ hd.below]
  simp [replace, hsame]

theorem replace_of_not_mem (hd : cut.Divides lower [] upper) :
    replace cut v (lower ++ [] ++ upper) = lower ++ [] ++ upper := by
  rw [List.append_nil, replace_below _ hd.below]
  cases upper with
  | nil => rfl
  | cons entry upper =>
    have habove := hd.above entry (List.mem_cons_self ..)
    simp [replace, habove]

end Divided

/-! ## Ascending keys -/

section Order

variable [Ord K] [Std.TransOrd K]

/-- A key that is absent fits between those below and those above. -/
theorem ascending_of_divides {lower upper : List (K × V)} {k : K} {v : V}
    (hd : (Cut.of k).Divides lower [] upper)
    (ha : Ascending ((lower ++ [] ++ upper).map Prod.fst)) :
    Ascending ((lower ++ [(k, v)] ++ upper).map Prod.fst) := by
  have hlow : ∀ entry ∈ lower, compare entry.1 k = .lt := hd.below
  have hup : ∀ entry ∈ upper, compare k entry.1 = .lt := fun entry hentry =>
    Std.OrientedCmp.lt_of_gt (hd.above entry hentry)
  -- Each key below comes before the new one and each key above comes after it.
  rw [List.append_nil, List.map_append] at ha
  obtain ⟨hlower, hupper, hacross⟩ := List.pairwise_append.1 ha
  rw [List.append_assoc, List.map_append]
  refine List.pairwise_append.2 ⟨hlower, List.pairwise_cons.2 ⟨?_, hupper⟩, ?_⟩
  · intro b hb
    obtain ⟨entry, hentry, rfl⟩ := List.mem_map.1 hb
    exact hup entry hentry
  · intro a ha' b hb
    rcases List.mem_cons.1 hb with rfl | hb
    · obtain ⟨entry, hentry, rfl⟩ := List.mem_map.1 ha'
      exact hlow entry hentry
    · exact hacross a ha' b hb

end Order

end OrderedIndex.Reference
