import Mathlib.Data.List.Nodup
import OrderedIndex.Arena.Basic

/-!
# The view of an arena

What each operation does to `get?`, and that the stack of released slots lists exactly the empty
ones (`Sound`), which is why `alloc` never hands out a slot that is in use.
-/

namespace OrderedIndex.Arena

variable {α : Type} {arena : Arena α} {h : Handle} {x : α}

/-! ## Reading -/

theorem handle_eq_of_index_eq {g h : Handle} (he : g.index = h.index) : g = h := by
  cases g
  cases h
  exact congrArg Handle.mk he

theorem access_eq_ok_iff {vacant : Fault} :
    arena.access vacant h = .ok x ↔ arena.get? h = some x := by
  unfold access get?
  cases hs : arena.slots[h.index]? with
  | none => simp
  | some slot => cases slot <;> simp

theorem get_eq_ok_iff : arena.get h = .ok x ↔ arena.get? h = some x :=
  access_eq_ok_iff

theorem index_lt_of_get? (hx : arena.get? h = some x) : h.index < arena.slots.size := by
  unfold get? at hx
  by_cases hlt : h.index < arena.slots.size
  · exact hlt
  · simp [Array.getElem?_eq_none (Nat.le_of_not_lt hlt)] at hx

@[simp] theorem get?_empty : (empty : Arena α).get? h = none := by
  simp [empty, get?]

/-! ## Writing -/

/-- A written slot holds what was written, and the others hold what they held. -/
private theorem join_setIfInBounds {slots : Array (Option α)} {o : Option α}
    (hlt : h.index < slots.size) (g : Handle) :
    (slots.setIfInBounds h.index o)[g.index]?.join =
      if g = h then o else slots[g.index]?.join := by
  by_cases hg : g = h
  · subst hg
    simp [hlt]
  · -- Handles are told apart by their index alone.
    have hne : h.index ≠ g.index := fun he => hg (handle_eq_of_index_eq he).symm
    simp [hg, Array.getElem?_setIfInBounds_ne hne]

theorem get?_put (hx : (arena.get? h).isSome) (y : α) (g : Handle) :
    (arena.put h y).get? g = if g = h then some y else arena.get? g := by
  obtain ⟨z, hz⟩ := Option.isSome_iff_exists.1 hx
  exact join_setIfInBounds (index_lt_of_get? hz) g

/-- Writing what a slot holds already changes nothing. -/
theorem put_of_get? (hx : arena.get? h = some x) : arena.put h x = arena := by
  have hlt := index_lt_of_get? hx
  have hslot : arena.slots[h.index] = some x := by
    simpa [get?, Array.getElem?_eq_getElem hlt] using hx
  unfold put
  rw [← hslot, Array.setIfInBounds_def, dif_pos hlt, Array.set_getElem_self]

theorem modify_eq_ok_iff {f : α → Except Fault α} {arena' : Arena α} :
    arena.modify h f = .ok arena' ↔
      ∃ x y, arena.get? h = some x ∧ f x = .ok y ∧ arena' = arena.put h y := by
  simp only [modify, bind_eq_ok_iff, access_eq_ok_iff, pure_eq_ok_iff]
  constructor
  · rintro ⟨x, hx, y, hy, rfl⟩
    exact ⟨x, y, hx, hy, rfl⟩
  · rintro ⟨x, y, hx, hy, rfl⟩
    exact ⟨x, hx, y, hy, rfl⟩

/-! ## Releasing and reusing slots -/

/-- The released slots are the empty ones, each once. -/
structure Sound (arena : Arena α) : Prop where
  nodup : arena.released.Nodup
  mem_released_iff (h : Handle) :
    h ∈ arena.released ↔ h.index < arena.slots.size ∧ arena.get? h = none

theorem sound_empty : (empty : Arena α).Sound where
  nodup := List.nodup_nil
  mem_released_iff h := by simp [empty]

theorem Sound.put (hs : arena.Sound) (hx : (arena.get? h).isSome) (y : α) :
    (arena.put h y).Sound where
  nodup := hs.nodup
  mem_released_iff g := by
    rw [get?_put hx]
    by_cases hg : g = h
    · subst hg
      -- A slot that has been written was in use, so it is not among the released ones.
      have hne : arena.get? g ≠ none := by
        intro hn
        simp [hn] at hx
      simp [Arena.put, hs.mem_released_iff, hne]
    · simp [Arena.put, hs.mem_released_iff, hg]

theorem take_eq_ok_iff {arena' : Arena α} :
    arena.take h = .ok (x, arena') ↔ arena.get? h = some x ∧
      arena' = ⟨arena.slots.setIfInBounds h.index none, h :: arena.released⟩ := by
  simp only [take, bind_eq_ok_iff, access_eq_ok_iff, pure_eq_ok_iff, Prod.mk.injEq]
  constructor
  · rintro ⟨y, hy, rfl, rfl⟩
    exact ⟨hy, rfl⟩
  · rintro ⟨hx, rfl⟩
    exact ⟨x, hx, rfl, rfl⟩

/-- Taking an element out empties its slot, and no other. -/
theorem get?_take {arena' : Arena α} (ht : arena.take h = .ok (x, arena')) (g : Handle) :
    arena'.get? g = if g = h then none else arena.get? g := by
  obtain ⟨hx, rfl⟩ := take_eq_ok_iff.1 ht
  exact join_setIfInBounds (index_lt_of_get? hx) g

theorem Sound.take {arena' : Arena α} (hs : arena.Sound) (ht : arena.take h = .ok (x, arena')) :
    arena'.Sound where
  nodup := by
    obtain ⟨hx, rfl⟩ := take_eq_ok_iff.1 ht
    -- It was in use, and the released slots are empty.
    have hnot : h ∉ arena.released := by
      intro hmem
      rw [((hs.mem_released_iff h).1 hmem).2] at hx
      cases hx
    exact List.nodup_cons.2 ⟨hnot, hs.nodup⟩
  mem_released_iff g := by
    rw [get?_take ht]
    obtain ⟨hx, rfl⟩ := take_eq_ok_iff.1 ht
    have hlt := index_lt_of_get? hx
    by_cases hg : g = h
    · subst hg
      simp [hlt]
    · simp [hg, hs.mem_released_iff]

/-- The slot that `alloc` hands out was not in use. -/
theorem get?_alloc_fst (hs : arena.Sound) (y : α) : arena.get? (arena.alloc y).1 = none := by
  unfold alloc
  split
  next g rest hr =>
    -- A reused slot is one of the released ones, and those are empty; a new one is behind all
    -- others.
    have hmem : g ∈ arena.released := by simp [hr]
    exact ((hs.mem_released_iff g).1 hmem).2
  next => simp [get?]

/-- A new element stands in the slot that is handed out, and the other slots keep theirs. -/
theorem get?_alloc (hs : arena.Sound) (y : α) (g : Handle) :
    (arena.alloc y).2.get? g = if g = (arena.alloc y).1 then some y else arena.get? g := by
  unfold alloc
  split
  next h rest hr =>
    have hmem : h ∈ arena.released := by simp [hr]
    exact join_setIfInBounds ((hs.mem_released_iff h).1 hmem).1 g
  next =>
    by_cases hg : g = ⟨arena.slots.size⟩
    · subst hg
      simp [get?]
    · have hne : g.index ≠ arena.slots.size := fun he => hg (handle_eq_of_index_eq he)
      simp [get?, hg, Array.getElem?_push, hne]

theorem Sound.alloc (hs : arena.Sound) (y : α) : (arena.alloc y).2.Sound where
  nodup := by
    unfold Arena.alloc
    split
    next g rest hr =>
      have hnodup := hs.nodup
      rw [hr] at hnodup
      exact (List.nodup_cons.1 hnodup).2
    next => exact List.nodup_nil
  mem_released_iff g := by
    rw [get?_alloc hs]
    have hiff := hs.mem_released_iff g
    have hnodup := hs.nodup
    unfold Arena.alloc
    split
    next h rest hr =>
      rw [hr] at hiff hnodup
      have hnot := (List.nodup_cons.1 hnodup).1
      by_cases hg : g = h
      · subst hg
        simp [hnot]
      · simpa [hg] using hiff
    next hr =>
      rw [hr] at hiff
      by_cases hg : g = ⟨arena.slots.size⟩
      · simp [hg]
      · have hne : g.index ≠ arena.slots.size := fun he => hg (handle_eq_of_index_eq he)
        -- The new slot is the only index that there was not before.
        have hlt : g.index < arena.slots.size + 1 ↔ g.index < arena.slots.size := by omega
        simpa [hg, hlt] using hiff

/-- A checked allocation faults exactly where a slot beyond the capacity would be needed, and is the
unchecked one everywhere else. -/
theorem allocChecked_eq (arena : Arena α) (x : α) : arena.allocChecked x =
    if arena.released = [] ∧ Handle.maxIndex ≤ arena.slotCount then .error .arenaFull
    else .ok (arena.alloc x) := by
  unfold allocChecked alloc slotCount
  cases arena.released with
  | cons h rest => simp
  | nil =>
    -- A slot below the bound can be named, so only the first of the two checks can fail.
    by_cases hroom : arena.slots.size < Handle.maxIndex
    · have hindex : Handle.ofIndex arena.slots.size = .ok ⟨arena.slots.size⟩ :=
        Handle.ofIndex_eq_ok_iff.2 ⟨Nat.le_of_lt hroom, rfl⟩
      simp [hroom, hindex]
    · simp [hroom, Nat.le_of_not_lt hroom]

/-- Below the capacity a checked allocation is an unchecked one. -/
theorem allocChecked_of_room (hroom : arena.slotCount < Handle.maxIndex) (x : α) :
    arena.allocChecked x = .ok (arena.alloc x) := by
  rw [allocChecked_eq]
  exact if_neg fun hfull => absurd hfull.2 (Nat.not_le_of_lt hroom)

/-! ## Arenas without empty slots -/

/-- The arena with the given elements in its first slots. -/
def ofList (elements : List α) : Arena α := ⟨(elements.map some).toArray, []⟩

theorem get?_ofList (elements : List α) (h : Handle) :
    (ofList elements).get? h = elements[h.index]? := by
  cases hx : elements[h.index]? with
  | none => simp [ofList, get?, hx]
  | some x => simp [ofList, get?, hx]

theorem sound_ofList (elements : List α) : (ofList elements).Sound where
  nodup := List.nodup_nil
  mem_released_iff h := by
    rw [get?_ofList]
    simp [ofList]

section Places

variable {handles : List Handle}

/-- Handles are distinct if they are, in some order, those of the first slots. -/
theorem nodup_of_perm_range {n : Nat} (hperm : (handles.map Handle.index).Perm (List.range n)) :
    handles.Nodup :=
  List.Nodup.of_map _ (hperm.nodup_iff.2 List.nodup_range)

/-- The slots in use are the first ones, as many as there are elements. -/
theorem isSome_get?_ofList {elements : List α}
    (hperm : (handles.map Handle.index).Perm (List.range elements.length)) (h : Handle) :
    ((ofList elements).get? h).isSome ↔ h ∈ handles := by
  have hindex : h.index < elements.length ↔ h.index ∈ handles.map Handle.index := by
    rw [hperm.mem_iff, List.mem_range]
  rw [get?_ofList, isSome_getElem?, hindex]
  exact List.mem_map_of_injective fun _ _ => handle_eq_of_index_eq

end Places

end OrderedIndex.Arena
