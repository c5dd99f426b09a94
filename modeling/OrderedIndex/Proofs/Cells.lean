import Mathlib.Data.Multiset.Range
import Mathlib.Data.Finset.Card
import Mathlib.Tactic.Abel
import OrderedIndex.Arena.Lemmas

/-!
# The cells of an arena

A cell is a handle with the element that it names.  What an arena holds is a bag of cells with
distinct handles.  Each operation exchanges, adds or removes one cell and leaves all the others as
they are, so a fact about some cells is not lost when another cell changes.
-/

namespace OrderedIndex.Arena

variable {α : Type} {arena : Arena α} {cells rest : Multiset (Handle × α)} {h : Handle} {x : α}

/-- The arena holds these cells and nothing else, and its released slots are the empty ones. -/
structure Holds (arena : Arena α) (cells : Multiset (Handle × α)) : Prop where
  sound : arena.Sound
  nodup : (cells.map Prod.fst).Nodup
  get?_iff (h : Handle) (x : α) : arena.get? h = some x ↔ (h, x) ∈ cells

namespace Holds

theorem of_eq {cells' : Multiset (Handle × α)} (hs : arena.Holds cells) (he : cells = cells') :
    arena.Holds cells' := he ▸ hs

/-! ## Reading -/

theorem get?_of_mem (hs : arena.Holds cells) (hx : (h, x) ∈ cells) : arena.get? h = some x :=
  (hs.get?_iff h x).2 hx

theorem get_of_mem (hs : arena.Holds cells) (hx : (h, x) ∈ cells) : arena.get h = .ok x :=
  get_eq_ok_iff.2 (hs.get?_of_mem hx)

/-- The handles in use are those of the cells. -/
theorem isSome_get?_iff (hs : arena.Holds cells) (h : Handle) :
    (arena.get? h).isSome ↔ h ∈ cells.map Prod.fst := by
  rw [Option.isSome_iff_exists, Multiset.mem_map]
  refine ⟨fun ⟨x, hx⟩ => ⟨(h, x), (hs.get?_iff h x).1 hx, rfl⟩, ?_⟩
  intro hmem
  obtain ⟨cell, hcell, rfl⟩ := hmem
  exact ⟨cell.2, hs.get?_of_mem hcell⟩

theorem get?_eq_none_iff (hs : arena.Holds cells) (h : Handle) :
    arena.get? h = none ↔ h ∉ cells.map Prod.fst := by
  rw [← hs.isSome_get?_iff, Option.not_isSome_iff_eq_none]

/-- The handle of one cell names no other. -/
theorem not_mem_rest (hs : arena.Holds ((h, x) ::ₘ rest)) : h ∉ rest.map Prod.fst := by
  have hnodup := hs.nodup
  rw [Multiset.map_cons] at hnodup
  exact (Multiset.nodup_cons.1 hnodup).1

theorem nodup_rest (hs : arena.Holds ((h, x) ::ₘ rest)) : (rest.map Prod.fst).Nodup := by
  have hnodup := hs.nodup
  rw [Multiset.map_cons] at hnodup
  exact (Multiset.nodup_cons.1 hnodup).2

/-- Each slot is in use or released, and none is both. -/
theorem card_add_length_released (hs : arena.Holds cells) :
    cells.card + arena.released.length = arena.slotCount := by
  -- The handles in use and the released ones are distinct and name the slots, each once.
  have hdisjoint : Disjoint (cells.map Prod.fst) (arena.released : Multiset Handle) := by
    refine Multiset.disjoint_left.2 fun {h} hlive hreleased => ?_
    exact (hs.get?_eq_none_iff h).1 ((hs.sound.mem_released_iff h).1 hreleased).2 hlive
  have hnodup : (cells.map Prod.fst + (arena.released : Multiset Handle)).Nodup :=
    Multiset.nodup_add.2 ⟨hs.nodup, Multiset.coe_nodup.2 hs.sound.nodup, hdisjoint⟩
  have hmem (h : Handle) : h ∈ cells.map Prod.fst + (arena.released : Multiset Handle) ↔
      h.index < arena.slotCount := by
    rw [Multiset.mem_add, Multiset.mem_coe, hs.sound.mem_released_iff, hs.get?_eq_none_iff]
    refine ⟨fun hcases => hcases.elim (fun hlive => ?_) And.left, fun hlt => ?_⟩
    · obtain ⟨x, hx⟩ := Option.isSome_iff_exists.1 ((hs.isSome_get?_iff h).2 hlive)
      exact index_lt_of_get? hx
    · exact (Decidable.em (h ∈ cells.map Prod.fst)).imp_right fun hfree => ⟨hlt, hfree⟩
  have hrange : (cells.map Prod.fst + (arena.released : Multiset Handle)).map Handle.index =
      Multiset.range arena.slotCount := by
    refine (Multiset.Nodup.ext (Multiset.Nodup.map_on ?_ hnodup) (Multiset.nodup_range _)).2 ?_
    · exact fun _ _ _ _ he => handle_eq_of_index_eq he
    · intro i
      rw [Multiset.mem_map, Multiset.mem_range]
      refine ⟨?_, fun hlt => ⟨⟨i⟩, (hmem ⟨i⟩).2 hlt, rfl⟩⟩
      rintro ⟨h, hh, rfl⟩
      exact (hmem h).1 hh
  simpa using congrArg Multiset.card hrange

/-- The number of elements is that of the cells. -/
theorem size_eq (hs : arena.Holds cells) : arena.size = cells.card := by
  have hslots := hs.card_add_length_released
  unfold Arena.size
  unfold Arena.slotCount at hslots
  omega

/-- There are no more cells than slots. -/
theorem card_le_slotCount (hs : arena.Holds cells) : cells.card ≤ arena.slotCount :=
  hs.card_add_length_released ▸ Nat.le_add_right _ _

/-! ## Writing -/

/-- A write exchanges the cell of its handle. -/
theorem put (hs : arena.Holds ((h, x) ::ₘ rest)) (y : α) :
    (arena.put h y).Holds ((h, y) ::ₘ rest) where
  sound := hs.sound.put (by rw [hs.get?_of_mem (Multiset.mem_cons_self _ _)]; rfl) y
  nodup := by
    rw [Multiset.map_cons]
    exact Multiset.nodup_cons.2 ⟨hs.not_mem_rest, hs.nodup_rest⟩
  get?_iff g z := by
    rw [get?_put (by rw [hs.get?_of_mem (Multiset.mem_cons_self _ _)]; rfl)]
    -- The slot that is written holds `y` now, since no other cell has its handle; what the other
    -- slots hold is as before.
    by_cases hg : g = h
    · subst hg
      have hnot : (g, z) ∉ rest := fun hmem => hs.not_mem_rest (Multiset.mem_map_of_mem _ hmem)
      simp [hnot, eq_comm]
    · have hiff := hs.get?_iff g z
      simp only [Multiset.mem_cons, Prod.mk.injEq, hg, false_and, false_or] at hiff
      simp [hg, hiff]

theorem modify_eq {f : α → Except Fault α} {y : α} (hs : arena.Holds ((h, x) ::ₘ rest))
    (hf : f x = .ok y) :
    arena.modify h f = .ok (arena.put h y) ∧ (arena.put h y).Holds ((h, y) ::ₘ rest) :=
  ⟨modify_eq_ok_iff.2 ⟨x, y, hs.get?_of_mem (Multiset.mem_cons_self _ _), hf, rfl⟩, hs.put y⟩

/-! ## Releasing and reusing slots -/

theorem empty : (Arena.empty : Arena α).Holds 0 where
  sound := sound_empty
  nodup := Multiset.nodup_zero
  get?_iff h x := by simp

/-- A new cell has a handle that was not in use. -/
theorem alloc (hs : arena.Holds cells) (x : α) :
    ∃ h arena', arena.alloc x = (h, arena') ∧ h ∉ cells.map Prod.fst ∧
      arena'.Holds ((h, x) ::ₘ cells) := by
  have hfresh : (arena.alloc x).1 ∉ cells.map Prod.fst :=
    (hs.get?_eq_none_iff _).1 (get?_alloc_fst hs.sound x)
  refine ⟨(arena.alloc x).1, (arena.alloc x).2, rfl, hfresh, hs.sound.alloc x, ?_, ?_⟩
  · rw [Multiset.map_cons]
    exact Multiset.nodup_cons.2 ⟨hfresh, hs.nodup⟩
  · intro g z
    rw [get?_alloc hs.sound]
    -- The new slot was empty, so no old cell has its handle.
    by_cases hg : g = (arena.alloc x).1
    · have hnot : (g, z) ∉ cells := fun hmem => hfresh (hg ▸ Multiset.mem_map_of_mem _ hmem)
      simp only [hg] at hnot
      simp [hg, hnot, eq_comm]
    · simp [hg, hs.get?_iff]

/-- Taking an element out removes its cell. -/
theorem take (hs : arena.Holds ((h, x) ::ₘ rest)) :
    ∃ arena', arena.take h = .ok (x, arena') ∧ arena'.Holds rest := by
  have ht := take_eq_ok_iff.2 ⟨hs.get?_of_mem (Multiset.mem_cons_self _ _), rfl⟩
  refine ⟨_, ht, hs.sound.take ht, hs.nodup_rest, ?_⟩
  intro g z
  rw [get?_take ht]
  -- The slot that was emptied has no cell left; the other slots hold what they held.
  by_cases hg : g = h
  · have hnot : (h, z) ∉ rest := fun hmem => hs.not_mem_rest (Multiset.mem_map_of_mem _ hmem)
    simp [hg, hnot]
  · have hiff := hs.get?_iff g z
    simp only [Multiset.mem_cons, Prod.mk.injEq, hg, false_and, false_or] at hiff
    simp [hg, hiff]

theorem free (hs : arena.Holds ((h, x) ::ₘ rest)) :
    ∃ arena', arena.free h = .ok arena' ∧ arena'.Holds rest := by
  obtain ⟨arena', ht, hs'⟩ := hs.take
  refine ⟨arena', ?_, hs'⟩
  unfold Arena.free
  rw [ht]
  rfl

end Holds

end OrderedIndex.Arena
