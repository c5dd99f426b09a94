import Mathlib.Data.Finmap
import OrderedIndex.Arena.Lemmas

/-!
# Allocation

To its user an arena is a finite map from handles to elements and a stack of released handles.  It
answers every sequence of requests as such a ledger does, whether the handles in it are live, have
been released or were never handed out.  The slots are no more than there were elements at one time,
so below the capacity every live element has a handle of its own that fits into a word.
-/

namespace OrderedIndex

variable {α : Type}

/-! ## Handles as words -/

namespace Handle

/-- The word in which a handle is kept.  It counts slots from 1, so zero is left for no handle. -/
def word (h : Handle) : UInt32 := .ofNat (h.index + 1)

/-- The handle that is kept in a word. -/
def ofWord? (word : UInt32) : Option Handle :=
  if word = 0 then none else some ⟨word.toNat - 1⟩

variable {g h : Handle}

theorem toNat_word (hle : h.index ≤ maxIndex) : h.word.toNat = h.index + 1 := by
  have hlt : h.index + 1 < 2 ^ 32 := by
    unfold maxIndex at hle
    omega
  exact UInt32.toNat_ofNat_of_lt' hlt

/-- A handle is read back from its word. -/
theorem ofWord?_word (hle : h.index ≤ maxIndex) : ofWord? h.word = some h := by
  have hword := toNat_word hle
  have hne : h.word ≠ 0 := by
    intro hzero
    rw [hzero] at hword
    simp at hword
  unfold ofWord?
  rw [if_neg hne, hword, Nat.add_sub_cancel]

/-- Every word but zero keeps a handle. -/
theorem exists_word_eq {word : UInt32} (hne : word ≠ 0) :
    ∃ h : Handle, h.index ≤ maxIndex ∧ h.word = word := by
  -- All words but zero are one more than a number up to the largest one of a handle.
  have hpos : 0 < word.toNat := Nat.pos_of_ne_zero fun hzero => hne (UInt32.toNat_inj.1 hzero)
  have hlt : word.toNat < 2 ^ 32 := word.toNat_lt
  have hle : word.toNat - 1 ≤ maxIndex := by
    unfold maxIndex
    omega
  refine ⟨⟨word.toNat - 1⟩, hle, UInt32.toNat_inj.1 ?_⟩
  rw [toNat_word hle]
  exact Nat.sub_add_cancel hpos

theorem word_inj (hg : g.index ≤ maxIndex) (hh : h.index ≤ maxIndex) : g.word = h.word ↔ g = h := by
  constructor
  · intro hsame
    have hboth : ofWord? g.word = ofWord? h.word := by rw [hsame]
    rw [ofWord?_word hg, ofWord?_word hh] at hboth
    exact Option.some.inj hboth
  · rintro rfl
    rfl

end Handle

namespace Arena

/-! ## Requests -/

/-- What an arena can be asked to do. -/
inductive Request (α : Type) where
  | alloc (x : α)
  | get (h : Handle)
  /-- A search for an element, and a write over it where there is one. -/
  | write (h : Handle) (x : α)
  | take (h : Handle)
  | free (h : Handle)
  | clear

/-- The handle through which a request reaches for an element. -/
def Request.handle? : Request α → Option Handle
  | .get h | .write h _ | .take h | .free h => some h
  | .alloc _ | .clear => none

/-- What a request answers. -/
inductive Reply (α : Type) where
  | handle (h : Handle)
  | element (x : α)
  | done

/-- The answer of a step that may fail, and the state afterwards: a failed step keeps the state. -/
def settle {σ β ρ : Type} (state : σ) (reply : β → ρ) :
    Except Fault (β × σ) → Except Fault ρ × σ
  | .ok (x, next) => (.ok (reply x), next)
  | .error fault => (.error fault, state)

/-- Moves an element out in place: the slot is emptied first, whatever it holds, and is released
only if it has held an element. -/
def takeInPlace (arena : Arena α) (h : Handle) : Except Fault α × Arena α :=
  match arena.slots[h.index]? with
  | none => (.error (.outOfBounds arena.slots.size h.index), arena)
  | some slot =>
    let arena := { arena with slots := arena.slots.setIfInBounds h.index none }
    match slot with
    | none => (.error .vacantTake, arena)
    | some x => (.ok x, { arena with released := h :: arena.released })

/-- Does what is requested. -/
def perform (arena : Arena α) : Request α → Except Fault (Reply α) × Arena α
  | .alloc x =>
    let (h, arena) := arena.alloc x
    (.ok (.handle h), arena)
  | .get h => ((arena.get h).map .element, arena)
  | .write h x => settle arena .element (arena.replace h x)
  | .take h =>
    let (taken, arena) := arena.takeInPlace h
    (taken.map .element, arena)
  | .free h => settle arena (fun () => .done) ((arena.free h).map fun next => ((), next))
  | .clear => (.ok .done, arena.clear)

/-- Does what is requested in sequence. -/
def run (arena : Arena α) : List (Request α) → List (Except Fault (Reply α)) × Arena α
  | [] => ([], arena)
  | request :: requests =>
    let (reply, arena) := arena.perform request
    let (replies, arena) := run arena requests
    (reply :: replies, arena)

/-! ## Ledgers -/

/-- The account of an arena: which element each live handle names, and what has been released. -/
structure Ledger (α : Type) where
  elements : Finmap fun _ : Handle => α
  /-- The handles that have been released and not handed out again, the last one in front. -/
  released : List Handle
  /-- The number of handles that have ever been handed out. -/
  issued : Nat
  /-- The largest number of elements that there have been at one time. -/
  peak : Nat

namespace Ledger

/-- The ledger of a new arena. -/
def opened : Ledger α := ⟨∅, [], 0, 0⟩

/-- The number of elements. -/
def live (ledger : Ledger α) : Nat := ledger.elements.keys.card

/-- The element that a handle names; `vacant` is the fault of a released handle. -/
def find (ledger : Ledger α) (vacant : Fault) (h : Handle) : Except Fault α :=
  match ledger.elements.lookup h with
  | some x => .ok x
  | none => .error (if h.index < ledger.issued then vacant else .outOfBounds ledger.issued h.index)

/-- Enters an element under a handle. -/
def enter (ledger : Ledger α) (h : Handle) (x : α) : Ledger α :=
  let elements := ledger.elements.insert h x
  { ledger with elements, peak := max ledger.peak elements.keys.card }

/-- Enters an element under the handle released last, or under the next one that has never been
handed out. -/
def alloc (ledger : Ledger α) (x : α) : Handle × Ledger α :=
  match ledger.released with
  | h :: rest => (h, { ledger.enter h x with released := rest })
  | [] => (⟨ledger.issued⟩, { ledger.enter ⟨ledger.issued⟩ x with issued := ledger.issued + 1 })

/-- Strikes an element out, and releases its handle. -/
def strike (ledger : Ledger α) (h : Handle) : Ledger α :=
  { ledger with elements := ledger.elements.erase h, released := h :: ledger.released }

/-- Enters an element in the place of another one, and answers the old one. -/
def replace (ledger : Ledger α) (h : Handle) (x : α) : Except Fault (α × Ledger α) := do
  let old ← ledger.find .vacantWrite h
  return (old, ledger.enter h x)

/-- Strikes an element out that must be there, and answers it. -/
def take (ledger : Ledger α) (h : Handle) : Except Fault (α × Ledger α) := do
  let x ← ledger.find .vacantTake h
  return (x, ledger.strike h)

/-- Accounts for what is requested. -/
def perform (ledger : Ledger α) : Request α → Except Fault (Reply α) × Ledger α
  | .alloc x =>
    let (h, ledger) := ledger.alloc x
    (.ok (.handle h), ledger)
  | .get h => ((ledger.find .vacantRead h).map .element, ledger)
  | .write h x => settle ledger .element (ledger.replace h x)
  | .take h => settle ledger .element (ledger.take h)
  | .free h => settle ledger (fun _ => .done) (ledger.take h)
  | .clear => (.ok .done, opened)

/-- Accounts for what is requested in sequence. -/
def run (ledger : Ledger α) : List (Request α) → List (Except Fault (Reply α)) × Ledger α
  | [] => ([], ledger)
  | request :: requests =>
    let (reply, ledger) := ledger.perform request
    let (replies, ledger) := run ledger requests
    (reply :: replies, ledger)

/-! ## The number of elements -/

variable {ledger : Ledger α} {h : Handle}

theorem keys_insert (elements : Finmap fun _ : Handle => α) (h : Handle) (x : α) :
    (elements.insert h x).keys = insert h elements.keys := by
  ext g
  simp [Finmap.mem_keys]

theorem live_enter_of_mem (hmem : h ∈ ledger.elements) (x : α) :
    (ledger.enter h x).live = ledger.live := by
  unfold live enter
  rw [keys_insert, Finset.insert_eq_of_mem (Finmap.mem_keys.2 hmem)]

theorem live_enter_of_notMem (hnot : h ∉ ledger.elements) (x : α) :
    (ledger.enter h x).live = ledger.live + 1 := by
  unfold live enter
  rw [keys_insert, Finset.card_insert_of_notMem (fun hkey => hnot (Finmap.mem_keys.1 hkey))]

theorem peak_enter (x : α) :
    (ledger.enter h x).peak = max ledger.peak (ledger.enter h x).live := rfl

theorem lookup_enter (g : Handle) (x : α) :
    (ledger.enter h x).elements.lookup g =
      if g = h then some x else ledger.elements.lookup g := by
  by_cases hg : g = h
  · rw [if_pos hg, hg]
    exact Finmap.lookup_insert _
  · rw [if_neg hg]
    exact Finmap.lookup_insert_of_ne _ hg

theorem lookup_strike (g : Handle) :
    (ledger.strike h).elements.lookup g = if g = h then none else ledger.elements.lookup g := by
  by_cases hg : g = h
  · rw [if_pos hg, hg]
    exact Finmap.lookup_erase _ _
  · rw [if_neg hg]
    exact Finmap.lookup_erase_ne hg

theorem live_strike (hmem : h ∈ ledger.elements) : (ledger.strike h).live + 1 = ledger.live := by
  unfold live strike
  rw [Finmap.keys_erase]
  exact Finset.card_erase_add_one (Finmap.mem_keys.2 hmem)

end Ledger

variable {arena : Arena α} {ledger : Ledger α} {h : Handle} {x : α}

/-! ## What keeps an arena and its ledger together -/

theorem access_eq (vacant : Fault) : arena.access vacant h =
    match arena.get? h with
    | some x => .ok x
    | none =>
      .error (if h.index < arena.slots.size then vacant
        else .outOfBounds arena.slots.size h.index) := by
  -- A slot within the bounds is in use or vacant, and one beyond them is never in use.
  unfold access get?
  by_cases hlt : h.index < arena.slots.size
  · rw [Array.getElem?_eq_getElem hlt, if_pos hlt]
    cases arena.slots[h.index] with
    | none => rfl
    | some x => rfl
  · rw [Array.getElem?_eq_none (Nat.le_of_not_lt hlt), if_neg hlt]
    rfl

/-- Taken in place or not, an element is moved out alike; where there is none, nothing changes. -/
theorem takeInPlace_eq : arena.takeInPlace h = settle arena id (arena.take h) := by
  unfold takeInPlace take access
  by_cases hlt : h.index < arena.slots.size
  · rw [Array.getElem?_eq_getElem hlt]
    cases hslot : arena.slots[h.index] with
    | none =>
      -- The slot that is emptied has been empty before.
      have hsame : arena.slots.setIfInBounds h.index none = arena.slots := by
        rw [Array.setIfInBounds_def, dif_pos hlt, ← hslot, Array.set_getElem_self]
      simp only [hsame]
      rfl
    | some x => rfl
  · rw [Array.getElem?_eq_none (Nat.le_of_not_lt hlt)]
    rfl

theorem perform_take : arena.perform (.take h) = settle arena .element (arena.take h) := by
  simp only [perform, takeInPlace_eq]
  cases arena.take h with
  | error fault => rfl
  | ok taken => rfl

theorem perform_free : arena.perform (.free h) = settle arena (fun _ => .done) (arena.take h) := by
  simp only [perform, Arena.free]
  cases arena.take h with
  | error fault => rfl
  | ok taken => rfl

/-- A ledger accounts for an arena. -/
structure Keeps (arena : Arena α) (ledger : Ledger α) : Prop where
  sound : arena.Sound
  lookup (h : Handle) : arena.get? h = ledger.elements.lookup h
  released : arena.released = ledger.released
  issued : arena.slots.size = ledger.issued
  live : ledger.live + ledger.released.length = ledger.issued
  peak : ledger.peak = ledger.issued

namespace Keeps

theorem opened : (empty : Arena α).Keeps .opened where
  sound := sound_empty
  lookup _ := get?_empty
  released := rfl
  issued := rfl
  live := rfl
  peak := rfl

theorem mem_iff (hk : arena.Keeps ledger) : h ∈ ledger.elements ↔ (arena.get? h).isSome := by
  rw [hk.lookup]
  exact Finmap.lookup_isSome.symm

theorem access_eq (hk : arena.Keeps ledger) (vacant : Fault) :
    arena.access vacant h = ledger.find vacant h := by
  rw [Arena.access_eq, hk.lookup, hk.issued]
  rfl

/-- The handle of a new element was not in use. -/
theorem notMem_alloc (hk : arena.Keeps ledger) (x : α) : (arena.alloc x).1 ∉ ledger.elements := by
  rw [hk.mem_iff, get?_alloc_fst hk.sound]
  exact Bool.false_ne_true

/-- A new element is entered under the handle that the arena gives it. -/
theorem alloc (hk : arena.Keeps ledger) (x : α) :
    (ledger.alloc x).1 = (arena.alloc x).1 ∧ (arena.alloc x).2.Keeps (ledger.alloc x).2 := by
  have hsound := hk.sound.alloc x
  have hget := get?_alloc hk.sound x
  have hfresh := hk.notMem_alloc x
  have hlive := hk.live
  have hpeak := hk.peak
  cases hr : ledger.released with
  | nil =>
    -- All handles are in use, so a new one is handed out, and there are more elements than ever.
    have halloc : arena.alloc x = (⟨ledger.issued⟩, ⟨arena.slots.push (some x), []⟩) := by
      unfold Arena.alloc
      rw [hk.released, hr, ← hk.issued]
    have hledger : ledger.alloc x = (⟨ledger.issued⟩,
        { ledger.enter ⟨ledger.issued⟩ x with issued := ledger.issued + 1 }) := by
      unfold Ledger.alloc
      rw [hr]
    rw [halloc] at hsound hget hfresh ⊢
    rw [hledger]
    rw [hr, List.length_nil] at hlive
    have hmore := Ledger.live_enter_of_notMem hfresh x
    refine ⟨rfl, hsound, ?_, hr.symm, ?_, ?_, ?_⟩
    · intro g
      rw [hget, hk.lookup]
      exact (Ledger.lookup_enter g x).symm
    · rw [Array.size_push, hk.issued]
    · change (ledger.enter ⟨ledger.issued⟩ x).live + ledger.released.length = ledger.issued + 1
      rw [hr, hmore, List.length_nil]
      omega
    · change (ledger.enter ⟨ledger.issued⟩ x).peak = ledger.issued + 1
      rw [Ledger.peak_enter, hmore]
      omega
  | cons h rest =>
    -- A released handle is handed out again, so there have been as many elements before.
    have halloc : arena.alloc x = (h, ⟨arena.slots.setIfInBounds h.index (some x), rest⟩) := by
      unfold Arena.alloc
      rw [hk.released, hr]
    have hledger : ledger.alloc x = (h, { ledger.enter h x with released := rest }) := by
      unfold Ledger.alloc
      rw [hr]
    rw [halloc] at hsound hget hfresh ⊢
    rw [hledger]
    rw [hr, List.length_cons] at hlive
    have hmore := Ledger.live_enter_of_notMem (h := h) hfresh x
    refine ⟨rfl, hsound, ?_, rfl, ?_, ?_, ?_⟩
    · intro g
      rw [hget, hk.lookup]
      exact (Ledger.lookup_enter g x).symm
    · rw [Array.size_setIfInBounds, hk.issued]
      rfl
    · change (ledger.enter h x).live + rest.length = ledger.issued
      omega
    · change (ledger.enter h x).peak = ledger.issued
      rw [Ledger.peak_enter, hmore]
      omega

/-- A write is entered under the handle of the old element. -/
theorem put (hk : arena.Keeps ledger) (hmem : h ∈ ledger.elements) (x : α) :
    (arena.put h x).Keeps (ledger.enter h x) where
  sound := hk.sound.put (hk.mem_iff.1 hmem) x
  lookup g := by rw [get?_put (hk.mem_iff.1 hmem), Ledger.lookup_enter, hk.lookup]
  released := hk.released
  issued := Array.size_setIfInBounds.trans hk.issued
  live := by
    rw [Ledger.live_enter_of_mem hmem]
    exact hk.live
  peak := by
    have hlive := hk.live
    rw [Ledger.peak_enter, Ledger.live_enter_of_mem hmem, hk.peak]
    exact max_eq_left (Nat.le_of_add_right_le (Nat.le_of_eq hlive))

/-- An element that is taken is struck out. -/
theorem strike (hk : arena.Keeps ledger) {arena' : Arena α} (ht : arena.take h = .ok (x, arena')) :
    arena'.Keeps (ledger.strike h) := by
  obtain ⟨hx, harena⟩ := take_eq_ok_iff.1 ht
  have hmem : h ∈ ledger.elements := hk.mem_iff.2 (Option.isSome_of_eq_some hx)
  refine ⟨hk.sound.take ht, ?_, ?_, ?_, ?_, hk.peak⟩
  · intro g
    rw [get?_take ht, Ledger.lookup_strike, hk.lookup]
  · rw [harena, Ledger.strike, hk.released]
  · rw [harena]
    exact Array.size_setIfInBounds.trans hk.issued
  · have hfewer := Ledger.live_strike hmem
    have hlive := hk.live
    change (ledger.strike h).live + (ledger.released.length + 1) = ledger.issued
    omega

/-- A step of the arena and one of the ledger have the same outcome. -/
def Alike (step : Except Fault (α × Arena α)) (step' : Except Fault (α × Ledger α)) : Prop :=
  match step, step' with
  | .error fault, .error fault' => fault = fault'
  | .ok (x, arena), .ok (x', ledger) => x = x' ∧ arena.Keeps ledger
  | _, _ => False

theorem replace (hk : arena.Keeps ledger) (h : Handle) (x : α) :
    Alike (arena.replace h x) (ledger.replace h x) := by
  unfold Arena.replace Ledger.replace
  rw [← hk.access_eq]
  cases haccess : arena.access .vacantWrite h with
  | error fault => exact rfl
  | ok old =>
    have hmem : h ∈ ledger.elements :=
      hk.mem_iff.2 (Option.isSome_of_eq_some (access_eq_ok_iff.1 haccess))
    exact ⟨rfl, hk.put hmem x⟩

theorem take (hk : arena.Keeps ledger) (h : Handle) : Alike (arena.take h) (ledger.take h) := by
  unfold Ledger.take
  rw [← hk.access_eq]
  cases haccess : arena.access .vacantTake h with
  | error fault =>
    have htake : arena.take h = .error fault := by
      unfold Arena.take
      rw [haccess]
      rfl
    rw [htake]
    exact rfl
  | ok x =>
    have htake := take_eq_ok_iff.2 ⟨access_eq_ok_iff.1 haccess, rfl⟩
    rw [htake]
    exact ⟨rfl, hk.strike htake⟩

/-- Steps with the same outcome are answered alike, and the ledger goes on to keep the arena. -/
theorem settle (hk : arena.Keeps ledger) {step : Except Fault (α × Arena α)}
    {step' : Except Fault (α × Ledger α)} (ha : Alike step step') (reply : α → Reply α) :
    (settle arena reply step).1 = (settle ledger reply step').1 ∧
      (settle arena reply step).2.Keeps (settle ledger reply step').2 := by
  -- The steps have failed both, and with the same fault, or neither of them has.
  match step, step', ha with
  | .error fault, .error fault', hfault => exact ⟨congrArg Except.error hfault, hk⟩
  | .ok (x, arena'), .ok (x', ledger'), ⟨hx, hk'⟩ =>
    exact ⟨congrArg (fun x => Except.ok (reply x)) hx, hk'⟩

/-- A request is answered as it is accounted for, and the ledger goes on to keep the arena. -/
theorem perform (hk : arena.Keeps ledger) (request : Request α) :
    (arena.perform request).1 = (ledger.perform request).1 ∧
      (arena.perform request).2.Keeps (ledger.perform request).2 := by
  -- By the kind of request: each is a step of the arena with its counterpart in the ledger.
  cases request with
  | alloc x =>
    obtain ⟨hhandle, hkeeps⟩ := hk.alloc x
    exact ⟨congrArg (fun h => Except.ok (Reply.handle h)) hhandle.symm, hkeeps⟩
  | get h =>
    refine ⟨?_, hk⟩
    change (arena.access .vacantRead h).map _ = _
    rw [hk.access_eq]
    rfl
  | write h x => exact hk.settle (hk.replace h x) .element
  | take h =>
    rw [perform_take]
    exact hk.settle (hk.take h) .element
  | free h =>
    rw [perform_free]
    exact hk.settle (hk.take h) _
  | clear => exact ⟨rfl, .opened⟩

/-- Requests in sequence are answered as they are accounted for. -/
theorem run (hk : arena.Keeps ledger) (requests : List (Request α)) :
    (arena.run requests).1 = (ledger.run requests).1 ∧
      (arena.run requests).2.Keeps (ledger.run requests).2 := by
  -- Each request leaves an arena that a ledger keeps, from which the next one starts.
  induction requests generalizing arena ledger with
  | nil => exact ⟨rfl, hk⟩
  | cons request requests ih =>
    obtain ⟨hreply, hk₁⟩ := hk.perform request
    obtain ⟨hreplies, hk₂⟩ := ih hk₁
    exact ⟨congrArg₂ List.cons hreply hreplies, hk₂⟩

/-! ## What a ledger tells of its arena -/

/-- The handles that have been released are those that were handed out and name no element. -/
theorem mem_released_iff (hk : arena.Keeps ledger) :
    h ∈ ledger.released ↔ h.index < ledger.issued ∧ h ∉ ledger.elements := by
  rw [← hk.released, hk.sound.mem_released_iff, hk.issued, hk.mem_iff,
    Option.not_isSome_iff_eq_none]

theorem size_eq (hk : arena.Keeps ledger) : arena.size = ledger.live := by
  unfold size
  rw [hk.released, hk.issued, ← hk.live, Nat.add_sub_cancel]

theorem slotCount_eq (hk : arena.Keeps ledger) : arena.slotCount = ledger.peak :=
  hk.issued.trans hk.peak.symm

theorem index_lt (hk : arena.Keeps ledger) (hmem : h ∈ ledger.elements) :
    h.index < ledger.peak := by
  obtain ⟨x, hx⟩ := Option.isSome_iff_exists.1 (hk.mem_iff.1 hmem)
  rw [← hk.slotCount_eq]
  exact index_lt_of_get? hx

/-- A request for an element that is not there fails, and changes nothing. -/
theorem perform_of_notMem (hk : arena.Keeps ledger) (hnot : h ∉ ledger.elements)
    {request : Request α} (hhandle : request.handle? = some h) :
    ∃ fault, arena.perform request = (.error fault, arena) := by
  have hnone : arena.get? h = none := Option.not_isSome_iff_eq_none.1 fun hsome =>
    hnot (hk.mem_iff.2 hsome)
  -- Each request that reaches for an element looks into its slot first.
  have haccess (vacant : Fault) : ∃ fault, arena.access vacant h = .error fault := by
    rw [Arena.access_eq, hnone]
    exact ⟨_, rfl⟩
  cases request with
  | alloc x => cases hhandle
  | get g =>
    obtain rfl := Option.some.inj hhandle
    obtain ⟨fault, hfault⟩ := haccess .vacantRead
    refine ⟨fault, ?_⟩
    simp only [Arena.perform, get, hfault]
    rfl
  | write g x =>
    obtain rfl := Option.some.inj hhandle
    obtain ⟨fault, hfault⟩ := haccess .vacantWrite
    refine ⟨fault, ?_⟩
    simp only [Arena.perform, Arena.replace, hfault]
    rfl
  | take g =>
    obtain rfl := Option.some.inj hhandle
    obtain ⟨fault, hfault⟩ := haccess .vacantTake
    refine ⟨fault, ?_⟩
    rw [perform_take, Arena.take, hfault]
    rfl
  | free g =>
    obtain rfl := Option.some.inj hhandle
    obtain ⟨fault, hfault⟩ := haccess .vacantTake
    refine ⟨fault, ?_⟩
    rw [perform_free, Arena.take, hfault]
    rfl
  | clear => cases hhandle

/-- Below the capacity, the number of a new element is one that handles are made from. -/
theorem ofIndex_alloc (hk : arena.Keeps ledger) (hroom : ledger.peak < Handle.maxIndex) (x : α) :
    Handle.ofIndex (arena.alloc x).1.index = .ok (arena.alloc x).1 := by
  -- A number that is handed out again is that of a slot, and a new one is the next after them.
  have hle : (arena.alloc x).1.index ≤ arena.slotCount := by
    unfold Arena.alloc
    cases hr : arena.released with
    | nil => exact Nat.le_refl _
    | cons h rest =>
      have hmem : h ∈ arena.released := hr ▸ List.mem_cons_self
      exact Nat.le_of_lt ((hk.sound.mem_released_iff h).1 hmem).1
  rw [hk.slotCount_eq] at hle
  exact Handle.ofIndex_eq_ok_iff.2 ⟨hle.trans (Nat.le_of_lt hroom), rfl⟩

/-- The ledger tells when a checked allocation faults: nothing has been released, and there have
been as many elements at one time as handles can name. -/
theorem allocChecked_eq (hk : arena.Keeps ledger) (x : α) : arena.allocChecked x =
    if ledger.released = [] ∧ Handle.maxIndex ≤ ledger.peak then .error .arenaFull
    else .ok (arena.alloc x) := by
  rw [Arena.allocChecked_eq, hk.released, hk.slotCount_eq]

end Keeps

/-! ## Every sequence of requests -/

/-- An arena answers as its ledger does.  For every sequence of requests to a new arena, with
handles of any kind, the replies are those of a finite map and a stack of released handles, faults
included; afterwards each handle names what the map has under it, the released handles are those
that were handed out and name nothing, each once, and there are as many slots as there have been
elements at one time.  A new element gets a handle that was not in use, and a request for an element
that is not there fails and changes nothing.  Handles and the numbers up to the largest one are made
from each other and back; so below the capacity a new element gets the handle of its number, and
different elements have handles that are different words.  An allocation that respects the capacity
is the same one, but for a fault where all the slots that handles can name are in use. -/
theorem run_keeps_ledger (requests : List (Request α)) :
    ∃ replies arena ledger,
      (empty : Arena α).run requests = (replies, arena) ∧
      Ledger.opened.run requests = (replies, ledger) ∧
      (∀ h, arena.get? h = ledger.elements.lookup h) ∧
      arena.released = ledger.released ∧ ledger.released.Nodup ∧
      (∀ h, h ∈ ledger.released ↔ h.index < ledger.issued ∧ h ∉ ledger.elements) ∧
      arena.size = ledger.live ∧ arena.slotCount = ledger.peak ∧
      (∀ x, (arena.alloc x).1 ∉ ledger.elements) ∧
      (∀ request h, request.handle? = some h → h ∉ ledger.elements →
        ∃ fault, arena.perform request = (.error fault, arena)) ∧
      (∀ index ≤ Handle.maxIndex, ∃ h, Handle.ofIndex index = .ok h ∧ h.index = index ∧
        Handle.ofWord? h.word = some h) ∧
      (∀ word ≠ 0, ∃ h, Handle.ofIndex h.index = .ok h ∧ h.word = word) ∧
      (ledger.peak < Handle.maxIndex →
        ∀ x, Handle.ofIndex (arena.alloc x).1.index = .ok (arena.alloc x).1) ∧
      (∀ x, arena.allocChecked x =
        if ledger.released = [] ∧ Handle.maxIndex ≤ ledger.peak then .error .arenaFull
        else .ok (arena.alloc x)) ∧
      (ledger.peak ≤ Handle.maxIndex →
        ∀ g ∈ ledger.elements, ∀ h ∈ ledger.elements, g.word = h.word → g = h) := by
  obtain ⟨hreplies, hk⟩ := Keeps.opened.run requests
  refine ⟨_, _, (Ledger.opened.run requests).2, rfl, Prod.ext hreplies.symm rfl, hk.lookup,
    hk.released, hk.released ▸ hk.sound.nodup, fun _ => hk.mem_released_iff, hk.size_eq,
    hk.slotCount_eq, hk.notMem_alloc, ?_, ?_, ?_, hk.ofIndex_alloc, hk.allocChecked_eq, ?_⟩
  · intro request h hhandle hnot
    exact hk.perform_of_notMem hnot hhandle
  · intro index hle
    exact ⟨⟨index⟩, Handle.ofIndex_eq_ok_iff.2 ⟨hle, rfl⟩, rfl, Handle.ofWord?_word hle⟩
  · intro word hne
    obtain ⟨h, hle, hword⟩ := Handle.exists_word_eq hne
    exact ⟨h, Handle.ofIndex_eq_ok_iff.2 ⟨hle, rfl⟩, hword⟩
  · intro hroom g hg h hh hword
    have hle {f : Handle} (hmem : f ∈ (Ledger.opened.run requests).2.elements) :
        f.index ≤ Handle.maxIndex := Nat.le_of_lt ((hk.index_lt hmem).trans_le hroom)
    exact (Handle.word_inj (hle hg) (hle hh)).1 hword

/-- A handle that has been released twice stands on the stack once, so two new elements never share
a slot. -/
theorem run_keeps_ledger_released :
    ∃ arena : Arena Nat,
      (empty : Arena Nat).run [.alloc 10, .alloc 20, .free ⟨0⟩, .take ⟨0⟩, .get ⟨0⟩, .write ⟨7⟩ 1,
          .alloc 30, .alloc 40, .get ⟨0⟩] =
        ([.ok (.handle ⟨0⟩), .ok (.handle ⟨1⟩), .ok .done, .error .vacantTake, .error .vacantRead,
          .error (.outOfBounds 2 7), .ok (.handle ⟨0⟩), .ok (.handle ⟨2⟩), .ok (.element 30)],
          arena) ∧
      arena.slotCount = 3 ∧ arena.size = 3 := by
  obtain ⟨replies, arena, ledger, hrun, hledger, -, -, -, -, hsize, hslots, -⟩ :=
    run_keeps_ledger (α := Nat) [.alloc 10, .alloc 20, .free ⟨0⟩, .take ⟨0⟩, .get ⟨0⟩, .write ⟨7⟩ 1,
      .alloc 30, .alloc 40, .get ⟨0⟩]
  -- What the ledger answers is what the arena answers.
  obtain ⟨rfl, rfl⟩ := Prod.mk.inj hledger
  exact ⟨arena, hrun, hslots, hsize⟩

end Arena

end OrderedIndex
