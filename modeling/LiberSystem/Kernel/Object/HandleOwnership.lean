import LiberSystem.Kernel.Object.HandleMoves

/-!
# Who owns a slot

`TableInv t taken` says that every index of the table has at most one owner: a capability, a
transfer in flight, an entry of the free list or of the booking list.
-/

namespace LiberSystem

open Multiset HandleTable

namespace HandleTable

def owners (t : HandleTable) (i : Nat) : Nat :=
  (t.slotAt i).cap.isSome.toNat + (t.slotAt i).reserved.toNat + t.free.count i + t.booked.count i

end HandleTable

theorem one_le_u32Max : 1 ≤ u32Max := Nat.le_of_ble_eq_true rfl

/-- The invariant of one index. -/
structure SlotInv (t : HandleTable) (taken : Multiset Handle) (i : Nat) : Prop where
  owned : t.owners i ≤ 1
  unowned : t.owners i = 0 → i < t.slots.length →
    (t.slotAt i).generation = u32Max ∨ t.closed = true
  generation : i < t.slots.length →
    1 ≤ (t.slotAt i).generation ∧ (t.slotAt i).generation ≤ u32Max
  inFlight : taken.filter (fun h => h.index = i) =
    if (t.slotAt i).reserved then {Handle.new (t.slotAt i).generation i} else 0
  outside : t.slots.length ≤ i → t.owners i = 0

/-- The invariant of a table whose unresolved transfers are `taken`. -/
structure TableInv (t : HandleTable) (taken : Multiset Handle) : Prop where
  length_le : t.slots.length ≤ 2 ^ 32
  slot : ∀ i, SlotInv t taken i

namespace SlotInv

variable {t t' : HandleTable} {taken taken' : Multiset Handle} {i : Nat}

variable (h : SlotInv t taken i)

include h

theorem frame (hlen : t'.slots.length = t.slots.length)
    (hslot : t'.slotAt i = t.slotAt i) (hfree : t'.free.count i = t.free.count i)
    (hbooked : t'.booked.count i = t.booked.count i)
    (hclosed : t.closed → t'.closed)
    (htaken : taken'.filter (fun h => h.index = i) = taken.filter (fun h => h.index = i)) :
    SlotInv t' taken' i := by
  have hown : t'.owners i = t.owners i := by
    simp only [owners,hslot,hfree,hbooked]
  refine ⟨by rw [hown]; exact h.owned,?_,?_,?_,?_⟩
  · intro h0 hi
    rw [hown] at h0
    rw [hlen] at hi
    rw [hslot]
    exact (h.unowned h0 hi).imp id hclosed
  · intro hi
    rw [hslot]
    exact h.generation (hlen ▸ hi)
  · rw [htaken,hslot]
    exact h.inFlight
  · intro hi
    rw [hown]
    exact h.outside (hlen ▸ hi)

theorem lt_length (hown : t.owners i ≠ 0) : i < t.slots.length := by
  by_contra hge
  exact hown (h.outside (by omega))

theorem of_listed (hpos : 0 < t.free.count i + t.booked.count i) :
    i < t.slots.length ∧ (t.slotAt i).cap = none ∧ (t.slotAt i).reserved = false ∧
      t.free.count i + t.booked.count i = 1 := by
  have hown := h.owned
  have hlt : i < t.slots.length := h.lt_length (by unfold owners; omega)
  unfold owners at hown
  refine ⟨hlt,?_,?_,by omega⟩
  · cases hc : (t.slotAt i).cap with
    | none => rfl
    | some c => simp [hc] at hown; omega
  · cases hr : (t.slotAt i).reserved with
    | false => rfl
    | true => simp [hr] at hown; omega

theorem of_cap {cap : Capability} (hc : (t.slotAt i).cap = some cap) :
    i < t.slots.length ∧ (t.slotAt i).reserved = false ∧
      t.free.count i = 0 ∧ t.booked.count i = 0 := by
  have hown := h.owned
  have hlt : i < t.slots.length := h.lt_length (by simp [owners,hc])
  simp only [owners,hc,Option.isSome_some,Bool.toNat_true] at hown
  refine ⟨hlt,?_,by omega,by omega⟩
  cases hr : (t.slotAt i).reserved with
  | false => rfl
  | true => simp [hr] at hown; omega

theorem of_reserved (hr : (t.slotAt i).reserved) : i < t.slots.length ∧ (t.slotAt i).cap = none ∧
      t.free.count i = 0 ∧ t.booked.count i = 0 := by
  have hown := h.owned
  have hlt : i < t.slots.length := h.lt_length (by simp [owners,hr])
  simp only [owners,hr,Bool.toNat_true] at hown
  refine ⟨hlt,?_,by omega,by omega⟩
  cases hc : (t.slotAt i).cap with
  | none => rfl
  | some c => simp [hc] at hown; omega

end SlotInv

namespace TableInv

variable {t : HandleTable} {taken : Multiset Handle}

theorem new (domain : Option DomainId) : TableInv (HandleTable.new domain) 0 := by
  refine ⟨by simp [HandleTable.new],fun i => ?_⟩
  have hown : (HandleTable.new domain).owners i = 0 := by
    simp [HandleTable.owners,HandleTable.slotAt,HandleTable.new]
  refine ⟨by omega,?_,?_,?_,fun _ => hown⟩
  · intro _ hi
    simp [HandleTable.new] at hi
  · intro hi
    simp [HandleTable.new] at hi
  · simp [HandleTable.slotAt,HandleTable.new]

variable {t' : HandleTable} {taken' : Multiset Handle} {i index : Nat} {slot : Slot}
  {booked free : List Nat} {cap : Capability} {hd : Handle}

section

variable (h : TableInv t taken)

include h

/-- An operation that writes one slot, and moves no other index on or off a list,
keeps the invariant if the slot it writes has at most one owner. -/
theorem setSlot (hi : i < t.slots.length) (hslots : t'.slots = t.slots.set i slot)
    (hclosed : t.closed → t'.closed)
    (hlists : ∀ j, j ≠ i → t'.free.count j = t.free.count j ∧ t'.booked.count j = t.booked.count j ∧
      taken'.filter (fun h => h.index = j) = taken.filter (fun h => h.index = j))
    (howned : slot.cap.isSome.toNat + slot.reserved.toNat + t'.free.count i + t'.booked.count i ≤ 1)
    (hunowned : slot.cap.isSome.toNat + slot.reserved.toNat + t'.free.count i +
      t'.booked.count i = 0 → slot.generation = u32Max ∨ t'.closed)
    (hgen : 1 ≤ slot.generation ∧ slot.generation ≤ u32Max)
    (hflight : taken'.filter (fun h => h.index = i) =
      if slot.reserved then {Handle.new slot.generation i} else 0) :
    TableInv t' taken' := by
  have hslot := slotAt_of_set hslots hi
  have hlen : t'.slots.length = t.slots.length := by rw [hslots,List.length_set]
  refine ⟨by rw [hlen]; exact h.length_le,fun j => ?_⟩
  by_cases hj : j = i
  · subst hj
    have hself : t'.slotAt j = slot := by rw [hslot,if_pos rfl]
    refine ⟨?_,?_,?_,?_,?_⟩
    · rwa [owners,hself]
    · rw [owners,hself]
      exact fun h0 _ => hunowned h0
    · rw [hself]
      exact fun _ => hgen
    · rwa [hself]
    · intro hge
      omega
  · obtain ⟨hfree,hbooked,htaken⟩ := hlists j hj
    exact (h.slot j).frame hlen (by rw [hslot,if_neg hj]) hfree hbooked hclosed htaken

theorem fill (cap : Capability) (hpop : t.free = index :: free ∧ t.booked = booked ∨
      t.free = free ∧ t.booked = index :: booked) :
    TableInv { t with free := free, booked := booked,
                      slots := t.slots.set index { t.slotAt index with cap := some cap } }
      taken := by
  have hi := h.slot index
  obtain ⟨hlt,-,hres,hone⟩ := hi.of_listed (by grind)
  have hzero : free.count index = 0 ∧ booked.count index = 0 := by grind
  refine h.setSlot hlt rfl id ?_ ?_ ?_ (hi.generation hlt) hi.inFlight
  · intro j hj
    grind
  · simp [hres,hzero]
  · simp

theorem append (hlen : t.slots.length < 2 ^ 32)
    {cap : Option Capability} (hslots : t'.slots = t.slots ++ [Slot.mk cap 1 false])
    (hfree : t'.free = t.free) (hclosed : t'.closed = t.closed)
    (hcap : cap.isSome ∧ t'.booked = t.booked ∨
      cap = none ∧ t'.booked = t.slots.length :: t.booked) :
    TableInv t' taken := by
  have hslot := slotAt_of_append hslots
  have hlen' : t'.slots.length = t.slots.length + 1 := by
    rw [hslots,List.length_append,List.length_singleton]
  refine ⟨by omega,fun j => ?_⟩
  have hold := h.slot j
  by_cases hj : j = t.slots.length
  · subst hj
    have hself : t'.slotAt t.slots.length = Slot.mk cap 1 false := by rw [hslot,if_pos rfl]
    have hnew : (t.slotAt t.slots.length).reserved = false := by simp [slotAt]
    have hown : t'.owners t.slots.length = 1 := by
      have hout := hold.outside (le_rfl)
      unfold owners at hout ⊢
      rw [hself,hfree]
      rcases hcap with ⟨hc,hb⟩ | ⟨rfl,hb⟩
      · simp only [hb,hc,Bool.toNat_true,Bool.toNat_false]
        omega
      · simp only [hb,List.count_cons_self,Option.isSome_none,Bool.toNat_false]
        omega
    refine ⟨by omega,by omega,?_,?_,by omega⟩
    · rw [hself]
      exact fun _ => ⟨Nat.le_refl 1,one_le_u32Max⟩
    · rw [hold.inFlight,hself,hnew,if_neg Bool.false_ne_true,if_neg Bool.false_ne_true]
  · have hsame : t'.slotAt j = t.slotAt j := by rw [hslot,if_neg hj]
    have hown : t'.owners j = t.owners j := by
      have hcount : t'.booked.count j = t.booked.count j := by grind
      rw [owners,owners,hsame,hcount,hfree]
    refine ⟨by rw [hown]; exact hold.owned,?_,?_,?_,?_⟩
    · intro h0 hlt
      rw [hsame,hclosed]
      exact hold.unowned (hown ▸ h0) (by omega)
    · intro hlt
      rw [hsame]
      exact hold.generation (by omega)
    · rw [hsame]
      exact hold.inFlight
    · intro hge
      rw [hown]
      exact hold.outside (by omega)

theorem move (hmove : t.free = index :: free ∧ booked = index :: t.booked ∨
      t.booked = index :: booked ∧ free = index :: t.free) :
    TableInv { t with free := free, booked := booked } taken := by
  have hi := h.slot index
  obtain ⟨hlt,hcap,hres,hone⟩ := hi.of_listed (by grind)
  have hone' : free.count index + booked.count index = 1 := by grind
  refine h.setSlot hlt (t.set_slotAt index).symm id ?_ ?_ ?_ (hi.generation hlt) hi.inFlight
  · intro j hj
    grind
  · simp [hcap,hres,hone']
  · simp [hcap,hres]
    omega

theorem forget_booked (hclosed : t.closed) (hb : t.booked = index :: booked) :
    TableInv { t with booked := booked } taken := by
  have hi := h.slot index
  obtain ⟨hlt,hcap,hres,hone⟩ := hi.of_listed (by grind)
  have hzero : t.free.count index = 0 ∧ booked.count index = 0 := by grind
  refine h.setSlot hlt (t.set_slotAt index).symm id ?_ ?_ ?_ (hi.generation hlt) hi.inFlight
  · intro j hj
    grind
  · simp [hcap,hres,hzero]
  · exact fun _ => .inr hclosed

theorem recycle (hi : i < t.slots.length) (hcap : slot.cap = none) (hres : slot.reserved = false)
    (hfree : t.free.count i = 0) (hbooked : t.booked.count i = 0)
    (htaken : ∀ j, j ≠ i →
      taken'.filter (fun h => h.index = j) = taken.filter (fun h => h.index = j))
    (hflight : taken'.filter (fun h => h.index = i) = 0) :
    TableInv (t.recycle slot i) taken' := by
  have hmod : i % 2 ^ 32 = i := Nat.mod_eq_of_lt (by have := h.length_le; omega)
  unfold HandleTable.recycle retireOrRecycle
  rw [hmod]
  by_cases hlast : slot.generation + 1 ≤ u32Max
  · rw [if_pos hlast]
    refine h.setSlot hi rfl id ?_ ?_ ?_ ⟨by simp,hlast⟩ ?_
    · intro j hj
      exact ⟨List.count_cons_of_ne (Ne.symm hj),rfl,htaken j hj⟩
    · simp [hcap,hres,hfree,hbooked]
    · simp
    · simp [hflight,hres]
  · rw [if_neg hlast]
    refine h.setSlot hi rfl id ?_ ?_ ?_ ⟨one_le_u32Max,le_rfl⟩ ?_
    · exact fun j hj => ⟨rfl,rfl,htaken j hj⟩
    · simp [hcap,hres,hfree,hbooked]
    · exact fun _ => .inl rfl
    · simp [hflight,hres]

theorem recycle_live (hc : (t.slotAt i).cap = some cap) :
    TableInv (t.recycle { t.slotAt i with cap := none } i) taken := by
  obtain ⟨hi,hres,hfree,hbooked⟩ := (h.slot i).of_cap hc
  have hflight := (h.slot i).inFlight
  rw [hres,if_neg Bool.false_ne_true] at hflight
  exact h.recycle hi rfl hres hfree hbooked (fun _ _ => rfl) hflight

variable (hmem : hd ∈ taken)
include hmem

theorem of_taken : (t.slotAt hd.index).reserved ∧
      Handle.new (t.slotAt hd.index).generation hd.index = hd ∧
      taken.filter (fun h => h.index = hd.index) = {hd} := by
  have hflight := (h.slot hd.index).inFlight
  have hin : hd ∈ taken.filter (fun h => h.index = hd.index) := mem_filter.mpr ⟨hmem,rfl⟩
  cases hres : (t.slotAt hd.index).reserved with
  | false =>
    rw [hflight,hres] at hin
    simp at hin
  | true =>
    rw [hres,if_pos rfl] at hflight
    rw [hflight,mem_singleton] at hin
    exact ⟨rfl,hin.symm,by rw [hflight,← hin]⟩

theorem taken_slot : hd.index < t.slots.length ∧ (t.slotAt hd.index).reserved ∧
      (t.slotAt hd.index).cap = none ∧ t.free.count hd.index = 0 ∧
      t.booked.count hd.index = 0 := by
  obtain ⟨hres,-,-⟩ := h.of_taken hmem
  obtain ⟨hi,hrest⟩ := (h.slot hd.index).of_reserved hres
  exact ⟨hi,hres,hrest⟩

theorem generation_of_taken : (t.slotAt hd.index).generation = hd.generation := by
  obtain ⟨-,hnew,-⟩ := h.of_taken hmem
  obtain ⟨hi,-⟩ := h.taken_slot hmem
  have hmax := ((h.slot hd.index).generation hi).2
  have hlt : (t.slotAt hd.index).generation < 2 ^ 32 := hmax.trans_lt (by decide)
  have hgen := Handle.generation_new hlt hd.index_lt
  rwa [hnew,eq_comm] at hgen

end

theorem filter_rest (h : TableInv t (hd ::ₘ taken)) :
    (∀ j, j ≠ hd.index → taken.filter (fun h => h.index = j) =
      (hd ::ₘ taken).filter (fun h => h.index = j)) ∧
    taken.filter (fun h => h.index = hd.index) = 0 := by
  obtain ⟨-,-,hone⟩ := h.of_taken (mem_cons_self hd taken)
  constructor
  · intro j hj
    exact (filter_cons_of_neg (p := fun h : Handle => h.index = j) taken (Ne.symm hj)).symm
  · rw [filter_cons_of_pos (p := fun h : Handle => h.index = hd.index) taken rfl] at hone
    exact (cons_inj_right hd).mp hone

theorem reserve_live (h : TableInv t taken) (hc : t.capOf hd = .ok cap) :
    TableInv { t with slots := t.slots.set hd.index
                        { t.slotAt hd.index with cap := none, reserved := true } }
      (hd ::ₘ taken) := by
  obtain ⟨hi,hgen,hcap⟩ := capOf_eq_ok_iff.mp hc
  obtain ⟨-,hres,hfree,hbooked⟩ := (h.slot hd.index).of_cap hcap
  have hflight := (h.slot hd.index).inFlight
  rw [hres,if_neg Bool.false_ne_true] at hflight
  refine h.setSlot hi rfl id ?_ ?_ ?_ ((h.slot hd.index).generation hi) ?_
  · intro j hj
    refine ⟨rfl,rfl,?_⟩
    exact filter_cons_of_neg taken (Ne.symm hj)
  · simp [hfree,hbooked]
  · simp
  · rw [filter_cons_of_pos (p := fun h : Handle => h.index = hd.index) taken rfl,hflight,if_pos rfl,
      hgen,Handle.new_generation_index]
    rfl

theorem resolve_taken (h : TableInv t (hd ::ₘ taken)) :
    TableInv (t.recycle { t.slotAt hd.index with reserved := false } hd.index) taken := by
  obtain ⟨hi,-,hcap,hfree,hbooked⟩ := h.taken_slot (mem_cons_self hd taken)
  obtain ⟨hother,hself⟩ := h.filter_rest
  exact h.recycle hi hcap rfl hfree hbooked hother hself

theorem restore_taken (h : TableInv t (hd ::ₘ taken)) (cap : Option Capability)
    (hcap : cap.isSome ∨ t.closed) :
    TableInv { t with slots := t.slots.set hd.index
                        { t.slotAt hd.index with cap := cap, reserved := false } } taken := by
  obtain ⟨hi,-,-,hfree,hbooked⟩ := h.taken_slot (mem_cons_self hd taken)
  obtain ⟨hother,hself⟩ := h.filter_rest
  refine h.setSlot hi rfl id (fun j hj => ⟨rfl,rfl,hother j hj⟩) ?_ ?_
    ((h.slot hd.index).generation hi) ?_
  · simp only [hfree,hbooked,Bool.toNat_false]
    exact Bool.toNat_le _
  · intro h0
    refine hcap.elim (fun hs => ?_) .inr
    simp [hs] at h0
  · rw [hself,if_neg Bool.false_ne_true]

/-- `close_all` leaves a reserved or booked slot alone, empties a live one, and puts
on the free list what is not at its last generation. -/
theorem sweep_slot (h : TableInv t taken) (hi : i < t.slots.length) : SlotInv t.swept taken i := by
  have hold := h.slot i
  have hslot := slotAt_swept hi
  have hfree := count_free_swept h.length_le hi
  have hmod : i % 2 ^ 32 = i := Nat.mod_eq_of_lt (by have := h.length_le; omega)
  have hout : t.swept.slots.length ≤ i → t.swept.owners i = 0 := by
    rw [t.length_swept]
    omega
  have hbooked : t.swept.booked.count i = t.booked.count i := rfl
  have hflight := hold.inFlight
  have hgen := hold.generation hi
  simp only [closeSlot,hmod] at hslot hfree
  by_cases hheld : ((t.slotAt i).reserved || t.booked.contains i)
  · rw [if_pos hheld] at hslot hfree
    have hzero : t.free.count i = 0 := by
      rw [Bool.or_eq_true,List.contains_iff_mem] at hheld
      rcases hheld with hres | hmem
      · exact (hold.of_reserved hres).2.2.1
      · have hpos := List.count_pos_iff.mpr hmem
        have hone := hold.of_listed (by omega)
        omega
    have hown : t.swept.owners i = t.owners i := by
      rw [owners,owners,hslot,hfree,hbooked,hzero]
      rfl
    refine ⟨by rw [hown]; exact hold.owned,fun _ _ => .inr rfl,?_,?_,hout⟩
    · rw [hslot]
      exact fun _ => hgen
    · rw [hslot]
      exact hflight
  rw [if_neg hheld] at hslot hfree
  rw [Bool.or_eq_true,List.contains_iff_mem,not_or,Bool.not_eq_true] at hheld
  obtain ⟨hres,hnot⟩ := hheld
  have hzero : t.booked.count i = 0 := List.count_eq_zero.mpr hnot
  rw [hres,if_neg Bool.false_ne_true] at hflight
  -- The three ways a slot that nobody holds back can be left.
  have hleft : (t.swept.slotAt i).cap = none ∧ (t.swept.slotAt i).reserved = false ∧
      1 ≤ (t.swept.slotAt i).generation ∧ (t.swept.slotAt i).generation ≤ u32Max ∧
      t.swept.free.count i ≤ 1 := by
    by_cases hcap : (t.slotAt i).cap.isSome
    · rw [if_pos hcap] at hslot hfree
      by_cases hlast : (t.slotAt i).generation + 1 ≤ u32Max
      · rw [if_pos hlast] at hslot hfree
        rw [hslot,hfree]
        exact ⟨rfl,hres,Nat.le_add_left 1 _,hlast,Nat.le_refl 1⟩
      · rw [if_neg hlast] at hslot hfree
        rw [hslot,hfree]
        exact ⟨rfl,hres,one_le_u32Max,le_rfl,Nat.zero_le 1⟩
    · rw [if_neg hcap] at hslot hfree
      rw [hslot,hfree]
      exact ⟨by simpa using hcap,hres,hgen.1,hgen.2,Bool.toNat_le _⟩
  obtain ⟨hcap',hres',hgen',hmax',hfree'⟩ := hleft
  refine ⟨?_,fun _ _ => .inr rfl,fun _ => ⟨hgen',hmax'⟩,?_,hout⟩
  · simp only [owners,hcap',hres',hbooked,hzero,Option.isSome_none,Bool.toNat_false]
    omega
  · rw [hres',if_neg Bool.false_ne_true,hflight]

theorem sweep (h : TableInv t taken) : TableInv t.swept taken := by
  refine ⟨by rw [t.length_swept]; exact h.length_le,fun i => ?_⟩
  by_cases hi : i < t.slots.length
  · exact h.sweep_slot hi
  have hge : t.slots.length ≤ i := by omega
  have hge' : t.swept.slots.length ≤ i := by rw [t.length_swept]; exact hge
  have hown := (h.slot i).outside hge
  have hown' : t.swept.owners i = 0 := by
    have hbooked : t.swept.booked.count i = t.booked.count i := rfl
    unfold owners at hown ⊢
    rw [slotAt_of_ge hge',count_free_swept_of_ge h.length_le hge,hbooked]
    simp only [Option.isSome_none,Bool.toNat_false]
    omega
  have hflight := (h.slot i).inFlight
  refine ⟨by omega,fun _ hlt => by omega,fun hlt => by omega,?_,fun _ => hown'⟩
  rwa [slotAt_of_ge hge,← slotAt_of_ge hge'] at hflight

end TableInv

/-- The heap gives no table a slot beyond `2 ^ 32`: every index fits its `u32`. -/
def RoomBounded (room : Nat → Bool) : Prop := ∀ n, 2 ^ 32 ≤ n → room n = false

variable {room : Nat → Bool} {t : HandleTable} {i : Nat}

theorem RoomBounded.length_lt (h : RoomBounded room) {n : Nat} (hn : room n) : n < 2 ^ 32 := by
  by_contra hge
  rw [h n (by omega)] at hn
  cases hn

namespace HandleTable.Event

def takenAfter (taken : Multiset Handle) : Event → Multiset Handle
  | .reserve h _ => h ::ₘ taken
  | .resolve h => taken.erase h
  | .restore h _ => taken.erase h
  | .discard h => taken.erase h
  | _ => taken

def Covered (taken : Multiset Handle) : Event → Prop
  | .resolve h => h ∈ taken
  | .restore h _ => h ∈ taken
  | .discard h => h ∈ taken
  | _ => True

end HandleTable.Event

open HandleTable in
theorem TableInv.move_keeps {e : Event} {t' : HandleTable}
    {taken : Multiset Handle} (h : TableInv t taken) (hroom : RoomBounded room)
    (hm : Move room e t t') (hcov : e.Covered taken) : TableInv t' (e.takenAfter taken) := by
  cases hm with
  | installFree cap hf => exact h.fill cap (.inl ⟨hf,rfl⟩)
  | installFresh cap hf hr => exact h.append (hroom.length_lt hr) rfl rfl rfl (.inl ⟨rfl,rfl⟩)
  | installBooked cap hc hb => exact h.fill cap (.inr ⟨rfl,hb⟩)
  | bookFree hf => exact h.move (.inl ⟨hf,rfl⟩)
  | bookFresh hf hr =>
    refine h.append (hroom.length_lt hr) rfl rfl rfl (.inr ⟨rfl,?_⟩)
    rw [Nat.mod_eq_of_lt (hroom.length_lt hr)]
  | unbook hb => exact h.move (.inr ⟨hb,rfl⟩)
  | forget hc hb => exact h.forget_booked hc hb
  | remove hc => exact h.recycle_live (capOf_eq_ok_iff.mp hc).2.2
  | reserve hc => exact h.reserve_live hc
  | resolve hi =>
    rw [← cons_erase hcov] at h
    exact h.resolve_taken
  | restore cap hc hi =>
    rw [← cons_erase hcov] at h
    exact h.restore_taken (some cap) (.inl rfl)
  | discard hc hi =>
    rw [← cons_erase hcov] at h
    exact h.restore_taken _ (.inr hc)
  | closeAll => exact h.sweep

/-- What a slot can be. -/
inductive SlotState where
  | live
  | transferReserved
  | booked
  | free
  | retired
  | abandoned
  deriving DecidableEq, Repr

/-- Slot `i` is in the state, and in nothing else: what the state asks for is there
and what the other states ask for is not. -/
def HandleTable.InState (t : HandleTable) (i : Nat) : SlotState → Prop
  | .live => (t.slotAt i).cap.isSome ∧ (t.slotAt i).reserved = false ∧
      i ∉ t.free ∧ i ∉ t.booked
  | .transferReserved => (t.slotAt i).cap = none ∧ (t.slotAt i).reserved = true ∧
      i ∉ t.free ∧ i ∉ t.booked
  | .booked => (t.slotAt i).cap = none ∧ (t.slotAt i).reserved = false ∧
      i ∉ t.free ∧ t.booked.count i = 1
  | .free => (t.slotAt i).cap = none ∧ (t.slotAt i).reserved = false ∧
      t.free.count i = 1 ∧ i ∉ t.booked
  | .retired => (t.slotAt i).cap = none ∧ (t.slotAt i).reserved = false ∧
      i ∉ t.free ∧ i ∉ t.booked ∧ (t.slotAt i).generation = u32Max
  | .abandoned => (t.slotAt i).cap = none ∧ (t.slotAt i).reserved = false ∧
      i ∉ t.free ∧ i ∉ t.booked ∧ (t.slotAt i).generation ≠ u32Max ∧ t.closed = true

theorem HandleTable.InState.unique {a b : SlotState}
    (ha : t.InState i a) (hb : t.InState i b) : a = b := by
  cases a <;> cases b <;> grind [InState]

namespace TableInv

variable {t : HandleTable} {taken : Multiset Handle}

theorem exists_state (h : TableInv t taken) (hi : i < t.slots.length) :
    ∃ state, t.InState i state := by
  have hslot := h.slot i
  cases hc : (t.slotAt i).cap with
  | some cap =>
    obtain ⟨-,hres,hf,hb⟩ := hslot.of_cap hc
    exact ⟨.live,by rw [hc]; rfl,hres,List.count_eq_zero.mp hf,List.count_eq_zero.mp hb⟩
  | none =>
    cases hr : (t.slotAt i).reserved with
    | true =>
      obtain ⟨-,-,hf,hb⟩ := hslot.of_reserved hr
      exact ⟨.transferReserved,hc,hr,List.count_eq_zero.mp hf,List.count_eq_zero.mp hb⟩
    | false =>
      by_cases hlisted : 0 < t.free.count i + t.booked.count i
      · obtain ⟨-,-,-,hone⟩ := hslot.of_listed hlisted
        by_cases hf : t.free.count i = 0
        · exact ⟨.booked,hc,hr,List.count_eq_zero.mp hf,by omega⟩
        · exact ⟨.free,hc,hr,by omega,List.count_eq_zero.mp (by omega)⟩
      have hf : i ∉ t.free := List.count_eq_zero.mp (by omega)
      have hb : i ∉ t.booked := List.count_eq_zero.mp (by omega)
      by_cases hmax : (t.slotAt i).generation = u32Max
      · exact ⟨.retired,hc,hr,hf,hb,hmax⟩
      have h0 : t.owners i = 0 := by
        simp only [owners,hc,hr,Option.isSome_none,Bool.toNat_false]
        omega
      exact ⟨.abandoned,hc,hr,hf,hb,hmax,(hslot.unowned h0 hi).resolve_left hmax⟩

theorem lists (h : TableInv t taken) :
    (t.free ++ t.booked).Nodup ∧ ∀ i ∈ t.free ++ t.booked, i < t.slots.length := by
  constructor
  · rw [List.nodup_iff_count_le_one]
    intro i
    have hown := (h.slot i).owned
    unfold owners at hown
    rw [List.count_append]
    omega
  · intro i hi
    have hpos := List.count_pos_iff.mpr hi
    rw [List.count_append] at hpos
    exact ((h.slot i).of_listed hpos).1

end TableInv

end LiberSystem
