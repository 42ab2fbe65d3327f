import LiberSystem.Kernel.Object.HandleOwnership
import LiberSystem.Lib.Counting

/-!
# The capabilities in a table

What the operations do to the capabilities that a table holds, as a multiset (`HandleTable.caps`)
and by handle (`HandleTable.capOf`).
-/

namespace LiberSystem

open Multiset

namespace HandleTable

def caps (t : HandleTable) : Multiset Capability := (t.slots.filterMap Slot.cap : List Capability)

def capSet (cap : Option Capability) : Multiset Capability := (cap.toList : List Capability)

variable {t t' : HandleTable}

theorem caps_of_slots (h : t'.slots = t.slots) : t'.caps = t.caps := by
  unfold caps
  rw [h]

variable {i : Nat} {slot : Slot} {h : Handle} {cap : Capability} {room : Nat → Bool} {e : Event}
  {into : Multiset Capability}

theorem caps_of_set (h : t'.slots = t.slots.set i slot) (hi : i < t.slots.length) :
    t'.caps + capSet (t.slotAt i).cap = t.caps + capSet slot.cap := by
  unfold caps capSet slotAt
  rw [h]
  exact coe_eq_coe.mpr (filterMap_set_perm Slot.cap hi slot _)

theorem mem_caps_of_capOf (hc : t.capOf h = .ok cap) : cap ∈ t.caps := by
  obtain ⟨hi,-,hcap⟩ := capOf_eq_ok_iff.mp hc
  have hmem := List.mem_of_getElem? (getElem?_eq_slotAt hi)
  exact mem_coe.mpr (List.mem_filterMap.mpr ⟨_,hmem,hcap⟩)

theorem caps_set_le (h : t'.slots = t.slots.set i slot) (hcap : slot.cap = some cap) :
    t'.caps ≤ t.caps + {cap} := by
  by_cases hi : i < t.slots.length
  · have heq := caps_of_set h hi
    rw [hcap] at heq
    exact (le_add_right _ _).trans heq.le
  · rw [caps_of_slots (h.trans (List.set_eq_of_length_le (by omega)))]
    exact le_add_right _ _

theorem caps_set_same (h : t'.slots = t.slots.set i slot)
    (hi : i < t.slots.length) (hcap : slot.cap = (t.slotAt i).cap) : t'.caps = t.caps := by
  have heq := caps_of_set h hi
  rw [hcap] at heq
  exact Multiset.add_left_inj.mp heq

theorem caps_set_none (h : t'.slots = t.slots.set i slot) (hi : i < t.slots.length)
    (hnone : slot.cap = none) (hcap : (t.slotAt i).cap = some cap) : t'.caps + {cap} = t.caps := by
  have heq := caps_of_set h hi
  rw [hnone,hcap] at heq
  exact heq.trans (add_zero _)

theorem caps_append (slot : Slot) (h : t'.slots = t.slots ++ [slot]) :
    t'.caps = t.caps + capSet slot.cap := by
  unfold caps capSet
  rw [h,List.filterMap_append,List.filterMap_cons,List.filterMap_nil,← coe_add]
  cases slot.cap <;> rfl

theorem closeLoop_caps (booked : List Nat) (slots : List Slot) : ∀ (i : Nat) (free : List Nat)
    (closed : Nat), List.Sublist ((closeLoop booked i slots free closed).1.filterMap Slot.cap)
      (slots.filterMap Slot.cap) := by
  induction slots with
  | nil => exact fun _ _ _ => List.Sublist.refl _
  | cons slot rest ih =>
    intro i free closed
    -- a slot is passed over, or it is emptied
    have hcap : (closeSlot booked i slot).1.cap = slot.cap ∨
        (closeSlot booked i slot).1.cap = none := by
      unfold closeSlot
      grind
    unfold closeLoop
    rcases hs : closeSlot booked i slot with ⟨slot',had,recycled⟩
    rw [hs] at hcap
    rw [List.filterMap_cons,List.filterMap_cons]
    rcases hcap with h | h
    · rw [h]
      cases slot.cap with
      | none => exact ih _ _ _
      | some cap => exact (ih _ _ _).cons_cons cap
    · rw [h]
      cases slot.cap with
      | none => exact ih _ _ _
      | some cap => exact (ih _ _ _).cons cap

theorem caps_swept_le (t : HandleTable) : t.swept.caps ≤ t.caps :=
  coe_le.mpr (closeLoop_caps t.booked t.slots 0 [] 0).subperm

def Event.put : Event → Multiset Capability
  | .install _ cap | .installBooked _ cap | .restore _ cap => {cap}
  | _ => 0

def Event.out : Event → Multiset Capability
  | .remove _ cap | .reserve _ cap => {cap}
  | _ => 0

theorem Move.caps_le (h : Move room e t t') : t'.caps + e.out ≤ t.caps + e.put := by
  have hin : ∀ {cap : Capability}, t'.caps ≤ t.caps + {cap} →
      t'.caps + 0 ≤ t.caps + {cap} := fun h => (add_zero _).le.trans h
  have hout : ∀ {cap : Capability}, t'.caps + {cap} = t.caps →
      t'.caps + {cap} ≤ t.caps + 0 := fun h => h.le.trans (add_zero _).ge
  have hsame : t'.caps ≤ t.caps → t'.caps + 0 ≤ t.caps + 0 :=
    fun h => (add_zero _).le.trans (h.trans (add_zero _).ge)
  cases h with
  -- a move writes one slot, appends one, or changes the lists only
  | installFree cap hf => exact hin (caps_set_le rfl rfl)
  | installFresh cap hf hr => exact hin (caps_append ⟨some cap,1,false⟩ rfl).le
  | installBooked cap hc hb => exact hin (caps_set_le rfl rfl)
  | bookFree hf => exact hsame (caps_of_slots rfl).le
  | bookFresh hf hr =>
    exact hsame ((caps_append ⟨none,1,false⟩ rfl).le.trans (add_zero _).le)
  | unbook hb => exact hsame (caps_of_slots rfl).le
  | forget hc hb => exact hsame (caps_of_slots rfl).le
  | remove hc =>
    obtain ⟨hi,-,hcap⟩ := capOf_eq_ok_iff.mp hc
    exact hout (caps_set_none (recycle_slots _ _ _) hi (retireOrRecycle_cap _ _ _) hcap)
  | reserve hc =>
    obtain ⟨hi,-,hcap⟩ := capOf_eq_ok_iff.mp hc
    exact hout (caps_set_none rfl hi rfl hcap)
  | resolve hi =>
    exact hsame (caps_set_same (recycle_slots _ _ _) hi (by simp)).le
  | restore cap hc hi => exact hin (caps_set_le rfl rfl)
  | discard hc hi => exact hsame (caps_set_same rfl hi (by rfl)).le
  | closeAll => exact hsame (caps_swept_le t)

theorem Move.caps_le_put (h : Move room e t t') : t'.caps ≤ t.caps + e.put :=
  (le_add_right _ _).trans h.caps_le

/-- At most `into` came into the table, and the transfers that were out are out. -/
def Gains (room : Nat → Bool) (into : Multiset Capability) (t t' : HandleTable) : Prop :=
  t'.caps ≤ t.caps + into ∧
    (RoomBounded room → ∀ {taken : Multiset Handle}, TableInv t taken → TableInv t' taken)

theorem Gains.refl : Gains room into t t := ⟨le_add_right _ _,fun _ _ h => h⟩

theorem Gains.trans {t'' : HandleTable} {into' : Multiset Capability}
    (h : Gains room into t t') (h' : Gains room into' t' t'') :
    Gains room (into + into') t t'' := by
  refine ⟨h'.1.trans ?_,fun hroom _ hinv => h'.2 hroom (h.2 hroom hinv)⟩
  rw [← add_assoc]
  exact Multiset.add_le_add_right h.1

theorem Gains.le (h : Gains room 0 t t') : t'.caps ≤ t.caps := h.1.trans (add_zero _).le

theorem Move.gains (h : Move room e t t') (hput : e.put ≤ into)
    (hout : ∀ taken, e.Covered taken ∧ e.takenAfter taken = taken) : Gains room into t t' := by
  refine ⟨h.caps_le_put.trans (Multiset.add_le_add_left hput),fun hroom taken hinv => ?_⟩
  have hkeep := hinv.move_keeps hroom h (hout taken).1
  rwa [(hout taken).2] at hkeep

theorem gains_of_trace {es : List Event} (h : Trace (Move room) es t t')
    (hes : ∀ e ∈ es, e = .book ∨ e = .unbook) : Gains room 0 t t' := by
  refine h.invariant (P := Gains room 0 t) .refl fun e u u' he hu hm => ?_
  have hu' : Gains room 0 u u' := by
    rcases hes e he with rfl | rfl
    · exact hm.gains (zero_le _) fun _ => ⟨trivial,rfl⟩
    · exact hm.gains (zero_le _) fun _ => ⟨trivial,rfl⟩
  exact hu.trans hu'

section Operations

variable {D : Type} (Q : Quota D) (objs : Objects) (room : Nat → Bool) (t : HandleTable) (ds : D)

theorem insert_gains (cap : Capability) : Gains room {cap} t (t.insert Q room cap ds).2.1 := by
  rcases insert_cases Q room t ds cap with ⟨hm,-⟩ | ⟨heq,-⟩
  · exact hm.gains (le_refl _) fun _ => ⟨trivial,rfl⟩
  · rw [heq]
    exact .refl

theorem tryInsert_gains (cap : Capability) :
    Gains room {cap} t (t.tryInsert Q room cap ds).2.1 := by
  rw [tryInsert_eq]
  rcases tryInsertOrReturn_cases Q room t ds cap with ⟨h,t',heq,-,hm⟩ | ⟨heq,-⟩ | ⟨heq,-⟩
  · rw [heq]
    exact hm.gains (le_refl _) fun _ => ⟨trivial,rfl⟩
  · rw [heq]
    exact .refl
  · rw [heq]
    exact .refl

theorem duplicate_gains (h : Handle) (rights : Rights) :
    Gains room 0 t (t.duplicate Q objs room h rights ds).2.1 ∨
    ∃ cap, t.capOf h = .ok cap ∧ rights ≤ cap.rights ∧
      Gains room {Capability.derived objs cap rights} t
        (t.duplicate Q objs room h rights ds).2.1 := by
  rcases duplicate_cases Q objs room t ds h rights with ⟨e,heq⟩ | ⟨cap,hcap,-,hle,heq,-⟩
  · rw [heq]
    exact .inl .refl
  · rw [heq]
    exact .inr ⟨cap,hcap,hle,t.tryInsert_gains Q room ds _⟩

theorem reserve_gains (bookRoom : Bool) (count : Nat) :
    Gains room 0 t (t.reserve Q room bookRoom count ds).2.1 := by
  obtain ⟨es,htr,hes⟩ := reserve_trace Q room t ds bookRoom count
  exact gains_of_trace htr hes

theorem releaseReservation_gains (count : Nat) :
    Gains room 0 t (t.releaseReservation Q count ds).1 :=
  gains_of_trace (releaseReservation_trace Q room t ds count)
    fun _ he => .inr (List.eq_of_mem_replicate he)

theorem insertReserved_gains (cap : Capability) :
    Gains room {cap} t (t.insertReserved Q room cap ds).2.1 := by
  rcases insertReserved_cases Q room t ds cap with ⟨hm,-⟩ | ⟨hm,-⟩ | ⟨-,hm | heq⟩
  · exact hm.gains (le_refl _) fun _ => ⟨trivial,rfl⟩
  · exact hm.gains (zero_le _) fun _ => ⟨trivial,rfl⟩
  · exact hm.gains (le_refl _) fun _ => ⟨trivial,rfl⟩
  · rw [heq]
    exact .refl

theorem close_gains (h : Handle) : Gains room 0 t (t.close Q objs h ds).2.1 := by
  rcases close_cases Q objs t ds h with ⟨cap,claim,heq,hcap⟩ | ⟨e,heq⟩
  · rw [heq]
    exact (Move.remove hcap).gains (zero_le _) fun _ => ⟨trivial,rfl⟩
  · rw [heq]
    exact .refl

theorem closeAll_gains : Gains room 0 t (t.closeAll Q ds).1 :=
  Move.closeAll.gains (zero_le _) fun _ => ⟨trivial,rfl⟩

theorem take_gains (h : Handle) (rights : Rights) :
    match t.take Q objs h rights ds with
    | (.ok cap, r) => r.1.caps + {cap} ≤ t.caps ∧ Gains room 0 t r.1
    | (.error _, r) => r.1 = t := by
  rcases take_cases Q objs t ds h rights with ⟨cap,heq,hcap⟩ | ⟨e,heq⟩
  · rw [heq]
    have hm : Move room _ t _ := .remove hcap
    exact ⟨hm.caps_le.trans (add_zero _).le,hm.gains (zero_le _) fun _ => ⟨trivial,rfl⟩⟩
  · rw [heq]

theorem commitTaken_spec (k : Handle) : (t.commitTaken Q k ds).1.caps ≤ t.caps ∧
    ∀ {taken : Multiset Handle}, TableInv t (k ::ₘ taken) →
      TableInv (t.commitTaken Q k ds).1 taken := by
  rcases (resolveTaken_cases Q (fun _ => false) t ds k).2 with hm | ⟨hge,heq⟩
  · refine ⟨hm.caps_le_put.trans (add_zero _).le,fun {taken} h => ?_⟩
    have hkeep := h.move_keeps (fun _ _ => rfl) hm (mem_cons_self k taken)
    rwa [Event.takenAfter,erase_cons_head] at hkeep
  · refine ⟨(congrArg caps heq).le,fun {taken} h => ?_⟩
    have hi := (h.taken_slot (mem_cons_self k taken)).1
    omega

end Operations

/-- Whatever is written to the slot of `h`, at the same generation, concerns no handle
but `h`. -/
theorem capOf_of_set (hs : t'.slots = t.slots.set h.index slot)
    (hi : h.index < t.slots.length) (hslot : slot.generation = (t.slotAt h.index).generation)
    (hgen : (t.slotAt h.index).generation = h.generation) {k : Handle} (hk : k ≠ h) :
    t'.capOf k = t.capOf k := by
  unfold capOf
  rw [hs]
  by_cases hidx : k.index = h.index
  · have hne : h.generation ≠ k.generation := fun heq => hk (Handle.ext_iff'.mpr ⟨heq.symm,hidx⟩)
    rw [hidx,getElem?_eq_slotAt hi,List.getElem?_set_self hi]
    dsimp only
    rw [hslot,hgen,if_pos (by simpa using hne),if_pos (by simpa using hne)]
  · rw [List.getElem?_set_ne (Ne.symm hidx)]

theorem capOf_reserve (hm : Move room (.reserve h cap) t t') :
    (∀ cap', t'.capOf h ≠ .ok cap') ∧ ∀ k, k ≠ h → t'.capOf k = t.capOf k := by
  cases hm with
  | reserve hc =>
    obtain ⟨hi,hgen,-⟩ := capOf_eq_ok_iff.mp hc
    refine ⟨fun cap' hcap => ?_,fun k hk => capOf_of_set rfl hi (by rfl) hgen hk⟩
    have hnone := (capOf_eq_ok_iff.mp hcap).2.2
    rw [slotAt_of_set rfl hi,if_pos rfl] at hnone
    cases hnone

theorem capOf_restore
    (hm : Move room (.restore h cap) t t') (hgen : (t.slotAt h.index).generation = h.generation) :
    t'.capOf h = .ok cap ∧ ∀ k, k ≠ h → t'.capOf k = t.capOf k := by
  cases hm with
  | restore cap hc hi =>
    refine ⟨capOf_eq_ok_iff.mpr ⟨?_,?_,?_⟩,fun k hk => capOf_of_set rfl hi (by rfl) hgen hk⟩
    · rw [List.length_set]
      exact hi
    · rw [slotAt_of_set rfl hi,if_pos rfl]
      exact hgen
    · rw [slotAt_of_set rfl hi,if_pos rfl]

section Transfers

variable {D : Type} (Q : Quota D) (objs : Objects) (room : Nat → Bool) (t : HandleTable) (ds : D)
  (k : Handle)

/-- A transfer that did not happen ends; if the table is open, the capability is back
and no other handle is concerned. -/
theorem restoreTaken_spec (cap : Capability) :
    (t.restoreTaken Q room k cap ds).1.caps ≤ t.caps + {cap} ∧
    ∀ {taken : Multiset Handle}, TableInv t (k ::ₘ taken) → RoomBounded room →
      TableInv (t.restoreTaken Q room k cap ds).1 taken ∧
      (t.restoreTaken Q room k cap ds).1.closed = t.closed ∧
      (t.closed = false → (t.restoreTaken Q room k cap ds).1.capOf k = .ok cap ∧
        ∀ k', k' ≠ k → (t.restoreTaken Q room k cap ds).1.capOf k' = t.capOf k') := by
  rcases restoreTaken_cases Q room t ds k cap with ⟨hm,-⟩ | ⟨hm,hclosed,-⟩ | ⟨hge,heq⟩
  · refine ⟨hm.caps_le_put,fun {taken} h hroom => ?_⟩
    have hmem := mem_cons_self k taken
    have hkeep := h.move_keeps hroom hm hmem
    rw [Event.takenAfter,erase_cons_head] at hkeep
    refine ⟨hkeep,?_,fun _ => capOf_restore hm (h.generation_of_taken hmem)⟩
    rw [hm.closed_eq,Bool.or_false]
  · refine ⟨hm.caps_le_put.trans (Multiset.add_le_add_left (zero_le _)),fun {taken} h hroom => ?_⟩
    have hkeep := h.move_keeps hroom hm (mem_cons_self k taken)
    rw [Event.takenAfter,erase_cons_head] at hkeep
    refine ⟨hkeep,?_,fun hopen => ?_⟩
    · rw [hm.closed_eq,Bool.or_false]
    · rw [hclosed] at hopen
      cases hopen
  · refine ⟨?_,fun {taken} h _ => ?_⟩
    · rcases heq with heq | heq
      · rw [heq]
        exact le_add_right _ _
      · rw [heq]
        exact (t.insert_gains Q room ds cap).1
    · have hi := (h.taken_slot (mem_cons_self k taken)).1
      omega

theorem takeForTransfer_spec (rights : Rights) :
    match t.takeForTransfer objs k rights with
    | (.ok cap, t') => t'.caps + {cap} = t.caps ∧ t.capOf k = .ok cap ∧ t'.closed = t.closed ∧
        (∀ cap', t'.capOf k ≠ .ok cap') ∧ (∀ k', k' ≠ k → t'.capOf k' = t.capOf k') ∧
        ∀ {taken : Multiset Handle}, TableInv t taken → TableInv t' (k ::ₘ taken)
    | (.error _, t') => t' = t := by
  rcases takeForTransfer_cases objs (fun _ => false) t k rights with
    ⟨cap,t',heq,hcap,-,hm⟩ | ⟨e,heq⟩
  · rw [heq]
    obtain ⟨hgone,hother⟩ := capOf_reserve hm
    refine ⟨?_,hcap,?_,hgone,hother,fun h => h.move_keeps (fun _ _ => rfl) hm trivial⟩
    · cases hm with
      | reserve hc =>
        obtain ⟨hi,-,hcap⟩ := capOf_eq_ok_iff.mp hc
        exact caps_set_none rfl hi rfl hcap
    · rw [hm.closed_eq,Bool.or_false]
  · rw [heq]

end Transfers

end HandleTable

theorem TableInv.not_mem_rest {t : HandleTable} {taken : Multiset Handle} {k : Handle}
    (h : TableInv t (k ::ₘ taken)) : k ∉ taken := by
  intro hmem
  have hin : k ∈ taken.filter (·.index = k.index) := mem_filter.mpr ⟨hmem,rfl⟩
  rw [h.filter_rest.2] at hin
  exact notMem_zero k hin

end LiberSystem
