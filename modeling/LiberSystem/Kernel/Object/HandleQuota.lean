import LiberSystem.Kernel.Object.Domain
import LiberSystem.Kernel.Object.HandleClosed
import LiberSystem.Lib.Counting
import Mathlib.Tactic.Ring

/-!
# The handle quota

A table owes its Domain one handle for each capability it holds, for each transfer in flight and
for each booking. `held` counts them, and the charges and refunds of each call come to the same.
-/

namespace LiberSystem

open List Accounts

namespace HandleTable

variable {room : Nat → Bool} {e : Event} {t t' : HandleTable} {taken : Multiset Handle}

def reservedCount (t : HandleTable) : Nat := t.slots.countP fun slot => slot.reserved

def held (t : HandleTable) : Nat := t.len + t.reservedCount + t.booked.length

variable {i n : Nat} {slot : Slot}

section

variable (hs : t'.slots = t.slots.set i slot) (hi : i < t.slots.length)
include hs hi

theorem len_of_set : t'.len + (t.slotAt i).cap.isSome.toNat = t.len + slot.cap.isSome.toNat := by
  unfold len
  rw [hs]
  exact countP_set_add _ hi slot _

theorem reservedCount_of_set :
    t'.reservedCount + (t.slotAt i).reserved.toNat = t.reservedCount + slot.reserved.toNat := by
  unfold reservedCount
  rw [hs]
  exact countP_set_add _ hi slot _

theorem held_of_set {δ : ℤ}
    (hδ : (t'.booked.length + slot.cap.isSome.toNat + slot.reserved.toNat : ℤ) =
      t.booked.length + (t.slotAt i).cap.isSome.toNat + (t.slotAt i).reserved.toNat + δ) :
    (t'.held : ℤ) = t.held + δ := by
  have hlen := len_of_set hs hi
  have hres := reservedCount_of_set hs hi
  unfold held
  omega

end

theorem held_of_append {δ : ℤ} (hs : t'.slots = t.slots ++ [slot])
    (hδ : (t'.booked.length + slot.cap.isSome.toNat + slot.reserved.toNat : ℤ) =
      t.booked.length + δ) : (t'.held : ℤ) = t.held + δ := by
  have hlen : t'.len = t.len + slot.cap.isSome.toNat := by
    unfold len
    rw [hs,countP_append,countP_singleton]
    cases slot.cap.isSome <;> rfl
  have hres : t'.reservedCount = t.reservedCount + slot.reserved.toNat := by
    unfold reservedCount
    rw [hs,countP_append,countP_singleton]
    cases slot.reserved <;> rfl
  unfold held
  omega

theorem length_liveHandles (t : HandleTable) : t.liveHandles.length = t.len := by
  suffices ∀ i slots, (handlesFrom i slots).length = slots.countP fun slot => slot.cap.isSome from
    this 0 t.slots
  intro i slots
  induction slots generalizing i with
  | nil => rfl
  | cons slot rest ih =>
    unfold handlesFrom
    split
    · next hc =>
      rw [length_cons,ih,countP_cons_of_pos (p := fun slot : Slot => slot.cap.isSome) hc]
    · next hc => rw [ih,countP_cons_of_neg (p := fun slot : Slot => slot.cap.isSome) hc]

theorem len_eq_zero_of_noLive (h : t.NoLive) : t.len = 0 := by
  unfold len
  rw [countP_eq_sum _ _ ⟨none,0,false⟩]
  refine Finset.sum_eq_zero fun i _ => ?_
  change (t.slotAt i).cap.isSome.toNat = 0
  rw [h i]
  rfl

theorem reservedCount_swept (t : HandleTable) : t.swept.reservedCount = t.reservedCount := by
  unfold reservedCount
  rw [countP_eq_sum _ _ ⟨none,0,false⟩,countP_eq_sum _ t.slots ⟨none,0,false⟩,length_swept]
  refine Finset.sum_congr rfl fun i hi => ?_
  change (t.swept.slotAt i).reserved.toNat = (t.slotAt i).reserved.toNat
  rw [slotAt_swept (Finset.mem_range.mp hi)]
  unfold closeSlot
  split
  · rfl
  · split
    · split <;> rfl
    · rfl

theorem Move.held_eq (hinv : TableInv t taken) (hm : Move room e t t') (hcov : e.Covered taken) :
    (t'.held : ℤ) = t.held + e.delta := by
  have hlisted : ∀ {i : Nat} {l : List Nat}, (t.free = i :: l ∨ t.booked = i :: l) →
      i < t.slots.length ∧ (t.slotAt i).cap = none := by
    intro i l hl
    obtain ⟨hi,hcap,-⟩ := (hinv.slot i).of_listed (by grind)
    exact ⟨hi,hcap⟩
  cases hm with
  | installFree cap hf =>
    obtain ⟨hi,hcap⟩ := hlisted (Or.inl hf)
    exact held_of_set rfl hi (by simp [hcap,Event.delta]; omega)
  | installFresh cap hf hr | bookFresh hf hr =>
    exact held_of_append rfl (by simp [Event.delta])
  | installBooked cap hc hb =>
    obtain ⟨hi,hcap⟩ := hlisted (Or.inr hb)
    exact held_of_set rfl hi (by simp [hcap,hb,Event.delta])
  | bookFree hf =>
    simp [held,len,reservedCount,Event.delta]
    omega
  | unbook hb | forget hc hb =>
    simp [held,len,reservedCount,Event.delta,hb]
    omega
  | remove hc =>
    obtain ⟨hi,-,hcap⟩ := capOf_eq_ok_iff.mp hc
    exact held_of_set (recycle_slots t _ _) hi (by simp [hcap,Event.delta,recycle]; omega)
  | reserve hc =>
    obtain ⟨hi,-,hcap⟩ := capOf_eq_ok_iff.mp hc
    obtain ⟨-,hres,-⟩ := (hinv.slot _).of_cap hcap
    exact held_of_set rfl hi (by simp [hcap,hres,Event.delta])
  | resolve hi =>
    obtain ⟨-,hres,hcap,-⟩ := hinv.taken_slot hcov
    exact held_of_set (recycle_slots t _ _) hi (by simp [hcap,hres,Event.delta,recycle])
  | restore cap hc hi | discard hc hi =>
    obtain ⟨-,hres,hcap,-⟩ := hinv.taken_slot hcov
    exact held_of_set rfl hi (by simp [hcap,hres,Event.delta])
  | closeAll =>
    have hlen := len_eq_zero_of_noLive (noLive_swept hinv)
    have hbooked : t.swept.booked.length = t.booked.length := rfl
    simp only [held,Event.delta,length_liveHandles,reservedCount_swept,hlen,hbooked]
    omega

theorem held_le_length (hinv : TableInv t taken) : t.held ≤ t.slots.length := by
  unfold held len reservedCount
  rw [countP_eq_sum _ _ ⟨none,0,false⟩,countP_eq_sum _ _ ⟨none,0,false⟩,
    length_eq_sum_count fun i hi => hinv.lists.2 i (mem_append_right _ hi),← Finset.sum_add_distrib,
    ← Finset.sum_add_distrib]
  calc ∑ i ∈ Finset.range t.slots.length, _
      ≤ ∑ i ∈ Finset.range t.slots.length, 1 := Finset.sum_le_sum fun i _ => by
        have hown := (hinv.slot i).owned
        unfold owners slotAt at hown
        omega
    _ = t.slots.length := by simp

section Charges

variable (F : Forest) (t : HandleTable) {a a' : Accounts}

def chain : List DomainId :=
  match t.domain with
  | some d => F.path d
  | none => []

theorem nodup_chain : (t.chain F).Nodup := by
  unfold chain
  split
  · exact F.nodup_path _
  · exact nodup_nil

section

variable (hfit : Accounts.Fits .handles 1 (t.chain F) a)
include hfit

theorem chargeHandle_shifted :
    Shifted .handles (t.chain F) 1 a (t.chargeHandle (domainQuota F) a) := by
  have hnd := t.nodup_chain F
  unfold chain chargeHandle at *
  cases hd : t.domain with
  | none => exact fun x => by simp
  | some d =>
    rw [hd] at hnd hfit
    exact chargeHier_shifted hnd hfit

theorem tryChargeHandle_spec : ((t.tryChargeHandle (domainQuota F) a).1 →
      Shifted .handles (t.chain F) 1 a (t.tryChargeHandle (domainQuota F) a).2) ∧
    ((t.tryChargeHandle (domainQuota F) a).1 = false →
      (t.tryChargeHandle (domainQuota F) a).2 = a) := by
  have hnd := t.nodup_chain F
  unfold chain tryChargeHandle at *
  cases hd : t.domain with
  | none => exact ⟨fun _ x => (by simp),fun _ => rfl⟩
  | some d =>
    rw [hd] at hnd hfit
    exact tryChargeHier_spec hnd hfit

end

theorem unchargeHandles_shifted (hused : ∀ x ∈ t.chain F, n ≤ a.used .handles x) :
    Shifted .handles (t.chain F) (-n) a (t.unchargeHandles (domainQuota F) n a) := by
  have hnd := t.nodup_chain F
  unfold chain unchargeHandles at *
  cases hd : t.domain with
  | none => exact fun x => by simp
  | some d =>
    rw [hd] at hnd hused
    exact unchargeHier_shifted hnd hused

theorem chargeReservation_shifted (taken left : Nat)
    (hfit : Accounts.Fits .handles left (t.chain F) a)
    (hused : ∀ x ∈ t.chain F, taken ≤ a.used .handles x) :
    Shifted .handles (t.chain F)
      (if (t.chargeReservation (domainQuota F) taken left a).1 then left else -taken) a
      (t.chargeReservation (domainQuota F) taken left a).2 := by
  induction left generalizing taken a with
  | zero => exact Shifted.refl _ _ a
  | succ left ih =>
    have hone : Accounts.Fits .handles 1 (t.chain F) a := by
      intro x hx
      have := hfit x hx
      omega
    obtain ⟨hgranted,hrefused⟩ := t.tryChargeHandle_spec F hone
    unfold chargeReservation
    generalize t.tryChargeHandle (domainQuota F) a = r at hgranted hrefused
    obtain ⟨granted,a'⟩ := r
    cases granted with
    | false =>
      rw [show a' = a from hrefused rfl]
      exact t.unchargeHandles_shifted F hused
    | true =>
      have hstep : Shifted .handles (t.chain F) 1 a a' := hgranted rfl
      have hup : ∀ x ∈ t.chain F, a'.used .handles x = a.used .handles x + 1 := by
        intro x hx
        have := hstep x
        rw [if_pos hx] at this
        omega
      have hrest := ih (taken + 1) (fun x hx => by
        have := hfit x hx
        rw [hup x hx]
        omega) (fun x hx => by
        have := hused x hx
        rw [hup x hx]
        omega)
      refine (hstep.trans hrest).of_eq ?_
      split <;> push_cast <;> omega

end Charges

theorem closed_count (hinv : TableInv t taken) :
    (closeLoop t.booked 0 t.slots [] 0).2.2 = t.len := by
  suffices ∀ i slots free n, (∀ j slot, slots[j]? = some slot → slot.cap.isSome →
      (slot.reserved || t.booked.contains ((i + j) % 2 ^ 32)) = false) →
      (closeLoop t.booked i slots free n).2.2 = n + slots.countP fun slot => slot.cap.isSome by
    refine (this 0 t.slots [] 0 ?_).trans (Nat.zero_add _)
    intro j slot hj hc
    obtain ⟨hlt,rfl⟩ := slotAt_of_getElem? hj
    obtain ⟨cap,hcap⟩ := Option.isSome_iff_exists.mp hc
    obtain ⟨-,hres,-,hbooked⟩ := (hinv.slot j).of_cap hcap
    rw [hres,Nat.zero_add,Nat.mod_eq_of_lt (hlt.trans_le hinv.length_le)]
    simpa using count_eq_zero.mp hbooked
  intro i slots
  induction slots generalizing i with
  | nil => exact fun _ _ _ => rfl
  | cons slot rest ih =>
    intro free n hheld
    have hrest := ih (i + 1) (if (closeSlot t.booked i slot).2.2 then i % 2 ^ 32 :: free else free)
      (if (closeSlot t.booked i slot).2.1 then n + 1 else n) fun j s hj hc => by
        rw [show i + 1 + j = i + (j + 1) by omega]
        exact hheld (j + 1) s hj hc
    have hhad : (closeSlot t.booked i slot).2.1 = slot.cap.isSome := by
      have := hheld 0 slot rfl
      unfold closeSlot
      grind
    simp only [closeLoop]
    rw [hrest,hhad,countP_cons]
    split <;> omega

section Calls

variable {F : Forest} {a : Accounts}

/-- The accounts can take what one call can ask of them, and hold what the table
owes. -/
structure Funded (F : Forest) (t : HandleTable) (a : Accounts) : Prop where
  fits : Accounts.Fits .handles (2 ^ 32) (t.chain F) a
  held_le : ∀ x ∈ t.chain F, t.held ≤ a.used .handles x

theorem Funded.fits_of_le (h : Funded F t a) (hn : n ≤ 2 ^ 32) :
    Accounts.Fits .handles n (t.chain F) a := by
  intro x hx
  have := h.fits x hx
  omega

/-- The change of the accounts is the change of `held`. -/
def Balanced (F : Forest) (t t' : HandleTable) (a a' : Accounts) : Prop :=
  Accounts.Shifted .handles (t.chain F) (t'.held - t.held) a a'

theorem closeAll_shifted (hinv : TableInv t taken) (hfund : Funded F t a) :
    Shifted .handles (t.chain F) (-t.liveHandles.length) a (t.closeAll (domainQuota F) a).2 := by
  have hcount := closed_count hinv
  have heq : (t.closeAll (domainQuota F) a).2 =
      if t.len > 0 then t.unchargeHandles (domainQuota F) t.len a else a := by
    rw [← hcount]
    rfl
  rw [heq,length_liveHandles]
  by_cases hpos : t.len > 0
  · rw [if_pos hpos]
    refine t.unchargeHandles_shifted F fun x hx => ?_
    have := hfund.held_le x hx
    unfold held at this
    omega
  · rw [if_neg hpos]
    exact (Shifted.refl _ _ a).of_eq (by omega)

theorem drop_shifted (hinv : TableInv t 0) (hbooked : t.booked = []) (hfund : Funded F t a) :
    Shifted .handles (t.chain F) (-t.held) a (t.drop (domainQuota F) a) := by
  have hres : t.reservedCount = 0 := by
    unfold reservedCount
    rw [countP_eq_sum _ _ ⟨none,0,false⟩]
    refine Finset.sum_eq_zero fun i _ => ?_
    change (t.slotAt i).reserved.toNat = 0
    cases hr : (t.slotAt i).reserved with
    | false => rfl
    | true =>
      have hflight := (hinv.slot i).inFlight
      rw [hr] at hflight
      simp at hflight
  have hheld : t.held = t.len := by
    rw [held,hres,hbooked]
    simp
  unfold drop
  by_cases hpos : t.len > 0
  · rw [if_pos hpos,hheld]
    refine t.unchargeHandles_shifted F fun x hx => ?_
    have := hfund.held_le x hx
    omega
  · rw [if_neg hpos]
    exact (Shifted.refl _ _ a).of_eq (by omega)

end Calls

end HandleTable

namespace TableState

open HandleTable

variable {F : Forest} {room : Nat → Bool} {s s' : TableState} {a a' : Accounts}

section

variable (hi : s.Inv) (hroom : RoomBounded room)
include hi hroom

theorem held_of_trace {es : List Event} (htr : Trace (StateMove room) es s s') :
    (s'.table.held : ℤ) = s.table.held + (es.map Event.delta).sum := by
  induction htr with
  | nil => simp
  | cons hm htr ih =>
    have hheld := hm.1.held_eq hi.table hm.2.1
    rw [ih (hi.move hroom hm),hheld,map_cons,sum_cons]
    ring

theorem Pays.shifted {δ : ℤ} (hp : Pays (domainQuota F) room s.table a δ a')
    (hfund : Funded F s.table a) (hleft : 0 ≤ s.table.held + δ) :
    Shifted .handles (s.table.chain F) δ a a' := by
  have hfit := hfund.fits_of_le (show 1 ≤ 2 ^ 32 by decide)
  induction hp with
  | nothing => exact Shifted.refl _ _ a
  | charge => exact s.table.chargeHandle_shifted F hfit
  | granted hgrant => exact (s.table.tryChargeHandle_spec F hfit).1 hgrant
  | refused hrefuse =>
    rw [(s.table.tryChargeHandle_spec F hfit).2 hrefuse]
    exact Shifted.refl _ _ a
  | back hp ih =>
    have hshift := ih (by omega)
    refine (hshift.trans (s.table.unchargeHandles_shifted F fun x hx => ?_)).of_eq (by omega)
    have := hshift x
    rw [if_pos hx] at this
    omega
  | uncharge n =>
    refine s.table.unchargeHandles_shifted F fun x hx => ?_
    have := hfund.held_le x hx
    omega
  | @reserve count u htr =>
    -- so many slots have been booked, and every slot has an index
    have hst := booking_trace htr (fun e he => Or.inl (eq_of_mem_replicate he)) s rfl
    have hu : TableInv u s.taken := (hi.trace hroom hst).table
    have hheld : (u.held : ℤ) = s.table.held + count := by
      simpa [Event.delta] using held_of_trace hi hroom hst
    have hle := held_le_length hu
    have hlen := hu.length_le
    have hcharge := s.table.chargeReservation_shifted F 0 count
      (hfund.fits_of_le (show count ≤ 2 ^ 32 by omega)) fun x _ => Nat.zero_le _
    exact hcharge.of_eq (by simp)
  | closeAll => exact closeAll_shifted hi.table hfund

end

theorem exec_balanced {objs : Objects} {op : TableOp} {r : Option Handle} (hi : s.Inv)
    (hroom : RoomBounded room) (hfund : Funded F s.table a)
    (hx : s.exec (domainQuota F) objs room a op = some (r, s', a')) :
    Balanced F s.table s'.table a a' := by
  obtain ⟨es,htr,hp⟩ := (exec_done hi hx).paid
  have hheld := held_of_trace hi hroom htr
  exact (hp.shifted hi hroom hfund (by omega)).of_eq (by omega)

end TableState

end LiberSystem
