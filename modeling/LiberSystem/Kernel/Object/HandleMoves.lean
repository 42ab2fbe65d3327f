import LiberSystem.Kernel.Object.Handle
import LiberSystem.Lib.Runs

/-!
# What an operation can do to a table

Every operation on a handle table is a short sequence of moves, each of which takes one index from
one owner to another.
-/

namespace LiberSystem.HandleTable

open List

variable {t t' : HandleTable} {i : Nat} {slot : Slot} {h : Handle} {cap : Capability}
  {room : Nat → Bool} {e : Event}

theorem slotAt_of_set (h : t'.slots = t.slots.set i slot) (hi : i < t.slots.length) (j : Nat) :
    t'.slotAt j = if j = i then slot else t.slotAt j := by
  unfold slotAt
  grind

theorem slotAt_of_append (h : t'.slots = t.slots ++ [slot])
    (j : Nat) : t'.slotAt j = if j = t.slots.length then slot else t.slotAt j := by
  unfold slotAt
  grind

theorem set_slotAt (t : HandleTable) (i : Nat) : t.slots.set i (t.slotAt i) = t.slots := by
  unfold slotAt
  apply ext_getElem?
  grind

theorem getElem?_eq_slotAt (h : i < t.slots.length) : t.slots[i]? = some (t.slotAt i) := by
  unfold slotAt
  grind

theorem slotAt_of_getElem?
    (h : t.slots[i]? = some slot) : i < t.slots.length ∧ t.slotAt i = slot := by
  unfold slotAt
  grind

theorem slotAt_of_ge (h : t.slots.length ≤ i) : t.slotAt i = ⟨none,0,false⟩ := by
  unfold slotAt
  grind

theorem slotAt_of_set_ne {k : Nat} (hs : t'.slots = t.slots.set k slot) (hne : i ≠ k) :
    t'.slotAt i = t.slotAt i := by
  unfold slotAt
  rw [hs,getD_eq_getElem?_getD,getElem?_set_ne (Ne.symm hne),getD_eq_getElem?_getD]

theorem slotAt_of_set_or {k : Nat} (hs : t'.slots = t.slots.set k slot) (i : Nat) :
    t'.slotAt i = t.slotAt i ∨ i = k ∧ t'.slotAt i = slot := by
  by_cases hk : k < t.slots.length
  · rw [slotAt_of_set hs hk]
    split
    · next heq => exact .inr ⟨heq,rfl⟩
    · exact .inl rfl
  · rw [set_eq_of_length_le (by omega)] at hs
    exact .inl (by rw [slotAt,slotAt,hs])

section

variable (slot : Slot) (free : List Nat)

@[simp] theorem retireOrRecycle_cap (i : Nat) : (retireOrRecycle slot free i).1.cap = slot.cap := by
  unfold retireOrRecycle
  split <;> rfl

@[simp] theorem retireOrRecycle_reserved (i : Nat) :
    (retireOrRecycle slot free i).1.reserved = slot.reserved := by
  unfold retireOrRecycle
  split <;> rfl

theorem retireOrRecycle_cases (hi : i < 2 ^ 32) (hmax : slot.generation ≤ u32Max) :
    (slot.generation < (retireOrRecycle slot free i).1.generation ∧
      (retireOrRecycle slot free i).2 = i :: free) ∨
    (slot.generation = u32Max ∧ (retireOrRecycle slot free i).1.generation = u32Max ∧
      (retireOrRecycle slot free i).2 = free) := by
  unfold retireOrRecycle
  rw [Nat.mod_eq_of_lt hi]
  by_cases hlast : slot.generation + 1 ≤ u32Max
  · rw [if_pos hlast]
    exact .inl ⟨Nat.lt_succ_self _,rfl⟩
  · rw [if_neg hlast]
    exact .inr ⟨by omega,rfl,rfl⟩

end

theorem recycle_slots (t : HandleTable) (slot : Slot) (i : Nat) :
    (t.recycle slot i).slots = t.slots.set i (retireOrRecycle slot t.free i).1 := rfl

theorem slotAt_recycle (hi : i < t.slots.length) (slot : Slot)
    (j : Nat) : (t.recycle slot i).slotAt j =
      if j = i then (retireOrRecycle slot t.free i).1 else t.slotAt j :=
  slotAt_of_set (t.recycle_slots slot i) hi j

theorem capOf_eq_ok_iff : t.capOf h = .ok cap ↔ h.index < t.slots.length ∧
      (t.slotAt h.index).generation = h.generation ∧ (t.slotAt h.index).cap = some cap := by
  unfold capOf
  by_cases hi : h.index < t.slots.length
  · rw [getElem?_eq_slotAt hi]
    grind
  · simp [hi]

theorem capOf_of_liveCapOf {objs : Objects}
    (hc : t.liveCapOf objs h = .ok cap) : t.capOf h = .ok cap := by
  unfold liveCapOf at hc
  grind

def handlesFrom : Nat → List Slot → List Handle
  | _, [] => []
  | i, slot :: rest =>
    if slot.cap.isSome then Handle.new slot.generation i :: handlesFrom (i + 1) rest
    else handlesFrom (i + 1) rest

def liveHandles (t : HandleTable) : List Handle := handlesFrom 0 t.slots

def swept (t : HandleTable) : HandleTable :=
  { t with slots := (closeLoop t.booked 0 t.slots [] 0).1,
           free := (closeLoop t.booked 0 t.slots [] 0).2.1,
           closed := true }

/-- The meaning of a move outside the table. -/
inductive Event where
  /-- A capability came in and `h` names it. -/
  | install (h : Handle) (cap : Capability)
  /-- A capability came in over a booking. -/
  | installBooked (h : Handle) (cap : Capability)
  | book
  | unbook
  /-- A closed table forgot a booking. -/
  | forget
  /-- A capability left the table, and `h` with it. -/
  | remove (h : Handle) (cap : Capability)
  /-- A capability left for a transfer. -/
  | reserve (h : Handle) (cap : Capability)
  /-- The transfer of `h` ended without the capability coming back. -/
  | resolve (h : Handle)
  /-- The transfer of `h` ended and the capability is back. -/
  | restore (h : Handle) (cap : Capability)
  /-- The capability came back to a closed table, which dropped it. -/
  | discard (h : Handle)
  /-- The table was closed while the handles of `hs` were live. -/
  | closeAll (hs : List Handle)
  deriving DecidableEq, Repr

/-- One index changes its owner. -/
inductive Move (room : Nat → Bool) : Event → HandleTable → HandleTable → Prop where
  | installFree {t index free} (cap : Capability) :
      t.free = index :: free →
      Move room (.install (Handle.new (t.slotAt index).generation index) cap) t
        { t with free := free, slots := t.slots.set index { t.slotAt index with cap := some cap } }
  | installFresh {t : HandleTable} (cap : Capability) :
      t.free = [] → room t.slots.length = true →
      Move room (.install (Handle.new 1 (t.slots.length % 2 ^ 32)) cap) t
        { t with slots := t.slots ++ [⟨some cap,1,false⟩] }
  | installBooked {t index booked} (cap : Capability) :
      t.closed = false → t.booked = index :: booked →
      Move room (.installBooked (Handle.new (t.slotAt index).generation index) cap) t
        { t with booked := booked,
                 slots := t.slots.set index { t.slotAt index with cap := some cap } }
  | bookFree {t index free} :
      t.free = index :: free →
      Move room .book t { t with free := free, booked := index :: t.booked }
  | bookFresh {t : HandleTable} :
      t.free = [] → room t.slots.length = true →
      Move room .book t
        { t with slots := t.slots ++ [⟨none,1,false⟩],
                 booked := t.slots.length % 2 ^ 32 :: t.booked }
  | unbook {t index booked} :
      t.booked = index :: booked →
      Move room .unbook t { t with booked := booked, free := index :: t.free }
  | forget {t index booked} :
      t.closed = true → t.booked = index :: booked →
      Move room .forget t { t with booked := booked }
  | remove {t : HandleTable} {h : Handle} {cap : Capability} :
      t.capOf h = .ok cap →
      Move room (.remove h cap) t (t.recycle { t.slotAt h.index with cap := none } h.index)
  | reserve {t : HandleTable} {h : Handle} {cap : Capability} :
      t.capOf h = .ok cap →
      Move room (.reserve h cap) t
        { t with slots := t.slots.set h.index
                   { t.slotAt h.index with cap := none, reserved := true } }
  | resolve {t : HandleTable} {h : Handle} :
      h.index < t.slots.length →
      Move room (.resolve h) t (t.recycle { t.slotAt h.index with reserved := false } h.index)
  | restore {t : HandleTable} {h : Handle} (cap : Capability) :
      t.closed = false → h.index < t.slots.length →
      Move room (.restore h cap) t
        { t with slots := t.slots.set h.index
                   { t.slotAt h.index with cap := some cap, reserved := false } }
  | discard {t : HandleTable} {h : Handle} :
      t.closed = true → h.index < t.slots.length →
      Move room (.discard h) t
        { t with slots := t.slots.set h.index { t.slotAt h.index with reserved := false } }
  | closeAll {t : HandleTable} : Move room (.closeAll t.liveHandles) t t.swept

theorem Move.domain_eq (h : Move room e t t') : t'.domain = t.domain := by
  cases h <;> rfl

theorem Move.closed_eq
    (h : Move room e t t') : t'.closed = (t.closed || e matches .closeAll _) := by
  cases h <;> simp [recycle,swept]

theorem domain_of_trace {es : List Event} (h : Trace (Move room) es t t') : t'.domain = t.domain :=
  h.invariant (P := fun u => u.domain = t.domain) rfl fun _ _ _ _ hd hm => hm.domain_eq.trans hd

theorem tryPlace_ok (hp : t.tryPlace room cap = .ok (h, t')) : Move room (.install h cap) t t' := by
  unfold tryPlace at hp
  split at hp
  · next index free hf =>
    obtain ⟨rfl,rfl⟩ := hp
    exact .installFree cap hf
  next hf =>
  split at hp
  · next hroom =>
    obtain ⟨rfl,rfl⟩ := hp
    exact .installFresh cap hf hroom
  · cases hp

theorem tryPlace_error {cap' : Capability} (hp : t.tryPlace room cap = .error cap') :
    cap' = cap ∧ t.free = [] ∧ room t.slots.length = false := by
  unfold tryPlace at hp
  grind

section Cases

variable {D : Type} (Q : Quota D) (objs : Objects) (room : Nat → Bool) (t : HandleTable) (ds : D)

theorem insert_cases (cap : Capability) :
    (Move room (.install (t.insert Q room cap ds).1 cap) t (t.insert Q room cap ds).2.1 ∧
      (t.insert Q room cap ds).2.2 = t.chargeHandle Q ds) ∨
    (t.insert Q room cap ds = (Handle.new 0 0, t, t.unchargeHandles Q 1 (t.chargeHandle Q ds)) ∧
      t.free = [] ∧ room t.slots.length = false) := by
  unfold insert
  cases hp : t.tryPlace room cap with
  | ok r => exact .inl ⟨tryPlace_ok hp,rfl⟩
  | error c => exact .inr ⟨rfl,(tryPlace_error hp).2⟩

theorem tryInsertOrReturn_cases (cap : Capability) :
    (∃ h t', t.tryInsertOrReturn Q room cap ds = (.ok h, t', (t.tryChargeHandle Q ds).2) ∧
      (t.tryChargeHandle Q ds).1 ∧ Move room (.install h cap) t t') ∨
    (t.tryInsertOrReturn Q room cap ds = (.error cap, t, (t.tryChargeHandle Q ds).2) ∧
      (t.tryChargeHandle Q ds).1 = false) ∨
    (t.tryInsertOrReturn Q room cap ds =
        (.error cap, t, t.unchargeHandles Q 1 (t.tryChargeHandle Q ds).2) ∧
      (t.tryChargeHandle Q ds).1 ∧ t.free = [] ∧ room t.slots.length = false) := by
  unfold tryInsertOrReturn
  rcases t.tryChargeHandle Q ds with ⟨granted,ds'⟩
  cases granted with
  | false => exact .inr (.inl ⟨rfl,rfl⟩)
  | true =>
    cases hp : t.tryPlace room cap with
    | ok r => exact .inl ⟨r.1,r.2,rfl,rfl,tryPlace_ok hp⟩
    | error c =>
      obtain ⟨rfl,hfull⟩ := tryPlace_error hp
      exact .inr (.inr ⟨rfl,rfl,hfull⟩)

theorem tryInsert_eq (cap : Capability) : t.tryInsert Q room cap ds =
      ((t.tryInsertOrReturn Q room cap ds).1.toOption, (t.tryInsertOrReturn Q room cap ds).2) := by
  unfold tryInsert
  rcases t.tryInsertOrReturn Q room cap ds with ⟨_ | h,r⟩ <;> rfl

theorem duplicate_cases (h : Handle) (newRights : Rights) :
    (∃ e, t.duplicate Q objs room h newRights ds = (.error e, t, ds)) ∨
    (∃ cap, t.capOf h = .ok cap ∧ cap.isValid objs ∧ newRights ≤ cap.rights ∧
      (t.duplicate Q objs room h newRights ds).2 =
        (t.tryInsert Q room (Capability.derived objs cap newRights) ds).2 ∧
      (t.duplicate Q objs room h newRights ds).1.toOption =
        (t.tryInsert Q room (Capability.derived objs cap newRights) ds).1) := by
  unfold duplicate
  cases hc : t.capOf h with
  | error e => exact .inl ⟨e,rfl⟩
  | ok cap =>
    dsimp only
    split
    · exact .inl ⟨_,rfl⟩
    next hvalid =>
    split
    · exact .inl ⟨_,rfl⟩
    split
    · exact .inl ⟨_,rfl⟩
    next hsub =>
    refine .inr ⟨cap,rfl,by simpa using hvalid,?_,?_⟩
    · change cap.rights.contains newRights
      simpa using hsub
    · rcases t.tryInsert Q room (Capability.derived objs cap newRights) ds with ⟨_ | hd,r⟩
      · exact ⟨rfl,rfl⟩
      · exact ⟨rfl,rfl⟩

theorem unbook_trace (keep : Nat) :
    Trace (Move room) (replicate (t.booked.length - keep) .unbook) t (t.unbook keep) := by
  suffices ∀ booked free, Trace (Move room) (replicate (booked.length - keep) .unbook)
      { t with booked := booked, free := free }
      { t with booked := (unbookLoop keep booked free).1,
               free := (unbookLoop keep booked free).2 } from this t.booked t.free
  intro booked
  induction booked with
  | nil =>
    intro free
    simpa [unbookLoop] using Trace.nil _
  | cons index booked ih =>
    intro free
    unfold unbookLoop
    by_cases hk : booked.length + 1 > keep
    · rw [if_pos hk]
      have hlen : (index :: booked).length - keep = (booked.length - keep) + 1 := by
        rw [length_cons]
        omega
      rw [hlen,replicate_succ]
      exact .cons (.unbook rfl) (ih (index :: free))
    · rw [if_neg hk]
      have hlen : (index :: booked).length - keep = 0 := by
        rw [length_cons]
        omega
      rw [hlen]
      exact Trace.nil _

theorem bookSlots_succ (before count : Nat) :
    (∃ t', Move room .book t t' ∧ t'.booked.length = t.booked.length + 1 ∧
      t.bookSlots room before (count + 1) = t'.bookSlots room before count) ∨
    t.bookSlots room before (count + 1) = (false, t.unbook before) := by
  rw [bookSlots]
  cases hf : t.free with
  | cons index free => exact .inl ⟨_,.bookFree hf,rfl,rfl⟩
  | nil =>
    by_cases hroom : room t.slots.length
    · rw [if_pos hroom]
      exact .inl ⟨_,.bookFresh hf hroom,rfl,by rw [hf]⟩
    · rw [if_neg hroom]
      exact .inr rfl

theorem bookSlots_trace (count : Nat) {before : Nat} (hb : before ≤ t.booked.length) :
    ((t.bookSlots room before count).1 ∧
      Trace (Move room) (replicate count .book) t (t.bookSlots room before count).2) ∨
    ((t.bookSlots room before count).1 = false ∧ ∃ k, Trace (Move room)
        (replicate k .book ++ replicate (t.booked.length + k - before) .unbook) t
        (t.bookSlots room before count).2) := by
  induction count generalizing t with
  | zero => exact .inl ⟨rfl,Trace.nil t⟩
  | succ count ih =>
    rcases bookSlots_succ room t before count with ⟨t',hmove,hlen,heq⟩ | heq
    · rw [heq]
      rcases ih t' (by omega) with ⟨hr,htr⟩ | ⟨hr,k,htr⟩
      · exact .inl ⟨hr,.cons hmove htr⟩
      · refine .inr ⟨hr,k + 1,?_⟩
        rw [hlen,show t.booked.length + 1 + k = t.booked.length + (k + 1) by omega] at htr
        exact .cons hmove htr
    · rw [heq]
      exact .inr ⟨rfl,0,unbook_trace room t before⟩

theorem bookSlots_true_length (before count : Nat) (h : (t.bookSlots room before count).1) :
    (t.bookSlots room before count).2.booked.length = t.booked.length + count := by
  induction count generalizing t with
  | zero => rfl
  | succ count ih =>
    rcases bookSlots_succ room t before count with ⟨t',-,hlen,heq⟩ | heq
    · rw [heq] at h ⊢
      rw [ih t' h,hlen]
      omega
    · rw [heq] at h
      cases h

theorem chargeReservation_congr {t t' : HandleTable} (hd : t'.domain = t.domain)
    (taken left : Nat) (ds : D) :
    t'.chargeReservation Q taken left ds = t.chargeReservation Q taken left ds := by
  induction left generalizing taken ds with
  | zero => rfl
  | succ left ih =>
    simp only [chargeReservation,tryChargeHandle,unchargeHandles,hd,ih]

theorem reserve_cases (bookRoom : Bool) (count : Nat) : ((t.reserve Q room bookRoom count ds).1 ∧
      Trace (Move room) (replicate count .book) t (t.reserve Q room bookRoom count ds).2.1 ∧
      (t.chargeReservation Q 0 count ds).1 ∧
      (t.reserve Q room bookRoom count ds).2.2 = (t.chargeReservation Q 0 count ds).2) ∨
    ((t.reserve Q room bookRoom count ds).1 = false ∧
      (∃ k, Trace (Move room) (replicate k .book ++ replicate k .unbook) t
        (t.reserve Q room bookRoom count ds).2.1) ∧
      (t.reserve Q room bookRoom count ds).2.2 = ds) ∨
    ((t.reserve Q room bookRoom count ds).1 = false ∧
      Trace (Move room) (replicate count .book ++ replicate count .unbook) t
        (t.reserve Q room bookRoom count ds).2.1 ∧
      (t.chargeReservation Q 0 count ds).1 = false ∧
      (t.reserve Q room bookRoom count ds).2.2 = (t.chargeReservation Q 0 count ds).2) := by
  have hbook := bookSlots_trace room t count (Nat.le_refl t.booked.length)
  have hlen := bookSlots_true_length room t t.booked.length count
  unfold reserve
  cases bookRoom with
  | false => exact .inr (.inl ⟨rfl,⟨0,Trace.nil t⟩,rfl⟩)
  | true =>
    rcases hb : t.bookSlots room t.booked.length count with ⟨booked,t'⟩
    rw [hb] at hbook hlen
    rcases hbook with ⟨rfl,htr⟩ | ⟨rfl,k,htr⟩
    · have hcharge := chargeReservation_congr Q (domain_of_trace htr) 0 count ds
      dsimp only
      rw [hcharge]
      rcases t.chargeReservation Q 0 count ds with ⟨granted,ds'⟩
      cases granted with
      | true => exact .inl ⟨rfl,htr,rfl,rfl⟩
      | false =>
        refine .inr (.inr ⟨rfl,htr.append ?_,rfl,rfl⟩)
        have hback := unbook_trace room t' t.booked.length
        rwa [hlen rfl,Nat.add_sub_cancel_left] at hback
    · rw [Nat.add_sub_cancel_left] at htr
      exact .inr (.inl ⟨rfl,⟨k,htr⟩,rfl⟩)

theorem mem_bookings {k : Nat} {e : Event}
    (h : e ∈ replicate k Event.book ++ replicate k Event.unbook) : e = .book ∨ e = .unbook :=
  (mem_append.mp h).imp eq_of_mem_replicate eq_of_mem_replicate

theorem reserve_trace (bookRoom : Bool) (count : Nat) :
    ∃ es, Trace (Move room) es t (t.reserve Q room bookRoom count ds).2.1 ∧
      ∀ e ∈ es, e = .book ∨ e = .unbook := by
  rcases reserve_cases Q room t ds bookRoom count with
    ⟨-,htr,-⟩ | ⟨-,⟨k,htr⟩,-⟩ | ⟨-,htr,-⟩
  · exact ⟨_,htr,fun e he => .inl (eq_of_mem_replicate he)⟩
  · exact ⟨_,htr,fun e => mem_bookings⟩
  · exact ⟨_,htr,fun e => mem_bookings⟩

theorem releaseReservation_trace (count : Nat) :
    Trace (Move room) (replicate (min count t.booked.length) .unbook) t
      (t.releaseReservation Q count ds).1 := by
  have h := unbook_trace room t (t.booked.length - min count t.booked.length)
  rwa [Nat.sub_sub_self (Nat.min_le_right _ _)] at h

theorem insertReserved_cases (cap : Capability) :
    (Move room (.installBooked (t.insertReserved Q room cap ds).1 cap) t
        (t.insertReserved Q room cap ds).2.1 ∧
      t.closed = false ∧ (t.insertReserved Q room cap ds).2.2 = ds) ∨
    (Move room .forget t (t.insertReserved Q room cap ds).2.1 ∧
      t.closed ∧ (t.insertReserved Q room cap ds).1 = Handle.fromRaw 0 ∧
      (t.insertReserved Q room cap ds).2.2 = t.unchargeHandles Q 1 ds) ∨
    (t.booked = [] ∧ (Move room (.install (t.insertReserved Q room cap ds).1 cap) t
          (t.insertReserved Q room cap ds).2.1 ∨
        (t.insertReserved Q room cap ds).2.1 = t)) := by
  unfold insertReserved
  by_cases hc : t.closed
  · rw [if_pos hc]
    cases hb : t.booked with
    | nil => exact .inr (.inr ⟨rfl,.inr rfl⟩)
    | cons index booked => exact .inr (.inl ⟨.forget hc hb,hc,rfl,rfl⟩)
  rw [if_neg hc]
  have hopen := Bool.eq_false_iff.mpr hc
  cases hb : t.booked with
  | cons index booked => exact .inl ⟨.installBooked cap hopen hb,hopen,rfl⟩
  | nil =>
    refine .inr (.inr ⟨rfl,?_⟩)
    dsimp only [place]
    cases hp : t.tryPlace room cap with
    | ok r => exact .inl (tryPlace_ok hp)
    | error c => exact .inr rfl

theorem take_cases (h : Handle) (rights : Rights) : (∃ cap, t.take Q objs h rights ds =
        (.ok cap, t.recycle { t.slotAt h.index with cap := none } h.index,
          t.unchargeHandles Q 1 ds) ∧ t.capOf h = .ok cap) ∨
    (∃ e, t.take Q objs h rights ds = (.error e, t, ds)) := by
  unfold take
  cases hc : t.liveCapOf objs h with
  | error e => exact .inr ⟨e,rfl⟩
  | ok cap =>
    have hcap := capOf_of_liveCapOf hc
    dsimp only
    split
    · exact .inr ⟨_,rfl⟩
    · rw [getElem?_eq_slotAt (capOf_eq_ok_iff.mp hcap).1]
      exact .inl ⟨cap,rfl,hcap⟩

theorem takeForTransfer_cases (h : Handle) (rights : Rights) :
    (∃ cap t', t.takeForTransfer objs h rights = (.ok cap, t') ∧ t.capOf h = .ok cap ∧
      cap.rights.contains rights ∧ Move room (.reserve h cap) t t') ∨
    (∃ e, t.takeForTransfer objs h rights = (.error e, t)) := by
  unfold takeForTransfer
  cases hc : t.liveCapOf objs h with
  | error e => exact .inr ⟨e,rfl⟩
  | ok cap =>
    have hcap := capOf_of_liveCapOf hc
    dsimp only
    split
    · exact .inr ⟨_,rfl⟩
    · next hr =>
      rw [getElem?_eq_slotAt (capOf_eq_ok_iff.mp hcap).1]
      exact .inl ⟨cap,_,rfl,hcap,by simpa using hr,.reserve hcap⟩

theorem resolveTaken_cases (h : Handle) : (t.resolveTaken Q h ds).2 = t.unchargeHandles Q 1 ds ∧
    (Move room (.resolve h) t (t.resolveTaken Q h ds).1 ∨
      t.slots.length ≤ h.index ∧ (t.resolveTaken Q h ds).1 = t) := by
  unfold resolveTaken
  refine ⟨rfl,?_⟩
  by_cases hi : h.index < t.slots.length
  · rw [getElem?_eq_slotAt hi]
    exact .inl (.resolve hi)
  · rw [getElem?_eq_none (by omega)]
    exact .inr ⟨by omega,rfl⟩

theorem restoreTaken_cases (h : Handle) (cap : Capability) :
    (Move room (.restore h cap) t (t.restoreTaken Q room h cap ds).1 ∧
      t.closed = false ∧ (t.restoreTaken Q room h cap ds).2 = ds) ∨
    (Move room (.discard h) t (t.restoreTaken Q room h cap ds).1 ∧
      t.closed ∧ (t.restoreTaken Q room h cap ds).2 = t.unchargeHandles Q 1 ds) ∨
    (t.slots.length ≤ h.index ∧ ((t.restoreTaken Q room h cap ds).1 = t ∨
        t.restoreTaken Q room h cap ds = (t.insert Q room cap ds).2)) := by
  unfold restoreTaken
  by_cases hc : t.closed
  · rw [if_pos hc]
    by_cases hi : h.index < t.slots.length
    · rw [getElem?_eq_slotAt hi]
      exact .inr (.inl ⟨.discard hc hi,hc,rfl⟩)
    · rw [getElem?_eq_none (by omega)]
      exact .inr (.inr ⟨by omega,.inl rfl⟩)
  · rw [if_neg hc]
    have hopen := Bool.eq_false_iff.mpr hc
    by_cases hi : h.index < t.slots.length
    · rw [getElem?_eq_slotAt hi]
      exact .inl ⟨.restore cap hopen hi,hopen,rfl⟩
    · rw [getElem?_eq_none (by omega)]
      exact .inr (.inr ⟨by omega,.inr rfl⟩)

theorem close_cases (h : Handle) : (∃ cap claim, t.close Q objs h ds =
        (.ok claim, t.recycle { t.slotAt h.index with cap := none } h.index,
          t.unchargeHandles Q 1 ds) ∧ t.capOf h = .ok cap) ∨
    (∃ e, t.close Q objs h ds = (.error e, t, ds)) := by
  unfold close
  by_cases hi : h.index < t.slots.length
  · rw [getElem?_eq_slotAt hi]
    dsimp only
    cases hc : (t.slotAt h.index).cap with
    | none => exact .inr ⟨_,rfl⟩
    | some cap =>
      dsimp only
      split
      · exact .inr ⟨_,rfl⟩
      next hgen =>
      have hcap : t.capOf h = .ok cap := capOf_eq_ok_iff.mpr ⟨hi,by simpa using hgen,hc⟩
      exact .inl ⟨cap,_,rfl,hcap⟩
  · rw [getElem?_eq_none (by omega)]
    exact .inr ⟨_,rfl⟩

end Cases

section

variable (booked : List Nat) (i : Nat) (slots : List Slot) (free : List Nat)

theorem closeLoop_length (n : Nat) : (closeLoop booked i slots free n).1.length = slots.length := by
  induction slots generalizing i free n with
  | nil => rfl
  | cons slot rest ih => simp [closeLoop,ih]

theorem closeLoop_getElem? (n j : Nat) : (closeLoop booked i slots free n).1[j]? =
      slots[j]?.map fun slot => (closeSlot booked (i + j) slot).1 := by
  induction slots generalizing i free n j with
  | nil => rfl
  | cons slot rest ih =>
    cases j with
    | zero => rfl
    | succ j =>
      simp only [closeLoop,getElem?_cons_succ,ih]
      rw [show i + 1 + j = i + (j + 1) by omega]

/-- The free list that `close_all` builds holds an index once if the loop found its
slot fit for reuse, and otherwise not at all. -/
theorem closeLoop_count (n x : Nat) (hlen : i + slots.length ≤ 2 ^ 32) :
    (closeLoop booked i slots free n).2.1.count x = free.count x +
      if i ≤ x then (slots[x - i]?.any fun slot => (closeSlot booked x slot).2.2).toNat else 0 := by
  induction slots generalizing i free n with
  | nil => simp [closeLoop]
  | cons slot rest ih =>
    rw [length_cons] at hlen
    have hmod : i % 2 ^ 32 = i := Nat.mod_eq_of_lt (by omega)
    have hhead : count x (if (closeSlot booked i slot).2.2 then i :: free else free) =
        free.count x + if x = i then (closeSlot booked i slot).2.2.toNat else 0 := by
      cases (closeSlot booked i slot).2.2 with
      | false => simp
      | true =>
        rw [if_pos rfl,count_cons]
        simp only [beq_iff_eq,Bool.toNat_true,eq_comm (a := i)]
    simp only [closeLoop,ih (i + 1) _ _ (by omega),hmod,hhead]
    rcases Nat.lt_trichotomy x i with hlt | rfl | hgt
    · simp only [if_neg (show ¬ x = i by omega),if_neg (show ¬ i + 1 ≤ x by omega),
        if_neg (show ¬ i ≤ x by omega)]
    · simp
    · have hsub : x - i = (x - (i + 1)) + 1 := by omega
      simp only [if_neg (show ¬ x = i by omega),if_pos (show i + 1 ≤ x by omega),
        if_pos (show i ≤ x by omega),hsub,getElem?_cons_succ,Nat.add_zero]

end

theorem slotAt_swept (hi : i < t.slots.length) :
    t.swept.slotAt i = (closeSlot t.booked i (t.slotAt i)).1 := by
  have h := closeLoop_getElem? t.booked 0 t.slots [] 0 i
  rw [getElem?_eq_slotAt hi,Nat.zero_add,Option.map_some] at h
  exact (slotAt_of_getElem? h).2

theorem length_swept (t : HandleTable) : t.swept.slots.length = t.slots.length :=
  closeLoop_length ..

theorem count_free_swept (hlen : t.slots.length ≤ 2 ^ 32) (hi : i < t.slots.length) :
    t.swept.free.count i = (closeSlot t.booked i (t.slotAt i)).2.2.toNat := by
  have h := closeLoop_count t.booked 0 t.slots [] 0 i (by omega)
  rw [if_pos (Nat.zero_le i),Nat.sub_zero,getElem?_eq_slotAt hi] at h
  simpa [swept] using h

theorem count_free_swept_of_ge (hlen : t.slots.length ≤ 2 ^ 32)
    (hi : t.slots.length ≤ i) : t.swept.free.count i = 0 := by
  have h := closeLoop_count t.booked 0 t.slots [] 0 i (by omega)
  rw [if_pos (Nat.zero_le i),Nat.sub_zero,getElem?_eq_none hi] at h
  simpa [swept] using h

end LiberSystem.HandleTable
