import LiberSystem.Kernel.Object.HandleRun

/-!
# Closed tables

`close_all` is meant to be a barrier: a closed table takes nothing new. A restore and an
installation over a booking look at the `closed` flag.
-/

namespace LiberSystem

namespace HandleTable

variable {room : Nat → Bool} {e : Event} {t t' : HandleTable} {taken : Multiset Handle}

def NoLive (t : HandleTable) : Prop := ∀ i, (t.slotAt i).cap = none

def Exhausted (room : Nat → Bool) (t : HandleTable) : Prop :=
  t.free = [] ∧ room t.slots.length = false

variable {hd : Handle} {cap : Capability}

theorem Exhausted.no_install (h : Exhausted room t) : ¬ Move room (.install hd cap) t t' := by
  intro hm
  cases hm with
  | installFree _ hf =>
    rw [h.1] at hf
    cases hf
  | installFresh _ _ hr =>
    rw [h.2] at hr
    cases hr

theorem NoLive.capOf_ne (h : t.NoLive) : t.capOf hd ≠ .ok cap := by
  intro hc
  have hcap := (capOf_eq_ok_iff.mp hc).2.2
  rw [h] at hcap
  cases hcap

theorem noLive_swept (hinv : TableInv t taken) : t.swept.NoLive := by
  intro i
  by_cases hi : i < t.slots.length
  · rw [slotAt_swept hi]
    have hmod : i % 2 ^ 32 = i := Nat.mod_eq_of_lt (hi.trans_le hinv.length_le)
    unfold closeSlot
    rw [hmod]
    split
    · next hheld =>
      rw [Bool.or_eq_true,List.contains_iff_mem] at hheld
      rcases hheld with hres | hmem
      · exact ((hinv.slot i).of_reserved hres).2.1
      · have hpos := List.count_pos_iff.mpr hmem
        exact ((hinv.slot i).of_listed (by omega)).2.1
    · split
      · split <;> rfl
      · next hnone => simpa using hnone
  · rw [slotAt_of_ge (by rw [length_swept]; omega)]

theorem Move.noLive (hm : Move room e t t') (hclosed : t.closed) (hno : t.NoLive)
    (hinv : TableInv t taken) (he : e.installs = false) : t'.NoLive := by
  have hset : ∀ {k : Nat} {slot : Slot} {u : HandleTable}, u.slots = t.slots.set k slot →
      slot.cap = none → u.NoLive := by
    intro k slot u hu hcap i
    rcases slotAt_of_set_or hu i with h | ⟨-,h⟩
    · rw [h]
      exact hno i
    · rw [h]
      exact hcap
  cases hm with
  | installFree | installFresh | installBooked => cases he
  | bookFree | unbook | forget => exact hno
  | bookFresh =>
    intro i
    rw [slotAt_of_append rfl]
    split
    · rfl
    · exact hno i
  | remove hc | reserve hc => exact absurd hc hno.capOf_ne
  | @resolve _ h hi =>
    exact hset (t.recycle_slots _ _) (by rw [retireOrRecycle_cap]; exact hno h.index)
  | restore cap hc hi =>
    rw [hclosed] at hc
    cases hc
  | @discard _ h hc hi => exact hset rfl (hno h.index)
  | closeAll => exact noLive_swept hinv

end HandleTable

namespace TableState

open HandleTable (Event Move Exhausted)

/-- The heap gives the table no slot beyond `2 ^ 32`, and an insertion into a closed
table is refused: the table is exhausted, or the Domain refuses the charge of a call
that asks it. A `duplicate` needs no condition, as it has nothing to copy. -/
def RefusedWhenClosed {D : Type} (Q : Quota D) (s : TableState) (c : TableCall D) : Prop :=
  RoomBounded c.room ∧ (s.table.closed = true → match c.op with
    | .insert _ => Exhausted c.room s.table
    | .insertObject _ _ => Exhausted c.room s.table
    | .tryInsert _ => Exhausted c.room s.table ∨ (s.table.tryChargeHandle Q c.domains).1 = false
    | .tryInsertOrReturn _ =>
      Exhausted c.room s.table ∨ (s.table.tryChargeHandle Q c.domains).1 = false
    | _ => True)

variable {D : Type}

section

variable (Q : Quota D) (room : Nat → Bool) (t : HandleTable) (ds : D) (cap : Capability)
include Q room t ds cap

theorem insert_refused (h : Exhausted room t) : (t.insert Q room cap ds).2.1 = t := by
  rcases HandleTable.insert_cases Q room t ds cap with ⟨hm,-⟩ | ⟨heq,-⟩
  · exact absurd hm h.no_install
  · rw [heq]

theorem tryInsertOrReturn_refused (h : Exhausted room t ∨ (t.tryChargeHandle Q ds).1 = false) :
    (t.tryInsertOrReturn Q room cap ds).2.1 = t := by
  rcases HandleTable.tryInsertOrReturn_cases Q room t ds cap with
    ⟨hd,t',-,hgrant,hm⟩ | ⟨heq,-⟩ | ⟨heq,-⟩
  · rcases h with hex | hrefuse
    · exact absurd hm hex.no_install
    · rw [hgrant] at hrefuse
      cases hrefuse
  · rw [heq]
  · rw [heq]

end

theorem closed_step {Q : Quota D} {s s' : TableState} {c : TableCall D} (hi : s.Inv)
    (hclosed : s.table.closed) (hno : s.table.NoLive) (hok : RefusedWhenClosed Q s c)
    (hs : s.step Q c = some s') : s'.table.closed ∧ s'.table.NoLive := by
  obtain ⟨⟨r,s'',ds'⟩,hx,rfl⟩ := Option.map_eq_some_iff.mp hs
  obtain ⟨hroom,hrefused⟩ := hok
  replace hrefused := hrefused hclosed
  obtain ⟨op,objs,room,ds⟩ := c
  have hsame : op.inserts → s''.table = s.table := by
    intro hins
    cases op with
    | insert cap | insertObject object rights =>
      cases hx
      exact insert_refused Q room s.table ds _ hrefused
    | tryInsert cap =>
      cases hx
      change (s.table.tryInsert Q room cap ds).2.1 = s.table
      rw [HandleTable.tryInsert_eq]
      exact tryInsertOrReturn_refused Q room s.table ds cap hrefused
    | tryInsertOrReturn cap =>
      cases hx
      exact tryInsertOrReturn_refused Q room s.table ds cap hrefused
    | duplicate h rights =>
      cases hx
      rcases HandleTable.duplicate_cases Q objs room s.table ds h rights with
        ⟨e,heq⟩ | ⟨cap,hc,-⟩
      · exact congrArg (fun r => r.2.1) heq
      · exact absurd hc hno.capOf_ne
    | _ => cases hins
  cases (exec_done hi hx).made with
  | install hins hm _ =>
    rw [hsame hins]
    exact ⟨hclosed,hno⟩
  | installBooked hm _ =>
    generalize he : Event.installBooked _ _ = e at hm
    cases hm with
    | installBooked cap hopen hb =>
      rw [hclosed] at hopen
      cases hopen
    | _ => cases he
  | quiet htr hes =>
    refine (htr.invariant (P := fun u => u.Inv ∧ u.table.closed ∧ u.table.NoLive)
      ⟨hi,hclosed,hno⟩ ?_).2
    rintro e u v he ⟨hiu,hcu,hnu⟩ hm
    refine ⟨hiu.move hroom hm,?_,hm.1.noLive hcu hnu hiu.table (hes e he)⟩
    rw [hm.1.closed_eq,hcu,Bool.true_or]

/-- Once `close_all` has run, no slot holds a capability in any state that calls
meeting `RefusedWhenClosed` lead to. -/
theorem closed_table_stays_empty {D : Type} (Q : Quota D) (domain : Option DomainId)
    (s s₁ s₂ : TableState) (c : TableCall D)
    (hrun : Reaches (step Q) (RefusedWhenClosed Q) (new domain) s)
    (hclose : c.op = .closeAll) (hs : s.step Q c = some s₁)
    (hafter : Reaches (step Q) (RefusedWhenClosed Q) s₁ s₂) :
    ∀ i, (s₂.table.slotAt i).cap = none := by
  have hi : s.Inv := hrun.invariant (Inv.new domain) fun _ _ _ hi hok hs => hi.step hok.1 hs
  have hswept : s₁ = s.after (.closeAll s.table.liveHandles) s.table.swept := by
    simp only [step,hclose,exec,Option.map_some,Option.some.injEq] at hs
    exact hs.symm
  have hstart : s₁.Inv ∧ s₁.table.closed ∧ s₁.table.NoLive := by
    rw [hswept]
    exact ⟨⟨hi.table.sweep,hi.owed⟩,rfl,HandleTable.noLive_swept hi.table⟩
  refine (hafter.invariant (P := fun u => u.Inv ∧ u.table.closed ∧ u.table.NoLive) hstart ?_).2.2
  rintro u c v ⟨hiu,hcu,hnu⟩ hok hstep
  exact ⟨hiu.step hok.1 hstep,closed_step hiu hcu hnu hok hstep⟩

/-- A live handle, `close_all`, and then a reservation that is filled: the booking is
dropped and the slot stays empty. -/
theorem closed_table_stays_empty_booking : ∃ s₂, runList (step unlimited) (new none)
        ([.insert ⟨7,Rights.all,0,[]⟩,.closeAll,.reserve true 1,
          .insertReserved ⟨9,Rights.all,0,[]⟩].map (callWithin 8)) = some s₂ ∧
      ∀ i, (s₂.table.slotAt i).cap = none := by
  obtain ⟨s₂,hs₂⟩ := Option.isSome_iff_exists.mp (show (runList (step unlimited) (new none)
    ([.insert ⟨7,Rights.all,0,[]⟩,.closeAll,.reserve true 1,
      .insertReserved ⟨9,Rights.all,0,[]⟩].map (callWithin 8))).isSome from rfl)
  refine ⟨s₂,hs₂,?_⟩
  obtain ⟨s,hs,hrest⟩ := Option.bind_eq_some_iff.mp hs₂
  obtain ⟨s₁,hs₁,hlast⟩ := Option.bind_eq_some_iff.mp hrest
  refine closed_table_stays_empty unlimited none s s₁ s₂ (callWithin 8 .closeAll) ?_ rfl hs₁ ?_
  · exact Reaches.refl.tail ⟨callWithin_bounded (by decide) _,fun hc => nomatch hc⟩ hs
  refine reaches_of_runList hlast fun u c hc => ?_
  simp only [List.map_cons,List.map_nil,List.mem_cons,List.not_mem_nil,or_false] at hc
  rcases hc with rfl | rfl
  · exact ⟨callWithin_bounded (by decide) _,fun _ => trivial⟩
  · exact ⟨callWithin_bounded (by decide) _,fun _ => trivial⟩

/-- A closed table takes an insertion, with a charge or without one. -/
theorem closed_table_filled :
    ∃ s s', runList (step unlimited) (new none) ([.closeAll].map (callWithin 8)) = some s ∧
      s.step unlimited (callWithin 8 (.insert ⟨7,Rights.all,0,[]⟩)) = some s' ∧
      s'.table.closed = true ∧ (s'.table.slotAt 0).cap = some ⟨7,Rights.all,0,[]⟩ ∧
      (s.step unlimited (callWithin 8 (.tryInsert ⟨7,Rights.all,0,[]⟩))).map
        (fun u => u.table) = some s'.table :=
  ⟨_,_,rfl,rfl,rfl,rfl,rfl⟩

end TableState

end LiberSystem
