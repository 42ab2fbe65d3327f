import LiberSystem.Kernel.Object.HandleQuota

/-!
# Handle tables over a tree of Domains

A step is a call on one table, a change of some limit, or the end of a table, whose place a new one
can take.
-/

namespace LiberSystem

open Function Finset HandleTable TableState

/-- The slots that fit the kernel heap: a window of 512 GiB, 32 bytes a slot. -/
def heapSlots : Nat := 2 ^ 34

structure QuotaState (ι : Type) where
  accounts : Accounts
  tables : ι → TableState

/-- A step. `grants n` is what the heap would answer a table that has `n` slots, were
there no other table. -/
inductive QuotaAct (ι : Type) where
  | call (k : ι) (op : TableOp) (objs : Objects) (grants : Nat → Bool)
  | setLimit (d : DomainId) (res : Resource) (limit : Nat)
  | drop (k : ι) (domain : Option DomainId)

namespace QuotaState

variable {ι : Type} [Fintype ι] [DecidableEq ι] {F : Forest} {s : QuotaState ι}

def new (limits : DomainId → Resource → Nat) (domains : ι → Option DomainId) : QuotaState ι where
  accounts d res := ResourceCounter.new (limits d res)
  tables k := TableState.new (domains k)

def otherSlots (s : QuotaState ι) (k : ι) : Nat :=
  ∑ j ∈ univ.erase k, (s.tables j).table.slots.length

def room (s : QuotaState ι) (k : ι) (grants : Nat → Bool) (n : Nat) : Bool :=
  grants n && decide (n + s.otherSlots k < heapSlots)

def step (F : Forest) (s : QuotaState ι) : QuotaAct ι → Option (QuotaState ι)
  | .call k op objs grants =>
    ((s.tables k).exec (domainQuota F) objs (s.room k grants) s.accounts op).map fun r =>
      { accounts := r.2.2, tables := update s.tables k r.2.1 }
  | .setLimit d res limit => some { s with accounts := s.accounts.setLimit d res limit }
  | .drop k domain =>
    if (s.tables k).taken = 0 ∧ (s.tables k).owed = 0 then
      some { accounts := (s.tables k).table.drop (domainQuota F) s.accounts
             tables := Function.update s.tables k (TableState.new domain) }
    else none

def heldBelow (F : Forest) (s : QuotaState ι) (x : DomainId) : Nat :=
  ∑ k, if x ∈ (s.tables k).table.chain F then (s.tables k).table.held else 0

structure Inv (F : Forest) (s : QuotaState ι) : Prop where
  table : ∀ k, (s.tables k).Inv
  slots : ∑ k, (s.tables k).table.slots.length ≤ heapSlots
  used : ∀ x, s.accounts.used .handles x = s.heldBelow F x

/-- A step during which the heap gives no table a slot beyond `2 ^ 32`. -/
def Bounded (_ : QuotaState ι) : QuotaAct ι → Prop
  | .call _ _ _ grants => RoomBounded grants
  | _ => True

omit [DecidableEq ι] in
theorem Inv.new (F : Forest) (limits : DomainId → Resource → Nat)
    (domains : ι → Option DomainId) : (new limits domains).Inv F := by
  refine ⟨fun k => TableState.Inv.new (domains k),?_,fun x => ?_⟩
  · simp [QuotaState.new,TableState.new,HandleTable.new]
  symm
  refine sum_eq_zero fun k _ => ?_
  simp [QuotaState.new,TableState.new,HandleTable.new,HandleTable.held,HandleTable.len,
    HandleTable.reservedCount]

omit [DecidableEq ι] in
theorem Inv.heldBelow_le (hi : s.Inv F) (x : DomainId) : s.heldBelow F x ≤ heapSlots := by
  refine (sum_le_sum fun k _ => ?_).trans hi.slots
  split
  · exact held_le_length (hi.table k).table
  · exact Nat.zero_le _

omit [DecidableEq ι] in
theorem Inv.funded (hi : s.Inv F) (k : ι) : HandleTable.Funded F (s.tables k).table s.accounts := by
  refine ⟨fun x _ => ?_,fun x hx => ?_⟩
  · have hle := hi.heldBelow_le x
    rw [hi.used x]
    unfold heapSlots at hle
    unfold u64Max
    omega
  · rw [hi.used x]
    have hle := single_le_sum
      (f := fun k => if x ∈ (s.tables k).table.chain F then (s.tables k).table.held else 0)
      (fun _ _ => Nat.zero_le _) (mem_univ k)
    rwa [if_pos hx] at hle

variable {objs : Objects} {op : TableOp} {r : Option Handle} {F : Forest} {u : TableState}
  {a : Accounts} {n : Nat} {D : Type} {k : ι} {s' : QuotaState ι}

theorem exec_frame {Q : Quota D} {room : Nat → Bool}
    {s s' : TableState} {ds ds' : D} (hi : s.Inv)
    (hx : s.exec Q objs room ds op = some (r, s', ds')) (bound : Nat)
    (hroom : ∀ n, room n → n < bound) (hlen : s.table.slots.length ≤ bound) :
    s'.table.domain = s.table.domain ∧ s'.table.slots.length ≤ bound := by
  obtain ⟨es,htr⟩ := (exec_done hi hx).made.trace
  refine htr.invariant (P := fun u => u.table.domain = s.table.domain ∧
    u.table.slots.length ≤ bound) ⟨rfl,hlen⟩ ?_
  rintro e u v - ⟨hdom,hle⟩ ⟨hm,-,-⟩
  refine ⟨hm.domain_eq.trans hdom,?_⟩
  generalize u.table = t at hm hle
  generalize v.table = t' at hm
  cases hm with
  | installFresh cap hf hr | bookFresh hf hr =>
    have := hroom _ hr
    simpa using Nat.succ_le_of_lt this
  | closeAll => rwa [length_swept]
  | _ => simpa [recycle] using hle

theorem heldBelow_update (F : Forest) (s : QuotaState ι) (a : Accounts) (k : ι) (u : TableState)
    (x : DomainId) :
    heldBelow F ⟨a,update s.tables k u⟩ x +
        (if x ∈ (s.tables k).table.chain F then (s.tables k).table.held else 0) =
      s.heldBelow F x + if x ∈ u.table.chain F then u.table.held else 0 :=
  sum_update (fun _ (u : TableState) => if x ∈ u.table.chain F then u.table.held else 0)
    s.tables (mem_univ k) u

theorem slots_update (s : QuotaState ι) (k : ι) (u : TableState) :
    ∑ j, (update s.tables k u j).table.slots.length =
      u.table.slots.length + s.otherSlots k :=
  sum_update_eq (fun _ u => u.table.slots.length) s.tables (mem_univ k) u

theorem slots_eq (s : QuotaState ι) (k : ι) : ∑ j, (s.tables j).table.slots.length =
      (s.tables k).table.slots.length + s.otherSlots k := by
  have h := s.slots_update k (s.tables k)
  rwa [update_eq_self] at h

theorem Inv.update (hi : s.Inv F) (hu : u.Inv)
    (hlen : u.table.slots.length + s.otherSlots k ≤ heapSlots)
    (hused : ∀ x, a.used .handles x +
        (if x ∈ (s.tables k).table.chain F then (s.tables k).table.held else 0) =
      s.accounts.used .handles x + if x ∈ u.table.chain F then u.table.held else 0) :
    Inv F ⟨a,update s.tables k u⟩ := by
  refine ⟨fun j => ?_,?_,fun x => ?_⟩
  · change (Function.update s.tables k u j).Inv
    by_cases hj : j = k
    · rw [hj,update_self]
      exact hu
    · rw [update_of_ne hj]
      exact hi.table j
  · rw [← s.slots_update] at hlen
    exact hlen
  · have hsum := s.heldBelow_update F a k u x
    have hnew := hused x
    rw [hi.used x] at hnew
    change a.used .handles x = _
    omega

theorem Inv.call (hi : s.Inv F) {grants : Nat → Bool} (hgrants : RoomBounded grants)
    (hs : s.step F (.call k op objs grants) = some s') : s'.Inv F := by
  obtain ⟨⟨r,u,a'⟩,hx,rfl⟩ := Option.map_eq_some_iff.mp hs
  have hroom : RoomBounded (s.room k grants) := by
    intro n hn
    rw [room,hgrants n hn,Bool.false_and]
  have hslots := hi.slots
  rw [s.slots_eq k] at hslots
  obtain ⟨hdom,hlen⟩ := exec_frame (hi.table k) hx (heapSlots - s.otherSlots k) (fun n hn => by
      rw [room,Bool.and_eq_true,decide_eq_true_eq] at hn
      omega) (by omega)
  have hbal := exec_balanced (hi.table k) hroom (hi.funded k) hx
  obtain ⟨es,htr⟩ := (exec_done (hi.table k) hx).made.trace
  refine hi.update (u := u) (a := a') ((hi.table k).trace hroom htr) (by omega) fun x => ?_
  have hchain : u.table.chain F = (s.tables k).table.chain F := by
    unfold chain
    rw [hdom]
  have hshift := hbal x
  rw [hchain]
  split
  · next hmem =>
    rw [if_pos hmem] at hshift
    omega
  · next hmem =>
    rw [if_neg hmem] at hshift
    omega

omit [DecidableEq ι] in
theorem Inv.used_drop (hi : s.Inv F)
    (htaken : (s.tables k).taken = 0) (howed : (s.tables k).owed = 0) (x : DomainId) :
    ((s.tables k).table.drop (domainQuota F) s.accounts).used .handles x +
        (if x ∈ (s.tables k).table.chain F then (s.tables k).table.held else 0) =
      s.accounts.used .handles x := by
  have hinv := (hi.table k).table
  rw [htaken] at hinv
  have hbooked : (s.tables k).table.booked = [] := by
    rw [(hi.table k).owed] at howed
    exact List.eq_nil_of_length_eq_zero howed
  have hshift := drop_shifted hinv hbooked (hi.funded k) x
  split
  · next hmem =>
    rw [if_pos hmem] at hshift
    omega
  · next hmem =>
    rw [if_neg hmem] at hshift
    omega

theorem Inv.step {act : QuotaAct ι} (hi : s.Inv F)
    (hok : Bounded s act) (hs : s.step F act = some s') : s'.Inv F := by
  cases act with
  | call k op objs grants => exact hi.call hok hs
  | setLimit d res limit =>
    cases hs
    refine ⟨hi.table,hi.slots,fun x => ?_⟩
    rw [Accounts.used_setLimit]
    exact hi.used x
  | drop k domain =>
    simp only [QuotaState.step] at hs
    split at hs
    · next hquiet =>
      cases hs
      have hslots := hi.slots
      rw [s.slots_eq k] at hslots
      refine hi.update (TableState.Inv.new domain) ?_ fun x => ?_
      · simp only [TableState.new,HandleTable.new,List.length_nil]
        omega
      · rw [hi.used_drop hquiet.1 hquiet.2 x]
        simp [TableState.new,HandleTable.new,HandleTable.held,HandleTable.len,
          HandleTable.reservedCount]
    · cases hs

/-- In every run whose steps are bounded, and at every point of it, the `handles`
counter of each Domain is the number of live slots, transfer-reserved slots and
bookings in the tables of its subtree; and dropping a table that has no booking and no
transfer outstanding leaves what the other tables hold. -/
theorem handle_quota_conserved (F : Forest) (limits : DomainId → Resource → Nat)
    (domains : ι → Option DomainId) (s : QuotaState ι)
    (hrun : Reaches (step F) Bounded (new limits domains) s) (x : DomainId) :
    s.accounts.used .handles x = s.heldBelow F x ∧
      ∀ k, (s.tables k).taken = 0 → (s.tables k).owed = 0 →
        ((s.tables k).table.drop (domainQuota F) s.accounts).used .handles x =
          ∑ j ∈ univ.erase k,
            if x ∈ (s.tables j).table.chain F then (s.tables j).table.held else 0 := by
  have hi : s.Inv F :=
    hrun.invariant (Inv.new F limits domains) fun _ _ _ hi hok hs => hi.step hok hs
  refine ⟨hi.used x,fun k htaken howed => ?_⟩
  have hdrop := hi.used_drop htaken howed x
  rw [hi.used x,heldBelow,← add_sum_erase _ _ (mem_univ k)] at hdrop
  omega

/-- A table in each child: one handle is taken for a transfer, and room is booked for
two more in the other table. -/
def siblingCalls : List (QuotaAct Bool) :=
  [(true, .insert ⟨7,Rights.all,0,[]⟩),(true, .takeForTransfer (Handle.new 1 0) Rights.transfer),
    (false, .reserve true 2)].map fun (k, op) =>
      .call k op (fun _ => ⟨.event,0⟩) fun n => n < 8

theorem handle_quota_conserved_siblings :
    ∃ s, runList (step .siblings) (new (fun _ _ => UNLIMITED) fun k => some (if k then 1 else 2))
        siblingCalls = some s ∧
      s.accounts.used .handles 0 = 3 ∧ s.accounts.used .handles 0 = s.heldBelow .siblings 0 := by
  obtain ⟨s,hs,h3⟩ := exists_of_any (P := fun s => s.accounts.used .handles 0 = 3)
    (o := runList (step .siblings) (new (fun _ _ => UNLIMITED) fun k => some (if k then 1 else 2))
      siblingCalls) (by decide)
  refine ⟨s,hs,h3,(handle_quota_conserved .siblings _ _ s (reaches_of_runList hs ?_) 0).1⟩
  intro u act hact
  obtain ⟨⟨k,op⟩,-,rfl⟩ := List.mem_map.mp hact
  intro n hn
  simp only [decide_eq_false_iff_not]
  omega

def roots : Forest := ⟨fun _ => none,fun h => nomatch h⟩

def charged (n : Nat) : Accounts := fun d res =>
  if d = 0 ∧ res = .handles then ⟨n,n,UNLIMITED⟩ else ⟨0,0,UNLIMITED⟩

theorem charged_modify {m : Nat} {f : ResourceCounter → ResourceCounter}
    (hf : f ⟨n,n,UNLIMITED⟩ = ⟨m,m,UNLIMITED⟩) :
    (charged n).modify 0 .handles f = charged m := by
  funext d res
  rw [Accounts.modify_apply]
  unfold charged
  by_cases h : d = 0 ∧ res = .handles
  · rw [if_pos h,if_pos h,if_pos ⟨rfl,rfl⟩,hf]
  · rw [if_neg h,if_neg h,if_neg h]

section

variable (hn : n + 1 ≤ u64Max) (t : HandleTable) (ht : t.domain = some 0)
include hn t ht

theorem charge_charged : t.chargeHandle (domainQuota roots) (charged n) = charged (n + 1) := by
  unfold chargeHandle
  rw [ht]
  change (charged n).modify 0 .handles (fun c => c.charge 1) = charged (n + 1)
  refine charged_modify ?_
  simp only [ResourceCounter.charge,saturatingAdd_of_le hn]
  rw [Nat.max_eq_right (Nat.le_succ n)]

theorem tryCharge_charged :
    t.tryChargeHandle (domainQuota roots) (charged n) = (true, charged (n + 1)) := by
  have hgrant : (charged n 0 .handles).tryCharge 1 = some ⟨n + 1,n,UNLIMITED⟩ := by
    simp [charged,ResourceCounter.tryCharge,saturatingAdd_of_le hn]
  unfold tryChargeHandle
  rw [ht]
  change Accounts.tryChargeHier .handles 1 [0] (charged n) = _
  simp only [Accounts.tryChargeHier,hgrant,Accounts.modify_modify]
  rw [charged_modify]
  simp only [ResourceCounter.observePeak]
  rw [Nat.max_eq_right (Nat.le_succ n)]

end

variable (cap : Capability)

def filled (n : Nat) : QuotaState Unit where
  accounts := charged n
  tables _ := { TableState.new (some 0) with table := TableState.fullTable cap (some 0) n }

def booked (n : Nat) : QuotaState Unit where
  accounts := charged (n + 1)
  tables _ := { TableState.new (some 0) with
    table := overbooked cap (some 0) n, owed := 1 }

def soleCall (op : TableOp) : QuotaAct Unit := .call () op (fun _ => ⟨.event,0⟩) fun _ => true

theorem soleCall_step {s : QuotaState Unit}
    (hx : (s.tables ()).exec (domainQuota roots) (fun _ => ⟨.event,0⟩)
      (s.room () fun _ => true) s.accounts op = some (r, u, a)) :
    s.step roots (soleCall op) = some ⟨a,fun _ => u⟩ := by
  rw [soleCall,step,hx]
  simp only [Option.map_some,Option.some.injEq,mk.injEq,true_and]
  funext k
  exact update_self () u s.tables

theorem room_filled (hn : n < heapSlots) : (filled cap n).room () (fun _ => true) n := by
  simp [room,otherSlots,hn]

theorem filled_reached (hn : n ≤ heapSlots) :
    Reaches (step roots) (fun _ _ => True) (new (fun _ _ => UNLIMITED) fun _ => some 0)
      (filled cap n) := by
  induction n with
  | zero =>
    have h0 : filled cap 0 = new (fun _ _ => UNLIMITED) fun _ => some 0 := by
      unfold filled new
      congr 1
      funext d res
      unfold charged
      split <;> rfl
    rw [h0]
    exact Reaches.refl
  | succ n ih =>
    refine (ih (by omega)).tail (a := soleCall (.insert cap)) trivial ?_
    have hfits : n + 1 ≤ u64Max := hn.trans (by decide)
    have hinsert := insert_fullTable (domainQuota roots) cap (some 0)
      (room_filled cap (show n < heapSlots by omega)) (charged n)
    rw [charge_charged hfits _ rfl] at hinsert
    exact soleCall_step (exec_insert hinsert)

theorem held_fullTable (domain : Option DomainId) (n : Nat) :
    (fullTable cap domain n).held = n := by
  simp [held,len,reservedCount,fullTable,List.countP_replicate]

theorem insertReserved_overbooked (Q : Quota D) (room : Nat → Bool) (cap : Capability)
    (hpos : 0 < n) (hcut : n % 2 ^ 32 = 0) (ds : D) :
    ∃ h t, (overbooked cap (some 0) n).insertReserved Q room cap ds = (h, t, ds) ∧
      t.domain = some 0 ∧ t.held = n := by
  have hlive := overbooked_live cap (some 0) hpos
  have hbooked : (overbooked cap (some 0) n).booked = [0] := by
    rw [overbooked,hcut]
  have hfull := held_fullTable cap (some 0) n
  have hmore : ((overbooked cap (some 0) n).held : ℤ) = (fullTable cap (some 0) n).held + 1 :=
    held_of_append rfl (by rw [hbooked]; rfl)
  unfold insertReserved
  rw [if_neg (show ¬ (overbooked cap (some 0) n).closed from Bool.false_ne_true),hbooked]
  refine ⟨_,_,rfl,rfl,Int.natCast_inj.mp ?_⟩
  refine (held_of_set (δ := -1) rfl (by simp [overbooked]) ?_).trans (by omega)
  rw [hbooked,hlive]
  simp
  omega

/-- `2 ^ 32` insertions, a reservation of one handle, and its use: slot `0` is filled a
second time, and one handle more is charged than the table holds. -/
theorem handle_quota_leaks : ∃ s : QuotaState Unit,
      Reaches (step roots) (fun _ _ => True) (new (fun _ _ => UNLIMITED) fun _ => some 0) s ∧
      s.accounts.used .handles 0 = 2 ^ 32 + 1 ∧ s.heldBelow roots 0 = 2 ^ 32 := by
  suffices ∀ n, 0 < n → n % 2 ^ 32 = 0 → n < heapSlots → ∃ s : QuotaState Unit,
      Reaches (step roots) (fun _ _ => True) (new (fun _ _ => UNLIMITED) fun _ => some 0) s ∧
      s.accounts.used .handles 0 = n + 1 ∧ s.heldBelow roots 0 = n from
    this (2 ^ 32) (by decide) (by decide) (by decide)
  intro n hpos hcut hn
  let cap : Capability := ⟨7,Rights.all,0,[]⟩
  have hfits : n + 1 ≤ u64Max := hn.trans (by decide)
  have hreserve := soleCall_step (exec_reserve
    (reserve_fullTable (domainQuota roots) cap (some 0) (room_filled cap hn) _ _
      (tryCharge_charged hfits _ rfl)))
  obtain ⟨h,t,hinsert,hdomain,hheld⟩ := insertReserved_overbooked (domainQuota roots)
    ((booked cap n).room () fun _ => true) cap hpos hcut (charged (n + 1))
  have huse := soleCall_step (exec_insertReserved Nat.one_ne_zero hinsert)
  refine ⟨_,((filled_reached cap hn.le).tail trivial hreserve).tail trivial huse,rfl,?_⟩
  have hmem : 0 ∈ t.chain roots := by
    rw [chain,hdomain]
    exact List.mem_cons_self
  simp only [heldBelow,univ_unique,sum_singleton]
  rw [if_pos hmem,hheld]

end QuotaState

end LiberSystem
