import LiberSystem.Kernel.Object.HandleOwnership

/-!
# Runs of a handle table

`TableState` keeps, beside the table, what its callers know: the transfers they have begun and not
ended, the bookings they have made and not used, and the handles whose capability is gone.
-/

namespace LiberSystem

open List HandleTable

/-- A call of one of the table's operations. `bookRoom` is the heap's answer to the
reservation of room for the bookings themselves. -/
inductive TableOp where
  | insert (cap : Capability)
  | insertObject (object : Koid) (rights : Rights)
  | tryInsert (cap : Capability)
  | tryInsertOrReturn (cap : Capability)
  | duplicate (h : Handle) (rights : Rights)
  | reserve (bookRoom : Bool) (count : Nat)
  | insertReserved (cap : Capability)
  | releaseReservation (count : Nat)
  | take (h : Handle) (rights : Rights)
  | takeForTransfer (h : Handle) (rights : Rights)
  | commitTaken (h : Handle)
  | abandonTaken (h : Handle)
  | restoreTaken (h : Handle) (cap : Capability)
  | close (h : Handle)
  | closeAll

def TableOp.inserts : TableOp → Bool
  | .insert _ => true
  | .insertObject _ _ => true
  | .tryInsert _ => true
  | .tryInsertOrReturn _ => true
  | .duplicate _ _ => true
  | _ => false

structure TableState where
  table : HandleTable
  /-- Handles taken for a transfer that has not ended. -/
  taken : Multiset Handle
  /-- Bookings neither used nor given back. -/
  owed : Nat
  /-- Handles whose capability left the table for good. -/
  gone : List Handle
  /-- Indices of the slots over which a closed table refused a restore. -/
  refused : List Nat

namespace TableState

def new (domain : Option DomainId) : TableState := ⟨HandleTable.new domain,0,0,[],[]⟩

def issued (h : Handle) : Option Handle := if h.raw = 0 then none else some h

section Exec

variable {D : Type} (Q : Quota D) (objs : Objects) (room : Nat → Bool)

/-- One call: the handle it returned for a capability it installed, the state it
left and the Domains it left. -/
def exec (s : TableState) (ds : D) : TableOp → Option (Option Handle × TableState × D)
  | .insert cap =>
    let (h, t, ds) := s.table.insert Q room cap ds
    some (issued h, { s with table := t }, ds)
  | .insertObject object rights =>
    let (h, t, ds) := s.table.insertObject Q objs room object rights ds
    some (issued h, { s with table := t }, ds)
  | .tryInsert cap =>
    let (h, t, ds) := s.table.tryInsert Q room cap ds
    some (h, { s with table := t }, ds)
  | .tryInsertOrReturn cap =>
    let (r, t, ds) := s.table.tryInsertOrReturn Q room cap ds
    some (r.toOption, { s with table := t }, ds)
  | .duplicate h rights =>
    let (r, t, ds) := s.table.duplicate Q objs room h rights ds
    some (r.toOption, { s with table := t }, ds)
  | .reserve bookRoom count =>
    let (ok, t, ds) := s.table.reserve Q room bookRoom count ds
    some (none, { s with table := t, owed := if ok then s.owed + count else s.owed }, ds)
  | .insertReserved cap =>
    if s.owed = 0 then none
    else
      let (h, t, ds) := s.table.insertReserved Q room cap ds
      some (issued h, { s with table := t, owed := s.owed - 1 }, ds)
  | .releaseReservation count =>
    if s.owed < count then none
    else
      let (t, ds) := s.table.releaseReservation Q count ds
      some (none, { s with table := t, owed := s.owed - count }, ds)
  | .take h rights =>
    match s.table.take Q objs h rights ds with
    | (.ok _, t, ds) => some (none, { s with table := t, gone := h :: s.gone }, ds)
    | (.error _, t, ds) => some (none, { s with table := t }, ds)
  | .takeForTransfer h rights =>
    match s.table.takeForTransfer objs h rights with
    | (.ok _, t) => some (none, { s with table := t, taken := h ::ₘ s.taken }, ds)
    | (.error _, t) => some (none, { s with table := t }, ds)
  | .commitTaken h =>
    if h ∈ s.taken then
      let (t, ds) := s.table.commitTaken Q h ds
      some (none, { s with table := t, taken := s.taken.erase h, gone := h :: s.gone }, ds)
    else none
  | .abandonTaken h =>
    if h ∈ s.taken then
      let (t, ds) := s.table.abandonTaken Q h ds
      some (none, { s with table := t, taken := s.taken.erase h, gone := h :: s.gone }, ds)
    else none
  | .restoreTaken h cap =>
    if h ∈ s.taken then
      let (t, ds) := s.table.restoreTaken Q room h cap ds
      let s' := { s with table := t, taken := s.taken.erase h }
      if s.table.closed then
        some (none, { s' with gone := h :: s.gone, refused := h.index :: s.refused }, ds)
      else some (none, s', ds)
    else none
  | .close h =>
    match s.table.close Q objs h ds with
    | (.ok _, t, ds) => some (none, { s with table := t, gone := h :: s.gone }, ds)
    | (.error _, t, ds) => some (none, { s with table := t }, ds)
  | .closeAll =>
    let (t, ds) := s.table.closeAll Q ds
    some (none, { s with table := t, gone := s.table.liveHandles ++ s.gone }, ds)

end Exec

end TableState

/-- A call with what it found in the machine. -/
structure TableCall (D : Type) where
  op : TableOp
  objs : Objects
  room : Nat → Bool
  domains : D

/-- One call on the table, with the machine around it left out. -/
def TableState.step {D : Type} (Q : Quota D) (s : TableState) (c : TableCall D) :
    Option TableState :=
  (s.exec Q c.objs c.room c.domains c.op).map fun r => r.2.1

namespace HandleTable.Event

def owedAfter (owed : Nat) : Event → Nat
  | .book => owed + 1
  | .unbook => owed - 1
  | .forget => owed - 1
  | .installBooked _ _ => owed - 1
  | _ => owed

def dead : Event → List Handle
  | .remove h _ => [h]
  | .resolve h => [h]
  | .discard h => [h]
  | .closeAll hs => hs
  | _ => []

def installs : Event → Bool
  | .install _ _ => true
  | .installBooked _ _ => true
  | _ => false

def delta : Event → ℤ
  | .install _ _ => 1
  | .book => 1
  | .unbook => -1
  | .forget => -1
  | .remove _ _ => -1
  | .resolve _ => -1
  | .discard _ => -1
  | .closeAll hs => -hs.length
  | _ => 0

def refusedAfter (refused : List Nat) : Event → List Nat
  | .discard h => h.index :: refused
  | _ => refused

end HandleTable.Event

namespace TableState

open HandleTable (Event Move)

def after (s : TableState) (e : Event) (t : HandleTable) : TableState where
  table := t
  taken := e.takenAfter s.taken
  owed := e.owedAfter s.owed
  gone := e.dead ++ s.gone
  refused := e.refusedAfter s.refused

def StateMove (room : Nat → Bool) (e : Event) (s s' : TableState) : Prop :=
  Move room e s.table s'.table ∧ e.Covered s.taken ∧ s' = s.after e s'.table

/-- The invariant of a run: slots have one owner, and the bookings are those the
callers know of. -/
structure Inv (s : TableState) : Prop where
  table : TableInv s.table s.taken
  owed : s.owed = s.table.booked.length

theorem Inv.new (domain : Option DomainId) : (new domain).Inv := ⟨TableInv.new domain,rfl⟩

variable {room : Nat → Bool} {e : Event} {es : List Event} {t t' : HandleTable} {h : Handle}
  {r : Option Handle} {count : Nat} {D : Type} {Q : Quota D}

theorem booked_length_of_move
    (h : Move room e t t') : t'.booked.length = e.owedAfter t.booked.length := by
  cases h with
  | installBooked cap hc hb | unbook hb | forget hc hb => simp [Event.owedAfter,hb]
  | _ => rfl

theorem Inv.move (hroom : RoomBounded room) {s s' : TableState}
    (h : s.Inv) (hm : StateMove room e s s') : s'.Inv := by
  obtain ⟨hmove,hcov,heq⟩ := hm
  rw [heq]
  refine ⟨h.table.move_keeps hroom hmove hcov,?_⟩
  change e.owedAfter s.owed = s'.table.booked.length
  rw [booked_length_of_move hmove,h.owed]

theorem Inv.trace (hroom : RoomBounded room)
    {s s' : TableState} (h : s.Inv) (ht : Trace (StateMove room) es s s') : s'.Inv :=
  ht.invariant h fun _ _ _ _ hi hm => hi.move hroom hm

theorem booking_trace
    (h : Trace (Move room) es t t') (hes : ∀ e ∈ es, e = .book ∨ e = .unbook) (s : TableState)
    (hs : s.table = t) :
    Trace (StateMove room) es s
      { s with table := t', owed := es.foldl Event.owedAfter s.owed } := by
  induction h generalizing s with
  | nil t =>
    subst hs
    exact Trace.nil s
  | @cons e rest t m t' hm htr ih =>
    subst hs
    have hrest := ih (fun e he => hes e (mem_cons_of_mem _ he)) (s.after e m) rfl
    rcases hes e mem_cons_self with rfl | rfl
    · exact .cons ⟨hm,trivial,rfl⟩ hrest
    · exact .cons ⟨hm,trivial,rfl⟩ hrest

theorem foldl_owedAfter_book (k owed : Nat) :
    (List.replicate k Event.book).foldl Event.owedAfter owed = owed + k := by
  induction k generalizing owed with
  | zero => rfl
  | succ k ih =>
    rw [replicate_succ,foldl_cons,ih,Event.owedAfter]
    omega

theorem foldl_owedAfter_unbook (k owed : Nat) :
    (List.replicate k Event.unbook).foldl Event.owedAfter owed = owed - k := by
  induction k generalizing owed with
  | zero => rfl
  | succ k ih =>
    rw [replicate_succ,foldl_cons,ih,Event.owedAfter]
    omega

/-- What a call did: it installed one capability and nothing else, over a booking or
(when `inserts`) without one, or it made moves that install nothing. -/
inductive Made (room : Nat → Bool) (inserts : Bool) (s : TableState) :
    TableState → Option Handle → Prop where
  | install {h cap t r} :
      inserts = true → Move room (.install h cap) s.table t → (∀ k, r = some k → k = h) →
      Made room inserts s (s.after (.install h cap) t) r
  | installBooked {h cap t r} :
      Move room (.installBooked h cap) s.table t → (∀ k, r = some k → k = h) →
      Made room inserts s (s.after (.installBooked h cap) t) r
  | quiet {es s'} :
      Trace (StateMove room) es s s' → (∀ e ∈ es, e.installs = false) →
      Made room inserts s s' none

namespace Made

variable {room : Nat → Bool} {inserts : Bool} {s s' : TableState} {r : Option Handle}

theorem refl (room : Nat → Bool) (inserts : Bool) (s : TableState) : Made room inserts s s none :=
  .quiet (Trace.nil s) (fun _ he => nomatch he)

theorem one {e : Event} (hm : Move room e s.table t)
    (hcov : e.Covered s.taken) (he : e.installs = false) :
    Made room inserts s (s.after e t) none :=
  .quiet (Trace.single ⟨hm,hcov,rfl⟩) fun _ hmem => mem_singleton.mp hmem ▸ he

theorem trace (h : Made room inserts s s' r) : ∃ es, Trace (StateMove room) es s s' := by
  cases h with
  | install _ hm _ | installBooked hm _ => exact ⟨_,Trace.single ⟨hm,trivial,rfl⟩⟩
  | quiet htr _ => exact ⟨_,htr⟩

end Made

theorem issued_eq {k : Handle} (hk : issued h = some k) : k = h := by
  unfold issued at hk
  grind

/-- What a call charges the Domains of its table with. -/
inductive Pays {D : Type} (Q : Quota D) (room : Nat → Bool) (t : HandleTable) (ds : D) :
    ℤ → D → Prop where
  | nothing : Pays Q room t ds 0 ds
  | charge : Pays Q room t ds 1 (t.chargeHandle Q ds)
  | granted : (t.tryChargeHandle Q ds).1 = true → Pays Q room t ds 1 (t.tryChargeHandle Q ds).2
  | refused : (t.tryChargeHandle Q ds).1 = false → Pays Q room t ds 0 (t.tryChargeHandle Q ds).2
  | back {ds'} : Pays Q room t ds 1 ds' → Pays Q room t ds 0 (t.unchargeHandles Q 1 ds')
  | uncharge (n : Nat) : Pays Q room t ds (-n) (t.unchargeHandles Q n ds)
  | reserve {count u} : Trace (Move room) (List.replicate count .book) t u →
      Pays Q room t ds (if (t.chargeReservation Q 0 count ds).1 then count else 0)
        (t.chargeReservation Q 0 count ds).2
  | closeAll : Pays Q room t ds (-t.liveHandles.length) (t.closeAll Q ds).2

/-- What a call did to the table, and what it charged for it. -/
structure Done {D : Type} (Q : Quota D) (room : Nat → Bool) (inserts : Bool) (s : TableState)
    (ds : D) (s' : TableState) (ds' : D) (r : Option Handle) : Prop where
  made : Made room inserts s s' r
  paid : ∃ es, Trace (StateMove room) es s s' ∧
    Pays Q room s.table ds (es.map Event.delta).sum ds'

section

variable {D : Type} {Q : Quota D} {s s' : TableState} {ds ds' : D} {inserts : Bool}

theorem Done.stay (hp : Pays Q room s.table ds 0 ds') : Done Q room inserts s ds s ds' none :=
  ⟨Made.refl room inserts s,[],Trace.nil s,hp⟩

theorem Done.one (hm : Move room e s.table t) (hcov : e.Covered s.taken)
    (he : e.installs = false) (hp : Pays Q room s.table ds e.delta ds') :
    Done Q room inserts s ds (s.after e t) ds' none :=
  ⟨Made.one hm hcov he,[e],Trace.single ⟨hm,hcov,rfl⟩,by simpa using hp⟩

theorem Done.install {cap : Capability}
    (hm : Move room (.install h cap) s.table t) (hk : ∀ k, r = some k → k = h)
    (hp : Pays Q room s.table ds 1 ds') :
    Done Q room true s ds (s.after (.install h cap) t) ds' r :=
  ⟨Made.install rfl hm hk,[_],Trace.single ⟨hm,trivial,rfl⟩,hp⟩

theorem Done.quiet (htr : Trace (StateMove room) es s s') (hes : ∀ e ∈ es, e = .book ∨ e = .unbook)
    (hp : Pays Q room s.table ds (es.map Event.delta).sum ds') :
    Done Q room inserts s ds s' ds' none :=
  ⟨.quiet htr fun e he => by rcases hes e he with rfl | rfl <;> rfl,es,htr,hp⟩

end

section DoneBy

variable {D : Type} (Q : Quota D) (objs : Objects) (room : Nat → Bool) (s : TableState) (ds : D)
  (cap : Capability)

theorem insert_done : Done Q room true s ds { s with table := (s.table.insert Q room cap ds).2.1 }
      (s.table.insert Q room cap ds).2.2 (issued (s.table.insert Q room cap ds).1) := by
  rcases insert_cases Q room s.table ds cap with ⟨hm,heq⟩ | ⟨heq,-⟩
  · rw [heq]
    exact .install hm (fun k hk => issued_eq hk) .charge
  · rw [heq]
    exact .stay (.back .charge)

theorem tryInsertOrReturn_done :
    Done Q room true s ds { s with table := (s.table.tryInsertOrReturn Q room cap ds).2.1 }
      (s.table.tryInsertOrReturn Q room cap ds).2.2
      (s.table.tryInsertOrReturn Q room cap ds).1.toOption := by
  rcases tryInsertOrReturn_cases Q room s.table ds cap with
    ⟨h,t',heq,hgrant,hm⟩ | ⟨heq,hrefuse⟩ | ⟨heq,hgrant,-⟩
  · rw [heq]
    exact .install hm (fun k hk => (Option.some.inj hk).symm) (.granted hgrant)
  · rw [heq]
    exact .stay (.refused hrefuse)
  · rw [heq]
    exact .stay (.back (.granted hgrant))

theorem tryInsert_done :
    Done Q room true s ds { s with table := (s.table.tryInsert Q room cap ds).2.1 }
      (s.table.tryInsert Q room cap ds).2.2 (s.table.tryInsert Q room cap ds).1 := by
  rw [tryInsert_eq]
  exact tryInsertOrReturn_done Q room s ds cap

theorem duplicate_done (h : Handle) (rights : Rights) :
    Done Q room true s ds { s with table := (s.table.duplicate Q objs room h rights ds).2.1 }
      (s.table.duplicate Q objs room h rights ds).2.2
      (s.table.duplicate Q objs room h rights ds).1.toOption := by
  rcases duplicate_cases Q objs room s.table ds h rights with
    ⟨e,heq⟩ | ⟨cap,-,-,-,hrest,hres⟩
  · rw [heq]
    exact .stay .nothing
  · rw [hrest,hres]
    exact tryInsert_done Q room s ds _

theorem reserve_done (bookRoom : Bool) (count : Nat) : Done Q room false s ds
      { s with table := (s.table.reserve Q room bookRoom count ds).2.1,
               owed := if (s.table.reserve Q room bookRoom count ds).1 then s.owed + count
                       else s.owed } (s.table.reserve Q room bookRoom count ds).2.2 none := by
  have hback : ∀ k, Trace (Move room) (List.replicate k .book ++ List.replicate k .unbook) s.table
        (s.table.reserve Q room bookRoom count ds).2.1 →
      Pays Q room s.table ds 0 (s.table.reserve Q room bookRoom count ds).2.2 →
      Done Q room false s ds { s with table := (s.table.reserve Q room bookRoom count ds).2.1 }
        (s.table.reserve Q room bookRoom count ds).2.2 none := by
    intro k htr hp
    have hst := booking_trace htr (fun e => mem_bookings) s rfl
    rw [foldl_append,foldl_owedAfter_book,foldl_owedAfter_unbook,Nat.add_sub_cancel] at hst
    exact .quiet hst (fun e => mem_bookings) (by simpa [Event.delta] using hp)
  rcases reserve_cases Q room s.table ds bookRoom count with
    ⟨hr,htr,hgrant,heq⟩ | ⟨hr,⟨k,htr⟩,heq⟩ | ⟨hr,htr,hrefuse,heq⟩
  · have hpaid : Pays Q room s.table ds _ _ := .reserve htr
    rw [if_pos hr,heq]
    have hst := booking_trace htr (fun e he => Or.inl (eq_of_mem_replicate he)) s rfl
    rw [foldl_owedAfter_book] at hst
    exact .quiet hst (fun e he => .inl (eq_of_mem_replicate he))
      (by simpa [Event.delta,hgrant] using hpaid)
  · rw [if_neg (by rw [hr]; exact Bool.false_ne_true)]
    exact hback k htr (by rw [heq]; exact .nothing)
  · rw [if_neg (by rw [hr]; exact Bool.false_ne_true)]
    obtain ⟨u,hfirst,-⟩ := htr.append_inv
    have hpaid : Pays Q room s.table ds _ _ := .reserve hfirst
    refine hback count htr ?_
    rw [heq]
    simpa [hrefuse] using hpaid

theorem releaseReservation_done (hcount : count ≤ s.table.booked.length) : Done Q room false s ds
      { s with table := (s.table.releaseReservation Q count ds).1, owed := s.owed - count }
      (s.table.releaseReservation Q count ds).2 none := by
  have htr := releaseReservation_trace Q room s.table ds count
  rw [Nat.min_eq_left hcount] at htr
  have hst := booking_trace htr (fun e he => Or.inr (eq_of_mem_replicate he)) s rfl
  rw [foldl_owedAfter_unbook] at hst
  refine .quiet hst (fun e he => .inr (eq_of_mem_replicate he)) ?_
  have hpaid : Pays Q room s.table ds (-count) (s.table.releaseReservation Q count ds).2 :=
    .uncharge count
  simpa [Event.delta] using hpaid

theorem insertReserved_done (hbooked : s.table.booked ≠ []) (cap : Capability) :
    Done Q room false s ds
      { s with table := (s.table.insertReserved Q room cap ds).2.1, owed := s.owed - 1 }
      (s.table.insertReserved Q room cap ds).2.2
      (issued (s.table.insertReserved Q room cap ds).1) := by
  rcases insertReserved_cases Q room s.table ds cap with
    ⟨hm,-,heq⟩ | ⟨hm,-,hz,heq⟩ | ⟨hnil,-⟩
  · rw [heq]
    exact ⟨.installBooked hm fun k hk => issued_eq hk,[_],Trace.single ⟨hm,trivial,rfl⟩,.nothing⟩
  · rw [hz,heq]
    exact .one hm trivial rfl (.uncharge 1)
  · exact absurd hnil hbooked

theorem resolveTaken_done (hi : s.Inv) (hmem : h ∈ s.taken) : Done Q room false s ds
      { s with table := (s.table.resolveTaken Q h ds).1, taken := s.taken.erase h,
               gone := h :: s.gone } (s.table.resolveTaken Q h ds).2 none := by
  obtain ⟨heq,hm | ⟨hge,-⟩⟩ := resolveTaken_cases Q room s.table ds h
  · exact .one hm hmem rfl (.uncharge 1)
  · exact absurd (hi.table.taken_slot hmem).1 (by omega)

end DoneBy

theorem exec_done {objs : Objects}
    {s s' : TableState} {ds ds' : D} {op : TableOp} (hi : s.Inv)
    (hx : s.exec Q objs room ds op = some (r, s', ds')) :
    Done Q room op.inserts s ds s' ds' r := by
  cases op with
  | insert cap | insertObject object rights =>
    cases hx
    exact insert_done Q room s ds _
  | tryInsert cap =>
    cases hx
    exact tryInsert_done Q room s ds cap
  | tryInsertOrReturn cap =>
    cases hx
    exact tryInsertOrReturn_done Q room s ds cap
  | duplicate h rights =>
    cases hx
    exact duplicate_done Q objs room s ds h rights
  | reserve bookRoom count =>
    cases hx
    exact reserve_done Q room s ds bookRoom count
  | insertReserved cap =>
    simp only [exec] at hx
    split at hx
    · cases hx
    next howed =>
    cases hx
    refine insertReserved_done Q room s ds ?_ cap
    intro hnil
    rw [hi.owed,hnil] at howed
    exact howed rfl
  | releaseReservation count =>
    simp only [exec] at hx
    split at hx
    · cases hx
    next howed =>
    cases hx
    rw [hi.owed] at howed
    exact releaseReservation_done Q room s ds (by omega)
  | take h rights =>
    simp only [exec] at hx
    rcases take_cases Q objs s.table ds h rights with ⟨cap,heq,hc⟩ | ⟨e,heq⟩
    · rw [heq] at hx
      cases hx
      exact .one (.remove hc) trivial rfl (.uncharge 1)
    · rw [heq] at hx
      cases hx
      exact .stay .nothing
  | takeForTransfer h rights =>
    simp only [exec] at hx
    rcases takeForTransfer_cases objs room s.table h rights with
      ⟨cap,t',heq,-,-,hm⟩ | ⟨e,heq⟩
    · rw [heq] at hx
      cases hx
      exact .one hm trivial rfl .nothing
    · rw [heq] at hx
      cases hx
      exact .stay .nothing
  | commitTaken h | abandonTaken h =>
    simp only [exec] at hx
    split at hx
    · next hmem =>
      cases hx
      exact resolveTaken_done Q room s ds hi hmem
    · cases hx
  | restoreTaken h cap =>
    simp only [exec] at hx
    split at hx
    · next hmem =>
      rcases restoreTaken_cases Q room s.table ds h cap with
        ⟨hm,hc,heq⟩ | ⟨hm,hc,heq⟩ | ⟨hge,-⟩
      · rw [if_neg (by rw [hc]; exact Bool.false_ne_true),heq] at hx
        cases hx
        exact .one hm hmem rfl .nothing
      · rw [if_pos hc,heq] at hx
        cases hx
        exact .one hm hmem rfl (.uncharge 1)
      · exact absurd (hi.table.taken_slot hmem).1 (by omega)
    · cases hx
  | close h =>
    simp only [exec] at hx
    rcases close_cases Q objs s.table ds h with ⟨cap,claim,heq,hc⟩ | ⟨e,heq⟩
    · rw [heq] at hx
      cases hx
      exact .one (.remove hc) trivial rfl (.uncharge 1)
    · rw [heq] at hx
      cases hx
      exact .stay .nothing
  | closeAll =>
    cases hx
    exact .one .closeAll trivial rfl .closeAll

/-- A call during which the heap gives the table no slot beyond `2 ^ 32`. -/
def Bounded {D : Type} (_ : TableState) (c : TableCall D) : Prop := RoomBounded c.room

theorem Inv.step {s s' : TableState} {c : TableCall D} (hi : s.Inv)
    (hroom : RoomBounded c.room) (hs : s.step Q c = some s') : s'.Inv := by
  obtain ⟨⟨r,s'',ds'⟩,hx,rfl⟩ := Option.map_eq_some_iff.mp hs
  obtain ⟨es,htr⟩ := (exec_done hi hx).made.trace
  exact hi.trace hroom htr

/-- In every run whose calls are bounded, and at every point of it, each slot is in
exactly one state, and the two lists name slots of the table, each at most once and
not both. A slot is abandoned only in a closed table. -/
theorem slot_state_unique {D : Type} (Q : Quota D) (domain : Option DomainId) (s : TableState)
    (hrun : Reaches (step Q) Bounded (new domain) s) :
    (∀ i, i < s.table.slots.length → ∃! state, s.table.InState i state) ∧
      (s.table.free ++ s.table.booked).Nodup ∧
      ∀ i ∈ s.table.free ++ s.table.booked, i < s.table.slots.length := by
  have hi : s.Inv := hrun.invariant (Inv.new domain) fun _ _ _ hi hok hs => hi.step hok hs
  refine ⟨fun i hlt => ?_,hi.table.lists⟩
  obtain ⟨state,hstate⟩ := hi.table.exists_state hlt
  exact ⟨state,hstate,fun other hother => hother.unique hstate⟩

def unlimited : Quota Unit where
  tryChargeHandle _ _ := (true, ())
  chargeHandle _ _ := ()
  unchargeHandles _ _ _ := ()
  tryChargeIpcQueue _ _ _ := (true, ())
  unchargeIpcQueue _ _ _ := ()

def callWithin (slots : Nat) (op : TableOp) : TableCall Unit where
  op := op
  objs := fun _ => ⟨.event,0⟩
  room := fun n => n < slots
  domains := ()

theorem callWithin_bounded {slots : Nat} (h : slots ≤ 2 ^ 32) (op : TableOp) :
    RoomBounded (callWithin slots op).room := by
  intro n hn
  simp only [callWithin,decide_eq_false_iff_not]
  omega

theorem slot_state_unique_closed_midway : ∃ s, runList (step unlimited) (new none)
        ([.insert ⟨7,Rights.all,0,[]⟩,.takeForTransfer (Handle.new 1 0) Rights.transfer,
          .reserve true 1,.closeAll].map (callWithin 8)) = some s ∧
      (∀ i, i < s.table.slots.length → ∃! state, s.table.InState i state) ∧
      (s.table.free ++ s.table.booked).Nodup ∧
      ∀ i ∈ s.table.free ++ s.table.booked, i < s.table.slots.length := by
  obtain ⟨s,hs⟩ := Option.isSome_iff_exists.mp (show (runList (step unlimited) (new none)
    ([.insert ⟨7,Rights.all,0,[]⟩,.takeForTransfer (Handle.new 1 0) Rights.transfer,.reserve true 1,
      .closeAll].map (callWithin 8))).isSome from rfl)
  refine ⟨s,hs,slot_state_unique unlimited none s (reaches_of_runList hs ?_)⟩
  intro _ c hc
  obtain ⟨op,-,rfl⟩ := mem_map.mp hc
  exact callWithin_bounded (by decide) op

/-! ### A table with `2 ^ 32` slots

`try_place` and `reserve` cut the length of the slot vector to 32 bits, so that the
slot after the last `u32` index is entered in the lists as slot `0`. -/

section Full

variable {D : Type} (Q : Quota D) {room : Nat → Bool} (cap : Capability)
  (domain : Option DomainId) {n : Nat}

def fullTable (n : Nat) : HandleTable :=
  ⟨List.replicate n ⟨some cap,1,false⟩,[],[],false,domain⟩

/-- The full table with one more slot, which its length books as another. -/
def overbooked (n : Nat) : HandleTable :=
  { fullTable cap domain n with
    slots := (fullTable cap domain n).slots ++ [⟨none,1,false⟩], booked := [n % 2 ^ 32] }

theorem insert_fullTable (hroom : room n) (ds : D) : (fullTable cap domain n).insert Q room cap ds =
      (Handle.new 1 (n % 2 ^ 32), fullTable cap domain (n + 1),
        (fullTable cap domain n).chargeHandle Q ds) := by
  simp [fullTable,HandleTable.insert,HandleTable.tryPlace,hroom,replicate_succ']

theorem reserve_fullTable (hroom : room n) (ds ds' : D)
    (hgrant : (fullTable cap domain n).tryChargeHandle Q ds = (true, ds')) :
    (fullTable cap domain n).reserve Q room true 1 ds = (true, overbooked cap domain n, ds') := by
  have hsame : (overbooked cap domain n).tryChargeHandle Q ds = (true, ds') := hgrant
  have hbook : (fullTable cap domain n).bookSlots room 0 1 = (true, overbooked cap domain n) := by
    simp [bookSlots,fullTable,overbooked,hroom]
  unfold reserve
  rw [if_pos rfl,show (fullTable cap domain n).booked.length = 0 from rfl,hbook]
  simp only [chargeReservation,hsame]

theorem overbooked_live (hpos : 0 < n) : ((overbooked cap domain n).slotAt 0).cap = some cap := by
  simp [overbooked,fullTable,slotAt,hpos]

end Full

section ExecOf

variable {D : Type} {Q : Quota D} {objs : Objects} {room : Nat → Bool} {s : TableState}
  {ds ds' : D} {t : HandleTable}

theorem step_of_exec {c : TableCall D} {s' : TableState}
    (hx : s.exec Q c.objs c.room c.domains c.op = some (r, s', ds')) :
    s.step Q c = some s' := by
  rw [step,hx,Option.map_some]

variable {cap : Capability} {h : Handle}

theorem exec_insert (hx : s.table.insert Q room cap ds = (h, t, ds')) :
    s.exec Q objs room ds (.insert cap) = some (issued h, { s with table := t }, ds') := by
  unfold exec
  dsimp only
  rw [hx]

theorem exec_reserve (hx : s.table.reserve Q room true count ds = (true, t, ds')) :
    s.exec Q objs room ds (.reserve true count) =
      some (none, { s with table := t, owed := s.owed + count }, ds') := by
  unfold exec
  dsimp only
  rw [hx]
  rfl

theorem exec_insertReserved (howed : s.owed ≠ 0)
    (hx : s.table.insertReserved Q room cap ds = (h, t, ds')) :
    s.exec Q objs room ds (.insertReserved cap) =
      some (issued h, { s with table := t, owed := s.owed - 1 }, ds') := by
  unfold exec
  dsimp only
  rw [if_neg howed,hx]

end ExecOf

theorem fullTable_reached (cap : Capability) (n : Nat) :
    Reaches (step unlimited) (fun _ _ => True) (new none)
      { new none with table := fullTable cap none n } := by
  induction n with
  | zero => exact Reaches.refl
  | succ n ih =>
    refine ih.tail (a := callWithin (n + 1) (.insert cap)) trivial ?_
    exact step_of_exec (exec_insert
      (insert_fullTable unlimited cap none (decide_eq_true (Nat.lt_succ_self n)) ()))

/-- `2 ^ 32` installations and a reservation of one handle: slot `0` is live and
booked. -/
theorem slot_state_not_unique : ∃ s, Reaches (step unlimited) (fun _ _ => True) (new none) s ∧
      0 < s.table.slots.length ∧ (s.table.slotAt 0).cap.isSome ∧ 0 ∈ s.table.booked ∧
      ¬ ∃! state, s.table.InState 0 state := by
  suffices ∀ n, 0 < n → n % 2 ^ 32 = 0 → ∃ s,
      Reaches (step unlimited) (fun _ _ => True) (new none) s ∧ 0 < s.table.slots.length ∧
      (s.table.slotAt 0).cap.isSome ∧ 0 ∈ s.table.booked ∧
      ¬ ∃! state, s.table.InState 0 state from this (2 ^ 32) (by decide) (by decide)
  intro n hpos hcut
  let cap : Capability := ⟨7,Rights.all,0,[]⟩
  have hstep : step unlimited { new none with table := fullTable cap none n }
      (callWithin (n + 1) (.reserve true 1)) =
        some { new none with table := overbooked cap none n, owed := 1 } :=
    step_of_exec (exec_reserve (reserve_fullTable unlimited cap none
      (decide_eq_true (Nat.lt_succ_self n)) () () rfl))
  have hlive := overbooked_live cap none hpos
  have hbooked : 0 ∈ (overbooked cap none n).booked := by
    rw [overbooked,hcut]
    exact mem_cons_self
  refine ⟨_,(fullTable_reached cap n).tail trivial hstep,by simp [overbooked],?_,hbooked,?_⟩
  · rw [hlive]
    rfl
  rintro ⟨state,hstate,-⟩
  cases state with
  | live => exact hstate.2.2.2 hbooked
  | _ => exact nomatch hlive.symm.trans hstate.1

end TableState

end LiberSystem
