import LiberSystem.Kernel.Object.ChannelRun

/-!
# The charge for bytes in transit

A message that was sent for a Domain is charged to it and to its ancestors from the moment it is
queued until it is delivered or destroyed.
-/

namespace LiberSystem

open List Message QueueEvent Accounts

def QueueEvent.gain (f : Message → Nat) : QueueEvent → ℤ
  | .accept msg => f msg
  | .deliver msg | .commit msg | .discard msg => -f msg
  | .take _ | .putBack _ => 0
  | .close msgs => -(msgs.map f).sum

namespace Endpoint

variable {e e' : Endpoint} {ev : QueueEvent} {f : Message → Nat}

def total (f : Message → Nat) (e : Endpoint) : Nat := (e.pending.map f).sum

theorem total_eq (f : Message → Nat) (e : Endpoint) :
    e.total f = (e.channel.inbox.map f).sum + (e.taken.map f).sum := by
  simp [total,pending]

theorem sum_eraseIdx {n : Nat} {msg : Message} {taken : List Message}
    (h : taken[n]? = some msg) : ((taken.eraseIdx n).map f).sum + f msg = (taken.map f).sum := by
  have hsum := ((perm_of_taken h).map f).sum_eq
  rw [map_cons,sum_cons] at hsum
  omega

theorem Move.total_eq (hf : ∀ (msg : Message) (b : Bool), f { msg with slotReserved := b } = f msg)
    (h : Move ev e e') : (e'.total f : ℤ) = e.total f + ev.gain f := by
  rw [Endpoint.total_eq,Endpoint.total_eq]
  cases h with
  | @accept _ msg hroom hslot hstamp =>
    simp only [gain,map_append,sum_append,map_singleton,sum_singleton]
    omega
  | @deliver _ msg msg' rest hin hcore =>
    simp only [gain,hin,map_cons,sum_cons]
    omega
  | @take _ msg rest hin =>
    simp only [gain,hin,map_cons,map_nil,sum_cons,sum_nil,map_append,sum_append,hf]
    omega
  | @putBack _ msg n hmsg =>
    have hsum := sum_eraseIdx (f := f) hmsg
    simp only [gain,Channel.returnToHead,map_cons,sum_cons,hf]
    omega
  | @commit _ msg msg' n hmsg hcore | @discard _ msg n hmsg =>
    have hsum := sum_eraseIdx (f := f) hmsg
    simp only [gain]
    omega
  | close hnone =>
    simp only [gain,map_nil,sum_nil]
    omega

theorem Move.gain_le (h : Move ev e e') : -(e.total f : ℤ) ≤ ev.gain f := by
  rw [Endpoint.total_eq]
  cases h with
  | @deliver _ msg msg' rest hin hcore =>
    simp only [gain,hin,map_cons,sum_cons]
    omega
  | @commit _ msg msg' n hmsg hcore | @discard _ msg n hmsg =>
    have hsum := sum_eraseIdx (f := f) hmsg
    simp only [gain]
    omega
  | _ =>
    simp only [gain]
    omega

end Endpoint

namespace Message

def payers (F : Forest) (msg : Message) : List DomainId :=
  match msg.sender with
  | some d => F.path d
  | none => []

def weight (F : Forest) (x : DomainId) (msg : Message) : Nat :=
  if x ∈ msg.payers F then msg.bytes.length else 0

theorem weight_le (F : Forest) (x : DomainId) (msg : Message) :
    msg.weight F x ≤ msg.bytes.length := by
  unfold weight
  split
  · exact le_rfl
  · exact Nat.zero_le _

def Charged (msg : Message) : Prop :=
  msg.queueCharge = msg.sender.map fun d => ⟨d,msg.bytes.length⟩

theorem releaseQueueCharge_used {F : Forest} {msg : Message} {a : Accounts} (hc : msg.Charged)
    (hused : ∀ x, msg.weight F x ≤ a.used .ipcQueue x) (x : DomainId) :
    ((msg.releaseQueueCharge (domainQuota F) a).2.used .ipcQueue x : ℤ) =
      a.used .ipcQueue x - msg.weight F x := by
  unfold releaseQueueCharge
  rw [hc]
  cases hs : msg.sender with
  | none => simp [weight,payers,hs]
  | some d =>
    have hshift : Shifted .ipcQueue (F.path d) (-msg.bytes.length) a
        (unchargeHier .ipcQueue msg.bytes.length (F.path d) a) := by
      refine unchargeHier_shifted (F.nodup_path d) fun y hy => ?_
      have hy' := hused y
      simp only [weight,payers,hs,if_pos hy] at hy'
      exact hy'
    refine (hshift x).trans ?_
    simp only [weight,payers,hs]
    split <;> omega

end Message

namespace Channel

theorem drainInbox_used {F : Forest} {msgs : List Message} {a : Accounts}
    (hc : ∀ msg ∈ msgs, msg.Charged)
    (hused : ∀ x, (msgs.map (Message.weight F x)).sum ≤ a.used .ipcQueue x) (x : DomainId) :
    ((drainInbox (domainQuota F) msgs a).used .ipcQueue x : ℤ) =
      a.used .ipcQueue x - (msgs.map (Message.weight F x)).sum := by
  induction msgs generalizing a with
  | nil => simp [drainInbox]
  | cons msg rest ih =>
    simp only [map_cons,sum_cons] at hused ⊢
    -- the use covers this message and the rest, so the refunds do not stop at zero
    have hone := releaseQueueCharge_used (F := F) (a := a) (hc msg mem_cons_self) fun y => by
        have := hused y
        omega
    rw [drainInbox,ih (fun m hm => hc m (mem_cons_of_mem _ hm)) fun y => by
      have := hused y
      have := hone y
      omega,hone x]
    omega

end Channel

namespace Endpoint

variable {e e' : Endpoint} {ev : QueueEvent}

def Charged (e : Endpoint) : Prop := ∀ msg ∈ e.pending, msg.Charged

theorem Charged.move {F : Forest} {a a' : Accounts} (hc : e.Charged) (h : Move ev e e')
    (hpaid : IpcState.Paid F ev a a') : e'.Charged := by
  refine h.forall_pending (fun _ _ hm => hm) ?_ hc
  rintro msg rfl
  unfold Message.Charged
  obtain ⟨hs,hq,-⟩ | ⟨d,hs,hq,-⟩ := hpaid <;> rw [hs,hq] <;> rfl

end Endpoint

namespace IpcState

variable {ev : QueueEvent} {e : Endpoint}

theorem Paid.used {F : Forest} {e' : Endpoint} {a a' : Accounts}
    (hpaid : Paid F ev a a') (h : Endpoint.Move ev e e') (hc : e.Charged)
    (hused : ∀ x, e.total (Message.weight F x) ≤ a.used .ipcQueue x)
    (hfit : ∀ msg, ev = .accept msg → ∀ x, a.used .ipcQueue x + msg.bytes.length ≤ u64Max)
    (x : DomainId) :
    (a'.used .ipcQueue x : ℤ) = a.used .ipcQueue x + ev.gain (Message.weight F x) := by
  -- the messages that go are pending, so they are charged and the use covers them
  have hcover : ∀ y, -(a.used .ipcQueue y) ≤ ev.gain (Message.weight F y) := fun y => by
    have := h.gain_le (f := Message.weight F y)
    have := hused y
    omega
  have hrefund : ∀ msg : Message, msg.Charged →
      (∀ y, ev.gain (Message.weight F y) = -(msg.weight F y)) →
      a' = (msg.releaseQueueCharge (domainQuota F) a).2 →
      (a'.used .ipcQueue x) = a.used .ipcQueue x + ev.gain (Message.weight F x) := by
    intro msg hmsg hgain heq
    rw [heq,releaseQueueCharge_used hmsg (fun y => ?_) x,hgain x]
    · omega
    · have := hcover y
      rw [hgain y] at this
      omega
  cases ev with
  | accept msg =>
    obtain ⟨hs,-,rfl⟩ | ⟨d,hs,-,hcharge⟩ := hpaid
    · simp [gain,Message.weight,payers,hs]
    have hshift := (tryChargeHier_spec (F.nodup_path d)
      fun y _ => hfit msg rfl y).1 (congrArg Prod.fst hcharge)
    rw [hcharge] at hshift
    simp only [gain,Message.weight,payers,hs,hshift x]
    split <;> rfl
  | deliver msg =>
    cases h with
    | deliver hin hcore =>
      have hmem : msg ∈ e.pending := by simp [Endpoint.pending,hin]
      exact hrefund msg (hc msg hmem) (fun _ => rfl) hpaid
  | take msg | putBack msg =>
    rw [show a' = a from hpaid]
    simp [gain]
  | commit msg | discard msg =>
    cases h
    have hmem : msg ∈ e.pending := mem_append_right _ (mem_of_getElem? ‹_›)
    exact hrefund msg (hc msg hmem) (fun _ => rfl) hpaid
  | close msgs =>
    cases h with
    | close hnone =>
      rw [show a' = _ from hpaid,Channel.drainInbox_used
        (fun m hm => hc m (mem_append_left _ hm)) fun y => ?_]
      · simp only [gain]
        omega
      · have := hcover y
        simp only [gain] at this
        omega

variable {κ : Type} [Fintype κ] [DecidableEq κ] {F : Forest} {peer : κ → κ}
  {limits : DomainId → Resource → Nat} {depths : κ → Nat} {s t : IpcState κ}

def inTransitBelow (F : Forest) (s : IpcState κ) (x : DomainId) : Nat :=
  ∑ k, (s.endpoints k).total (Message.weight F x)

structure Inv (F : Forest) (s : IpcState κ) : Prop where
  charged : ∀ k, (s.endpoints k).Charged
  used : ∀ x, s.accounts.used .ipcQueue x = s.inTransitBelow F x
  fits : s.inTransit ≤ heapWindow

omit [DecidableEq κ] in
theorem Inv.new : (new limits depths : IpcState κ).Inv F := by
  refine ⟨fun k => nofun,fun x => ?_,?_⟩
  · simp [inTransitBelow,Endpoint.total,IpcState.new,Endpoint.new,Endpoint.pending,Channel.new,
      Accounts.used,ResourceCounter.new]
  · simp [inTransit,IpcState.new,Endpoint.new,Endpoint.pending,Channel.new]

omit [DecidableEq κ] in
theorem inTransitBelow_le (F : Forest) (s : IpcState κ) (x : DomainId) :
    s.inTransitBelow F x ≤ s.inTransit := by
  refine Finset.sum_le_sum fun k _ => sum_le_sum fun msg _ => ?_
  exact msg.weight_le F x

omit [DecidableEq κ] in
theorem total_le_inTransitBelow (F : Forest) (s : IpcState κ) (x : DomainId) (k : κ) :
    (s.endpoints k).total (Message.weight F x) ≤ s.inTransitBelow F x :=
  Finset.single_le_sum (f := fun k => (s.endpoints k).total (Message.weight F x))
    (fun _ _ => Nat.zero_le _) (Finset.mem_univ k)

theorem sum_total_update {f : Message → Nat} {k : κ}
    (hf : ∀ (msg : Message) (b : Bool), f { msg with slotReserved := b } = f msg)
    (h : Endpoint.Move ev (s.endpoints k) e)
    (hends : t.endpoints = Function.update s.endpoints k e) :
    ((∑ j, (t.endpoints j).total f : Nat) : ℤ) =
      (∑ j, (s.endpoints j).total f : Nat) + ev.gain f := by
  have hsum := sum_update (fun _ (e : Endpoint) => e.total f) s.endpoints (Finset.mem_univ k) e
  have hone := h.total_eq hf
  rw [hends]
  omega

omit [DecidableEq κ] in
theorem Inv.charge_fits (hi : s.Inv F) {bytes : Nat} (h : s.inTransit + bytes ≤ heapWindow)
    (x : DomainId) : s.accounts.used .ipcQueue x + bytes ≤ u64Max := by
  have hle := s.inTransitBelow_le F x
  rw [hi.used x]
  unfold heapWindow at h
  unfold u64Max
  omega

theorem Inv.step (hi : s.Inv F) {act : IpcAct κ} (h : step F peer s act = some t) : t.Inv F := by
  obtain ⟨k,ev,e,hm,-,hends,hpaid,hroom⟩ | ⟨hends,hacc⟩ := step_cases h
  -- one endpoint moves, and the accounts follow the bytes that come or go there
  · have hused := fun x => hpaid.used hm (hi.charged k)
      (fun y => (s.total_le_inTransitBelow F y k).trans (hi.used y).ge)
      (fun msg hmsg => hi.charge_fits (hroom msg hmsg)) x
    refine ⟨fun j => ?_,fun x => ?_,?_⟩
    · rw [hends]
      by_cases hj : j = k
      · subst hj
        rw [Function.update_self]
        exact (hi.charged j).move hm hpaid
      · rw [Function.update_of_ne hj]
        exact hi.charged j
    · have hsum : (t.inTransitBelow F x : ℤ) = s.inTransitBelow F x + _ :=
        sum_total_update (fun _ _ => rfl) hm hends
      have := hused x
      have := hi.used x
      omega
    have hsum : t.inTransit = s.inTransit + ev.gain fun msg => msg.bytes.length :=
      sum_total_update (fun _ _ => rfl) hm hends
    have hfits := hi.fits
    cases ev with
    | accept msg =>
      have := hroom msg rfl
      simp only [gain] at hsum
      omega
    | _ =>
      simp only [gain] at hsum
      omega
  -- no message moves: a charge that was refused on the way up is taken back
  · have hsame : ∀ x, t.accounts.used .ipcQueue x = s.accounts.used .ipcQueue x := by
      intro x
      obtain heq | ⟨d,bytes,hroom,hcharge⟩ | ⟨d,res,limit,heq⟩ := hacc
      · rw [heq]
      · have hback := (tryChargeHier_spec (F.nodup_path d)
          fun y _ => hi.charge_fits hroom y).2 (congrArg Prod.fst hcharge)
        rw [hcharge] at hback
        rw [show t.accounts = s.accounts from hback]
      · rw [heq,used_setLimit]
    refine ⟨fun k => ?_,fun x => ?_,?_⟩
    · rw [hends]
      exact hi.charged k
    · rw [hsame,hi.used]
      unfold inTransitBelow
      rw [hends]
    · unfold inTransit
      rw [hends]
      exact hi.fits

/-- In every state the `ipc_queue` use of a Domain is the number of the bytes that it
and its descendants have sent and that are queued or taken; a refused send changes no
counter and returns the capabilities of its message. -/
theorem ipc_charge_conserved
    (hrun : Reaches (step F peer) (fun _ _ => True) (new limits depths) s) :
    (∀ x, s.accounts.used .ipcQueue x =
      ∑ k, (((s.endpoints k).channel.inbox ++ (s.endpoints k).taken).map fun msg =>
        if x ∈ msg.payers F then msg.bytes.length else 0).sum) ∧
    ∀ k id bytes caps sender ring err returned accounts, s.inTransit + bytes.length ≤ heapWindow →
      s.sendInner F k id bytes caps sender ring = (.error (err, returned), accounts) →
      accounts = s.accounts ∧ returned = caps := by
  have hi : s.Inv F := hrun.invariant Inv.new fun _ _ _ hi _ h => hi.step h
  refine ⟨hi.used,fun k id bytes caps sender ring err returned accounts hroom hsend => ?_⟩
  obtain ⟨hcaps,heq | ⟨d,-,hcharge⟩⟩ := Channel.sendInner_spec hsend
  · exact ⟨heq,hcaps⟩
  have hback := (tryChargeHier_spec (F.nodup_path d)
    fun y _ => hi.charge_fits hroom y).2 (congrArg Prod.fst hcharge)
  refine ⟨?_,hcaps⟩
  rw [← hback]
  exact (congrArg Prod.snd hcharge).symm

/-- One message is taken and dropped, one is taken and put back, one is refused for the
limit of 6 at the parent, and one of the other child is accepted. -/
def limitedSends : List (IpcAct Bool) :=
  [.send false 1 [1,2] [] (some 1) true,.send false 2 [3,4,5] [] (some 1) true,
    .recvIdentified true 1 8 4,.recvIdentified true 2 8 4,.dropTaken true 0,.returnToHead true 0,
    .send false 3 [6,7,8,9] [] (some 1) true,.send false 4 [10,11] [] (some 2) true]

theorem ipc_charge_conserved_limitedSends : ∃ s, Reaches (step .siblings not) (fun _ _ => True)
        (new (fun d _ => if d = 0 then 6 else UNLIMITED) fun _ => 0) s ∧
      s.accounts.used .ipcQueue 0 = 5 ∧ s.accounts.used .ipcQueue 1 = 3 ∧
      s.accounts.used .ipcQueue 0 = s.inTransitBelow .siblings 0 := by
  refine exists_reaches_imp
    (P := fun s => s.accounts.used .ipcQueue 0 = 5 ∧ s.accounts.used .ipcQueue 1 = 3)
    limitedSends (by decide) fun s hrun ⟨hroot,hchild⟩ => ?_
  exact ⟨hroot,hchild,(ipc_charge_conserved hrun).1 0⟩

end IpcState

end LiberSystem
