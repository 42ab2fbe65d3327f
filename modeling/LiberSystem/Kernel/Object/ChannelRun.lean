import LiberSystem.Kernel.Object.Channel
import LiberSystem.Kernel.Object.Domain
import LiberSystem.Lib.Counting
import LiberSystem.Lib.Runs

/-!
# Runs of channels

Any number of endpoints, senders and receivers over one tree of Domains. A receive in progress is an
entry in the list of the messages taken from its endpoint.
-/

namespace LiberSystem

open List

namespace Message

def core (msg : Message) : Message := { msg with queueCharge := none, slotReserved := false }

section

variable {D : Type} (Q : Quota D)

@[simp] theorem releaseQueueCharge_core (msg : Message) (ds : D) :
    (msg.releaseQueueCharge Q ds).1.core = msg.core := by
  unfold releaseQueueCharge
  split <;> rfl

@[simp] theorem releaseQueueCharge_slotReserved (msg : Message) (ds : D) :
    (msg.releaseQueueCharge Q ds).1.slotReserved = msg.slotReserved := by
  unfold releaseQueueCharge
  split <;> rfl

end

end Message

namespace Channel

variable {D : Type} {Q : Quota D} {ring : Bool} {msg : Message} {sender : Option DomainId}
  {peer : Option Channel} {ch : Channel} {ds ds' : D}

theorem sendInner_spec {r : Except (ChannelError × List Capability) Channel}
    (h : sendInner Q ring msg sender peer ds = (r, ds')) :
    match r with
    | .ok ch => ∃ p sent, peer = some p ∧ p.depth < p.limit.val ∧
        ch = { p with inbox := p.inbox ++ [sent] } ∧
        ((sender = none ∧ sent = msg ∧ ds' = ds) ∨
          ∃ d, sender = some d ∧ Q.tryChargeIpcQueue d msg.bytes.length ds = (true, ds') ∧
            sent = { msg with queueCharge := some ⟨d,msg.bytes.length⟩ })
    | .error e => e.2 = msg.caps ∧ (ds' = ds ∨
        ∃ d, sender = some d ∧ Q.tryChargeIpcQueue d msg.bytes.length ds = (false, ds')) := by
  cases peer with
  | none =>
    cases h
    exact ⟨rfl,.inl rfl⟩
  | some p =>
    simp only [sendInner] at h
    split at h
    · cases h
      exact ⟨rfl,.inl rfl⟩
    next hroom =>
    split at h
    · cases h
      exact ⟨rfl,.inl rfl⟩
    cases sender with
    | none =>
      cases h
      exact ⟨p,msg,rfl,lt_of_not_ge hroom,rfl,.inl ⟨rfl,rfl,rfl⟩⟩
    | some d =>
      simp only [Message.chargeQueue] at h
      cases hc : Q.tryChargeIpcQueue d msg.bytes.length ds with
      | mk granted ds₁ =>
        rw [hc] at h
        cases granted with
        | false =>
          cases h
          exact ⟨rfl,.inr ⟨d,rfl,hc⟩⟩
        | true =>
          cases h
          exact ⟨p,_,rfl,lt_of_not_ge hroom,rfl,.inr ⟨d,rfl,hc,rfl⟩⟩

theorem recvIdentified_ok {peerClosed : Bool} {id bytesCap capSlots : Nat} {taken : Message}
    {ch' : Channel}
    (h : ch.recvIdentified peerClosed id bytesCap capSlots = .ok (taken, ch')) :
    ∃ head rest, ch.inbox = head :: rest ∧ taken = { head with slotReserved := true } ∧
      ch' = { ch with inbox := rest, inFlight := fetchAdd ch.inFlight } := by
  unfold recvIdentified at h
  split at h
  · next head rest hin =>
    split at h
    · cases h
    split at h
    · cases h
    split at h
    · cases h
    · cases h
      exact ⟨head,rest,hin,rfl,rfl⟩
  · cases h

section

variable (Q) (peerClosed : Bool) (msg) (ch) (ds)

theorem commitDelivery_core : (ch.commitDelivery Q peerClosed msg ds).1.1.core = msg.core := by
  simp only [commitDelivery]
  split <;> exact msg.releaseQueueCharge_core Q ds

theorem commitDelivery_channel : (ch.commitDelivery Q peerClosed msg ds).2.1 =
    { ch with inFlight := if msg.slotReserved then fetchSub ch.inFlight else ch.inFlight } := by
  simp only [commitDelivery,Message.releaseQueueCharge_slotReserved]
  split <;> rfl

theorem commitDelivery_accounts :
    (ch.commitDelivery Q peerClosed msg ds).2.2 = (msg.releaseQueueCharge Q ds).2 := by
  simp only [commitDelivery]
  split <;> rfl

end

theorem fetchAdd_of_lt {n : Nat} (h : n + 1 < 2 ^ 64) : fetchAdd n = n + 1 := Nat.mod_eq_of_lt h

theorem fetchSub_of_pos {n : Nat} (hpos : 0 < n) (h : n < 2 ^ 64) : fetchSub n = n - 1 := by
  unfold fetchSub
  omega

end Channel

structure Endpoint where
  channel : Channel
  /-- Somebody still holds a reference to it. -/
  alive : Bool
  taken : List Message
  accepted : List Message
  delivered : List Message

/-- What an operation does to the messages of an endpoint. -/
inductive QueueEvent where
  | accept (msg : Message)
  | deliver (msg : Message)
  | take (msg : Message)
  | putBack (msg : Message)
  | commit (msg : Message)
  | discard (msg : Message)
  | close (msgs : List Message)

namespace Endpoint

def new (depth : Nat) : Endpoint := ⟨Channel.new depth,true,[],[],[]⟩

def pending (e : Endpoint) : List Message := e.channel.inbox ++ e.taken

/-- The changes that the operations are made of. -/
inductive Move : QueueEvent → Endpoint → Endpoint → Prop where
  | accept {e msg} :
      e.channel.depth < e.channel.limit.val → msg.slotReserved = false →
      msg.stamp = e.accepted.length →
      Move (.accept msg) e
        { e with channel := { e.channel with inbox := e.channel.inbox ++ [msg] }
                 accepted := e.accepted ++ [msg.core] }
  | deliver {e msg msg' rest} :
      e.channel.inbox = msg :: rest → msg'.core = msg.core →
      Move (.deliver msg) e
        { e with channel := { e.channel with inbox := rest }
                 delivered := e.delivered ++ [msg'] }
  | take {e msg rest} :
      e.channel.inbox = msg :: rest →
      Move (.take msg) e
        { e with channel := { e.channel with
                   inbox := rest, inFlight := fetchAdd e.channel.inFlight }
                 taken := e.taken ++ [{ msg with slotReserved := true }] }
  | putBack {e msg n} :
      e.taken[n]? = some msg →
      Move (.putBack msg) e
        { e with channel := e.channel.returnToHead msg, taken := e.taken.eraseIdx n }
  | commit {e msg msg' n} :
      e.taken[n]? = some msg → msg'.core = msg.core →
      Move (.commit msg) e
        { e with channel := { e.channel with
                   inFlight := if msg.slotReserved then fetchSub e.channel.inFlight
                     else e.channel.inFlight }
                 taken := e.taken.eraseIdx n
                 delivered := e.delivered ++ [msg'] }
  | discard {e msg n} :
      e.taken[n]? = some msg →
      Move (.discard msg) e { e with taken := e.taken.eraseIdx n }
  | close {e} :
      e.taken = [] →
      Move (.close e.channel.inbox) e
        { e with channel := { e.channel with inbox := [] }, alive := false }

variable {msg : Message} {taken : List Message}

theorem perm_of_taken {n : Nat}
    (h : taken[n]? = some msg) : (msg :: taken.eraseIdx n).Perm taken := by
  obtain ⟨hn,rfl⟩ := List.getElem?_eq_some_iff.mp h
  exact getElem_cons_eraseIdx_perm hn

theorem length_of_taken {n : Nat}
    (h : taken[n]? = some msg) : (taken.eraseIdx n).length + 1 = taken.length :=
  (perm_of_taken h).length_eq

/-- A property of messages that does not depend on the slot holds of all that are pending
if it holds of each message when it is accepted. -/
theorem Move.forall_pending {P : Message → Prop} {e e' : Endpoint} {ev : QueueEvent}
    (hslot : ∀ (msg : Message) (b : Bool), P msg → P { msg with slotReserved := b })
    (hnew : ∀ msg, ev = .accept msg → P msg) (hP : ∀ msg ∈ e.pending, P msg)
    (h : Move ev e e') : ∀ msg ∈ e'.pending, P msg := by
  have hin : ∀ msg ∈ e.channel.inbox, P msg := fun m hm => hP m (mem_append_left _ hm)
  have htaken : ∀ msg ∈ e.taken, P msg := fun m hm => hP m (mem_append_right _ hm)
  intro m hm
  cases h with
  | @accept _ msg hroom hslot hstamp =>
    simp only [pending,mem_append,mem_singleton] at hm
    rcases hm with (hm | rfl) | hm
    · exact hin m hm
    · exact hnew m rfl
    · exact htaken m hm
  | @deliver _ msg msg' rest hrest hcore =>
    rcases mem_append.mp hm with hm | hm
    · exact hin m (hrest ▸ mem_cons_of_mem _ hm)
    · exact htaken m hm
  | @take _ msg rest hrest =>
    simp only [pending,mem_append,mem_singleton] at hm
    rcases hm with hm | hm | rfl
    · exact hin m (hrest ▸ mem_cons_of_mem _ hm)
    · exact htaken m hm
    · exact hslot msg true (hin msg (hrest ▸ mem_cons_self))
  | @putBack _ msg n hmsg =>
    simp only [pending,Channel.returnToHead,mem_append,mem_cons] at hm
    rcases hm with (rfl | hm) | hm
    · exact hslot msg false (htaken msg (mem_of_getElem? hmsg))
    · exact hin m hm
    · exact htaken m (mem_of_mem_eraseIdx hm)
  | @commit _ msg msg' n hmsg hcore | @discard _ msg n hmsg =>
    rcases mem_append.mp hm with hm | hm
    · exact hin m hm
    · exact htaken m (mem_of_mem_eraseIdx hm)
  | close hnone => exact htaken m hm

end Endpoint

def heapWindow : Nat := 2 ^ 39

structure IpcState (κ : Type) where
  accounts : Accounts
  endpoints : κ → Endpoint

inductive IpcAct (κ : Type) where
  | send (k : κ) (id : Nat) (bytes : List UInt8) (caps : List Capability)
      (sender : Option DomainId) (ring : Bool)
  | recv (k : κ)
  | peekIdentified (k : κ)
  | recvIdentified (k : κ) (id bytesCap capSlots : Nat)
  | returnToHead (k : κ) (n : Nat)
  | commitDelivery (k : κ) (n : Nat)
  | dropTaken (k : κ) (n : Nat)
  | close (k : κ)
  | setLimit (d : DomainId) (res : Resource) (limit : Nat)

namespace IpcState

variable {κ : Type} [Fintype κ] [DecidableEq κ]

def new (limits : DomainId → Resource → Nat) (depths : κ → Nat) : IpcState κ where
  accounts d res := ResourceCounter.new (limits d res)
  endpoints k := Endpoint.new (depths k)

variable (s : IpcState κ)

def inTransit : Nat :=
  ∑ k, ((s.endpoints k).pending.map fun msg => msg.bytes.length).sum

def upgrade (k : κ) : Option Channel :=
  if (s.endpoints k).alive then some (s.endpoints k).channel else none

def message (k : κ) (id : Nat) (bytes : List UInt8) (caps : List Capability)
    (sender : Option DomainId) : Message :=
  { Message.new id bytes caps with
    stamp := (s.endpoints k).accepted.length, sender := sender }

def sendInner (F : Forest) (s : IpcState κ) (k : κ) (id : Nat) (bytes : List UInt8)
    (caps : List Capability) (sender : Option DomainId) (ring : Bool) :
    Except (ChannelError × List Capability) Channel × Accounts :=
  Channel.sendInner (domainQuota F) ring (s.message k id bytes caps sender) sender (s.upgrade k)
    s.accounts

/-- A step. `peer k` is the other end of `k`. The payloads of all messages lie in the
kernel heap, so there is no message to send that does not fit there. An endpoint closes
when nobody holds it, and a receive in progress does. -/
def step (F : Forest) (peer : κ → κ) (s : IpcState κ) : IpcAct κ → Option (IpcState κ)
  | .send k id bytes caps sender ring =>
    if s.inTransit + bytes.length ≤ heapWindow then
      let dst := peer k
      match s.sendInner F dst id bytes caps sender ring with
      | (.ok ch, accounts) =>
        let e := s.endpoints dst
        some { accounts := accounts
               endpoints := Function.update s.endpoints dst
                 { e with channel := ch
                          accepted := e.accepted ++ [s.message dst id bytes caps sender] } }
      | (.error _, accounts) => some { s with accounts := accounts }
    else none
  | .recv k =>
    let e := s.endpoints k
    match e.channel.recv (domainQuota F) (!(s.endpoints (peer k)).alive) s.accounts with
    | (.ok (msg, _), ch, accounts) =>
      some { accounts := accounts
             endpoints := Function.update s.endpoints k
               { e with channel := ch, delivered := e.delivered ++ [msg] } }
    | (.error _, _, _) => some s
  | .peekIdentified _ => some s
  | .recvIdentified k id bytesCap capSlots =>
    let e := s.endpoints k
    match e.channel.recvIdentified (!(s.endpoints (peer k)).alive) id bytesCap capSlots with
    | .ok (msg, ch) =>
      some { s with endpoints := Function.update s.endpoints k
                      { e with channel := ch, taken := e.taken ++ [msg] } }
    | .error _ => some s
  | .returnToHead k n =>
    let e := s.endpoints k
    (e.taken[n]?).map fun msg =>
      { s with endpoints := Function.update s.endpoints k
                 { e with channel := e.channel.returnToHead msg
                          taken := e.taken.eraseIdx n } }
  | .commitDelivery k n =>
    let e := s.endpoints k
    (e.taken[n]?).map fun msg =>
      let r := e.channel.commitDelivery (domainQuota F) (!(s.endpoints (peer k)).alive) msg
        s.accounts
      { accounts := r.2.2
        endpoints := Function.update s.endpoints k
          { e with channel := r.2.1
                   taken := e.taken.eraseIdx n
                   delivered := e.delivered ++ [r.1.1] } }
  | .dropTaken k n =>
    let e := s.endpoints k
    (e.taken[n]?).map fun msg =>
      { accounts := (msg.releaseQueueCharge (domainQuota F) s.accounts).2
        endpoints := Function.update s.endpoints k { e with taken := e.taken.eraseIdx n } }
  | .close k =>
    let e := s.endpoints k
    if e.taken = [] then
      some { accounts := Channel.drainInbox (domainQuota F) e.channel.inbox s.accounts
             endpoints := Function.update s.endpoints k
               { e with channel := { e.channel with inbox := [] }, alive := false } }
    else none
  | .setLimit d res limit => some { s with accounts := s.accounts.setLimit d res limit }

def Paid (F : Forest) : QueueEvent → Accounts → Accounts → Prop
  | .accept msg, a, a' =>
    (msg.sender = none ∧ msg.queueCharge = none ∧ a' = a) ∨
      ∃ d, msg.sender = some d ∧ msg.queueCharge = some ⟨d,msg.bytes.length⟩ ∧
        Accounts.tryChargeHier .ipcQueue msg.bytes.length (F.path d) a = (true, a')
  | .deliver msg, a, a' | .commit msg, a, a' | .discard msg, a, a' =>
    a' = (msg.releaseQueueCharge (domainQuota F) a).2
  | .take _, a, a' | .putBack _, a, a' => a' = a
  | .close msgs, a, a' => a' = Channel.drainInbox (domainQuota F) msgs a

def IsFor (k : κ) : QueueEvent → IpcAct κ → Prop
  | .accept _, .send _ _ _ _ _ _ => True
  | .deliver _, .recv k' => k' = k
  | .take _, .recvIdentified k' _ _ _ => k' = k
  | .putBack msg, .returnToHead k' n => k' = k ∧ (s.endpoints k).taken[n]? = some msg
  | .commit _, .commitDelivery k' _ => k' = k
  | .discard _, .dropTaken k' _ => k' = k
  | .close _, .close k' => k' = k
  | _, _ => False

variable {act : IpcAct κ}

theorem step_cases {F : Forest} {peer : κ → κ} {s t : IpcState κ} (h : step F peer s act = some t) :
    (∃ k ev e, Endpoint.Move ev (s.endpoints k) e ∧ s.IsFor k ev act ∧
      t.endpoints = Function.update s.endpoints k e ∧ Paid F ev s.accounts t.accounts ∧
      ∀ msg, ev = .accept msg → s.inTransit + msg.bytes.length ≤ heapWindow) ∨
    (t.endpoints = s.endpoints ∧ (t.accounts = s.accounts ∨
      (∃ d bytes, s.inTransit + bytes ≤ heapWindow ∧
        Accounts.tryChargeHier .ipcQueue bytes (F.path d) s.accounts = (false, t.accounts)) ∨
      ∃ d res limit, t.accounts = s.accounts.setLimit d res limit)) := by
  cases act with
  | send k id bytes caps sender ring =>
    simp only [step] at h
    split at h
    · next hfit =>
      split at h
      · next ch accounts hsend =>
        cases h
        obtain ⟨p,sent,hup,hroom,rfl,hpaid⟩ := Channel.sendInner_spec hsend
        unfold upgrade at hup
        split at hup
        · cases hup
          refine .inl ⟨peer k,.accept sent,_,?_,trivial,rfl,?_,?_⟩
          · obtain ⟨-,rfl,-⟩ | ⟨d,-,-,rfl⟩ := hpaid
            · exact .accept hroom rfl rfl
            · exact .accept hroom rfl rfl
          · obtain ⟨rfl,rfl,rfl⟩ | ⟨d,rfl,hcharge,rfl⟩ := hpaid
            · exact .inl ⟨rfl,rfl,rfl⟩
            · exact .inr ⟨d,rfl,rfl,hcharge⟩
          · rintro msg ⟨rfl⟩
            obtain ⟨-,rfl,-⟩ | ⟨d,-,-,rfl⟩ := hpaid
            · exact hfit
            · exact hfit
        · cases hup
      · next err accounts hsend =>
        cases h
        obtain ⟨-,hds | ⟨d,-,hcharge⟩⟩ := Channel.sendInner_spec hsend
        · exact .inr ⟨rfl,.inl hds⟩
        · exact .inr ⟨rfl,.inr (.inl ⟨d,_,hfit,hcharge⟩)⟩
    · cases h
  | recv k =>
    simp only [step,Channel.recv] at h
    cases hin : (s.endpoints k).channel.inbox with
    | nil =>
      rw [hin] at h
      cases h
      exact .inr ⟨rfl,.inl rfl⟩
    | cons msg rest =>
      rw [hin] at h
      cases h
      exact .inl ⟨k,.deliver msg,_,.deliver hin (msg.releaseQueueCharge_core _ _),rfl,rfl,rfl,nofun⟩
  | peekIdentified k =>
    cases h
    exact .inr ⟨rfl,.inl rfl⟩
  | recvIdentified k id bytesCap capSlots =>
    simp only [step] at h
    split at h
    · next msg ch hrecv =>
      cases h
      obtain ⟨head,rest,hin,rfl,rfl⟩ := Channel.recvIdentified_ok hrecv
      exact .inl ⟨k,.take head,_,.take hin,rfl,rfl,rfl,nofun⟩
    · cases h
      exact .inr ⟨rfl,.inl rfl⟩
  | returnToHead k n =>
    obtain ⟨msg,hmsg,rfl⟩ := Option.map_eq_some_iff.mp h
    exact .inl ⟨k,.putBack msg,_,.putBack hmsg,⟨rfl,hmsg⟩,rfl,rfl,nofun⟩
  | commitDelivery k n =>
    obtain ⟨msg,hmsg,rfl⟩ := Option.map_eq_some_iff.mp h
    refine .inl ⟨k,.commit msg,_,?_,rfl,rfl,Channel.commitDelivery_accounts _ _ _ _ _,nofun⟩
    rw [Channel.commitDelivery_channel]
    exact .commit hmsg (Channel.commitDelivery_core _ _ _ _ _)
  | dropTaken k n =>
    obtain ⟨msg,hmsg,rfl⟩ := Option.map_eq_some_iff.mp h
    exact .inl ⟨k,.discard msg,_,.discard hmsg,rfl,rfl,rfl,nofun⟩
  | close k =>
    simp only [step] at h
    split at h
    · next hnone =>
      cases h
      exact .inl ⟨k,.close _,_,.close hnone,rfl,rfl,rfl,nofun⟩
    · cases h
  | setLimit d res limit =>
    cases h
    exact .inr ⟨rfl,.inr (.inr ⟨d,res,limit,rfl⟩)⟩

variable {F : Forest} {peer : κ → κ} {s t : IpcState κ}

theorem forall_endpoints {P : Endpoint → Prop} (hs : ∀ k, P (s.endpoints k))
    (hmove : ∀ k ev e, Endpoint.Move ev (s.endpoints k) e → s.IsFor k ev act →
      P (s.endpoints k) → P e)
    (h : step F peer s act = some t) : ∀ k, P (t.endpoints k) := by
  obtain ⟨k,ev,e,hm,hfor,hends,-⟩ | ⟨hends,-⟩ := step_cases h
  · intro j
    rw [hends]
    by_cases hj : j = k
    · subst hj
      rw [Function.update_self]
      exact hmove j ev e hm hfor (hs j)
    · rw [Function.update_of_ne hj]
      exact hs j
  · intro j
    rw [hends]
    exact hs j

end IpcState

end LiberSystem
