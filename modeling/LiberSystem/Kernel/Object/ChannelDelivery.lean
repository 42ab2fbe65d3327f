import LiberSystem.Kernel.Object.ChannelRun

/-!
# Delivery

What a run keeps of the messages of an endpoint: how many there are, where each of them
is, and in which order they wait. `Endpoint.Inv.move` and `Endpoint.Ordered.move_iff` are
the step lemmas.
-/

namespace LiberSystem

open List Message

namespace Endpoint

/-- What holds at an endpoint whose receives all end: nothing is beyond the limit, and
each accepted message is queued, taken or delivered, and only once. -/
structure Inv (e : Endpoint) : Prop where
  depth : e.channel.depth ≤ e.channel.limit.val
  inFlight : e.channel.inFlight = e.taken.length
  reserved : ∀ msg ∈ e.taken, msg.slotReserved = true
  logged : ((e.pending ++ e.delivered).map Message.core).Perm e.accepted
  stamps : e.accepted.map Message.stamp = List.range e.accepted.length

variable {e e' : Endpoint} {ev : QueueEvent}

theorem Inv.new (depth : Nat) : (new depth).Inv := ⟨Nat.zero_le _,rfl,nofun,.refl _,rfl⟩

/-- An event of a receive that ends by a put-back or a commit. -/
def Kept : QueueEvent → Prop
  | .discard _ | .close _ => False
  | _ => True

theorem Inv.inFlight_lt (hi : e.Inv) : e.channel.inFlight < 2 ^ 64 - 1 := by
  have hdepth := hi.depth
  have hmax := e.channel.limit.le
  unfold Channel.depth CHANNEL_QUEUE_MAX at *
  omega

variable {msg : Message}

theorem Inv.fetchSub (hi : e.Inv) {n : Nat} (h : e.taken[n]? = some msg) :
    (if msg.slotReserved then LiberSystem.fetchSub e.channel.inFlight else e.channel.inFlight) =
      (e.taken.eraseIdx n).length := by
  have hlen := length_of_taken h
  have hcount := hi.inFlight
  have hlt := hi.inFlight_lt
  rw [if_pos (hi.reserved msg (mem_of_getElem? h)),Channel.fetchSub_of_pos (by omega) (by omega)]
  omega

theorem Inv.move (hi : e.Inv) (hkept : Kept ev) (h : Move ev e e') : e'.Inv := by
  have hlogged := perm_iff_count.mp hi.logged
  have hdepth : e.channel.inbox.length + e.channel.inFlight ≤ e.channel.limit.val := hi.depth
  cases h with
  | @accept _ msg hroom hslot hstamp =>
    unfold Channel.depth at hroom
    refine ⟨?_,hi.inFlight,hi.reserved,perm_iff_count.mpr fun a => ?_,?_⟩
    · simp only [Channel.depth,length_append,length_singleton]
      omega
    · have := hlogged a
      simp only [pending,map_append,count_append,map_cons,map_nil] at this ⊢
      omega
    · rw [map_append,hi.stamps,length_append,length_singleton,range_succ]
      simp [core,hstamp]
  | @deliver _ msg msg' rest hin hcore =>
    -- the message is logged as delivered in the step that takes it off the queue
    rw [hin] at hdepth
    refine ⟨?_,hi.inFlight,hi.reserved,perm_iff_count.mpr fun a => ?_,hi.stamps⟩
    · simp only [Channel.depth,length_cons] at hdepth ⊢
      omega
    have := hlogged a
    simp only [pending,hin,map_append,count_append,map_cons,map_nil,count_cons,count_nil,
      hcore] at this ⊢
    omega
  | @take _ msg rest hin =>
    have hlt := hi.inFlight_lt
    -- the taken message keeps its slot, so the depth does not change
    have hadd := Channel.fetchAdd_of_lt (n := e.channel.inFlight) (by omega)
    rw [hin] at hdepth
    refine ⟨?_,?_,?_,perm_iff_count.mpr fun a => ?_,hi.stamps⟩
    · simp only [Channel.depth,length_cons,hadd] at hdepth ⊢
      omega
    · rw [length_append,length_singleton,← hi.inFlight]
      exact hadd
    · exact forall_mem_append.mpr ⟨hi.reserved,forall_mem_singleton.mpr rfl⟩
    · have := hlogged a
      simp only [pending,hin,map_append,count_append,map_cons,map_nil,count_cons,
        count_nil] at this ⊢
      rw [show core { msg with slotReserved := true } = msg.core from rfl]
      omega
  | @putBack _ msg n hmsg =>
    have hsub := hi.fetchSub hmsg
    have hlen := length_of_taken hmsg
    have hcount := hi.inFlight
    refine ⟨?_,hsub,?_,perm_iff_count.mpr fun a => ?_,hi.stamps⟩
    · simp only [Channel.depth,Channel.returnToHead,hsub,length_cons]
      omega
    · exact fun m hm => hi.reserved m (mem_of_mem_eraseIdx hm)
    have := hlogged a
    have hperm := ((perm_of_taken hmsg).map core).count_eq a
    simp only [pending,Channel.returnToHead,map_append,count_append,map_cons,
      count_cons] at this hperm ⊢
    rw [show core { msg with slotReserved := false } = msg.core from rfl]
    omega
  | @commit _ msg msg' n hmsg hcore =>
    have hsub := hi.fetchSub hmsg
    have hlen := length_of_taken hmsg
    have hcount := hi.inFlight
    refine ⟨?_,hsub,?_,perm_iff_count.mpr fun a => ?_,hi.stamps⟩
    · simp only [Channel.depth,hsub]
      omega
    · exact fun m hm => hi.reserved m (mem_of_mem_eraseIdx hm)
    have := hlogged a
    have hperm := ((perm_of_taken hmsg).map core).count_eq a
    simp only [pending,map_append,count_append,map_cons,map_nil,count_cons,count_nil,
      hcore] at this hperm ⊢
    omega
  | discard _ | close _ => exact hkept.elim

theorem Inv.accepted_nodup (hi : e.Inv) : e.accepted.Nodup := by
  refine List.Nodup.of_map stamp ?_
  rw [hi.stamps]
  exact nodup_range

/-- Where an accepted message is: in one place, once. -/
theorem Inv.located (hi : e.Inv) (h : msg ∈ e.accepted) :
    (e.channel.inbox.map core).count msg + (e.taken.map core).count msg +
      (e.delivered.map core).count msg = 1 := by
  have hone := count_eq_one_of_mem hi.accepted_nodup h
  have hcount := hi.logged.count_eq msg
  simp only [pending,map_append,count_append] at hcount
  omega

/-- The messages wait in the order in which they were accepted. -/
def Ordered (e : Endpoint) : Prop := (e.channel.inbox.map Message.stamp).Pairwise (· < ·)

def Stamped (e : Endpoint) : Prop := ∀ msg ∈ e.pending, msg.stamp < e.accepted.length

/-- A message that goes back was accepted before all that wait. -/
def InOrder (e : Endpoint) : QueueEvent → Prop
  | .putBack msg => ∀ waiting ∈ e.channel.inbox, msg.stamp < waiting.stamp
  | _ => True

theorem Stamped.move (hs : e.Stamped) (h : Move ev e e') : e'.Stamped := by
  have hle : e.accepted.length ≤ e'.accepted.length := by
    cases h <;> simp
  refine h.forall_pending (fun _ _ hm => hm) ?_ fun m hm => (hs m hm).trans_le hle
  rintro msg rfl
  cases h with
  | accept hroom hslot hstamp =>
    rw [hstamp,length_append]
    exact Nat.lt_succ_self _

/-- The order lasts exactly through the events that respect it. -/
theorem Ordered.move_iff (ho : e.Ordered) (hs : e.Stamped) (h : Move ev e e') :
    e'.Ordered ↔ e.InOrder ev := by
  unfold Ordered at ho ⊢
  cases h with
  | @accept _ msg hroom hslot hstamp =>
    refine iff_of_true ?_ trivial
    rw [map_append,pairwise_append]
    refine ⟨ho,pairwise_singleton _ _,fun a ha b hb => ?_⟩
    obtain ⟨m,hm,rfl⟩ := mem_map.mp ha
    rw [map_singleton,mem_singleton] at hb
    rw [hb,hstamp]
    exact hs m (mem_append_left _ hm)
  | @deliver _ msg msg' rest hin hcore | @take _ msg rest hin =>
    rw [hin] at ho
    exact iff_of_true ho.tail trivial
  | @putBack _ msg n hmsg =>
    change (msg.stamp :: e.channel.inbox.map stamp).Pairwise (· < ·) ↔ _
    rw [pairwise_cons,forall_mem_map]
    exact and_iff_left ho
  | commit _ _ | discard _ => exact iff_of_true ho trivial
  | close _ => exact iff_of_true List.Pairwise.nil trivial

end Endpoint

namespace IpcState

variable {κ : Type} [Fintype κ] [DecidableEq κ] {F : Forest} {peer : κ → κ}
  {limits : DomainId → Resource → Nat} {depths : κ → Nat} {s t : IpcState κ}

/-- No receive is abandoned and no endpoint closes. -/
def Transactional (_ : IpcState κ) : IpcAct κ → Prop
  | .dropTaken _ _ | .close _ => False
  | _ => True

/-- When each receive that has taken a message ends by a put-back or a commit, no
endpoint holds more than its limit, and each message it has accepted is queued once, or
taken by one receive, or delivered once. -/
theorem messages_conserved (hrun : Reaches (step F peer) Transactional (new limits depths) s)
    (k : κ) :
    (s.endpoints k).channel.inbox.length + (s.endpoints k).channel.inFlight ≤
      (s.endpoints k).channel.limit.val ∧
    (s.endpoints k).channel.inFlight = (s.endpoints k).taken.length ∧
    (s.endpoints k).accepted.Nodup ∧
    (∀ msg ∈ (s.endpoints k).accepted, ((s.endpoints k).channel.inbox.map Message.core).count msg +
        ((s.endpoints k).taken.map Message.core).count msg +
        ((s.endpoints k).delivered.map Message.core).count msg = 1) ∧
    ∀ msg ∈ (s.endpoints k).channel.inbox ++ (s.endpoints k).taken ++ (s.endpoints k).delivered,
      msg.core ∈ (s.endpoints k).accepted := by
  have hi : (s.endpoints k).Inv := by
    refine hrun.invariant (P := fun s => ∀ k, (s.endpoints k).Inv)
      (fun k => Endpoint.Inv.new (depths k)) ?_ k
    intro s act t hs hok h
    refine forall_endpoints hs (fun k ev e hm hfor he => he.move ?_ hm) h
    cases ev with
    | discard msg | close msgs => cases act <;> first | exact hok | exact hfor
    | _ => trivial
  refine ⟨hi.depth,hi.inFlight,hi.accepted_nodup,fun msg => hi.located,fun msg hmsg => ?_⟩
  exact hi.logged.mem_iff.mp (mem_map_of_mem hmsg)

/-- Two messages fill a queue of depth 2, and a third is refused while the first is
taken, put back and taken again. -/
def retakenHead : List (IpcAct Bool) :=
  [.send false 1 [10] [] none true,.send false 2 [20] [] none true,.recvIdentified true 1 8 4,
    .send false 3 [30] [] none true,.returnToHead true 0,.recvIdentified true 1 8 4]

theorem messages_conserved_retakenHead :
    ∃ s, Reaches (step .siblings not) Transactional (new (fun _ _ => UNLIMITED) fun _ => 2) s ∧
      (s.endpoints true).accepted.length = 2 ∧ (s.endpoints true).channel.inFlight = 1 ∧
      (s.endpoints true).channel.inFlight = (s.endpoints true).taken.length := by
  have hend : (runList (step .siblings not) (new (fun _ _ => UNLIMITED) fun _ => 2)
      retakenHead).map (fun s => ((s.endpoints true).accepted.length,
        (s.endpoints true).channel.inFlight)) = some (2, 1) := by
    decide
  obtain ⟨s,hs,hvals⟩ := Option.map_eq_some_iff.mp hend
  simp only [Prod.mk.injEq] at hvals
  have hrun : Reaches (step .siblings not) Transactional
      (new (fun _ _ => UNLIMITED) fun _ => 2) s := by
    refine reaches_of_runList hs fun _ act hact => ?_
    simp only [retakenHead,mem_cons,not_mem_nil,or_false] at hact
    rcases hact with rfl | rfl | rfl | rfl | rfl | rfl <;> trivial
  exact ⟨s,hrun,hvals.1,hvals.2,(messages_conserved hrun true).2.1⟩

/-- A message is put back only while none that was accepted before it waits. -/
def ReturnsInOrder (s : IpcState κ) : IpcAct κ → Prop
  | .returnToHead k n => ∀ msg ∈ (s.endpoints k).taken[n]?,
      ∀ waiting ∈ (s.endpoints k).channel.inbox, msg.stamp < waiting.stamp
  | _ => True

instance (s : IpcState κ) (act : IpcAct κ) : Decidable (ReturnsInOrder s act) :=
  match act with
  | .returnToHead k n => inferInstanceAs (Decidable (∀ msg ∈ (s.endpoints k).taken[n]?,
      ∀ waiting ∈ (s.endpoints k).channel.inbox, msg.stamp < waiting.stamp))
  | .send _ _ _ _ _ _ | .recv _ | .peekIdentified _ | .recvIdentified _ _ _ _
  | .commitDelivery _ _ | .dropTaken _ _ | .close _ | .setLimit _ _ _ => isTrue trivial

omit [Fintype κ] [DecidableEq κ] in
theorem inOrder_of_isFor {k : κ} {ev : QueueEvent} {act : IpcAct κ} (hok : ReturnsInOrder s act)
    (hfor : s.IsFor k ev act) : (s.endpoints k).InOrder ev := by
  cases ev with
  | putBack msg =>
    cases act with
    | returnToHead k' n =>
      obtain ⟨rfl,hmsg⟩ := hfor
      exact hok msg hmsg
    | _ => exact hfor.elim
  | _ => trivial

/-- While every put-back respects the order, every inbox is in the order in which its
messages were sent. The first put-back that does not breaks it. -/
theorem inbox_order (hrun : Reaches (step F peer) ReturnsInOrder (new limits depths) s) :
    (∀ k, (s.endpoints k).Ordered) ∧
    ∀ k n t, step F peer s (.returnToHead k n) = some t →
      ((t.endpoints k).Ordered ↔ ReturnsInOrder s (.returnToHead k n)) := by
  have hs : ∀ k, (s.endpoints k).Ordered ∧ (s.endpoints k).Stamped := by
    refine hrun.invariant (P := fun s => ∀ k, (s.endpoints k).Ordered ∧ (s.endpoints k).Stamped)
      (fun k => ⟨List.Pairwise.nil,nofun⟩) ?_
    intro s act t hs hok h
    refine forall_endpoints (P := fun e => e.Ordered ∧ e.Stamped) hs
      (fun k ev e hm hfor ⟨ho,hst⟩ => ⟨?_,hst.move hm⟩) h
    exact (ho.move_iff hst hm).mpr (inOrder_of_isFor hok hfor)
  refine ⟨fun k => (hs k).1,fun k n t h => ?_⟩
  obtain ⟨msg,hmsg,rfl⟩ := Option.map_eq_some_iff.mp h
  dsimp only
  rw [Function.update_self,(hs k).1.move_iff (hs k).2 (.putBack hmsg)]
  constructor
  · intro hfirst m hm
    obtain rfl := Option.some.inj (hmsg.symm.trans hm)
    exact hfirst
  · intro hfirst
    exact hfirst msg hmsg

/-- Two messages are sent through `false`, each is taken by a receive of its own, and
the receives put them back in the order in which they took them. -/
def crossedReturns : List (IpcAct Bool) :=
  [.send false 1 [10] [] none true,.send false 2 [20] [] none true,.recvIdentified true 1 8 4,
    .recvIdentified true 2 8 4,.returnToHead true 0,.returnToHead true 0]

theorem inbox_order_broken :
    ∃ s, Reaches (step .siblings not) (fun _ _ => True) (new (fun _ _ => UNLIMITED) fun _ => 0) s ∧
      (s.endpoints true).channel.inbox.map Message.stamp = [1,0] ∧
      ¬(s.endpoints true).Ordered := by
  refine exists_reaches_imp
    (P := fun s => (s.endpoints true).channel.inbox.map Message.stamp = [1,0])
    crossedReturns (by decide) fun s _ hstamps => ⟨hstamps,?_⟩
  unfold Endpoint.Ordered
  rw [hstamps]
  decide

def nestedReturns : List (IpcAct Bool) :=
  [.send false 1 [10] [] none true,.send false 2 [20] [] none true,.recvIdentified true 1 8 4,
    .recvIdentified true 2 8 4,.returnToHead true 1,.returnToHead true 0]

theorem inbox_order_nested :
    ∃ s, Reaches (step .siblings not) ReturnsInOrder (new (fun _ _ => UNLIMITED) fun _ => 0) s ∧
      (s.endpoints true).channel.inbox.map Message.stamp = [0,1] ∧
      (s.endpoints true).Ordered := by
  refine exists_reaches_imp
    (P := fun s => (s.endpoints true).channel.inbox.map Message.stamp = [0,1])
    nestedReturns (by decide) fun s hrun hstamps => ?_
  exact ⟨hstamps,(inbox_order hrun).1 true⟩

end IpcState

end LiberSystem
