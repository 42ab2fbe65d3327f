import LiberSystem.Admin.NoEffectWithoutChain

/-!
# An unrecorded outcome stops approvals

The broker is blocked when it is told that the record of an outcome did not commit, and stays so
until storage recovers. A record whose answer does not come is forgotten, and blocks nothing.
-/

namespace LiberSystem.Admin.Broker

open List

variable {b b' : Broker} {c : Call}

def step (b : Broker) (c : Call) : Option Broker := some (b.call c).1

/-- A dispatched request is over, and the acknowledgment of its outcome is awaited. -/
def Awaits (q : Request) (event : Event) : Prop :=
  q.dispatched = true ∧ (∃ outcome : Outcome, q.state = outcome.state) ∧ q.journaling = some event

def AnswersUncommitted (b : Broker) (c : Call) : Prop :=
  ∃ r event now i q, c = .journaled r event false now ∧ b.find r = some (i, q) ∧ Awaits q event

def PassesDeadline (b : Broker) (c : Call) : Prop :=
  ∃ event now, ∃ q ∈ b.requests, c = .tick now ∧ Awaits q event ∧ q.exchangeBy ≤ now

/-- Nothing is approved, admitted or redeemed. -/
structure Stopped (b : Broker) : Prop where
  approve : ∀ session now, ∀ q ∈ (b.approve session now).1.requests,
    q.state = .approving → q ∈ b.requests
  ask : ∀ connection asked now, ∀ q ∈ (b.ask connection asked now).2.1.requests,
    q.state = .preparing → q ∈ b.requests
  redeem : ∀ request now, (b.redeem request now).1 = false

theorem stopped_of_blocked (hb : b.blocked) : b.Stopped where
  approve session now q' hq' hstate := by
    rcases approve_spec b session now with h | ⟨hno,-⟩
    · obtain ⟨q,hq,rfl | ⟨-,hpast⟩⟩ := of_mem_forall₂ h.requests hq'
      · exact hq
      · rw [hstate] at hpast
        cases hpast
    · exact absurd hb (Bool.eq_false_iff.mp hno)
  ask connection asked now q' hq' hstate := by
    obtain ⟨-,⟨hreq,-⟩ | ⟨q,hreq,-,-,-,hpast | ⟨hno,-⟩⟩⟩ := ask_requests b connection asked now
    · exact hreq ▸ hq'
    · rw [hreq] at hq'
      rcases mem_append.mp hq' with hq' | hq'
      · exact hq'
      · rw [← mem_singleton.mp hq',hstate] at hpast
        cases hpast
    · exact absurd hb (Bool.eq_false_iff.mp hno)
  redeem request now := by
    rw [Broker.redeem]
    split
    · rfl
    · rw [if_pos (by simp [hb])]

@[simp] theorem blocked_declineAs (b : Broker) (i : Nat) (ending : State) (reason : String)
    (now : Nat) : (b.declineAs i ending reason now).1.blocked = b.blocked := by
  have hhide id : (b.hideIfShowing id).1.blocked = b.blocked := by
    rw [hideIfShowing]
    repeat' split
    all_goals rfl
  rw [declineAs]
  split
  · rfl
  split
  · rfl
  · exact hhide _

theorem blocked_each {α : Type} {f : Broker → α → Out}
    (hf : ∀ b a, (f b a).1.blocked = b.blocked) (b : Broker) (l : List α) :
    (each f b l).1.blocked = b.blocked := by
  have hfold : ∀ (l : List α) (out : Out),
      (l.foldl (fun out a => ((f out.1 a).1, out.2 ++ (f out.1 a).2)) out).1.blocked =
        out.1.blocked := by
    intro l
    induction l with
    | nil => exact fun out => rfl
    | cons a l ih => exact fun out => (ih _).trans (hf out.1 a)
  exact hfold l (b, [])

theorem blocked_settle (b : Broker) : b.settle.blocked = b.blocked := by
  have hfold : ∀ (l : List Request) (b : Broker),
      (l.foldl (fun b r => b.remove r.id r.connection) b).blocked = b.blocked := by
    intro l
    induction l with
    | nil => exact fun b => rfl
    | cons r l ih => exact fun b => ih _
  exact hfold _ b

theorem blocked_tick (b : Broker) (now : Nat) : (b.tick now).1.blocked = b.blocked := by
  refine blocked_each (f := fun b i => b.tickOne i now) (fun b i => ?_) b (range _)
  rw [tickOne]
  repeat' split
  all_goals first | rfl | exact blocked_declineAs _ _ _ _ _

theorem blocked_call (hb : b.blocked) (hc : c ≠ .recovered) : (b.call c).1.blocked := by
  rw [← hb]
  cases c with
  | recovered => exact absurd rfl hc
  | settle => exact blocked_settle b
  | tick now => exact blocked_tick b now
  | executorLost executor now =>
    refine blocked_each (fun b id => ?_) b _
    simp only [executorLostOne,executed]
    repeat' split
    all_goals first | rfl | exact blocked_declineAs _ _ _ _ _
  | openConnection =>
    simp only [call,Broker.openConnection]
    split_ifs <;> rfl
  | _ =>
    simp only [call,Broker.ask,bindExecutor,prepared,attention,Broker.approve,revalidated,
      Broker.redeem,setPath,refuse,cancel,closed,ownerDied,observerFailed,lose,executed,journaled,
      consumed,decline]
    repeat' split
    all_goals first | rfl | exact blocked_declineAs _ _ _ _ _ | exact hb.symm

theorem blocked_of_uncommitted (h : b.AnswersUncommitted c) : (b.call c).1.blocked := by
  obtain ⟨r,event,now,i,q,rfl,hfind,-,⟨outcome,hstate⟩,hj⟩ := h
  rw [call,journaled,hfind]
  dsimp only
  rw [if_neg (not_not.mpr hj),hstate]
  cases outcome <;> rfl

/-- Once it is answered that the outcome of a dispatched request is not recorded, nothing is
approved, admitted or redeemed until storage recovers. That the deadline of the answer passes stops
nothing which was not stopped before. -/
theorem unrecorded_outcome_stops :
    (b.AnswersUncommitted c → Reaches step (fun _ c => c ≠ .recovered) (b.call c).1 b' →
      b'.Stopped) ∧ (b.PassesDeadline c → (b.call c).1.blocked = b.blocked) := by
  refine ⟨fun hc h => stopped_of_blocked (h.invariant (P := fun b => b.blocked) ?_ ?_),?_⟩
  · exact blocked_of_uncommitted hc
  · intro b c b' hb hc hstep
    cases hstep
    exact blocked_call hb hc
  · rintro ⟨event,now,q,-,rfl,-⟩
    exact blocked_tick b now

theorem reaches_settle (b : Broker) :
    Reaches step (fun _ c => c ≠ .recovered) b (b.call .settle).1 :=
  Reaches.refl.tail (fun h => by cases h) rfl

/-- The operation is carried out and the record of it fails; then another one is asked for. -/
theorem unrecorded_outcome_stops_reboot : ∃ b c b',
    Reaches step (fun _ _ => True) (.new 1) b ∧ b.AnswersUncommitted c ∧
      Reaches step (fun _ c => c ≠ .recovered) (b.call c).1 b' ∧ b'.Stopped := by
  have heval : ((runList step (.new 1) (World.rebootCalls ++ [.executed 1 .completed 19])).bind
      fun b => (b.find 1).map fun r => (r.2.dispatched, r.2.state, r.2.journaling)) =
        some (true, .completed, some .completed) := by
    decide +kernel
  obtain ⟨b,hrun,hfind⟩ := Option.bind_eq_some_iff.mp heval
  obtain ⟨⟨i,q⟩,hq,hawaits⟩ := Option.map_eq_some_iff.mp hfind
  simp only [Prod.mk.injEq] at hawaits
  have hc : b.AnswersUncommitted (.journaled 1 .completed false 20) :=
    ⟨1,.completed,20,i,q,rfl,hq,hawaits.1,⟨.completed,hawaits.2.1⟩,hawaits.2.2⟩
  have hsettle := reaches_settle (b.call (.journaled 1 .completed false 20)).1
  exact ⟨b,_,_,reaches_of_runList hrun fun _ _ _ => trivial,hc,hsettle,
    unrecorded_outcome_stops.1 hc hsettle⟩

/-- The answer about the record does not come. A tick after the deadline forgets the record, and
the next request is admitted. -/
theorem lost_reply_stops_nothing : ∃ b c b',
    Reaches step (fun _ _ => True) (.new 1) b ∧ b.PassesDeadline c ∧
      Reaches step (fun _ c => c ≠ .recovered) (b.call c).1 b' ∧ ¬ b'.Stopped := by
  have heval : ((runList step (.new 1) (World.rebootCalls ++ [.executed 1 .completed 19])).bind
      fun b => (b.requests[0]?).map fun q => ((q.dispatched, q.state, q.journaling),
        decide (q.exchangeBy ≤ 600), ((b.call (.tick 600)).1.call .settle).1.requests.length,
        (((b.call (.tick 600)).1.call .settle).1.ask 1
          ⟨.bmcChassisControl,"bmc0",[3],0,"reboot"⟩ 601).2.1.requests.map Request.state)) =
        some ((true, .completed, some .completed), true, 0, [.preparing]) := by
    decide +kernel
  obtain ⟨b,hrun,hq⟩ := Option.bind_eq_some_iff.mp heval
  obtain ⟨q,hq,hvalues⟩ := Option.map_eq_some_iff.mp hq
  simp only [Prod.mk.injEq,decide_eq_true_eq] at hvalues
  obtain ⟨⟨hd,hstate,hj⟩,hby,hnone,hask⟩ := hvalues
  have hsettle := reaches_settle (b.call (.tick 600)).1
  refine ⟨b,_,_,reaches_of_runList hrun fun _ _ _ => trivial,?_,hsettle,fun hstop => ?_⟩
  · exact ⟨.completed,600,q,mem_of_getElem? hq,rfl,⟨hd,⟨.completed,hstate⟩,hj⟩,hby⟩
  obtain ⟨q',hq',hpreparing⟩ := mem_map.mp (hask ▸ mem_singleton.mpr rfl)
  have hold := hstop.ask _ _ _ q' hq' hpreparing
  rw [length_eq_zero_iff.mp hnone] at hold
  exact not_mem_nil hold

end LiberSystem.Admin.Broker
