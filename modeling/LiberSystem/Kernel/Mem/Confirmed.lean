import LiberSystem.Kernel.Mem.Tlb
import LiberSystem.Lib.Runs

/-!
# Confirmed shootdowns

Any number of callers of `shootdown` on any cores, and of runs of `service_pending`, also nested
ones. The clock goes on with every event, so that a flush lies within a call if its clock does.
-/

namespace LiberSystem.Shootdown

open Function Option

variable {T T' : Tlb} {cpus : Nat}

/-- A call on the core `me`: the clock when it began, and when it answered. -/
inductive Call where
  | idle
  | running (me : Core) (since : Nat) (stage : Stage)
  | answered (me : Core) (since now : Nat) (complete : Bool)
  deriving DecidableEq

structure Calls where
  tlb : Tlb
  calls : Nat → Call

inductive Action where
  | call (t : Nat) (me : Core)
  /-- The call goes on; `timeout` says that it gives up waiting. -/
  | go (t : Nat) (timeout : Bool)
  | look (i : Nat) (core : Core)
  | serve (i : Nat)

namespace Tlb

def tick (T : Tlb) : Tlb := { T with clock := T.clock + 1 }

def CallOk (T : Tlb) (cpus : Nat) : Call → Prop
  | .running me since stage => since ≤ T.clock ∧ T.StageOk cpus me stage ∧
      ∀ g, stage.generation = some g → since < T.began g
  | .answered me since _ true => ∀ c < cpus, c ≠ me → since < T.flushed c
  | _ => True

theorem CallOk.le {call : Call} (h : T.CallOk cpus call) (hle : T.Le T') : T'.CallOk cpus call := by
  cases call with
  | idle => trivial
  | running me since stage =>
    obtain ⟨hsince,hstage,hbegan⟩ := h
    refine ⟨Nat.le_trans hsince hle.clock,hstage.le hle,fun g hg => ?_⟩
    rw [hle.began g (hstage.generation_le hg)]
    exact hbegan g hg
  | answered me since now complete =>
    cases complete with
    | false => trivial
    | true => exact fun c hc hme => Nat.lt_of_lt_of_le (h c hc hme) (hle.flushed c)

theorem ack_of_shoot {me : Core} {timeout : Bool} {stage : Stage} {out : Outcome}
    (hs : T.shoot cpus me timeout stage = some (T', out)) :
    T'.ackGeneration = T.ackGeneration := by
  cases stage <;> simp only [shoot] at hs
  all_goals
    repeat' split at hs
    all_goals cases hs <;> rfl

/-- A service acknowledges what it has read and nothing that was asked for later. -/
theorem Ok.ack_of_serve (h : T.Ok) {i : Nat} (hs : T.serve i = some T') (c : Core) :
    T.ackGeneration c ≤ T'.ackGeneration c ∧ ∀ v, T.services i = some v → ∀ g ≤ T.request,
      T.began v.wanted < T.began g → g ≤ T'.ackGeneration c → g ≤ T.ackGeneration c := by
  unfold Tlb.serve at hs
  split at hs
  · cases hs
  · cases hs
    exact ⟨Nat.le_refl _,fun _ _ _ _ _ hack => hack⟩
  · next core wanted hservice =>
    cases hs
    dsimp only
    rcases eq_or_ne c core with rfl | hc
    · rw [update_self]
      refine ⟨Nat.le_max_left _ _,fun v hv g hg hlater hack => ?_⟩
      cases hservice.symm.trans hv
      -- the numbers are in the order of their beginnings
      have hlt : wanted < g := Nat.lt_of_not_le fun hge =>
        Nat.not_lt.mpr (h.began_mono g wanted hge (h.wanted_le i _ hservice)) hlater
      omega
    · rw [update_of_ne hc]
      exact ⟨Nat.le_refl _,fun _ _ _ _ _ hack => hack⟩

end Tlb

namespace Calls

def new : Calls := ⟨.new,fun _ => .idle⟩

def enter (cpus : Nat) (me : Core) (clock : Nat) : Call :=
  if cpus ≤ 1 then .answered me clock clock true
  else if cpus > MAX_CPUS then .answered me clock clock false
  else .running me clock .acquire

def step (cpus : Nat) (k : Calls) : Action → Option Calls
  | .call t me =>
    match k.calls t with
    | .running _ _ _ => none
    | _ =>
      if me < cpus then
        some ⟨k.tlb.tick,Function.update k.calls t (enter cpus me k.tlb.tick.clock)⟩
      else none
  | .go t timeout =>
    match k.calls t with
    | .running me since stage =>
      (k.tlb.tick.shoot cpus me timeout stage).map fun (T, out) =>
        ⟨T,Function.update k.calls t <| match out with
          | .go stage => .running me since stage
          | .returned complete _ => .answered me since T.clock complete⟩
    | _ => none
  | .look i core => (k.tlb.tick.look i core).map fun T => { k with tlb := T }
  | .serve i => (k.tlb.tick.serve i).map fun T => { k with tlb := T }

structure Sound (cpus : Nat) (k : Calls) : Prop where
  tlb : k.tlb.Ok
  calls : ∀ t, k.tlb.CallOk cpus (k.calls t)

variable {k k' : Calls} {a : Action}

theorem callOk_enter {me : Core} (hme : me < cpus) :
    T.CallOk cpus (enter cpus me T.clock) := by
  unfold enter
  split
  · next hone =>
    -- a single core is answered at once: there is no other
    have hzero {n : Core} (hn : n < cpus) : n = 0 :=
      Nat.lt_one_iff.mp (Nat.lt_of_lt_of_le hn hone)
    exact fun c hc hcore => absurd ((hzero hc).trans (hzero hme).symm) hcore
  split
  · trivial
  · exact ⟨Nat.le_refl _,trivial,fun g hg => (by cases hg)⟩

theorem Sound.step (h : k.Sound cpus) (hs : step cpus k a = some k') :
    k'.Sound cpus ∧ ∀ c, k.tlb.ackGeneration c ≤ k'.tlb.ackGeneration c := by
  obtain ⟨hok,hle⟩ : k.tlb.tick.Ok ∧ k.tlb.Le k.tlb.tick := h.tlb.tick
  have hcalls : ∀ t, k.tlb.tick.CallOk cpus (k.calls t) := fun t => (h.calls t).le hle
  cases a with
  | call t me =>
    dsimp only [Calls.step] at hs
    split at hs
    · cases hs
    simp only [ite_none_right_eq_some,some.injEq] at hs
    obtain ⟨hme,rfl⟩ := hs
    exact ⟨⟨hok,(forall_update_iff k.calls (p := fun _ call => k.tlb.tick.CallOk cpus call)).mpr
      ⟨callOk_enter hme,fun u _ => hcalls u⟩⟩,fun c => Nat.le_refl _⟩
  | go t timeout =>
    dsimp only [Calls.step] at hs
    split at hs
    · next me since stage hcall =>
      obtain ⟨⟨T,out⟩,hshoot,rfl⟩ := map_eq_some_iff.mp hs
      have hwas := h.calls t
      have hnow := hcalls t
      rw [hcall] at hwas hnow
      obtain ⟨hsince,hstage,hbegan⟩ := hnow
      obtain ⟨hokT,hleT,hout⟩ := hok.shoot hstage hshoot
      refine ⟨⟨hokT,(forall_update_iff k.calls (p := fun _ call => T.CallOk cpus call)).mpr
        ⟨?_,fun u _ => (hcalls u).le hleT⟩⟩,
        fun c => Nat.le_of_eq (congrFun (Tlb.ack_of_shoot hshoot) c).symm⟩
      cases out with
      | go stage' =>
        refine ⟨Nat.le_trans hsince hleT.clock,hout.1,fun g hg => ?_⟩
        rcases hout.2 g hg with hg | hnew
        · rw [hleT.began g (hstage.generation_le hg)]
          exact hbegan g hg
        · rw [hnew]
          exact Nat.lt_succ_of_le hwas.1
      | returned complete g =>
        have hrelease : stage = .release g complete := hout
        subst hrelease
        cases complete with
        | false => trivial
        | true =>
          intro c hc hcore
          calc since < k.tlb.tick.began g := hbegan g rfl
            _ ≤ k.tlb.tick.flushed c := hstage.2 rfl c hc hcore
            _ ≤ T.flushed c := hleT.flushed c
    · cases hs
  | look i core =>
    obtain ⟨T,hlook,rfl⟩ := map_eq_some_iff.mp hs
    obtain ⟨hokT,hleT⟩ := hok.look hlook
    simp only [Tlb.look,ite_none_right_eq_some,some.injEq] at hlook
    obtain ⟨-,rfl⟩ := hlook
    exact ⟨⟨hokT,fun t => (hcalls t).le hleT⟩,fun c => Nat.le_refl _⟩
  | serve i =>
    obtain ⟨T,hserve,rfl⟩ := map_eq_some_iff.mp hs
    obtain ⟨hokT,hleT⟩ := hok.serve hserve
    exact ⟨⟨hokT,fun t => (hcalls t).le hleT⟩,fun c => (hok.ack_of_serve hserve c).1⟩

/-- When a shootdown has just answered `true`, every other core has flushed since the call began.
No core's acknowledged generation decreases, and an acknowledgement satisfies no request that was
made after the one it is for. -/
theorem confirmed_shootdown_happened (h : Reaches (step cpus) (fun _ _ => True) new k) :
    (∀ t me since, k.calls t = .answered me since k.tlb.clock true →
      ∀ c < cpus, c ≠ me → since < k.tlb.flushed c ∧ k.tlb.flushed c ≤ k.tlb.clock) ∧
    ∀ a k', step cpus k a = some k' →
      (∀ c, k.tlb.ackGeneration c ≤ k'.tlb.ackGeneration c) ∧
      ∀ i v, a = .serve i → k.tlb.services i = some v → ∀ g ≤ k.tlb.request,
        k.tlb.began v.wanted < k.tlb.began g →
          ∀ c, g ≤ k'.tlb.ackGeneration c → g ≤ k.tlb.ackGeneration c := by
  have hsound : k.Sound cpus := h.invariant ⟨Tlb.ok_new,fun _ => trivial⟩
    fun _ _ _ hk _ hs => (hk.step hs).1
  refine ⟨fun t me since ht c hc hme => ⟨?_,hsound.tlb.flushed_le c⟩,fun a k' hs => ?_⟩
  · have hcall := hsound.calls t
    rw [ht] at hcall
    exact hcall c hc hme
  · refine ⟨(hsound.step hs).2,?_⟩
    rintro i v rfl hv g hg hlater c
    obtain ⟨T,hserve,rfl⟩ := map_eq_some_iff.mp hs
    exact (hsound.tlb.tick.1.ack_of_serve hserve c).2 v hv g hg hlater

theorem confirmed_shootdown_happened_two : ∃ k, Reaches (step 2) (fun _ _ => True) new k ∧
    k.calls 0 = .answered 0 1 k.tlb.clock true ∧ 1 < k.tlb.flushed 1 :=
  exists_reaches_imp (P := fun k => k.calls 0 = .answered 0 1 k.tlb.clock true)
    (.call 0 0 :: List.replicate 5 (.go 0 false) ++
      [.look 0 1,.serve 0,.serve 0,.go 0 false,.go 0 false]) (by decide +kernel)
    fun _ hrun hcall => ⟨hcall,((confirmed_shootdown_happened hrun).1 0 0 1 hcall 1
      (by decide) (by decide)).1⟩

end Calls

end LiberSystem.Shootdown
