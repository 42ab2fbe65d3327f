import Mathlib.Algebra.GroupWithZero.Nat
import Mathlib.Order.Basic

/-!
# The translation buffer shootdown

`shootdown` and `service_pending` of `mem/tlb.rs`, one atomic access a step. A clock counts the
times that a mapping was taken down; `flushed c` is the clock at the last flush of the core `c`, and
`began g` when the request `g` took its number.
-/

namespace LiberSystem.Shootdown

open Function Option

abbrev Core := Nat

def MAX_CPUS : Nat := 64

/-- A `service_pending` that has found a request: what it has read, and whether it has flushed. -/
structure Service where
  core : Core
  wanted : Nat
  done : Bool

structure Tlb where
  request : Nat
  pendingGeneration : Core → Nat
  ackGeneration : Core → Nat
  inFlight : Bool
  services : Nat → Option Service
  clock : Nat
  flushed : Core → Nat
  began : Nat → Nat

inductive Stage where
  | acquire
  | number
  | publish (generation : Nat) (cpu : Core)
  | await (generation : Nat)
  | release (generation : Nat) (complete : Bool)
  deriving DecidableEq

def Stage.generation : Stage → Option Nat
  | .acquire | .number => none
  | .publish generation _ | .await generation | .release generation _ => some generation

inductive Outcome where
  | go (stage : Stage)
  | returned (complete : Bool) (generation : Nat)

namespace Tlb

def new : Tlb where
  request := 0
  pendingGeneration _ := 0
  ackGeneration _ := 0
  inFlight := false
  services _ := none
  clock := 0
  flushed _ := 0
  began _ := 0

variable (T : Tlb)

def setRequest (generation : Nat) : Tlb :=
  { T with request := generation, began := Function.update T.began generation T.clock }

def shoot (cpus : Nat) (me : Core) (timeout : Bool) : Stage → Option (Tlb × Outcome)
  | .acquire => if T.inFlight then none else some ({ T with inFlight := true }, .go .number)
  | .number =>
    -- the sum is checked, so the caller of the request 2^64 panics
    if T.request + 1 < 2 ^ 64 then
      some (T.setRequest (T.request + 1), .go (.publish (T.request + 1) 0))
    else none
  | .publish generation cpu =>
    if cpu < cpus then
      let pending := if cpu = me then T.pendingGeneration
        else Function.update T.pendingGeneration cpu generation
      some ({ T with pendingGeneration := pending }, .go (.publish generation (cpu + 1)))
    else some (T, .go (.await generation))
  | .await generation =>
    if timeout then some (T, .go (.release generation false))
    else if ∀ cpu < cpus, cpu ≠ me → T.ackGeneration cpu ≥ generation then
      some (T, .go (.release generation true))
    else none
  | .release generation complete =>
    some ({ T with inFlight := false }, .returned complete generation)

def flushLocal (core : Core) : Tlb :=
  { T with flushed := Function.update T.flushed core T.clock }

def look (i : Nat) (core : Core) : Option Tlb :=
  if (T.services i).isNone = true ∧ T.pendingGeneration core > T.ackGeneration core then
    some { T with
      services := Function.update T.services i (some ⟨core,T.pendingGeneration core,false⟩) }
  else none

def serve (i : Nat) : Option Tlb :=
  match T.services i with
  | none => none
  | some ⟨core,wanted,false⟩ =>
    some { T.flushLocal core with
      services := Function.update T.services i (some ⟨core,wanted,true⟩) }
  | some ⟨core,wanted,true⟩ =>
    some { T with
      services := Function.update T.services i none
      ackGeneration :=
        Function.update T.ackGeneration core (max (T.ackGeneration core) wanted) }

structure Ok (T : Tlb) : Prop where
  pending_le : ∀ c, T.pendingGeneration c ≤ T.request
  ack_le : ∀ c, T.ackGeneration c ≤ T.request
  wanted_le : ∀ i v, T.services i = some v → v.wanted ≤ T.request
  began_mono : ∀ g g', g ≤ g' → g' ≤ T.request → T.began g ≤ T.began g'
  began_le : ∀ g ≤ T.request, T.began g ≤ T.clock
  flushed_le : ∀ c, T.flushed c ≤ T.clock
  /-- A core has flushed since the request that it acknowledges began. -/
  acked : ∀ c, T.began (T.ackGeneration c) ≤ T.flushed c
  served : ∀ i v, T.services i = some v → v.done = true → T.began v.wanted ≤ T.flushed v.core

/-- Time goes on: what has been flushed stays flushed, and a request keeps its beginning. -/
structure Le (T T' : Tlb) : Prop where
  request : T.request ≤ T'.request
  clock : T.clock ≤ T'.clock
  flushed : ∀ c, T.flushed c ≤ T'.flushed c
  began : ∀ g ≤ T.request, T'.began g = T.began g

variable {T T' : Tlb} {cpus : Nat} {me : Core}

theorem ok_new : new.Ok := by
  constructor <;> simp [new]

theorem Le.of_same (hrequest : T.request = T'.request) (hclock : T.clock = T'.clock)
    (hflushed : T.flushed = T'.flushed) (hbegan : T'.began = T.began) : T.Le T' :=
  ⟨Nat.le_of_eq hrequest,Nat.le_of_eq hclock,fun c => Nat.le_of_eq (congrFun hflushed c),
    fun g _ => congrFun hbegan g⟩

theorem Le.refl (T : Tlb) : T.Le T := .of_same rfl rfl rfl rfl

/-- What a shootdown of the core `me` has got to. -/
def StageOk (T : Tlb) (cpus : Nat) (me : Core) : Stage → Prop
  | .acquire | .number => True
  | .publish generation _ | .await generation => generation ≤ T.request
  | .release generation complete => generation ≤ T.request ∧
      (complete = true → ∀ c < cpus, c ≠ me → T.began generation ≤ T.flushed c)

variable {stage : Stage} {timeout : Bool} {i : Nat}

theorem StageOk.generation_le {g : Nat} (h : T.StageOk cpus me stage)
    (hg : stage.generation = some g) : g ≤ T.request := by
  cases stage with
  | acquire | number => cases hg
  | publish generation cpu | await generation =>
    cases hg
    exact h
  | release generation complete =>
    cases hg
    exact h.1

theorem StageOk.le (h : T.StageOk cpus me stage) (hle : T.Le T') : T'.StageOk cpus me stage := by
  cases stage with
  | acquire | number => trivial
  | publish generation cpu | await generation => exact Nat.le_trans h hle.request
  | release generation complete =>
    refine ⟨Nat.le_trans h.1 hle.request,fun hc c hcpu hme => ?_⟩
    rw [hle.began generation h.1]
    exact Nat.le_trans (h.2 hc c hcpu hme) (hle.flushed c)

variable (h : T.Ok)
include h

theorem Ok.tick : ({ T with clock := T.clock + 1 }).Ok ∧ T.Le { T with clock := T.clock + 1 } :=
  ⟨⟨h.pending_le,h.ack_le,h.wanted_le,h.began_mono,fun g hg => Nat.le_succ_of_le (h.began_le g hg),
    fun c => Nat.le_succ_of_le (h.flushed_le c),h.acked,
    h.served⟩,⟨Nat.le_refl _,Nat.le_succ _,fun _ => Nat.le_refl _,fun _ _ => rfl⟩⟩

theorem Ok.flushLocal (core : Core) : (T.flushLocal core).Ok ∧ T.Le (T.flushLocal core) := by
  have hle : ∀ c, T.flushed c ≤ (T.flushLocal core).flushed c :=
    (forall_update_iff T.flushed (p := fun c n => T.flushed c ≤ n)).mpr
      ⟨h.flushed_le core,fun c _ => Nat.le_refl (T.flushed c)⟩
  refine ⟨⟨h.pending_le,h.ack_le,h.wanted_le,h.began_mono,h.began_le,?_,
    fun c => Nat.le_trans (h.acked c) (hle c),
    fun i v hv hd => Nat.le_trans (h.served i v hv hd) (hle v.core)⟩,
    ⟨Nat.le_refl _,Nat.le_refl _,hle,fun _ _ => rfl⟩⟩
  exact (forall_update_iff T.flushed (p := fun _ n => n ≤ T.clock)).mpr
    ⟨Nat.le_refl T.clock,fun c _ => h.flushed_le c⟩

theorem Ok.setService (i : Nat) {o : Option Service}
    (hwanted : ∀ v, o = some v → v.wanted ≤ T.request)
    (hserved : ∀ v, o = some v → v.done → T.began v.wanted ≤ T.flushed v.core) :
    ({ T with services := Function.update T.services i o }).Ok where
  pending_le := h.pending_le
  ack_le := h.ack_le
  wanted_le := (forall_update_iff T.services
    (p := fun _ o => ∀ v, o = some v → v.wanted ≤ T.request)).mpr ⟨hwanted,fun j _ => h.wanted_le j⟩
  began_mono := h.began_mono
  began_le := h.began_le
  flushed_le := h.flushed_le
  acked := h.acked
  served := (forall_update_iff T.services (p := fun _ o => ∀ v, o = some v →
    v.done → T.began v.wanted ≤ T.flushed v.core)).mpr ⟨hserved,fun j _ => h.served j⟩

theorem Ok.look {core : Core} (hstep : T.look i core = some T') : T'.Ok ∧ T.Le T' := by
  simp only [Tlb.look,ite_none_right_eq_some,some.injEq] at hstep
  obtain ⟨-,rfl⟩ := hstep
  refine ⟨h.setService i ?_ ?_,.of_same rfl rfl rfl rfl⟩
  · rintro v ⟨⟩
    exact h.pending_le core
  · rintro v ⟨⟩ ⟨⟩

theorem Ok.serve (hstep : T.serve i = some T') : T'.Ok ∧ T.Le T' := by
  unfold Tlb.serve at hstep
  split at hstep
  · cases hstep
  · next core wanted hservice =>
    cases hstep
    have hwanted : wanted ≤ T.request := h.wanted_le i _ hservice
    obtain ⟨hok,hle⟩ := h.flushLocal core
    refine ⟨hok.setService i ?_ ?_,⟨hle.1,hle.2,hle.3,hle.4⟩⟩
    · rintro v ⟨⟩
      exact hwanted
    rintro v ⟨⟩ -
    dsimp only [Tlb.flushLocal]
    rw [update_self]
    exact h.began_le wanted hwanted
  · next core wanted hservice =>
    cases hstep
    have hwanted : wanted ≤ T.request := h.wanted_le i _ hservice
    have hserved : T.began wanted ≤ T.flushed core := h.served i _ hservice rfl
    have hok := h.setService i (o := none) (by rintro v ⟨⟩) (by rintro v ⟨⟩)
    refine ⟨⟨h.1,?_,hok.3,h.4,h.5,h.6,?_,hok.8⟩,.of_same rfl rfl rfl rfl⟩
    · exact (forall_update_iff T.ackGeneration (p := fun _ n => n ≤ T.request)).mpr
        ⟨Nat.max_le.mpr ⟨h.ack_le core,hwanted⟩,fun c _ => h.ack_le c⟩
    refine (forall_update_iff T.ackGeneration
      (p := fun c n => T.began n ≤ T.flushed c)).mpr ⟨?_,fun c _ => h.acked c⟩
    rcases Nat.le_total (T.ackGeneration core) wanted with hle | hle
    · rw [Nat.max_eq_right hle]
      exact hserved
    · rw [Nat.max_eq_left hle]
      exact h.acked core

theorem Ok.setRequest : (T.setRequest (T.request + 1)).Ok ∧
    T.Le (T.setRequest (T.request + 1)) := by
  have hbegan : ∀ g ≤ T.request, (T.setRequest (T.request + 1)).began g = T.began g := by
    intro g hg
    exact update_of_ne (by omega) _ T.began
  have hnew : (T.setRequest (T.request + 1)).began (T.request + 1) = T.clock :=
    update_self _ _ T.began
  refine ⟨⟨fun c => Nat.le_succ_of_le (h.pending_le c),fun c => Nat.le_succ_of_le (h.ack_le c),
    fun i v hv => Nat.le_succ_of_le (h.wanted_le i v hv),fun g g' hg hg' => ?_,fun g hg => ?_,
    h.flushed_le,fun c => ?_,fun i v hv hd => ?_⟩,
    ⟨Nat.le_succ _,Nat.le_refl _,fun _ => Nat.le_refl _,hbegan⟩⟩
  · change g' ≤ T.request + 1 at hg'
    by_cases hlast : g' = T.request + 1
    · subst hlast
      rw [hnew]
      by_cases hg'' : g = T.request + 1
      · exact Nat.le_of_eq (by rw [hg'',hnew])
      · rw [hbegan g (by omega)]
        exact h.began_le g (by omega)
    · rw [hbegan g (by omega),hbegan g' (by omega)]
      exact h.began_mono g g' hg (by omega)
  · change g ≤ T.request + 1 at hg
    by_cases hlast : g = T.request + 1
    · rw [hlast,hnew]
      exact Nat.le_refl _
    · rw [hbegan g (by omega)]
      exact h.began_le g (by omega)
  · change (T.setRequest (T.request + 1)).began (T.ackGeneration c) ≤ T.flushed c
    rw [hbegan _ (h.ack_le c)]
    exact h.acked c
  · rw [hbegan _ (h.wanted_le i v hv)]
    exact h.served i v hv hd

theorem Ok.shoot {out : Outcome} (hstage : T.StageOk cpus me stage)
    (hstep : T.shoot cpus me timeout stage = some (T', out)) :
    T'.Ok ∧ T.Le T' ∧ match out with
      | .go stage' => T'.StageOk cpus me stage' ∧ ∀ g, stage'.generation = some g →
          stage.generation = some g ∨ T'.began g = T.clock
      | .returned complete generation => stage = .release generation complete := by
  cases stage with
  | acquire =>
    simp only [Tlb.shoot,ite_none_left_eq_some,some.injEq] at hstep
    obtain ⟨-,rfl,rfl⟩ := hstep
    exact ⟨⟨h.1,h.2,h.3,h.4,h.5,h.6,h.7,h.8⟩,.of_same rfl rfl rfl rfl,trivial,fun g hg => .inl hg⟩
  | number =>
    simp only [Tlb.shoot,ite_none_right_eq_some,some.injEq] at hstep
    obtain ⟨-,rfl,rfl⟩ := hstep
    obtain ⟨hok,hle⟩ := h.setRequest
    refine ⟨hok,hle,Nat.le_refl _,fun g hg => .inr ?_⟩
    cases hg
    exact update_self _ _ T.began
  | publish generation cpu =>
    simp only [Tlb.shoot] at hstep
    split at hstep
    · obtain ⟨rfl,rfl⟩ := hstep
      refine ⟨⟨?_,h.2,h.3,h.4,h.5,h.6,h.7,h.8⟩,.of_same rfl rfl rfl rfl,hstage,fun g hg => .inl hg⟩
      split
      · exact h.pending_le
      · exact (forall_update_iff T.pendingGeneration (p := fun _ n => n ≤ T.request)).mpr
          ⟨hstage,fun c _ => h.pending_le c⟩
    · obtain ⟨rfl,rfl⟩ := hstep
      exact ⟨h,.refl T,hstage,fun g hg => .inl hg⟩
  | await generation =>
    simp only [Tlb.shoot] at hstep
    split at hstep
    · obtain ⟨rfl,rfl⟩ := hstep
      exact ⟨h,.refl T,⟨hstage,fun hc => (by cases hc)⟩,fun g hg => .inl hg⟩
    simp only [ite_none_right_eq_some,some.injEq] at hstep
    obtain ⟨hall,rfl,rfl⟩ := hstep
    refine ⟨h,.refl T,⟨hstage,fun _ c hc hme => ?_⟩,fun g hg => .inl hg⟩
    calc T.began generation
        ≤ T.began (T.ackGeneration c) := h.began_mono _ _ (hall c hc hme) (h.ack_le c)
      _ ≤ T.flushed c := h.acked c
  | release generation complete =>
    obtain ⟨rfl,rfl⟩ := hstep
    exact ⟨⟨h.1,h.2,h.3,h.4,h.5,h.6,h.7,h.8⟩,.of_same rfl rfl rfl rfl,rfl⟩

end Tlb

end LiberSystem.Shootdown
