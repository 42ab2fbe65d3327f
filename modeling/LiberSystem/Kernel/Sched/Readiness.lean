import LiberSystem.Kernel.Sched.Atoms
import LiberSystem.Kernel.Sched.Wakes

/-!
# No readiness wake is lost

A thread that waits for channel endpoints and events, past its re-check: as soon as one of them is
ready in the sense it is waited on, a wake of that object is in progress.
-/

namespace LiberSystem.Sched

open Atom Check

variable {D : Type} {lay : Layout} {Q : Quota D} {s₀ s : State (Shared D) (Point D)} {a : Atom}

namespace Atom

/-- The atom, as what a waiter of its own object waits for. -/
def fact (lay : Layout) (a : Atom) : Fact (Shared D) := ⟨a.src,a.src,a.Holds lay⟩

def Direct : Atom → Prop
  | .finished _ _ => False
  | _ => True

theorem Direct.covered {ω : Shared D} {op : Op} (h : a.Direct) : a.Covered lay ω op := by
  cases a <;> first | exact h.elim | trivial

end Atom

def directFacts (lay : Layout) (k : Koid) : Set (Fact (Shared D)) :=
  {f | ∃ a : Atom, a.Direct ∧ a.src = k ∧ f = a.fact lay}

theorem covers_directFacts (k : Koid) (goal : Park (Shared D) × Point D → Shared D → Prop) :
    Covers (kernel lay Q) ⟨Shared.EndpointsInv,directFacts lay k,goal⟩ fun _ _ _ => True where
  inv hinv h := hinv.perform h
  wakes := by
    rintro op ω ω' ws hinv h f ⟨a,hdirect,-,rfl⟩ - hholds
    obtain hwas | hwake := becomes_of_perform hinv h hdirect.covered hholds
    · exact .inl ⟨hwas,fun _ => .inl rfl⟩
    · exact .inr ⟨.inl rfl,hwake⟩

def Atom.Readies (lay : Layout) (writable : Bool) : Atom → Prop
  | .nonempty k => lay.kind k = .channel ∧ writable = false
  | .room k => lay.kind k = .channel ∧ writable = true
  | .peerClosed k => lay.kind k = .channel
  | .signaled k => lay.kind k = .event
  | .killed p | .exited p => lay.kind p = .process
  | .finished g _ => lay.kind g = .processGroup
  | .unstopped _ | .unfrozen _ => False

section

variable {k : Koid} {writable : Bool}

theorem exists_ending {process : Process} (h : process.gone ∨ process.killed ∨ process.exited) :
    ∃ ending : Ending, ending.Of process := by
  by_cases hkilled : process.killed
  · exact ⟨.killed,hkilled⟩
  by_cases hexited : process.exited
  · exact ⟨.exited,hexited⟩
  · obtain hgone | hterminated := h
    · exact ⟨.dropped,hgone,by simp [Process.isTerminated,hkilled,hexited]⟩
    · exact absurd hterminated (by simp [hkilled,hexited])

variable {ω : Shared D}

theorem holds_of_eval (hlive : ω.live lay k) (hready : (objectReadyFor lay k writable).eval ω) :
    ∃ a : Atom, a.Readies lay writable ∧ a.src = k ∧ a.Holds lay ω := by
  unfold objectReadyFor at hready
  unfold Shared.live at hlive
  generalize hkind : lay.kind k = kind at hready hlive
  cases kind with
  | channel =>
    cases writable with
    | true =>
      simp only [if_true,isWritable,eval_orElse,eval_test,Bool.or_eq_true,
        Bool.not_eq_true',decide_eq_true_eq] at hready
      obtain hclosed | hroom := hready
      · exact ⟨.peerClosed k,hkind,rfl,hlive,hclosed⟩
      · exact ⟨.room k,⟨hkind,rfl⟩,rfl,hlive,hroom⟩
    | false =>
      simp only [Bool.false_eq_true,if_false,isReadable,eval_orElse,eval_test,
        Bool.or_eq_true,Bool.not_eq_true',List.isEmpty_eq_false_iff] at hready
      obtain hnonempty | hclosed := hready
      · exact ⟨.nonempty k,⟨hkind,rfl⟩,rfl,hnonempty⟩
      · exact ⟨.peerClosed k,hkind,rfl,hlive,hclosed⟩
  | event =>
    exact ⟨.signaled k,hkind,rfl,hready⟩
  | process =>
    simp only [isTerminated,eval_orElse,eval_test,Bool.or_eq_true] at hready
    obtain hkilled | hexited := hready
    · exact ⟨.killed k,hkind,rfl,hkilled⟩
    · exact ⟨.exited k,hkind,rfl,hexited⟩
  | processGroup =>
    simp only [finished,eval_all,List.all_map,List.all_eq_true,Function.comp_apply,
      isTerminated,eval_orElse,eval_test,Bool.or_eq_true] at hready
    have hending p : ∃ ending : Ending, p ∈ lay.members k → ending.Of (ω.processes p) := by
      by_cases hp : p ∈ lay.members k
      · obtain ⟨ending,hof⟩ := exists_ending (hready p hp)
        exact ⟨ending,fun _ => hof⟩
      · exact ⟨.killed,fun h => absurd h hp⟩
    choose ending hof using hending
    exact ⟨.finished k ending,hkind,rfl,of_decide_eq_true hlive,hof⟩
  | waitSet | other =>
    cases hready

theorem eval_of_holds (ha : a.Readies lay writable)
    (h : a.Holds lay ω) : (objectReadyFor lay a.src writable).eval ω := by
  cases a with
  | nonempty k =>
    obtain ⟨hkind,rfl⟩ := ha
    have hne : (ω.endpoints k).channel.inbox ≠ [] := h
    simp [objectReadyFor,src,hkind,isReadable,hne]
  | peerClosed k =>
    have hkind : lay.kind k = .channel := ha
    have hclosed : (ω.endpoints (lay.peer k)).alive = false := h.2
    cases writable <;> simp [objectReadyFor,src,hkind,isReadable,isWritable,hclosed]
  | room k =>
    obtain ⟨hkind,rfl⟩ := ha
    simp [objectReadyFor,src,hkind,isWritable,h.2]
  | signaled k =>
    have hkind : lay.kind k = .event := ha
    have hsignaled : ω.signaled k := h
    simp [objectReadyFor,src,hkind,hsignaled]
  | killed p | exited p =>
    have hkind : lay.kind p = .process := ha
    simp only [Holds] at h
    simp [objectReadyFor,src,hkind,isTerminated,h]
  | finished g ending =>
    have hkind : lay.kind g = .processGroup := ha
    simp only [objectReadyFor,src,hkind,finished,isTerminated,eval_all,List.all_map,
      List.all_eq_true,Function.comp_apply,eval_orElse,eval_test,Bool.or_eq_true]
    intro p hp
    have hof := h.2 p hp
    generalize ending p = how at hof
    cases how with
    | dropped => exact .inl hof.1
    | killed => exact .inr (.inl hof)
    | exited => exact .inr (.inr hof)
  | unstopped p | unfrozen p => exact ha.elim

variable {inv : Shared D → Prop} {facts seen : Set (Fact (Shared D))} (as : Atom → Fact (Shared D))

/-- A readiness test that says no has seen every atom of the object false. The facts `as` may
ask for more than the atoms do. -/
theorem refutes_objectReadyFor (has : ∀ a ω, (as a).holds ω → a.Holds lay ω)
    (hfacts : ∀ a : Atom, a.Readies lay writable → a.src = k → as a ∈ facts) :
    (objectReadyFor lay k writable).Refutes inv Fact.holds facts
      (fun ω => ∃ a : Atom, a.Readies lay writable ∧ a.src = k ∧ (as a).holds ω) seen := by
  have hone {a : Atom} hreadies (hsrc : a.src = k) {c : Shared D → Bool}
      (hc : ∀ ω, a.Holds lay ω → c ω) {seen : Set (Fact (Shared D))} :
      (test c).Refutes inv Fact.holds facts (fun ω => (as a).holds ω) seen :=
    .test (hfacts a hreadies hsrc) (fun ω _ h => hc ω (has a ω h)) fun _ _ h => h
  unfold objectReadyFor
  cases hkind : lay.kind k with
  | channel =>
    cases writable with
    | true =>
      refine ((hone (a := .peerClosed k) hkind rfl ?_).orElse
        (hone (a := .room k) ⟨hkind,rfl⟩ rfl ?_)).imp ?_
      · exact fun ω h => by simp [h.2]
      · exact fun ω h => by simpa using h.2
      · rintro ω - ⟨a,hreadies,hsrc,h⟩
        clear hone hfacts has
        cases a <;> simp_all [Readies,src]
    | false =>
      refine ((hone (a := .nonempty k) ⟨hkind,rfl⟩ rfl ?_).orElse
        (hone (a := .peerClosed k) hkind rfl ?_)).imp ?_
      · exact fun ω h => by simpa [Holds] using h
      · exact fun ω h => by simp [h.2]
      · rintro ω - ⟨a,hreadies,hsrc,h⟩
        clear hone hfacts has
        cases a <;> simp_all [Readies,src]
  | event =>
    refine (hone (a := .signaled k) hkind rfl fun _ h => h).imp ?_
    rintro ω - ⟨a,hreadies,hsrc,h⟩
    clear hone hfacts has
    cases a <;> simp_all [Readies,src]
  | process =>
    refine ((hone (a := .killed k) hkind rfl fun _ h => h).orElse
      (hone (a := .exited k) hkind rfl fun _ h => h)).imp ?_
    rintro ω - ⟨a,hreadies,hsrc,h⟩
    clear hone hfacts has
    cases a <;> simp_all [Readies,src]
  | processGroup =>
    -- the member that answers no rules out every way in which the group could have finished
    have hmember p (hp : p ∈ lay.members k) (way : Ending) {c : Shared D → Bool}
        (hc : ∀ ω, way.Of (ω.processes p) → c ω) {seen : Set (Fact (Shared D))} :
        (test c).Refutes inv Fact.holds facts
          (fun ω => ∃ ending, ending p = way ∧ (as (.finished k ending)).holds ω) seen := by
      refine .tests {f | ∃ ending, ending p = way ∧ f = as (.finished k ending)} ?_ ?_ ?_
      · rintro _ ⟨ending,-,rfl⟩
        exact hfacts _ hkind rfl
      · rintro _ ⟨ending,rfl,rfl⟩ ω _ h
        exact hc ω ((has _ ω h).2 p hp)
      · rintro ω - ⟨ending,hway,h⟩
        exact ⟨_,⟨ending,hway,rfl⟩,h⟩
    refine (Refutes.all (g := fun _ ω => ∃ ending, (as (.finished k ending)).holds ω)
      fun p hp => ?_).imp ?_
    · refine ((hmember p hp .dropped fun _ h => h.1).orElse
        ((hmember p hp .killed fun _ h => h).orElse (hmember p hp .exited fun _ h => h))).imp ?_
      rintro ω - ⟨ending,h⟩
      cases hway : ending p with
      | dropped => exact .inl ⟨ending,hway,h⟩
      | killed => exact .inr (.inl ⟨ending,hway,h⟩)
      | exited => exact .inr (.inr ⟨ending,hway,h⟩)
    · rintro ω - ⟨a,hreadies,hsrc,h⟩ p -
      cases a with
      | finished g ending =>
        obtain rfl : g = k := hsrc
        exact ⟨ending,h⟩
      | _ => simp_all [Readies,src]
  | _ =>
    refine .of_seen ?_
    rintro ω - ⟨a,hreadies,hsrc,h⟩
    clear hone hfacts has
    cases a <;> simp_all [Readies,src]

end

/-- An endpoint or an event that is ready, and that somebody still holds. -/
def ReadyFor (lay : Layout) (ω : Shared D) (k : Koid) (writable : Bool) : Prop :=
  (lay.kind k = .channel ∨ lay.kind k = .event) ∧ ω.live lay k = true ∧
    (objectReadyFor lay k writable).eval ω = true

def readiness (lay : Layout) (k : Koid) : Watch (Shared D) (Point D) where
  inv := Shared.EndpointsInv
  facts := directFacts lay k
  goal pl ω :=
    match pl.2 with
    | .top .unready (.objects os _ _ _ _) => ∃ o ∈ os, o.1 = k ∧ ReadyFor lay ω o.1 o.2
    | _ => False

theorem refutes_readiness {k : Koid} {me : Koid} {p : Park (Shared D)} {l : Point D}
    (hparks : l.Parks lay me p) {seen : Set (Fact (Shared D))} :
    (readiness lay k).Refutes (p, l) p.ready seen := by
  unfold Watch.Refutes readiness
  dsimp only
  split
  · next os koids any deadline mem =>
    obtain rfl : p = _ := hparks
    refine Refutes.any fun o ho => ?_
    by_cases hk : o.1 = k ∧ (lay.kind k = .channel ∨ lay.kind k = .event)
    · obtain ⟨rfl,hkind⟩ := hk
      have hfacts (a : Atom) (hreadies : a.Readies lay o.2) (hsrc : a.src = o.1) :
          a.fact lay ∈ (readiness (D := D) lay o.1).watched
            ((Wait.objects os koids any deadline mem).park lay) := by
        refine ⟨⟨a,?_,hsrc,rfl⟩,?_⟩
        · cases a with
          | finished g ending =>
            obtain rfl : g = o.1 := hsrc
            simp_all [Readies]
          | _ => trivial
        · rw [show (a.fact lay).tgt = o.1 from hsrc]
          exact mem o ho
      refine (refutes_objectReadyFor (fun a => a.fact lay) (fun a ω h => h) hfacts).imp ?_
      rintro ω - ⟨-,-,hlive,hready⟩
      exact holds_of_eval hlive hready
    · refine .of_seen ?_
      rintro ω - ⟨rfl,hkind,-⟩
      exact absurd ⟨rfl,hkind⟩ hk
  · exact .of_seen fun ω _ h => h.elim

theorem readiness_holds (h0 : Start s₀) (hinv : s₀.objects.EndpointsInv)
    (hrun : Reaches (step (kernel lay Q)) (fun _ _ => True) s₀ s) (k : Koid) :
    (readiness lay k).Holds (kernel lay Q) s := by
  refine Watch.holds_of_reaches (covers_directFacts k _) h0 hinv (fun s e hreach _ _ => ?_) hrun
  cases e with
  | park c room =>
    intro t p l _ hpc
    have hparks := forall_parks (fun t p l => l.Parks lay (lay.process t) p) h0
      (fun t l x ω p l' hmove => Point.parks_of_move hmove) hreach t p l (by rw [hpc]; rfl)
    exact refutes_readiness hparks
  | act => exact fun _ _ _ => trivial
  | _ => trivial

def Pc.awaited : Pc (Shared D) (Point D) → List (Koid × Bool)
  | .recheck _ (.top .unready (.objects os _ _ _ _)) (.done false) => os
  | .switch _ (.top .unready (.objects os _ _ _ _)) => os
  | .parked _ (.top .unready (.objects os _ _ _ _)) => os
  | _ => []

theorem remaining_of_awaited {pc : Pc (Shared D) (Point D)} {o : Koid × Bool}
    (h : o ∈ pc.awaited) : ∃ p os koids any deadline mem,
      pc.remaining = some ((p, .top .unready (.objects os koids any deadline mem)), .done false) ∧
        o ∈ os := by
  unfold Pc.awaited at h
  split at h
  · exact ⟨_,_,_,_,_,_,rfl,h⟩
  · exact ⟨_,_,_,_,_,_,rfl,h⟩
  · exact ⟨_,_,_,_,_,_,rfl,h⟩
  · cases h

/-- A thread is Blocked past its re-check and an endpoint or event that it waits for is ready:
then a wake of that object is in progress. -/
theorem waking_of_ready (h0 : Start s₀) (hinv : s₀.objects.EndpointsInv)
    (hrun : Reaches (step (kernel lay Q)) (fun _ _ => True) s₀ s) {t : ThreadId} {k : Koid}
    {writable : Bool} (hblocked : (s.threads t).state = .blocked)
    (hawaited : (k, writable) ∈ (s.threads t).pc.awaited)
    (hready : ReadyFor lay s.objects k writable) : s.Waking k := by
  obtain ⟨p,os,koids,any,deadline,mem,hpast,ho⟩ := remaining_of_awaited hawaited
  obtain ⟨f,⟨⟨a,-,rfl,rfl⟩,-⟩,-,hpending⟩ :=
    (readiness_holds h0 hinv hrun k).pending_of_goal hblocked hpast ⟨_,ho,rfl,hready⟩
  exact (pending_iff_waking rfl).mp hpending

open Sched.Small in
/-- Thread 0 waits for the event 3, which is signalled once it has parked. -/
theorem waking_of_signal : ∃ s, Reaches (step (kernel layout quota)) (fun _ _ => True) start s ∧
    (s.threads 0).state = .blocked ∧ (3, false) ∈ (s.threads 0).pc.awaited ∧
    ReadyFor layout s.objects 3 false ∧ s.Waking 3 := by
  refine exists_reaches_imp (P := fun s => (s.threads 0).state = .blocked ∧
      (3, false) ∈ (s.threads 0).pc.awaited ∧ s.objects.signaled 3 = true)
    (enter (.wait 3 false none) ++ go 5 ++ parks 8 ++ [.block 0,.act 0 (.signal 3)])
    (by decide +kernel) fun s hreach ⟨hstate,hin,hsignaled⟩ => ?_
  have hready : ReadyFor layout s.objects 3 false := ⟨.inr rfl,rfl,hsignaled⟩
  exact ⟨hstate,hin,hready,
    waking_of_ready start_start (fun k _ => .new 4) hreach hstate hin hready⟩

end LiberSystem.Sched
