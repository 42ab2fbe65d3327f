import LiberSystem.Kernel.Sched.Readiness

/-!
# Continue, thaw and kill

A thread of a stopped or frozen process parks on the koid of the process, at five places. Three do
not re-check, so a continue between the test and the registration is lost; a kill wakes no thread
that is between the two.
-/

namespace LiberSystem.Sched

open State Shared Pc

variable {D : Type} {lay : Layout} {Q : Quota D} {s₀ s s' : State (Shared D) (Point D)}

namespace Point

def ofHold : Point D → Bool
  | .top .held _ | .isFrozen | .ticked _ => true
  | _ => false

def rechecks : Point D → Bool
  | .top .held _ => false
  | _ => true

end Point

/-- The thread is past its re-check in a park that leads to such a place. -/
def Pc.parkedFor (sites : Point D → Bool) : Pc (Shared D) (Point D) → Bool
  | .recheck _ l (.done false) | .switch _ l | .parked _ l => sites l
  | _ => false

variable {sites : Point D → Bool} {l : Point D} {t : ThreadId} {e : Event Op Choice} {p : Koid}
  {ω : Shared D}

theorem remaining_of_parkedFor {pc : Pc (Shared D) (Point D)} (h : pc.parkedFor sites) : ∃ p l,
      pc.remaining = some ((p, l), .done false) ∧ pc.park = some (p, l) ∧ sites l := by
  unfold parkedFor at h
  split at h
  case h_4 => cases h
  all_goals exact ⟨_,_,rfl,rfl,h⟩

/-- The watch of the process `p` for the parks that lead to some of these places. -/
def resumption (lay : Layout) (sites : Point D → Bool) (p : Koid) :
    Watch (Shared D) (Point D) where
  inv := Shared.EndpointsInv
  facts := directFacts lay p
  goal pl ω := (sites pl.2 = true ∧ pl.2.ofHold = true) ∧ pl.1.koids = [p] ∧
    (ω.processes p).isHeld = false

theorem Process.isHeld_eq_false {process : Process} :
    process.isHeld = false ↔ process.stopped = false ∧ process.frozen = false := by
  simp [Process.isHeld]

/-- A park decides whether the process is held: by its re-check, or because the process is held
or about to be woken when the thread has registered. -/
theorem refutes_resumption {me : Koid} {park : Park (Shared D)} (hparks : l.Parks lay me park)
    (hheld : sites l → l.rechecks = false → (s.objects.processes me).isHeld ∨ s.Waking me) :
    (resumption lay sites p).Refutes (park, l) park.ready
      ((resumption lay sites p).unmissed (kernel lay Q) park s) := by
  by_cases hsite : sites l ∧ l.ofHold ∧ park.koids = [p]
  case neg => exact .of_seen fun ω' _ hgoal => absurd ⟨hgoal.1.1,hgoal.1.2,hgoal.2.1⟩ hsite
  obtain ⟨hsite,hof,hkoids⟩ := hsite
  have hfact (a : Atom) (ha : a.Direct) (hsrc : a.src = p) :
      a.fact lay ∈ (resumption lay sites p).watched park := by
    refine ⟨⟨a,ha,hsrc,rfl⟩,?_⟩
    rw [hkoids]
    exact List.mem_singleton.mpr hsrc
  have hunstopped := hfact (.unstopped p) trivial rfl
  have hunfrozen := hfact (.unfrozen p) trivial rfl
  cases l with
  | top why w =>
    cases why with
    | held =>
      obtain rfl : park = heldPark me := hparks
      obtain rfl : me = p := List.singleton_inj.mp hkoids
      intro ω' _ hgoal
      have hnow := Process.isHeld_eq_false.mp hgoal.2.2
      rcases hheld hsite rfl with hheld | hwaking
      · rcases Bool.or_eq_true_iff.mp hheld with hstopped | hfrozen
        · exact ⟨_,⟨hunstopped,fun h => by cases hstopped.symm.trans h⟩,hnow.1⟩
        · exact ⟨_,⟨hunfrozen,fun h => by cases hfrozen.symm.trans h⟩,hnow.2⟩
      · exact ⟨_,⟨hunstopped,fun _ => (pending_iff_waking rfl).mpr hwaking⟩,hnow.1⟩
    | _ => cases hof
  | isFrozen =>
    obtain rfl : park = frozenPark me := hparks
    obtain rfl : me = p := List.singleton_inj.mp hkoids
    refine ((Check.Refutes.test hunfrozen ?_ fun _ _ h => h).orElse
      (Check.Refutes.test (hfact (.killed me) trivial rfl) (fun _ _ h => h) fun _ _ h => h)).imp ?_
    · intro ω' _ h
      simpa [Atom.fact,Atom.Holds] using h
    · exact fun ω' _ hgoal => .inl (Process.isHeld_eq_false.mp hgoal.2.2).2
  | ticked again =>
    obtain rfl : park = preemptPark me := hparks
    obtain rfl : me = p := List.singleton_inj.mp hkoids
    refine (Check.Refutes.test hunstopped ?_ ?_).andThen (Check.Refutes.test hunfrozen ?_ ?_)
    · intro ω' _ h
      simpa [Atom.fact,Atom.Holds] using h
    · exact fun ω' _ hgoal => (Process.isHeld_eq_false.mp hgoal.2.2).1
    · intro ω' _ h
      simpa [Atom.fact,Atom.Holds] using h
    · exact fun ω' _ hgoal => (Process.isHeld_eq_false.mp hgoal.2.2).2
  | _ => cases hof

/-- When a thread in one of these places has registered in a park that does not re-check, its
process is held or about to be woken. -/
def heldOnRegistering (lay : Layout) (sites : Point D → Bool) (s : State (Shared D) (Point D)) :
    Event Op Choice → Prop
  | .park c _ => ∀ t p l, s.running c = some t → (s.threads t).pc = .register p l [] →
      sites l = true → l.rechecks = false →
      (s.objects.processes (lay.process t)).isHeld = true ∨ s.Waking (lay.process t)
  | _ => True

theorem parks_of_reaches {ok : State (Shared D) (Point D) → Event Op Choice → Prop}
    (h0 : Start s₀) (hrun : Reaches (step (kernel lay Q)) ok s₀ s)
    {p : Park (Shared D)} (hpark : (s.threads t).pc.park = some (p, l)) :
    l.Parks lay (lay.process t) p :=
  forall_parks (fun t p l => l.Parks lay (lay.process t) p) h0
    (fun _ _ _ _ _ _ hmove => Point.parks_of_move hmove) hrun t p l hpark

theorem waking_of_unheld (h0 : Start s₀) (hinv : s₀.objects.EndpointsInv)
    (hrun : Reaches (step (kernel lay Q)) (heldOnRegistering lay sites) s₀ s)
    (hblocked : (s.threads t).state = .blocked)
    (hparked : (s.threads t).pc.parkedFor (fun l => sites l && l.ofHold))
    (hheld : (s.objects.processes (lay.process t)).isHeld = false) :
    s.Waking (lay.process t) := by
  have hholds : (resumption lay sites (lay.process t)).Holds (kernel lay Q) s := by
    refine Watch.holds_of_reaches (covers_directFacts _ _) h0 hinv (fun s e hreach _ hok => ?_) hrun
    cases e with
    | park c room =>
      intro t' p l hrunning hpc
      exact refutes_resumption (parks_of_reaches h0 hreach (by rw [hpc]; rfl))
        (hok t' p l hrunning hpc)
    | act => exact fun _ _ _ => trivial
    | _ => trivial
  obtain ⟨p,l,hpast,hpark,hsite⟩ := remaining_of_parkedFor hparked
  rw [Bool.and_eq_true] at hsite
  have hkoids : p.koids = [lay.process t] := by
    have hparks := parks_of_reaches h0 hrun hpark
    have hof := hsite.2
    unfold Point.ofHold at hof
    split at hof
    case h_4 => cases hof
    all_goals
      obtain rfl : p = _ := hparks
      rfl
  obtain ⟨f,⟨⟨a,-,hsrc,rfl⟩,-⟩,-,hpending⟩ :=
    hholds.pending_of_goal hblocked hpast ⟨hsite,hkoids,hheld⟩
  rw [← hsrc]
  exact (pending_iff_waking rfl).mp hpending

/-- A thread is Blocked in a park taken because its process was held, and the process is not:
then a continue or a thaw is in progress. At the two places that re-check this holds in every
run; at the waits it holds if the process is held, or about to be woken, whenever a thread has
registered there. -/
theorem resumption_pending (h0 : Start s₀) (hinv : s₀.objects.EndpointsInv) :
    (∀ s, Reaches (step (kernel lay Q)) (heldOnRegistering lay fun _ => true) s₀ s →
      ∀ t, (s.threads t).state = .blocked → (s.threads t).pc.parkedFor Point.ofHold = true →
        (s.objects.processes (lay.process t)).isHeld = false → s.Waking (lay.process t)) ∧
    ∀ s, Reaches (step (kernel lay Q)) (fun _ _ => True) s₀ s →
      ∀ t, (s.threads t).state = .blocked →
        (s.threads t).pc.parkedFor (fun l => l.rechecks && l.ofHold) = true →
        (s.objects.processes (lay.process t)).isHeld = false → s.Waking (lay.process t) := by
  refine ⟨fun s hrun t hblocked hparked hheld => ?_,fun s hrun t hblocked hparked hheld => ?_⟩
  · exact waking_of_unheld h0 hinv hrun hblocked (by simpa using hparked) hheld
  refine waking_of_unheld h0 hinv (hrun.mono fun s e _ => ?_) hblocked hparked hheld
  cases e with
  | park c room => exact fun t p l _ _ hsite hno => by cases hsite.symm.trans hno
  | _ => trivial

namespace Small

def stopping : List (Event Op Choice) :=
  enter (.wait 3 false none) ++ [.act 0 (.sigStop 1000),.wake 0] ++ go 2

def continued : List (Event Op Choice) :=
  stopping ++ parks 7 ++ [.block 0,.act 0 (.sigCont 1000)]

def overtaken : List (Event Op Choice) :=
  stopping ++ [.act 0 (.sigCont 1000),.wake 0,.wake 0] ++ parks 7 ++ [.block 0,.save 0]

def parksHeld (lay : Layout) (s : State (Shared D) (Point D)) : Event Op Choice → Bool
  | .park c _ => (s.running c).all fun t => (s.objects.processes (lay.process t)).isHeld
  | _ => true

theorem held_of_parksHeld (h : parksHeld lay s e) : heldOnRegistering lay sites s e := by
  cases e with
  | park c room => exact fun t p l hrun _ _ _ => .inl (by simpa [parksHeld,hrun] using h)
  | _ => trivial

end Small

open Sched.Small in
theorem resumption_pending_continued : ∃ s,
    Reaches (step (kernel layout quota)) (heldOnRegistering layout fun _ => true) start s ∧
    (s.threads 0).state = .blocked ∧ (s.threads 0).pc.parkedFor Point.ofHold = true ∧
    (s.objects.processes 1000).isHeld = false ∧ s.Waking 1000 := by
  obtain ⟨s,hrun,hstate,hparked,hheld⟩ : ∃ s, Reaches (step (kernel layout quota))
      (fun s e => parksHeld layout s e) start s ∧ (s.threads 0).state = .blocked ∧
      (s.threads 0).pc.parkedFor Point.ofHold = true ∧ (s.objects.processes 1000).isHeld = false :=
    exists_reaches continued (by decide +kernel)
  have hreach : Reaches _ (heldOnRegistering layout fun _ => true) start s :=
    hrun.mono fun s e => held_of_parksHeld
  exact ⟨s,hreach,hstate,hparked,hheld,
    (resumption_pending start_start fun k _ => .new 4).1 s hreach 0 hstate hparked hheld⟩

open Sched.Small in
/-- A wait tests the flag and parks without a re-check: the continue that comes in between
wakes nobody, and the thread sleeps in a process that runs. -/
theorem continue_lost : ∃ s, Reaches (step (kernel layout quota)) (fun _ _ => True) start s ∧
    (s.threads 0).state = .blocked ∧ (s.threads 0).pc.parkedFor Point.ofHold = true ∧
    (s.objects.processes 1000).isHeld = false ∧ s.Quiescent := by
  obtain ⟨s,hs,hstate,hparked,hheld,hidle⟩ := exists_of_any
    (o := runList (step (kernel layout quota)) start overtaken)
    (P := fun s => (s.threads 0).state = .blocked ∧ (s.threads 0).pc.parkedFor Point.ofHold = true ∧
      (s.objects.processes 1000).isHeld = false ∧ (s.wakers 0).todo = [] ∧ (s.wakers 0).batch = [])
    (by decide +kernel)
  refine ⟨s,reaches_of_runList hs fun _ _ _ => trivial,hstate,hparked,hheld,?_⟩
  exact quiescent_of_runList (fun _ => ⟨rfl,rfl⟩) hs (by decide) hidle

namespace Point

def tested : Point D → Bool
  | .stopped _ | .frozen _ | .scan _ _ => true
  | _ => false

def isTop : Point D → Bool
  | .top _ _ => true
  | _ => false

variable {me : Koid} {ω : Shared D} {x : Choice} {p : Park (Shared D)} {l l' : Point D}

theorem tested_of_goto (h : l.move lay me ω x = some (.goto l')) (ht : l'.tested) :
    l.tested ∨ (ω.processes me).killed = false := by
  unfold Point.move at h
  split at h
  case h_6 =>
    cases h
    split at ht
    · cases ht
    · next halive => exact .inr (by simpa using halive)
  all_goals (try split at h) <;> cases h <;> first | exact .inl rfl | cases ht

theorem tested_of_block (h : l.move lay me ω x = some (.block p l')) (ht : l'.isTop) :
    l.tested := by
  unfold Point.move at h
  split at h <;> (try split at h) <;> cases h <;> first | rfl | cases ht

theorem tested_of_parks (h : l.Parks lay me p) : l.tested = false := by
  cases l <;> first | rfl | exact h.elim

end Point

/-- The thread has tested `is_killed` in a wait, and is not yet Blocked. -/
def Pc.unseen : Pc (Shared D) (Point D) → Bool
  | .run l => l.tested
  | .reserve _ l | .arm _ l | .mark _ l => l.isTop
  | _ => false

def Pc.inWait (pc : Pc (Shared D) (Point D)) : Bool :=
  match pc.park with
  | some (_, l) => l.isTop
  | none => false

/-- The thread goes on to sleep, or sleeps, without another test of `is_killed`. -/
def Thread.Exposed (th : Thread (Shared D) (Point D)) : Prop :=
  th.pc.unseen = true ∨ th.state = .blocked ∧ th.pc.inWait = true

instance (th : Thread (Shared D) (Point D)) : Decidable th.Exposed :=
  inferInstanceAs (Decidable (_ ∨ _))

theorem ParkStep.exposed {room : Bool} (h : State.ParkStep s t room s')
    (hreturn : ∀ p l, (s.threads t).pc.park = some (p, l) → l.tested = false)
    (hexposed : (s'.threads t).Exposed) : (s.threads t).Exposed := by
  unfold Thread.Exposed at *
  cases h <;>
    grind [goto,setState,forget,unseen,inWait,park]

/-- A thread becomes exposed only by a test of `is_killed`. -/
theorem exposed_of_step (h : step (kernel lay Q) s e = some s')
    (hparks : ∀ p l, (s.threads t).pc.park = some (p, l) → l.tested = false)
    (hexposed : (s'.threads t).Exposed) :
    (s.threads t).Exposed ∨
      s'.objects = s.objects ∧ (s.objects.processes (lay.process t)).killed = false := by
  cases pcStep_of_step h t with
  | same hsame =>
    unfold Thread.Exposed at *
    rw [hsame.1] at hexposed
    exact .inl (hexposed.imp_right fun hb => ⟨hsame.2 hb.1,hb.2⟩)
  | goto hpc hmove hs' =>
    subst hs'
    unfold Thread.Exposed at *
    simp only [goto,setThread_threads,if_true,unseen,inWait,park,Bool.false_eq_true,and_false,
      or_false] at hexposed
    rw [hpc]
    exact (Point.tested_of_goto hmove hexposed).imp .inl fun halive => ⟨rfl,halive⟩
  | enter hpc hmove hs' =>
    subst hs'
    unfold Thread.Exposed at *
    simp only [goto,setThread_threads,if_true,unseen,inWait,park] at hexposed
    rw [hpc]
    exact .inl (.inl (Point.tested_of_block hmove (hexposed.elim id fun h => h.2)))
  | park hpark => exact .inl (ParkStep.exposed hpark hparks hexposed)
  | block hwas hnow hblocked =>
    unfold Thread.Exposed at *
    rw [hnow] at hexposed
    rw [hwas]
    exact .inl (hexposed.imp id fun hb => ⟨hblocked hb.1,hb.2⟩)

theorem killed_of_perform {ω' : Shared D} {op : Op} {ws : List Wake}
    (h : ω.perform lay Q op = some (ω', ws)) (hkilled : (ω'.processes p).killed) :
    (ω.processes p).killed ∨ ∃ signal, op = .terminate p signal := by
  have hset {p' : Koid} {process : Process} (hk : ((ω.setProcess p' process).processes p).killed)
      (hsame : process.killed = (ω.processes p').killed) : (ω.processes p).killed := by
    rcases eq_or_ne p p' with rfl | hp
    · simpa [setProcess,hsame] using hk
    · simpa [setProcess,hp] using hk
  cases op with
  | terminate p' signal =>
    cases h
    rcases eq_or_ne p p' with rfl | hp
    · exact .inr ⟨signal,rfl⟩
    · exact .inl (by simpa [setProcess,hp] using hkilled)
  | markExited p' | dropProcess p' | sigStop p' | sigCont p' | freeze p' | thaw p' =>
    cases h
    exact .inl (hset hkilled rfl)
  | createGroup g =>
    dsimp only [perform] at h
    split at h
    · cases h
      dsimp only [joinGroup] at hkilled
      split at hkilled <;> exact .inl hkilled
    · cases h
  | returnToHead k n | commitDelivery k n =>
    dsimp only [perform] at h
    split at h
    · obtain ⟨msg,-,heq⟩ := Option.map_eq_some_iff.mp h
      cases heq
      exact .inl hkilled
    · cases h
  | _ =>
    dsimp only [perform] at h
    repeat' split at h
    all_goals cases h <;> exact .inl hkilled

/-- The first kill of a process with a thread past its test of `is_killed` is a signal, and no wake
of a thread of a killed process is spent while the thread is on its way into a wait. -/
def signalsLand (lay : Layout) (s : State (Shared D) (Point D)) : Event Op Choice → Bool
  | .act _ (.terminate p signal) => signal || (s.objects.processes p).killed ||
    (lay.threads p).all fun t => decide ¬(s.threads t).Exposed
  | .wake w =>
    match (s.wakers w).todo with
    | .thread t :: _ =>
      !((s.objects.processes (lay.process t)).killed && (s.threads t).pc.unseen)
    | _ => true
  | _ => true

/-- The wake of a killed thread is kept until it is spent, which leaves the thread not Blocked. -/
theorem thread_task_of_step (h : step (kernel lay Q) s e = some s') (hok : signalsLand lay s e)
    (hkilled : (s.objects.processes (lay.process t)).killed = true) {w : WakerId}
    (htask : Wake.thread t ∈ (s.wakers w).todo) :
    Wake.thread t ∈ (s'.wakers w).todo ∨ ¬ (s'.threads t).Exposed := by
  by_cases hw : e.waker = some w
  case neg =>
    rw [wakers_of_step h hw]
    exact .inl htask
  cases step_cases h with
  | act htodo _ _ | expire htodo _ =>
    cases hw
    rw [htodo] at htask
    cases htask
  | @wake w' task rest htodo _ =>
    cases hw
    rw [htodo] at htask
    have hrest (hne : task ≠ .thread t) : Wake.thread t ∈ rest := by
      rcases List.mem_cons.mp htask with heq | hin
      · exact absurd heq.symm hne
      · exact hin
    cases task with
    | object k | collect k =>
      have hin := hrest (by simp)
      left
      simp [wakeStep,hin]
    | drain k | deadlines now =>
      have hin := hrest (by simp)
      left
      dsimp only [wakeStep]
      split <;> simp [hin]
    | thread t' =>
      by_cases ht : t' = t
      · subst ht
        right
        -- the thread was not on its way into a wait, and is claimed if it sleeps in one
        have hseen : (s.threads t').pc.unseen = false := by
          simpa [signalsLand,htodo,hkilled] using hok
        dsimp only [wakeStep]
        split
        · simp [Thread.Exposed,hseen]
        · next hnot => simp [Thread.Exposed,hseen,hnot]
      · have hin := hrest (by simpa using ht)
        left
        dsimp only [wakeStep]
        split <;> simp [hin]
  | spin | ready | push =>
    cases hw
    exact .inl (by simpa using htask)
  | _ => cases hw

/-- A thread of a killed process that goes on to sleep in a wait is about to be woken. -/
def KillsLand (lay : Layout) (s : State (Shared D) (Point D)) : Prop :=
  ∀ t, (s.objects.processes (lay.process t)).killed = true → (s.threads t).Exposed →
    ∃ w, Wake.thread t ∈ (s.wakers w).todo

theorem KillsLand.step (hkills : KillsLand lay s)
    (hparks : ∀ t p l, (s.threads t).pc.park = some (p, l) → l.tested = false)
    (hok : signalsLand lay s e) (h : step (kernel lay Q) s e = some s') :
    KillsLand lay s' := by
  intro t hkilled hexposed
  have hexp : (s.threads t).Exposed := by
    rcases exposed_of_step h (hparks t) hexposed with hexp | ⟨hobjects,halive⟩
    · exact hexp
    · rw [hobjects,halive] at hkilled
      cases hkilled
  have hwas (hbefore : (s.objects.processes (lay.process t)).killed) :
      ∃ w, Wake.thread t ∈ (s'.wakers w).todo := by
    obtain ⟨w,hw⟩ := hkills t hbefore hexp
    exact ⟨w,(thread_task_of_step h hok hbefore hw).resolve_right (not_not_intro hexposed)⟩
  rcases objects_of_step h with hsame | ⟨w,op,ws,rfl,hop,htodo⟩
  · exact hwas (hsame ▸ hkilled)
  rcases killed_of_perform hop hkilled with hbefore | ⟨signal,rfl⟩
  · exact hwas hbefore
  simp only [signalsLand,Bool.or_eq_true,List.all_eq_true,decide_eq_true_eq] at hok
  rcases hok with (rfl | hbefore) | hnone
  · refine ⟨w,?_⟩
    rw [htodo,← (Prod.mk.inj (Option.some.inj hop)).2]
    simp [lay.mem_threads t]
  · exact hwas hbefore
  · exact absurd hexp (hnone t (lay.mem_threads t))

/-- A thread of a killed process is Blocked in a wait: then a wake of this thread is in
progress, if the kill was a signal unless it found no thread past its test, and no wake of it is
spent while its thread is on its way into a wait. -/
theorem kill_pending (h0 : Start s₀) (huser : ∀ t, (s₀.threads t).pc = .run .user)
    (hrun : Reaches (step (kernel lay Q)) (fun s e => signalsLand lay s e = true) s₀ s)
    {t : ThreadId} (hblocked : (s.threads t).state = .blocked)
    (hwait : (s.threads t).pc.inWait = true)
    (hkilled : (s.objects.processes (lay.process t)).killed = true) :
    ∃ w, Wake.thread t ∈ (s.wakers w).todo := by
  suffices h : Reaches (step (kernel lay Q)) (fun s e => signalsLand lay s e) s₀ s ∧
      KillsLand lay s from h.2 t hkilled (.inr ⟨hblocked,hwait⟩)
  refine hrun.invariant (P := fun s => Reaches (step (kernel lay Q))
    (fun s e => signalsLand lay s e) s₀ s ∧ KillsLand lay s) ⟨.refl,?_⟩ ?_
  · intro t _ hexposed
    simp [Thread.Exposed,huser t,unseen,inWait,park,Point.tested] at hexposed
  · rintro s e s' ⟨hreach,hkills⟩ hok hstep
    refine ⟨hreach.tail hok hstep,hkills.step (fun t p l hpark => ?_) hok hstep⟩
    exact Point.tested_of_parks (parks_of_reaches h0 hreach hpark)

namespace Small

def waiting : List (Event Op Choice) := enter (.wait 3 false none) ++ go 5

def asleep : List (Event Op Choice) := waiting ++ parks 8 ++ [.block 0,.save 0]

def domainKilled : List (Event Op Choice) :=
  asleep ++ [.act 0 (.terminate 1000 false),.wake 0,.wake 0]

def killedEarly : List (Event Op Choice) :=
  waiting ++ [.act 0 (.terminate 1000 true),.wake 0,.wake 0,.wake 0] ++ parks 8 ++
    [.block 0,.save 0]

end Small

open Sched.Small in
theorem kill_pending_asleep : ∃ s,
    Reaches (step (kernel layout quota)) (fun s e => signalsLand layout s e = true) start s ∧
    (s.threads 0).state = .blocked ∧ (s.threads 0).pc.inWait = true ∧
    (s.objects.processes 1000).killed = true ∧ ∃ w, Wake.thread 0 ∈ (s.wakers w).todo := by
  refine exists_reaches_imp (P := fun s => (s.threads 0).state = .blocked ∧
      (s.threads 0).pc.inWait = true ∧ (s.objects.processes 1000).killed = true)
    (asleep ++ [.act 0 (.terminate 1000 true)]) (by decide +kernel)
    fun s hreach ⟨hstate,hwait,hkilled⟩ => ?_
  exact ⟨hstate,hwait,hkilled,kill_pending start_start (fun _ => rfl) hreach hstate hwait hkilled⟩

open Sched.Small in
/-- The kill of a Domain wakes no thread that waits for another object. A signal does, but
its wake is lost on a thread that has tested the flag and is not yet Blocked. -/
theorem kill_lost : [domainKilled,killedEarly].Forall fun run => ∃ s,
    runList (step (kernel layout quota)) start run = some s ∧
    (s.threads 0).state = .blocked ∧ (s.threads 0).pc.inWait = true ∧
    (s.objects.processes 1000).killed = true ∧ s.Quiescent := by
  have hruns : ∀ run ∈ [domainKilled,killedEarly],
      ((runList (step (kernel layout quota)) start run).any fun s =>
        (s.threads 0).state = .blocked ∧ (s.threads 0).pc.inWait = true ∧
        (s.objects.processes 1000).killed = true ∧
        (s.wakers 0).todo = [] ∧ (s.wakers 0).batch = []) ∧
      ∀ e ∈ run, e.waker = none ∨ e.waker = some 0 := by decide +kernel
  refine List.forall_iff_forall_mem.mpr fun run hmem => ?_
  obtain ⟨hview,honly⟩ := hruns run hmem
  obtain ⟨s,hs,hstate,hwait,hkilled,hidle⟩ := exists_of_any hview
  exact ⟨s,hs,hstate,hwait,hkilled,quiescent_of_runList (fun _ => ⟨rfl,rfl⟩) hs honly hidle⟩

end LiberSystem.Sched
