import LiberSystem.Kernel.Sched.Parking

/-!
# Where a thread is

What one step does to the place of a thread, and what follows for whole runs: which parks a
thread can be in, and when it can be Blocked.
-/

namespace LiberSystem.Sched

open Option Sched.Thread

open State

variable {Ω L Op Ch : Type} {room : Bool} {w : WakerId}

def Pc.park : Pc Ω L → Option (Park Ω × L)
  | .run _ => none
  | .reserve p l | .arm p l | .mark p l | .register p l _ | .retract p l _ | .reprieve p l
  | .timed p l | .recheck p l _ | .abort p l | .reclaimed p l | .switch p l | .parked p l
  | .cleanup p l _ => some (p, l)

/-- The thread stays where it is, and is not Blocked now unless it was. -/
def Thread.Stays (th th' : Thread Ω L) : Prop :=
  th'.pc = th.pc ∧ (th'.state = .blocked → th.state = .blocked)

theorem Thread.Stays.trans {th th' th'' : Thread Ω L} (h : th.Stays th') (h' : th'.Stays th'') :
    th.Stays th'' :=
  ⟨h'.1.trans h.1,fun hb => h.2 (h'.2 hb)⟩

/-- What a step does to the place of the thread `t`. -/
inductive PcStep (M : Machine Ω L Op Ch) (s s' : State Ω L) (t : ThreadId) :
    Event Op Ch → Prop where
  | same {e} : (s.threads t).Stays (s'.threads t) → PcStep M s s' t e
  | goto {c x l l'} : (s.threads t).pc = .run l →
      M.move t l x s.objects = some (.goto l') → s' = s.goto t (.run l') →
      PcStep M s s' t (.move c x)
  | enter {c x l l' p} : (s.threads t).pc = .run l →
      M.move t l x s.objects = some (.block p l') → s' = s.goto t (.reserve p l') →
      PcStep M s s' t (.move c x)
  | park {c room} : ParkStep s t room s' → PcStep M s s' t (.park c room)
  | block {c p l} : (s.threads t).pc = .switch p l →
      (s'.threads t).pc = .parked p l →
      ((s'.threads t).state = .blocked → (s.threads t).state = .blocked) →
      PcStep M s s' t (.block c)

namespace State

variable {s s' : State Ω L} {c : CoreId} {t t' : ThreadId}

theorem dispatch_stays : (s.threads t).Stays ((s.dispatch c).threads t) := by
  unfold dispatch
  split
  · exact ⟨rfl,id⟩
  · grind [Stays]

theorem dispatch_pc : ((s.dispatch c).threads t).pc = (s.threads t).pc := dispatch_stays.1

theorem ParkStep.threads_of_ne (h : ParkStep s t room s') (hne : t' ≠ t) :
    s'.threads t' = s.threads t' := by
  cases h <;> simp [goto,setState,forget,hne]

theorem Claims.stays {ts : List ThreadId} {todo : List Wake}
    (h : s.Claims w ts todo s') : (s.threads t).Stays (s'.threads t) := by
  rw [h.threads t]
  split
  · exact ⟨rfl,fun h => by cases h⟩
  · exact ⟨rfl,id⟩

theorem requeue_stays (idle : Bool) : (s.threads t).Stays ((s.requeue c t' idle).threads t) := by
  unfold requeue
  split
  · grind [Stays]
  split
  · grind [Stays]
  · refine Stays.trans ?_ dispatch_stays
    grind [Stays]

end State

variable {M : Machine Ω L Op Ch} {e : Event Op Ch}

theorem pcStep_of_step {s s' : State Ω L}
    (h : step M s e = some s') (t : ThreadId) : PcStep M s s' t e := by
  cases step_cases h with
  | start => exact .same (by grind [enqueueOn,Stays])
  | act | expire | push => exact .same ⟨rfl,id⟩
  | wake =>
    obtain ⟨ts,todo,hclaims⟩ := wakeStep_claims M s _ _ _
    exact .same hclaims.stays
  | spin | ready | save => exact .same (by grind [Stays])
  | @goto c x t' l l' _ hpc hmove =>
    by_cases ht : t = t'
    · subst ht
      exact .goto hpc hmove rfl
    · exact .same (by simp [goto,ht,Stays])
  | @enter c x t' l p l' _ hpc hmove =>
    by_cases ht : t = t'
    · subst ht
      exact .enter hpc hmove rfl
    · exact .same (by simp [goto,ht,Stays])
  | @park c room t' _ _ hpark =>
    by_cases ht : t = t'
    · subst ht
      exact .park hpark
    · exact .same (by rw [hpark.threads_of_ne ht]; exact ⟨rfl,id⟩)
  | yield => exact .same (requeue_stays _)
  | exit =>
    refine .same (Stays.trans ?_ dispatch_stays)
    grind [Stays]
  | @block c t' p l _ hpc =>
    by_cases ht : t = t'
    · subst ht
      refine .block hpc ?_ fun hblocked => ?_
      · rw [blockCurrent,dispatch_pc]
        simp [goto]
      · simpa [goto] using dispatch_stays.2 hblocked
    · refine .same (Stays.trans ?_ dispatch_stays)
      simp [goto,ht,Stays]
  | idle => exact .same dispatch_stays

/-- A property of the parks that the machine's code asks for holds of the park of every
thread. -/
theorem forall_parks {ok : State Ω L → Event Op Ch → Prop}
    (good : ThreadId → Park Ω → L → Prop) {s₀ s : State Ω L} (h0 : Start s₀)
    (hmove : ∀ t l x ω p l', M.move t l x ω = some (.block p l') → good t p l')
    (hrun : Reaches (step M) ok s₀ s) :
    ∀ t p l, (s.threads t).pc.park = some (p, l) → good t p l := by
  refine hrun.invariant (P := fun s => ∀ t p l, (s.threads t).pc.park = some (p, l) → good t p l)
    ?_ fun s e s' h _ hstep t p l hpark => ?_
  · intro t p l hpark
    obtain ⟨-,-,-,l',hpc⟩ := h0.thread t
    rw [hpc] at hpark
    cases hpark
  cases pcStep_of_step hstep t with
  | same hsame => exact h t p l (hsame.1 ▸ hpark)
  | goto _ _ hs' =>
    subst hs'
    simp [goto,Pc.park] at hpark
  | enter _ hmv hs' =>
    subst hs'
    obtain ⟨rfl,rfl⟩ : _ = p ∧ _ = l := by simpa [goto,Pc.park] using hpark
    exact hmove _ _ _ _ _ _ hmv
  | park hpark' =>
    cases hpark' <;> grind [goto,setState,Pc.park]
  | block hwas hnow =>
    rw [hnow] at hpark
    exact h t p l (by rw [hwas]; exact hpark)

def Event.waker : Event Op Ch → Option WakerId
  | .act w _ | .expire w _ | .wake w | .spin w | .ready w | .push w _ => some w
  | _ => none

namespace State

variable {s s' : State Ω L} {c : CoreId} {t : ThreadId}

@[simp] theorem dispatch_frame :
    (s.dispatch c).wakers = s.wakers ∧ (s.dispatch c).objects = s.objects := by
  unfold dispatch
  split <;> exact ⟨rfl,rfl⟩

@[simp] theorem requeue_frame (idle : Bool) :
    (s.requeue c t idle).wakers = s.wakers ∧ (s.requeue c t idle).objects = s.objects := by
  unfold requeue
  split
  · exact ⟨rfl,rfl⟩
  · split
    · exact ⟨rfl,rfl⟩
    · exact dispatch_frame

theorem ParkStep.frame (h : ParkStep s t room s') :
    s'.wakers = s.wakers ∧ s'.objects = s.objects := by
  cases h <;> exact ⟨rfl,rfl⟩

end State

theorem wakers_of_step {s s' : State Ω L} (h : step M s e = some s') (hne : e.waker ≠ some w) :
    s'.wakers w = s.wakers w := by
  have hw {w' : WakerId} (hw' : some w' ≠ some w) : w ≠ w' := fun heq => hw' (heq ▸ rfl)
  cases step_cases h with
  | act | expire | spin | ready => simp [hw hne]
  | push => simp [hw hne,enqueueOn]
  | wake =>
    obtain ⟨ts,todo,hclaims⟩ := wakeStep_claims M s _ _ _
    rw [hclaims.wakers,if_neg (hw hne)]
  | start | goto | enter | save => rfl
  | park _ hpark => rw [hpark.frame.1]
  | yield => rw [(requeue_frame _).1]
  | exit | block | idle => exact congrFun dispatch_frame.1 w

theorem objects_of_step {s s' : State Ω L} (h : step M s e = some s') :
    s'.objects = s.objects ∨ ∃ w op ws, e = .act w op ∧
      M.perform op s.objects = some (s'.objects, ws) ∧ (s'.wakers w).todo = ws := by
  cases step_cases h with
  | act _ _ hop => exact .inr ⟨_,_,_,rfl,hop,by simp⟩
  | park _ hpark => exact .inl hpark.frame.2
  | yield => exact .inl (requeue_frame _).2
  | exit | block | idle => exact .inl dispatch_frame.2
  | wake =>
    obtain ⟨ts,todo,hclaims⟩ := wakeStep_claims M s _ _ _
    exact .inl hclaims.objects
  | _ => exact .inl rfl

/-- Nothing is in progress that could wake a thread. -/
def State.Quiescent (s : State Ω L) : Prop :=
  ∀ w, (s.wakers w).todo = [] ∧ (s.wakers w).batch = []

/-- A run in which only waker 0 acts is quiescent when that waker is. -/
theorem quiescent_of_runList {s₀ s : State Ω L}
    {es : List (Event Op Ch)} (h0 : s₀.Quiescent) (hrun : runList (step M) s₀ es = some s)
    (honly : ∀ e ∈ es, e.waker = none ∨ e.waker = some 0)
    (hidle : (s.wakers 0).todo = [] ∧ (s.wakers 0).batch = []) : s.Quiescent := by
  suffices h : ∀ w, w ≠ 0 → s.wakers w = s₀.wakers w by
    intro w
    by_cases hw : w = 0
    · rw [hw]
      exact hidle
    · rw [h w hw]
      exact h0 w
  clear hidle h0
  induction es generalizing s₀ with
  | nil =>
    cases hrun
    exact fun _ _ => rfl
  | cons e es ih =>
    obtain ⟨s₁,hstep,hrest⟩ := bind_eq_some_iff.mp hrun
    intro w hw
    rw [ih hrest (fun e he => honly e (List.mem_cons_of_mem _ he)) w hw]
    refine wakers_of_step hstep fun heq => hw ?_
    rcases honly e List.mem_cons_self with hnone | hzero
    · rw [hnone] at heq
      cases heq
    · rw [hzero] at heq
      cases heq
      rfl

end LiberSystem.Sched
