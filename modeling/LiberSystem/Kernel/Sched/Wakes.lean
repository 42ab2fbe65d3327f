import LiberSystem.Kernel.Sched.Places

/-!
# No wake is lost

A `Fact` is something a waiter may wait for: when it becomes true, the operation that made it so
wakes the object `src`, and that wake reaches the waiters of `tgt`.
-/

namespace LiberSystem.Sched

open List Option State

variable {Ω L Op Ch : Type} {k : Koid}

structure Fact (Ω : Type) where
  src : Koid
  tgt : Koid
  holds : Ω → Prop

section

variable (M : Machine Ω L Op Ch)

def Forwards (ω : Ω) (f : Fact Ω) : Prop :=
  f.src = f.tgt ∨ M.observed ω = true ∧ f.tgt ∈ M.watchers ω f.src

def Aims (ω : Ω) (f : Fact Ω) : Wake → Prop
  | .object k | .collect k => k = f.src ∧ Forwards M ω f
  | .drain k => k = f.tgt
  | .thread _ | .deadlines _ => False

def Pending (s : State Ω L) (f : Fact Ω) : Prop :=
  ∃ w, ∃ task ∈ (s.wakers w).todo, Aims M s.objects f task

end

def State.Waking (s : State Ω L) (k : Koid) : Prop :=
  ∃ w, ∃ task ∈ (s.wakers w).todo, task = .object k ∨ task = .collect k ∨ task = .drain k

theorem pending_iff_waking {M : Machine Ω L Op Ch} {s : State Ω L} {f : Fact Ω}
    (hsame : f.src = f.tgt) : Pending M s f ↔ s.Waking f.tgt := by
  refine exists_congr fun w => exists_congr fun task => and_congr_right fun _ => ?_
  cases task <;> simp [Aims,Forwards,hsame]

def Pc.registering : Pc Ω L → Option (Park Ω × List Koid)
  | .register p _ rest => some (p, rest)
  | _ => none

/-- The part of the re-check that a registered thread has still before it, with the park and
where the thread goes on after it. -/
def Pc.remaining : Pc Ω L → Option ((Park Ω × L) × Check Ω)
  | .timed p l => some ((p, l), p.ready)
  | .recheck p l rest => some ((p, l), rest)
  | .switch p l | .parked p l => some ((p, l), .done false)
  | _ => none

/-- What is waited for: an invariant of the objects, the facts that have wakes, and for each
park the condition that ends the wait. -/
structure Watch (Ω L : Type) where
  inv : Ω → Prop
  facts : Set (Fact Ω)
  goal : Park Ω × L → Ω → Prop

namespace Watch

variable (V : Watch Ω L) {M : Machine Ω L Op Ch} {s s' : State Ω L}

def watched (p : Park Ω) : Set (Fact Ω) := {f | f ∈ V.facts ∧ f.tgt ∈ p.koids}

variable (M) in
/-- What a thread that is registered from now on cannot miss. -/
def unmissed (p : Park Ω) (s : State Ω L) : Set (Fact Ω) :=
  {f | f ∈ V.watched p ∧ (f.holds s.objects → Pending M s f)}

/-- The check decides the wait, given that the facts in `seen` were false since the
registration. -/
def Refutes (pl : Park Ω × L) (q : Check Ω) (seen : Set (Fact Ω)) : Prop :=
  q.Refutes V.inv Fact.holds (V.watched pl.1) (V.goal pl) seen

variable (M) in
/-- A registered thread has seen some facts false since, and where one of them holds a wake
for it is in progress. -/
def Awaits (s : State Ω L) (t : ThreadId) (pl : Park Ω × L) (q : Check Ω) : Prop :=
  (∀ k ∈ pl.1.koids, ⟨t,k⟩ ∈ s.bucketOf k) ∧
    ∃ seen ⊆ V.watched pl.1, (∀ f ∈ seen, f.holds s.objects → Pending M s f) ∧
      V.Refutes pl q seen

variable (M) in
structure Holds (s : State Ω L) : Prop where
  inv : V.inv s.objects
  registering : ∀ t p rest, (s.threads t).state = .blocked →
    (s.threads t).pc.registering = some (p, rest) →
    ∀ k ∈ p.koids, k ∈ rest ∨ ⟨t,k⟩ ∈ s.bucketOf k
  waiting : ∀ t pl q, (s.threads t).state = .blocked →
    (s.threads t).pc.remaining = some (pl, q) → V.Awaits M s t pl q

end Watch

/-- No part of the park that is left depends on the registrations. -/
def Pc.Unwatched (pc : Pc Ω L) : Prop := pc.registering = none ∧ pc.remaining = none

/-- A thread that is Blocked after a step was so before, at the same place of its wait, or
its wait depends on nothing. -/
def Thread.Calm (th th' : Thread Ω L) : Prop :=
  th'.state = .blocked → th'.pc.Unwatched ∨
    th.state = .blocked ∧ th'.pc.registering = th.pc.registering ∧
      th'.pc.remaining = th.pc.remaining

theorem Thread.Calm.refl (th : Thread Ω L) : th.Calm th := fun h => .inr ⟨h,rfl,rfl⟩

/-- A step that takes no registration from a thread that depends on it, and no wake from
anyone. -/
structure Quiet (s s' : State Ω L) : Prop where
  objects : s'.objects = s.objects
  todo : ∀ w, ∀ task ∈ (s.wakers w).todo, task ∈ (s'.wakers w).todo
  threads : ∀ t, (s.threads t).Calm (s'.threads t)
  buckets : ∀ t k, ¬ (s'.threads t).pc.Unwatched → ⟨t,k⟩ ∈ s.bucketOf k →
    ⟨t,k⟩ ∈ s'.bucketOf k

namespace Watch

variable {V : Watch Ω L} {M : Machine Ω L Op Ch} {s s' : State Ω L}

theorem Holds.quiet (h : V.Holds M s) (hq : Quiet s s') : V.Holds M s' := by
  refine ⟨hq.objects ▸ h.inv,fun t p rest hblocked hpc k hk => ?_,fun t pl q hblocked hpc => ?_⟩
  · have hwatched : ¬ (s'.threads t).pc.Unwatched := fun hu => by simp [hu.1] at hpc
    obtain hu | ⟨hwas,hsame,-⟩ := hq.threads t hblocked
    · exact absurd hu hwatched
    · exact (h.registering t p rest hwas (hsame ▸ hpc) k hk).imp_right (hq.buckets t k hwatched)
  have hwatched : ¬ (s'.threads t).pc.Unwatched := fun hu => by simp [hu.2] at hpc
  obtain hu | ⟨hwas,-,hsame⟩ := hq.threads t hblocked
  · exact absurd hu hwatched
  obtain ⟨hreg,seen,hsub,hseen,hq'⟩ := h.waiting t pl q hwas (hsame ▸ hpc)
  refine ⟨fun k hk => hq.buckets t k hwatched (hreg k hk),seen,hsub,fun f hf hholds => ?_,hq'⟩
  rw [hq.objects] at hholds
  obtain ⟨w,task,hin,haim⟩ := hseen f hf hholds
  exact ⟨w,task,hq.todo w task hin,hq.objects ▸ haim⟩

end Watch

namespace Quiet

variable {s s' : State Ω L} {c : CoreId} {t : ThreadId}

theorem of_threads (hobjects : s'.objects = s.objects) (hbuckets : s'.buckets = s.buckets)
    (htodo : ∀ w, (s'.wakers w).todo = (s.wakers w).todo)
    (hthreads : ∀ t, (s.threads t).Calm (s'.threads t)) : Quiet s s' where
  objects := hobjects
  todo w task hin := by rw [htodo]; exact hin
  threads := hthreads
  buckets t k _ hin := by
    unfold bucketOf at hin ⊢
    rw [hbuckets]
    exact hin

theorem trans {s'' : State Ω L} (h : Quiet s s') (h' : Quiet s' s'')
    (hpc : ∀ t, (s''.threads t).pc = (s'.threads t).pc) : Quiet s s'' where
  objects := h'.objects.trans h.objects
  todo w task hin := h'.todo w task (h.todo w task hin)
  threads t := by
    have h₁ := h.threads t
    have h₂ := h'.threads t
    grind [Thread.Calm]
  buckets t k hw hin := h'.buckets t k hw (h.buckets t k (hpc t ▸ hw) hin)

variable {th : Thread Ω L} {pc : Pc Ω L}

theorem setThread (h : (s.threads t).Calm th) : Quiet s (s.setThread t th) := by
  refine of_threads rfl rfl (fun _ => rfl) fun t' => ?_
  by_cases ht : t' = t
  · subst ht
    simpa using h
  · simpa [ht] using Thread.Calm.refl (s.threads t')

theorem setCore (core : Core) : Quiet s (s.setCore c core) :=
  of_threads rfl rfl (fun _ => rfl) fun t => Thread.Calm.refl (s.threads t)

theorem dispatch : Quiet s (s.dispatch c) := by
  unfold State.dispatch
  split
  · exact of_threads rfl rfl (fun _ => rfl) fun t => Thread.Calm.refl (s.threads t)
  · refine (setThread fun hblocked => ?_).trans (setCore _) fun _ => rfl
    cases hblocked

theorem leave {queue : List ThreadId} (h : (s.threads t).Calm th) :
    Quiet s ((s.setThread t th).leave c t queue) :=
  (setThread h).trans (setCore _) fun _ => rfl

theorem requeue (idle : Bool) : Quiet s (s.requeue c t idle) := by
  have hready : (s.threads t).Calm { s.threads t with state := .ready } := fun h => by cases h
  unfold State.requeue
  split
  · exact leave hready
  · split
    · exact setThread fun h => by cases h
    · exact (leave hready).trans dispatch fun _ => State.dispatch_pc

theorem retire : Quiet s (s.retire c t) :=
  (leave fun h => by cases h).trans dispatch fun _ => dispatch_pc

theorem blockCurrent {p : Park Ω} {l : L} (hpc : (s.threads t).pc = .switch p l) :
    Quiet s (s.blockCurrent c t p l) := by
  refine (leave fun hblocked => ?_).trans dispatch fun _ => dispatch_pc
  exact .inr ⟨hblocked,by rw [hpc]; rfl,by rw [hpc]; rfl⟩

theorem forget (hpc : pc.Unwatched) : Quiet s ((s.forget t k).goto t pc) where
  objects := rfl
  todo w task hin := hin
  threads t' := by
    by_cases ht : t' = t
    · subst ht
      exact fun _ => .inl (by simpa [State.goto] using hpc)
    · simpa [State.goto,State.forget,ht] using Thread.Calm.refl (s.threads t')
  buckets t' k' hw hin := by
    have hne : t' ≠ t := by
      rintro rfl
      exact hw (by simpa [State.goto] using hpc)
    simp only [State.bucketOf,State.goto,State.forget,State.setThread_buckets,
      State.setBucket_buckets] at hin ⊢
    split
    · next hk => simpa [← hk,hne] using hin
    · exact hin

theorem goto (ws : List TimedWaiter) (h : (s.threads t).Calm { s.threads t with pc := pc }) :
    Quiet s ({ s with timed := ws }.goto t pc) := by
  refine of_threads rfl rfl (fun _ => rfl) fun t' => ?_
  by_cases ht : t' = t
  · subst ht
    simpa [State.goto] using h
  · simpa [State.goto,ht] using Thread.Calm.refl (s.threads t')

end Quiet

namespace Watch

variable {V : Watch Ω L} {M : Machine Ω L Op Ch} {s s' : State Ω L} {t : ThreadId}

theorem mem_bucketOf_push {e x : BucketWaiter} {k' : Koid} (h : e ∈ s.bucketOf k') :
    e ∈ (s.setBucket k (s.bucketOf k ++ [x])).bucketOf k' := by
  simp only [bucketOf,setBucket_buckets] at h ⊢
  split
  · next hk => exact mem_append_left _ (hk ▸ h)
  · exact h

/-- Registrations of `t` or of others are only added, and `t` is the only thread that
changes. -/
theorem Holds.advance (h : V.Holds M s) (s₁ : State Ω L) (st : ThreadState) (pc : Pc Ω L)
    (hobjects : s₁.objects = s.objects) (hthreads : s₁.threads = s.threads)
    (hwakers : s₁.wakers = s.wakers)
    (hbuckets : ∀ e k, e ∈ s.bucketOf k → e ∈ s₁.bucketOf k)
    (hreg : ∀ p rest, st = .blocked → pc.registering = some (p, rest) →
      ∀ k ∈ p.koids, k ∈ rest ∨ ⟨t,k⟩ ∈ s₁.bucketOf k)
    (hwait : ∀ pl q, st = .blocked → pc.remaining = some (pl, q) → V.Awaits M s₁ t pl q) :
    V.Holds M (s₁.setState t st pc) := by
  have hawaits : ∀ t' pl q, V.Awaits M s t' pl q → V.Awaits M s₁ t' pl q := by
    rintro t' pl q ⟨hentries,seen,hsub,hseen,hcheck⟩
    refine ⟨fun k hk => hbuckets _ k (hentries k hk),seen,hsub,fun f hf hholds => ?_,hcheck⟩
    rw [hobjects] at hholds
    obtain ⟨w,task,hin,haim⟩ := hseen f hf hholds
    exact ⟨w,task,hwakers ▸ hin,hobjects ▸ haim⟩
  refine ⟨?_,fun t' p rest hblocked hpc k hk => ?_,fun t' pl q hblocked hpc => ?_⟩
  · simpa [setState,hobjects] using h.inv
  · by_cases ht : t' = t
    · subst ht
      simp only [setState,setThread_threads,if_true] at hblocked hpc
      exact hreg p rest hblocked hpc k hk
    · simp only [setState,setThread_threads,if_neg ht,hthreads] at hblocked hpc
      exact (h.registering t' p rest hblocked hpc k hk).imp_right (hbuckets _ k)
  · by_cases ht : t' = t
    · subst ht
      simp only [setState,setThread_threads,if_true] at hblocked hpc
      exact hwait pl q hblocked hpc
    · simp only [setState,setThread_threads,if_neg ht,hthreads] at hblocked hpc
      exact hawaits t' pl q (h.waiting t' pl q hblocked hpc)

theorem Holds.parkStep (h : V.Holds M s) {room : Bool}
    (hready : ∀ p l, (s.threads t).pc = .register p l [] →
      V.Refutes (p, l) p.ready (V.unmissed M p s))
    (hstep : State.ParkStep s t room s') : V.Holds M s' := by
  have unwatched : ∀ {pc : Pc Ω L} {th : Thread Ω L}, pc.Unwatched →
      th.Calm { th with pc := pc } := fun hpc _ => .inl hpc
  cases hstep with
  | reserve hpc =>
    refine h.quiet (Quiet.goto s.timed (unwatched ?_))
    cases room <;> exact ⟨rfl,rfl⟩
  | arm hpc => exact h.quiet (Quiet.setThread fun _ => .inl ⟨rfl,rfl⟩)
  | @mark p l _ hpc =>
    refine h.advance s .blocked (.register p l p.koids) rfl rfl rfl (fun _ _ hin => hin)
      (fun p' rest _ heq k hk => ?_) fun p' q _ heq => by cases heq
    cases heq
    exact .inl hk
  | @registered p l _ hpc =>
    refine h.advance s _ (.timed p l) rfl rfl rfl (fun _ _ hin => hin)
      (fun p' rest _ heq => by cases heq) fun p' q hblocked heq => ?_
    cases heq
    have hentries := h.registering t p [] hblocked (by rw [hpc]; rfl)
    exact ⟨fun k hk => (hentries k hk).resolve_left not_mem_nil,V.unmissed M p s,
      fun f hf => hf.1,fun f hf => hf.2,hready p l hpc⟩
  | @register p l k rest hpc =>
    refine h.advance (s.setBucket k (s.bucketOf k ++ [⟨t,k⟩])) _ (.register p l rest) rfl rfl rfl
      (fun e k' => mem_bucketOf_push) (fun p' rest' hblocked heq k' hk' => ?_)
      fun p' q _ heq => by cases heq
    cases heq
    rcases h.registering t p (k :: rest) hblocked (by rw [hpc]; rfl) k' hk' with hk' | hin
    · rcases mem_cons.mp hk' with rfl | hk'
      · exact .inr (by simp [bucketOf])
      · exact .inl hk'
    · exact .inr (mem_bucketOf_push hin)
  | refuse hpc | yes hpc | resume hpc | claimedFlagged hpc _ _ | cleaned _ hpc =>
    exact h.quiet (Quiet.goto _ (unwatched ⟨rfl,rfl⟩))
  | retract hpc | cleanup hpc => exact h.quiet (Quiet.forget ⟨rfl,rfl⟩)
  | reprieve hpc hblocked | reprieved hpc | abort hpc hblocked | reclaimed hpc =>
    exact h.quiet (Quiet.setThread fun hb => by cases hb)
  | claimedAny hpc hblocked hany | tooLate hpc hblocked =>
    exact h.quiet (Quiet.goto s.timed fun hb => absurd hb hblocked)
  | timed _ hpc | no hpc =>
    exact h.quiet (Quiet.goto _ fun hb => .inr ⟨hb,by rw [hpc]; rfl,by rw [hpc]; rfl⟩)
  | @read p l _ free next hpc hfree =>
    refine h.advance s _ (.recheck p l (next s.objects)) rfl rfl rfl (fun _ _ hin => hin)
      (fun p' rest _ heq => by cases heq) fun p' q hblocked heq => ?_
    cases heq
    obtain ⟨hentries,seen,hsub,hseen,hcheck⟩ :=
      h.waiting t (p, l) (.read free next) hblocked (by rw [hpc]; rfl)
    -- a fact that is false at this read cannot have a wake that the thread has missed
    refine ⟨hentries,_,Set.union_subset hsub fun f hf => hf.1,fun f hf hholds => ?_,
      hcheck s.objects h.inv hfree⟩
    exact hf.elim (fun hf => hseen f hf hholds) fun hf => absurd hholds hf.2

theorem Holds.claim (h : V.Holds M s) (hobjects : s'.objects = s.objects)
    (hthreads : ∀ t, s'.threads t = s.threads t ∨ (s'.threads t).state ≠ .blocked)
    (hbuckets : ∀ t k, (s'.threads t).state = .blocked → ⟨t,k⟩ ∈ s.bucketOf k →
      ⟨t,k⟩ ∈ s'.bucketOf k)
    (hpending : ∀ t f, (s'.threads t).state = .blocked → ⟨t,f.tgt⟩ ∈ s.bucketOf f.tgt →
      Pending M s f → Pending M s' f) : V.Holds M s' := by
  refine ⟨hobjects ▸ h.inv,fun t p rest hblocked hpc k hk => ?_,fun t pl q hblocked hpc => ?_⟩
  · have hsame := (hthreads t).resolve_right fun hne => hne hblocked
    have hblocked' := hblocked
    rw [hsame] at hblocked hpc
    exact (h.registering t p rest hblocked hpc k hk).imp_right (hbuckets t k hblocked')
  have hsame := (hthreads t).resolve_right fun hne => hne hblocked
  have hblocked' := hblocked
  rw [hsame] at hblocked hpc
  obtain ⟨hentries,seen,hsub,hseen,hcheck⟩ := h.waiting t pl q hblocked hpc
  refine ⟨fun k hk => hbuckets t k hblocked' (hentries k hk),seen,hsub,fun f hf hholds => ?_,
    hcheck⟩
  rw [hobjects] at hholds
  exact hpending t f hblocked' (hentries f.tgt (hsub hf).2) (hseen f hf hholds)

variable {w : WakerId} {task : Wake} {rest : List Wake} {waker : Waker}

theorem pending_after {f : Fact Ω} (h : Pending M s f) (hobjects : s'.objects = s.objects)
    (htodo : (s.wakers w).todo = task :: rest)
    (hwakers : ∀ w', s'.wakers w' = if w' = w then waker else s.wakers w')
    (hrest : ∀ x ∈ rest, x ∈ waker.todo)
    (htask : Aims M s.objects f task → ∃ x ∈ waker.todo, Aims M s.objects f x) :
    Pending M s' f := by
  obtain ⟨w',x,hin,haim⟩ := h
  unfold Pending
  rw [hobjects]
  by_cases hw : w' = w
  · subst hw
    refine ⟨w',?_⟩
    rw [hwakers,if_pos rfl]
    rw [htodo] at hin
    rcases mem_cons.mp hin with rfl | hin
    · exact htask haim
    · exact ⟨x,hrest x hin,haim⟩
  · exact ⟨w',x,by rw [hwakers,if_neg hw]; exact hin,haim⟩

variable (h : V.Holds M s) (htodo : (s.wakers w).todo = task :: rest)
include h htodo

theorem Holds.setWaker (hrest : ∀ x ∈ rest, x ∈ waker.todo)
    (htask : ∀ f, Aims M s.objects f task → ∃ x ∈ waker.todo, Aims M s.objects f x) :
    V.Holds M (s.setWaker w waker) :=
  h.claim rfl (fun _ => .inl rfl) (fun _ _ _ hin => hin) fun _ f _ _ hpend =>
    pending_after hpend rfl htodo (setWaker_wakers s w _) hrest (htask f)

theorem Holds.wakeStep : V.Holds M (s.wakeStep M w task rest) := by
  cases task with
  | object k =>
    refine h.setWaker htodo (fun x hx => mem_cons_of_mem _ hx) fun f => ?_
    rintro ⟨rfl,hforward⟩
    refine ⟨_,mem_cons_self,?_⟩
    split
    · exact ⟨rfl,hforward⟩
    · next hno => exact hforward.resolve_right fun hobs => hno hobs.1
  | collect k =>
    refine h.setWaker htodo (fun x hx => mem_cons_of_mem _ (mem_append_right _ hx)) fun f => ?_
    rintro ⟨rfl,heq | ⟨-,hset⟩⟩
    · exact ⟨.drain f.src,mem_cons_self,heq⟩
    · exact ⟨.drain f.tgt,mem_cons_of_mem _ (mem_append_left _ (mem_map_of_mem hset)),rfl⟩
  | drain k =>
    dsimp only [wakeStep]
    split
    · next heq =>
      -- a pass over the bucket that claims nothing has met no waiter of the fact
      refine h.claim rfl (fun _ => .inl rfl) (fun _ _ _ hin => hin)
        fun t f hblocked hentry hpend => pending_after hpend rfl htodo
          (setWaker_wakers s w _) (fun x hx => hx) ?_
      rintro rfl
      have hnone := congrArg Prod.fst heq
      exact absurd hblocked (not_blocked_of_claimFrom _ _ (by decide) hnone hentry (by simp))
    next t₀ ts bucket threads heq =>
    have hthreads := fun t => claimFrom_threads (fun e : BucketWaiter => e.koid == k)
      BucketWaiter.thread BATCH (s.bucketOf k) s.threads t
    rw [heq] at hthreads
    refine h.claim rfl hthreads (fun t k' hblocked hin => ?_)
      fun t f _ _ hpend => pending_after hpend rfl htodo (setWaker_wakers _ w _)
        (fun x hx => mem_cons_of_mem _ hx) fun haim => ⟨_,mem_cons_self,haim⟩
    simp only [bucketOf,setWaker_buckets,setBucket_buckets] at hin ⊢
    split
    · next hk =>
      rw [hk] at hin
      have hmem := mem_claimFrom (fun e : BucketWaiter => e.koid == k) BucketWaiter.thread
        hin (by rw [← bucketOf,heq]; exact hblocked)
      rw [← bucketOf,heq] at hmem
      exact hmem
    · exact hin
  | thread t =>
    dsimp only [wakeStep]
    split
    · refine h.claim rfl (fun t' => ?_) (fun _ _ _ hin => hin) fun t' f _ _ hpend =>
        pending_after hpend rfl htodo (setWaker_wakers _ w _) (fun x hx => hx) fun haim => haim.elim
      simp only [setWaker_threads,setThread_threads]
      split
      · exact .inr fun hb => by cases hb
      · exact .inl rfl
    · exact h.setWaker htodo (fun x hx => hx) fun _ haim => haim.elim
  | deadlines now =>
    dsimp only [wakeStep]
    split
    · exact h.setWaker htodo (fun x hx => hx) fun _ haim => haim.elim
    next t₀ ts timed threads heq =>
    have hthreads := fun t => claimFrom_threads (fun e : TimedWaiter => decide (e.deadline ≤ now))
      TimedWaiter.thread BATCH s.timed s.threads t
    rw [heq] at hthreads
    exact h.claim rfl hthreads (fun _ _ _ hin => hin) fun t' f _ _ hpend =>
      pending_after hpend rfl htodo (setWaker_wakers _ w _)
        (fun x hx => mem_cons_of_mem _ hx) fun haim => haim.elim

end Watch

/-- The operations keep the invariant, and one that makes a fact true wakes its object, in a
state in which the wake reaches the waiters. A wake that is on its way stays so for as long as
its fact holds. What is `allowed` may depend on the object on which a thread waits. -/
structure Covers (M : Machine Ω L Op Ch) (V : Watch Ω L) (allowed : Ω → Op → Koid → Prop) :
    Prop where
  inv : ∀ {op ω ω' wakes}, V.inv ω → M.perform op ω = some (ω', wakes) → V.inv ω'
  wakes : ∀ {op ω ω' wakes}, V.inv ω → M.perform op ω = some (ω', wakes) →
    ∀ f ∈ V.facts, allowed ω op f.tgt → f.holds ω' →
      (f.holds ω ∧ (Forwards M ω f → Forwards M ω' f)) ∨
        (Forwards M ω' f ∧ Wake.object f.src ∈ wakes)

namespace Watch

variable {V : Watch Ω L} {M : Machine Ω L Op Ch} {allowed : Ω → Op → Koid → Prop}
  {s s' s₀ : State Ω L}

theorem Holds.act (h : V.Holds M s) (hM : Covers M V allowed) {w : WakerId} {op : Op} {ω' : Ω}
    {wakes : List Wake} (hidle : (s.wakers w).todo = [])
    (hok : ∀ t k, ⟨t,k⟩ ∈ s.bucketOf k → allowed s.objects op k)
    (hop : M.perform op s.objects = some (ω', wakes)) :
    V.Holds M ({ s with objects := ω' }.setWaker w ⟨wakes,[],false,false⟩) := by
  refine ⟨hM.inv h.inv hop,h.registering,fun t pl q hblocked hpc => ?_⟩
  obtain ⟨hentries,seen,hsub,hseen,hcheck⟩ := h.waiting t pl q hblocked hpc
  refine ⟨hentries,seen,hsub,fun f hf hholds => ?_,hcheck⟩
  have hok := hok t _ (hentries _ (hsub hf).2)
  rcases hM.wakes h.inv hop f (hsub hf).1 hok hholds with ⟨hwas,hkeeps⟩ | ⟨hforward,hwake⟩
  · obtain ⟨w',task,hin,haim⟩ := hseen f hf hwas
    have hne : w' ≠ w := by
      rintro rfl
      rw [hidle] at hin
      cases hin
    refine ⟨w',task,by simpa [hne] using hin,?_⟩
    cases task with
    | object k | collect k => exact ⟨haim.1,hkeeps haim.2⟩
    | drain k => exact haim
    | _ => exact haim.elim
  · exact ⟨w,.object f.src,by simpa using hwake,rfl,hforward⟩

variable (V M allowed) in
/-- The operations are allowed ones for the objects on which threads are registered, and when a
thread has registered, its re-check and the facts that it cannot miss decide the wait. -/
def Allows (s : State Ω L) : Event Op Ch → Prop
  | .act _ op => ∀ t k, ⟨t,k⟩ ∈ s.bucketOf k → allowed s.objects op k
  | .park c _ => ∀ t p l, s.running c = some t → (s.threads t).pc = .register p l [] →
      V.Refutes (p, l) p.ready (V.unmissed M p s)
  | _ => True

theorem Holds.step (h : V.Holds M s) (hM : Covers M V allowed) {e : Event Op Ch}
    (hok : V.Allows M allowed s e) (hstep : step M s e = some s') : V.Holds M s' := by
  cases step_cases hstep with
  | start =>
    exact h.quiet ((Quiet.setThread fun hb => by cases hb).trans (Quiet.setCore _) fun _ => rfl)
  | act htodo _ hop => exact h.act hM htodo hok hop
  | @expire w now htodo _ =>
    refine h.quiet ⟨rfl,fun w' task hin => ?_,fun t => Thread.Calm.refl _,fun _ _ _ hin => hin⟩
    by_cases hw : w' = w
    · subst hw
      rw [htodo] at hin
      cases hin
    · simpa [hw] using hin
  | wake htodo _ => exact h.wakeStep htodo
  | spin | ready =>
    refine h.quiet (Quiet.of_threads rfl rfl (fun w' => ?_) fun t => ?_)
    · grind
    · grind [Thread.Calm]
  | push =>
    refine h.quiet (Quiet.of_threads rfl rfl (fun w' => ?_) fun t => Thread.Calm.refl _)
    grind [enqueueOn]
  | goto | enter => exact h.quiet (Quiet.goto s.timed fun _ => .inl ⟨rfl,rfl⟩)
  | park hrun hpark => exact h.parkStep (fun p l => hok _ p l hrun) hpark
  | yield => exact h.quiet (Quiet.requeue _)
  | exit => exact h.quiet Quiet.retire
  | block _ hpc => exact h.quiet (Quiet.blockCurrent hpc)
  | idle => exact h.quiet Quiet.dispatch
  | save =>
    refine h.quiet ((Quiet.setThread ?_).trans (Quiet.setCore _) fun _ => rfl)
    exact fun hb => .inr ⟨hb,rfl,rfl⟩

theorem Holds.of_start (h0 : Start s) (hinv : V.inv s.objects) : V.Holds M s := by
  refine ⟨hinv,fun t p rest _ hpc => ?_,fun t p q _ hpc => ?_⟩
  all_goals
    obtain ⟨-,-,-,l,hrun⟩ := h0.thread t
    rw [hrun] at hpc
    cases hpc

theorem holds_of_reaches {ok : State Ω L → Event Op Ch → Prop} (hM : Covers M V allowed)
    (h0 : Start s₀) (hinv : V.inv s₀.objects)
    (hok : ∀ s e, Reaches (Sched.step M) ok s₀ s → V.inv s.objects → ok s e →
      V.Allows M allowed s e)
    (hrun : Reaches (Sched.step M) ok s₀ s) : V.Holds M s := by
  refine (hrun.invariant (P := fun s => Reaches (Sched.step M) ok s₀ s ∧ V.Holds M s)
    ⟨.refl,.of_start h0 hinv⟩ ?_).2
  rintro s e s' ⟨hreach,h⟩ hallowed hstep
  exact ⟨hreach.tail hallowed hstep,h.step hM (hok s e hreach h.inv hallowed) hstep⟩

/-- A thread that is Blocked past its re-check although its wait is over: a wake for it is in
progress. -/
theorem Holds.pending_of_goal (h : V.Holds M s) {t : ThreadId} {pl : Park Ω × L}
    (hblocked : (s.threads t).state = .blocked)
    (hpast : (s.threads t).pc.remaining = some (pl, .done false)) (hgoal : V.goal pl s.objects) :
    ∃ f ∈ V.watched pl.1, f.holds s.objects ∧ Pending M s f := by
  obtain ⟨-,seen,hsub,hseen,hcheck⟩ := h.waiting t pl _ hblocked hpast
  obtain ⟨f,hf,hholds⟩ := hcheck s.objects h.inv hgoal
  exact ⟨f,hsub hf,hholds,hseen f hf hholds⟩

end Watch

end LiberSystem.Sched
