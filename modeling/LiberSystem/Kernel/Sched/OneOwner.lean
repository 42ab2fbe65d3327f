import LiberSystem.Kernel.Sched.Ownership

/-!
# A thread has one owner

The four ways in which a thread that has started and not exited can be held, in terms of
the cores, the queues and the wakers, and that each such thread is held in exactly one of
them in every state that is reached.
-/

namespace LiberSystem.Sched

open Option

variable {Ω L Op Ch : Type}

namespace State

variable (s : State Ω L) (t : ThreadId)

def Linked : Prop := ∃ c, t ∈ (s.cores c).runQueue

def Claimed : Prop := ∃ w, t ∈ (s.wakers w).batch

/-- The thread is in a park, on one core up to the switch and on none after it. -/
def InPark : Prop :=
  ((s.threads t).pc.phase = .parking ∧ ∃! c, (s.cores c).current = some t) ∨
    ((s.threads t).pc.phase = .parked ∧ ∀ c, (s.cores c).current ≠ some t)

end State

inductive Place where
  | running
  | linked
  | waiting
  | claimed
  deriving DecidableEq

def Place.Holds (s : State Ω L) (t : ThreadId) : Place → Prop
  | .running =>
    (∃! c, (s.cores c).current = some t) ∧ (s.threads t).state ≠ .blocked ∧ ¬ s.Linked t ∧
      ¬ s.Claimed t
  | .linked =>
    (∃! c, t ∈ (s.cores c).runQueue) ∧ (∀ c, (s.cores c).runQueue.count t ≤ 1) ∧
      (∀ c, (s.cores c).current ≠ some t) ∧ (s.threads t).state ≠ .blocked ∧ ¬ s.Claimed t
  | .waiting =>
    (s.threads t).state = .blocked ∧ s.InPark t ∧ ¬ s.Linked t ∧ ¬ s.Claimed t
  | .claimed =>
    (∃! w, t ∈ (s.wakers w).batch) ∧ (∀ w, (s.wakers w).batch.count t ≤ 1) ∧ s.InPark t ∧
      (s.threads t).state ≠ .blocked ∧ ¬ s.Linked t

namespace Owned

variable {owner : ThreadId → Owner} {s : State Ω L} {c : CoreId} {t : ThreadId}

section

variable (h : Owned owner s)
include h

theorem linked_iff : s.Linked t ↔ ∃ c, owner t = .queue c := exists_congr fun c => h.queued c t

theorem claimed_iff : s.Claimed t ↔ ∃ w, (owner t).claimer = some w :=
  exists_congr fun w => h.claimed w t

theorem current_unique (hon : (owner t).onCore = some c) : ∃! c, (s.cores c).current = some t := by
  refine ⟨c,(h.current c t).mpr hon,fun c' hc' => ?_⟩
  have hon' := (h.current c' t).mp hc'
  exact (some.inj (hon.symm.trans hon')).symm

theorem not_current (hoff : (owner t).onCore = none) (c : CoreId) :
    (s.cores c).current ≠ some t := by
  intro hc
  rw [(h.current c t).mp hc] at hoff
  cases hoff

theorem inPark {o : Option CoreId} (hon : (owner t).onCore = o)
    (hphase : (s.threads t).pc.phase = if o = none then .parked else .parking) : s.InPark t := by
  cases o with
  | none => exact .inr ⟨hphase,h.not_current hon⟩
  | some c => exact .inl ⟨hphase,h.current_unique hon⟩

theorem exists_place (hstarted : (s.threads t).started) (hlive : (s.threads t).state ≠ .exited) :
    ∃ place : Place, place.Holds s t := by
  have hfits := h.fits t
  have hlinked := h.linked_iff (t := t)
  have hclaimed := h.claimed_iff (t := t)
  generalize ho : owner t = own at hfits hlinked hclaimed
  cases own with
  | nobody =>
    simp [Owner.Fits,hstarted,hlive] at hfits
  | core c =>
    refine ⟨.running,h.current_unique (by rw [ho]; rfl),?_,?_,?_⟩
    · obtain ⟨-,hstate | hstate,-⟩ := hfits <;> simp [hstate]
    · simp [hlinked]
    · simp [hclaimed,Owner.claimer]
  | queue c =>
    refine ⟨.linked,⟨c,(h.queued c t).mpr ho,fun c' hc' => ?_⟩,fun c' => ?_,?_,?_,?_⟩
    · have := ho.symm.trans ((h.queued c' t).mp hc')
      cases this
      rfl
    · exact List.nodup_iff_count_le_one.mp (h.queue_nodup c') t
    · exact h.not_current (by rw [ho]; rfl)
    · simp [hfits.2.1]
    · simp [hclaimed,Owner.claimer]
  | waiting o =>
    refine ⟨.waiting,?_,h.inPark (o := o) (by rw [ho]; rfl) ?_,?_,?_⟩
    · cases o <;> exact hfits.2.1
    · cases o
      · exact hfits.2.2
      · exact hfits.2.2.2
    · simp [hlinked]
    · simp [hclaimed,Owner.claimer]
  | waker w o =>
    refine ⟨.claimed,⟨w,(h.claimed w t).mpr (by rw [ho]; rfl),fun w' hw' => ?_⟩,fun w' => ?_,
      h.inPark (o := o) (by rw [ho]; rfl) ?_,?_,?_⟩
    · have := (h.claimed w' t).mp hw'
      rw [ho] at this
      exact (some.inj this).symm
    · exact List.nodup_iff_count_le_one.mp (h.batch_nodup w') t
    · cases o
      · exact hfits.2.2
      · exact hfits.2.2.2
    · cases o <;> simp [hfits.2.1]
    · simp [hlinked]

end

end Owned

variable {t : ThreadId} {s : State Ω L}

theorem Place.Holds.unique {place place' : Place}
    (h : place.Holds s t) (h' : place'.Holds s t) : place = place' := by
  have hlinked : (∃! c, t ∈ (s.cores c).runQueue) → s.Linked t := fun hc => hc.exists
  have hclaimed : (∃! w, t ∈ (s.wakers w).batch) → s.Claimed t := fun hw => hw.exists
  cases place <;> cases place' <;> simp only [Place.Holds] at h h' <;> grind

namespace State

variable {s s' : State Ω L} {c c' : CoreId} {t t' : ThreadId}

theorem saving_of_running (hrun : s.running c = some t) : (s.cores c).saving = none := by
  unfold running at hrun
  split at hrun
  · assumption
  · cases hrun

theorem ParkStep.cores_eq {room : Bool} (h : ParkStep s t room s') : s'.cores = s.cores := by
  cases h <;> rfl

theorem enqueueOn_current : ((s.enqueueOn c t).cores c').current = (s.cores c').current := by
  grind [enqueueOn]

theorem dispatch_current (h : ((s.dispatch c).cores c').current = some t) :
    (s.cores c').current = some t ∨ c' = c ∧ (s.cores c).runQueue.head? = some t := by
  unfold dispatch at h
  split at h
  · exact .inl h
  · next hqueue => grind

theorem leave_dispatch_current {queue : List ThreadId}
    (h : (((s.leave c t queue).dispatch c).cores c').current = some t') :
    (s.cores c').current = some t' ∨ c' = c ∧ queue.head? = some t' := by
  rcases dispatch_current h with h | h
  · grind
  · exact .inr (by simpa using h)

end State

open State in
/-- A step makes a thread current only if it stood first in the queue of a core that has
no stack pointer left to store. -/
theorem current_of_step {M : Machine Ω L Op Ch} {s' : State Ω L} {e : Event Op Ch}
    {c : CoreId} (hstep : step M s e = some s')
    (hcur : (s'.cores c).current = some t) (hwas : (s.cores c).current ≠ some t) :
    (s.cores c).runQueue.head? = some t ∧ (s.cores c).saving = none := by
  cases step_cases hstep with
  | start =>
    rw [enqueueOn_current] at hcur
    exact absurd hcur hwas
  | act | expire | spin | ready | goto | enter => exact absurd hcur hwas
  | wake =>
    obtain ⟨ts,todo,hclaims⟩ := wakeStep_claims M s _ _ _
    rw [hclaims.cores] at hcur
    exact absurd hcur hwas
  | push =>
    rw [setWaker_cores,enqueueOn_current] at hcur
    exact absurd hcur hwas
  | park _ hpark =>
    rw [hpark.cores_eq] at hcur
    exact absurd hcur hwas
  | yield hrun _ =>
    have hsaving := saving_of_running hrun
    unfold requeue at hcur
    split at hcur
    · grind
    split at hcur
    · exact absurd hcur hwas
    next hne =>
    rcases leave_dispatch_current hcur with hcur | ⟨rfl,hhead⟩
    · exact absurd hcur hwas
    · rw [List.head?_append_of_ne_nil _ hne] at hhead
      exact ⟨hhead,hsaving⟩
  | exit hrun _ | block hrun _ =>
    rcases leave_dispatch_current hcur with hcur | ⟨rfl,hhead⟩
    · exact absurd hcur hwas
    · exact ⟨hhead,saving_of_running hrun⟩
  | idle hsaving _ =>
    rcases dispatch_current hcur with hcur | ⟨rfl,hhead⟩
    · exact absurd hcur hwas
    · exact ⟨hhead,hsaving⟩
  | save => grind

variable {M : Machine Ω L Op Ch} {s₀ s : State Ω L}

theorem owned_of_reaches (h0 : Start s₀)
    (hrun : Reaches (step M) (fun s e => reclaims s e) s₀ s) : ∃ owner, Owned owner s :=
  hrun.invariant ⟨_,Owned.of_start h0⟩ fun _ _ _ h hok hstep => Owned.step h hok hstep

/-- In every state, each thread that has started and not exited is held in exactly one of
the four ways. No waker enqueues a thread that a core runs, no thread is current on two
cores, and a core switches only to a thread whose stack pointer is stored. -/
theorem one_owner (h0 : Start s₀) (hrun : Reaches (step M) (fun s e => reclaims s e = true) s₀ s) :
    (∀ t, (s.threads t).started = true → (s.threads t).state ≠ .exited →
      ∃! place : Place, place.Holds s t) ∧
    (∀ w c s' t, step M s (.push w c) = some s' → (s.wakers w).batch.head? = some t →
      ∀ c', (s.cores c').current ≠ some t) ∧
    (∀ c c' t, (s.cores c).current = some t → (s.cores c').current = some t → c = c') ∧
    (∀ e s' c t, step M s e = some s' → (s'.cores c).current = some t →
      (s.cores c).current ≠ some t →
      (s.threads t).saved = true ∧ ∀ c', (s.cores c').saving ≠ some t) := by
  obtain ⟨owner,h⟩ := owned_of_reaches h0 hrun
  refine ⟨fun t hstarted hlive => ?_,fun w c s' t hstep hhead => ?_,fun c c' t hc hc' => ?_,
    fun e s' c t hstep hcur hwas => ?_⟩
  · obtain ⟨place,hplace⟩ := h.exists_place hstarted hlive
    exact ⟨place,hplace,fun place' h' => h'.unique hplace⟩
  · cases step_cases hstep with
    | @push _ _ t' ts hbatch hseen =>
      obtain rfl : t' = t := by simpa [hbatch] using hhead
      exact h.not_current (by rw [(h.parked_of_seen hbatch hseen).2]; rfl)
  · exact some.inj (((h.current c t).mp hc).symm.trans ((h.current c' t).mp hc'))
  obtain ⟨hhead,hsaving⟩ := current_of_step hstep hcur hwas
  have howner := (h.queued c t).mp (List.mem_of_mem_head? hhead)
  refine ⟨?_,fun c' hs => ?_⟩
  · have := h.queue_saved c t howner
    rw [hsaving] at this
    simpa using this
  have hleave := h.saving c' t hs
  rw [howner] at hleave
  obtain rfl : c = c' := hleave
  rw [hsaving] at hs
  cases hs

namespace Signalled

def machine : Machine Unit Unit Unit Unit where
  move _ _ _ _ := some (.block ⟨[5],none,.done false,false⟩ ())
  perform _ _ := some ((), [.thread 0])
  observed _ := false
  watchers _ _ := []

def start : State Unit Unit where
  objects := ()
  threads _ := ⟨false,.ready,true,none,.run ()⟩
  cores _ := ⟨none,none,[]⟩
  buckets _ := []
  timed := []
  wakers _ := ⟨[],[],false,false⟩

theorem start_start : Start start :=
  ⟨fun _ => ⟨rfl,rfl,rfl,(),rfl⟩,fun _ => rfl,fun _ => rfl,rfl,fun _ => rfl⟩

def armed : List (Event Unit Unit) :=
  [.start 0 0,.idle 0,.move 0 (),.park 0 true,.park 0 true,.park 0 true,.act 0 ()]

def woken : List (Event Unit Unit) :=
  armed ++ [.park 0 true,.wake 0,.park 0 true,.park 0 true,.park 0 true,.block 0,.save 0,.spin 0,
    .ready 0,.push 0 1]

/-- The waker claims the thread, the heap is short under the bucket's lock, and the thread
goes on. -/
def overlooked : List (Event Unit Unit) :=
  armed ++ [.wake 0,.park 0 false,.park 0 true]

def relinked : List (Event Unit Unit) :=
  overlooked ++ [.yield 0 true,.save 0,.spin 0,.ready 0,.push 0 0]

end Signalled

open Signalled in
theorem one_owner_woken : ∃ s, Reaches (step machine) (fun s e => reclaims s e = true) start s ∧
    (s.threads 0).started = true ∧ (s.threads 0).state ≠ .exited ∧ 0 ∈ (s.cores 1).runQueue ∧
    ∃! place : Place, place.Holds s 0 := by
  refine exists_reaches_imp (P := fun s => (s.threads 0).started = true ∧
      (s.threads 0).state ≠ .exited ∧ 0 ∈ (s.cores 1).runQueue) woken (by decide +kernel)
    fun s hreach ⟨hstarted,hlive,hqueue⟩ => ?_
  exact ⟨hstarted,hlive,hqueue,(one_owner start_start hreach).1 0 hstarted hlive⟩

open Signalled in
/-- The arm for a short heap does not see that a signal has claimed the thread: the thread
runs on while the waker waits for its stack pointer, and is then linked twice. -/
theorem linked_twice :
    (∃ s, Reaches (step machine) (fun _ _ => True) start s ∧ (s.threads 0).started = true ∧
      (s.threads 0).state ≠ .exited ∧ ¬ ∃ place : Place, place.Holds s 0) ∧
    ∃ s, Reaches (step machine) (fun _ _ => True) start s ∧ (s.cores 0).runQueue = [0,0] := by
  refine ⟨exists_reaches_imp (P := fun s => (s.threads 0).started = true ∧
      (s.threads 0).state = .ready ∧ (s.threads 0).pc.phase = .awake ∧ (s.wakers 0).batch = [0])
    overlooked (by decide +kernel) fun s _ ⟨hstarted,hstate,hphase,hbatch⟩ => ?_,
    exists_reaches relinked (by decide +kernel)⟩
  have hclaimed : s.Claimed 0 := ⟨0,by simp [hbatch]⟩
  refine ⟨hstarted,by simp [hstate],?_⟩
  rintro ⟨place,hplace⟩
  cases place with
  | running => exact hplace.2.2.2 hclaimed
  | linked => exact hplace.2.2.2.2 hclaimed
  | waiting =>
    have hblocked := hplace.1
    rw [hstate] at hblocked
    cases hblocked
  | claimed =>
    obtain ⟨-,-,hpark,-,-⟩ := hplace
    simp [State.InPark,hphase] at hpark

end LiberSystem.Sched
