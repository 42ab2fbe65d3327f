import LiberSystem.Kernel.Sched.Parking

/-!
# The owner of a thread

At any time one party decides what happens next to a thread: the core it runs on, the run queue it
stands in, nobody while it waits, or the waker that has claimed it.
-/

namespace LiberSystem.Sched

open Function Option State Pc

variable {Ω L Op Ch : Type}

/-- The part of a park that a thread is in. -/
inductive Phase where
  /-- Outside of a park, or in a part of it in which the thread runs as any other. -/
  | awake
  /-- Between the two stores of `begin_park`. -/
  | armed
  /-- After `begin_park`, still on its core. -/
  | parking
  /-- Switched away from, or back again and not yet past `reschedule`. -/
  | parked
  deriving DecidableEq

def Pc.phase : Pc Ω L → Phase
  | .run _ | .reserve _ _ | .arm _ _ | .reprieve _ _ | .reclaimed _ _ | .cleanup _ _ _ => .awake
  | .mark _ _ => .armed
  | .register _ _ _ | .retract _ _ _ | .timed _ _ | .recheck _ _ _ | .abort _ _
  | .switch _ _ => .parking
  | .parked _ _ => .parked

theorem Pc.awake_of_preemptible {pc : Pc Ω L} (h : pc.preemptible) : pc.phase = .awake := by
  cases pc with
  | run | reserve => rfl
  | _ => cases h

/-- Who may decide what happens next to a thread. A thread that waits or that a waker
has claimed is on a core until its park is complete. -/
inductive Owner where
  | nobody
  | core (c : CoreId)
  | queue (c : CoreId)
  | waiting (at? : Option CoreId)
  | waker (w : WakerId) (at? : Option CoreId)
  deriving DecidableEq

namespace Owner

def onCore : Owner → Option CoreId
  | .core c => some c
  | .waiting c | .waker _ c => c
  | .nobody | .queue _ => none

def claimer : Owner → Option WakerId
  | .waker w _ => some w
  | _ => none

def Fits : Owner → Thread Ω L → Prop
  | .nobody, th =>
    (th.started = false ∧ th.state = .ready ∧ th.saved = true ∧ th.pc.phase = .awake) ∨
      (th.started = true ∧ th.state = .exited)
  | .core _, th =>
    th.started = true ∧ (th.state = .ready ∨ th.state = .running) ∧
      (th.pc.phase = .awake ∨ th.pc.phase = .parked ∨ th.pc.phase = .armed ∧ th.saved = false)
  | .queue _, th =>
    th.started = true ∧ th.state = .ready ∧ (th.pc.phase = .awake ∨ th.pc.phase = .parked)
  | .waiting (some _), th =>
    th.started = true ∧ th.state = .blocked ∧ th.saved = false ∧ th.pc.phase = .parking
  | .waiting none, th => th.started = true ∧ th.state = .blocked ∧ th.pc.phase = .parked
  | .waker _ (some _), th =>
    th.started = true ∧ th.state = .ready ∧ th.saved = false ∧ th.pc.phase = .parking
  | .waker _ none, th => th.started = true ∧ th.state = .ready ∧ th.pc.phase = .parked

/-- What holds of a thread whose stack pointer the core `c` is about to store. -/
def Leaving : Owner → CoreId → Thread Ω L → Prop
  | .nobody, _, th => th.state = .exited
  | .queue c', c, _ => c' = c
  | .waiting none, _, th | .waker _ none, _, th => th.saved = false
  | _, _, _ => False

variable {o : Owner} {th : Thread Ω L}

theorem Fits.congr {th' : Thread Ω L} (h : o.Fits th)
    (hstarted : th'.started = th.started) (hstate : th'.state = th.state)
    (hsaved : th'.saved = th.saved) (hphase : th'.pc.phase = th.pc.phase) : o.Fits th' := by
  cases o with
  | waiting c | waker w c => cases c <;> grind [Fits]
  | _ => grind [Fits]

theorem waiting_of_blocked (h : o.Fits th)
    (hblocked : th.state = .blocked) : ∃ c, o = .waiting c := by
  cases o with
  | waiting c => exact ⟨c,rfl⟩
  | waker w c => cases c <;> grind [Fits]
  | _ => grind [Fits]

end Owner

/-- The queues, the cores and the wakers hold each thread as its owner says. -/
structure Owned (owner : ThreadId → Owner) (s : State Ω L) : Prop where
  fits : ∀ t, (owner t).Fits (s.threads t)
  current : ∀ c t, (s.cores c).current = some t ↔ (owner t).onCore = some c
  queued : ∀ c t, t ∈ (s.cores c).runQueue ↔ owner t = .queue c
  queue_nodup : ∀ c, (s.cores c).runQueue.Nodup
  claimed : ∀ w t, t ∈ (s.wakers w).batch ↔ (owner t).claimer = some w
  batch_nodup : ∀ w, (s.wakers w).batch.Nodup
  seen : ∀ w, (s.wakers w).seen = true → ∀ t ∈ (s.wakers w).batch.head?,
    (s.threads t).saved = true
  saving : ∀ c t, (s.cores c).saving = some t → (owner t).Leaving c (s.threads t)
  saving_inj : ∀ c c' t, (s.cores c).saving = some t → (s.cores c').saving = some t → c = c'
  queue_saved : ∀ c t, owner t = .queue c →
    (s.threads t).saved = true ∨ (s.cores c).saving = some t

namespace Owned

variable {owner : ThreadId → Owner} {s : State Ω L} {c : CoreId} {t : ThreadId}

theorem of_start (h : Start s) : Owned (fun _ => .nobody) s := by
  refine ⟨?_,?_,?_,?_,?_,?_,?_,?_,?_,?_⟩
  · intro t
    obtain ⟨hstarted,hready,hsaved,l,hpc⟩ := h.thread t
    exact .inl ⟨hstarted,hready,hsaved,by rw [hpc]; rfl⟩
  all_goals grind [h.core,h.waker,Owner.onCore,Owner.claimer]

theorem onCore_of_running (h : Owned owner s) (hrun : s.running c = some t) :
    (owner t).onCore = some c := by
  refine (h.current c t).mp ?_
  unfold running at hrun
  split at hrun
  · exact hrun
  · cases hrun

section

variable (h : Owned owner s) (hon : (owner t).onCore = some c)
include h hon

theorem not_saving (c' : CoreId) : (s.cores c').saving ≠ some t := by
  intro hs
  have hleave := h.saving c' t hs
  cases ho : owner t <;> grind [Owner.onCore,Owner.Leaving]

theorem not_queued (c' : CoreId) : t ∉ (s.cores c').runQueue := by
  intro hin
  simp [(h.queued c' t).mp hin,Owner.onCore] at hon

theorem not_seen (w : WakerId) (hw : (s.wakers w).seen) : t ∉ (s.wakers w).batch.head? := by
  intro hhead
  have hsaved := h.seen w hw t hhead
  have hclaim := (h.claimed w t).mp (List.mem_of_mem_head? hhead)
  have hfits := h.fits t
  cases ho : owner t <;> grind [Owner.onCore,Owner.claimer,Owner.Fits]

end

theorem core_of_running (h : Owned owner s) (hrun : s.running c = some t)
    (hphase : (s.threads t).pc.phase ≠ .parking) :
    owner t = .core c ∧ (Owner.core c).Fits (s.threads t) := by
  have hon := h.onCore_of_running hrun
  have hfits := h.fits t
  suffices ho : owner t = .core c from ⟨ho,ho ▸ hfits⟩
  cases ho : owner t with
  | waiting o | waker w o => cases o <;> grind [Owner.Fits,Owner.onCore]
  | _ => grind [Owner.onCore]

variable {s' : State Ω L} {th : Thread Ω L} {o : Owner} {queue ts : List ThreadId} {w : WakerId}
  {l : L}

variable (h : Owned owner s) {ts : List ThreadId}

include h

section

variable (hrun : s.running c = some t)
include hrun

theorem update (o : Owner) (th : Thread Ω L) (hfits : o.Fits th) (hcore : o.onCore = some c)
    (hclaim : o.claimer = (owner t).claimer)
    (hthreads : ∀ t', s'.threads t' = if t' = t then th else s.threads t')
    (hcores : ∀ c', s'.cores c' = s.cores c') (hwakers : ∀ w, s'.wakers w = s.wakers w) :
    Owned (Function.update owner t o) s' := by
  have hon := h.onCore_of_running hrun
  have hns := h.not_saving hon
  have hunseen := h.not_seen hon
  refine ⟨?_,?_,?_,?_,?_,?_,?_,?_,?_,?_⟩
  · intro t'
    have := h.fits t'
    by_cases ht : t' = t <;> grind
  · intro c' t'
    have := h.current c' t'
    grind
  · intro c' t'
    have := h.queued c' t'
    grind [Owner.onCore]
  · intro c'
    rw [hcores]
    exact h.queue_nodup c'
  · intro w t'
    have := h.claimed w t'
    grind
  · intro w
    rw [hwakers]
    exact h.batch_nodup w
  · intro w hw t' ht'
    rw [hwakers] at hw ht'
    have hne : t' ≠ t := fun heq => hunseen w hw (heq ▸ ht')
    rw [hthreads,if_neg hne]
    exact h.seen w hw t' ht'
  · intro c' t' hs
    rw [hcores] at hs
    have hne : t' ≠ t := fun heq => hns c' (heq ▸ hs)
    rw [hthreads,if_neg hne,update_of_ne hne]
    exact h.saving c' t' hs
  · intro c₁ c₂ t'
    rw [hcores,hcores]
    exact h.saving_inj c₁ c₂ t'
  · intro c' t' ho
    have := h.queue_saved c' t'
    grind [Owner.onCore]

theorem stay {pc : Pc Ω L} (hthreads : s'.threads = s.threads) (hcores : s'.cores = s.cores)
    (hwakers : s'.wakers = s.wakers) (hphase : pc.phase = (s.threads t).pc.phase) :
    ∃ owner', Owned owner' (s'.goto t pc) := by
  refine ⟨_,h.update hrun (owner t) { s.threads t with pc := pc }
    ((h.fits t).congr rfl rfl rfl hphase) (h.onCore_of_running hrun) rfl (fun t' => ?_)
    (fun c' => congrFun hcores c') fun w => congrFun hwakers w⟩
  rw [goto,setThread_threads,hthreads]

theorem reclaim (pc : Pc Ω L) (hblocked : (s.threads t).state = .blocked)
    (hphase : pc.phase = .awake) : ∃ owner', Owned owner' (s.setState t .ready pc) := by
  have hfits := h.fits t
  obtain ⟨o,ho⟩ := Owner.waiting_of_blocked hfits hblocked
  refine ⟨_,h.update hrun (.core c) { s.threads t with state := .ready, pc := pc } ?_ rfl
    (by rw [ho]; rfl) (fun t' => ?_) (fun _ => rfl) fun _ => rfl⟩
  · cases o <;> grind [Owner.Fits]
  · grind [setState]

theorem advance (hwas : (s.threads t).pc.phase ≠ .parking) (hfits : (Owner.core c).Fits th)
    (hs' : s' = s.setThread t th) : ∃ owner', Owned owner' s' := by
  subst hs'
  have ho := (h.core_of_running hrun hwas).1
  exact ⟨_,h.update hrun (.core c) th hfits rfl (by rw [ho]) (fun t' => by grind)
    (fun _ => rfl) fun _ => rfl⟩

theorem leave (hfits : o.Fits th) (hcore : o.onCore = none)
    (hclaim : o.claimer = (owner t).claimer) (hleave : o.Leaving c th)
    (hqueue : (o = .queue c ∧ queue = (s.cores c).runQueue ++ [t]) ∨
      ((∀ c', o ≠ .queue c') ∧ queue = (s.cores c).runQueue)) :
    Owned (Function.update owner t o) ((s.setThread t th).leave c t queue) := by
  have hon := h.onCore_of_running hrun
  have hns := h.not_saving hon
  have hunseen := h.not_seen hon
  have hnotin := h.not_queued hon
  have hidle : (s.cores c).saving = none := by
    unfold running at hrun
    split at hrun
    · assumption
    · cases hrun
  refine ⟨?_,?_,?_,?_,?_,h.batch_nodup,?_,?_,?_,?_⟩
  · intro t'
    by_cases ht : t' = t
    · subst ht
      simpa using hfits
    · simpa [ht] using h.fits t'
  · intro c' t'
    have hcur := h.current c' t'
    have hcur' := h.current c t
    by_cases hc : c' = c <;> by_cases ht : t' = t <;> grind
  · intro c' t'
    have hq := h.queued c' t'
    by_cases hc : c' = c <;> by_cases ht : t' = t <;> grind
  · intro c'
    have hnodup := h.queue_nodup c'
    by_cases hc : c' = c <;> grind [List.nodup_append]
  · intro w t'
    have hcl := h.claimed w t'
    by_cases ht : t' = t <;> grind
  · intro w hw t' ht'
    have hne : t' ≠ t := fun heq => hunseen w hw (heq ▸ ht')
    simpa [hne] using h.seen w hw t' ht'
  · intro c' t' hs
    by_cases hc : c' = c
    · subst hc
      obtain rfl : t = t' := by simpa using hs
      simpa using hleave
    · have hs' : (s.cores c').saving = some t' := by simpa [hc] using hs
      have hne : t' ≠ t := fun heq => hns c' (heq ▸ hs')
      simpa [hne] using h.saving c' t' hs'
  · intro c₁ c₂ t' h₁ h₂
    have := h.saving_inj c₁ c₂ t'
    grind
  · intro c' t' ho
    by_cases ht : t' = t
    · subst ht
      obtain rfl : o = .queue c' := by simpa using ho
      obtain rfl : c' = c := hleave
      simp
    · have hq := h.queue_saved c' t' (by simpa [ht] using ho)
      grind

end

theorem dispatch (hidle : (s.cores c).current = none)
    (hsaved : ∀ t ∈ (s.cores c).runQueue.head?, (s.cores c).saving ≠ some t) :
    ∃ owner', Owned owner' (s.dispatch c) := by
  unfold State.dispatch
  split
  · exact ⟨owner,h⟩
  next t rest hqueue =>
  have howner : owner t = .queue c := (h.queued c t).mp (by simp [hqueue])
  have hnodup := h.queue_nodup c
  have hns : ∀ c', (s.cores c').saving ≠ some t := by
    intro c' hs
    have hleave := h.saving c' t hs
    rw [howner] at hleave
    have hc : c = c' := hleave
    exact hsaved t (by simp [hqueue]) (hc ▸ hs)
  refine ⟨Function.update owner t (.core c),?_,?_,?_,?_,?_,h.batch_nodup,?_,?_,?_,?_⟩
  · intro t'
    have := h.fits t'
    by_cases ht : t' = t <;> grind [Owner.Fits]
  · intro c' t'
    have hcur := h.current c' t'
    by_cases hc : c' = c <;> by_cases ht : t' = t <;>
      grind [Owner.onCore]
  · intro c' t'
    have hq := h.queued c' t'
    by_cases hc : c' = c <;> by_cases ht : t' = t <;> grind
  · intro c'
    have := h.queue_nodup c'
    by_cases hc : c' = c <;> grind
  · intro w t'
    have hcl := h.claimed w t'
    by_cases ht : t' = t <;> grind [Owner.claimer]
  · intro w hw t' ht'
    have := h.seen w hw t' ht'
    by_cases ht : t' = t <;> grind
  · intro c' t' hs
    have hs' : (s.cores c').saving = some t' := by grind
    have hne : t' ≠ t := fun heq => hns c' (heq ▸ hs')
    simpa [hne] using h.saving c' t' hs'
  · intro c₁ c₂ t' h₁ h₂
    have := h.saving_inj c₁ c₂ t'
    grind
  intro c' t' ho
  have hne : t' ≠ t := by
    rintro rfl
    simp at ho
  have hq := h.queue_saved c' t' (by simpa [update_of_ne hne] using ho)
  grind

theorem claim {todo : List Wake} (hidle : (s.wakers w).batch = [])
    (hclaims : s.Claims w ts todo s') : ∃ owner', Owned owner' s' := by
  obtain ⟨hnodup,hblocked,-,hcores,hthreads,hwakers⟩ := hclaims
  have hwaits : ∀ t ∈ ts, ∃ o, owner t = .waiting o :=
    fun t ht => Owner.waiting_of_blocked (h.fits t) (hblocked t ht)
  refine ⟨fun t => if t ∈ ts then .waker w (owner t).onCore else owner t,?_,?_,?_,?_,?_,?_,?_,?_,?_,
    ?_⟩
  · intro t
    have := h.fits t
    by_cases ht : t ∈ ts
    · obtain ⟨o,ho⟩ := hwaits t ht
      cases o <;> grind [Owner.Fits,Owner.onCore]
    · grind
  · intro c t
    have := h.current c t
    by_cases ht : t ∈ ts <;> grind [Owner.onCore]
  · intro c t
    have := h.queued c t
    by_cases ht : t ∈ ts
    · obtain ⟨o,ho⟩ := hwaits t ht
      grind
    · grind
  · intro c
    have := h.queue_nodup c
    grind
  · intro w' t
    have := h.claimed w' t
    by_cases ht : t ∈ ts
    · obtain ⟨o,ho⟩ := hwaits t ht
      grind [Owner.claimer]
    · grind
  · intro w'
    have := h.batch_nodup w'
    grind
  · intro w' hw t ht
    have := h.seen w'
    grind
  · intro c t hs
    have := h.saving c t (by grind)
    by_cases ht : t ∈ ts
    · obtain ⟨o,ho⟩ := hwaits t ht
      cases o <;> grind [Owner.Leaving,Owner.onCore]
    · grind
  · intro c c' t
    have := h.saving_inj c c' t
    grind
  · intro c t ho
    have := h.queue_saved c t
    grind

/-- A thread whose stack pointer the waker has seen has completed its park. -/
theorem parked_of_seen (hbatch : (s.wakers w).batch = t :: ts) (hseen : (s.wakers w).seen) :
    (s.threads t).saved ∧ owner t = .waker w none := by
  have hsaved := h.seen w hseen t (by simp [hbatch])
  have hclaim := (h.claimed w t).mp (by simp [hbatch])
  have hfits := h.fits t
  refine ⟨hsaved,?_⟩
  cases ho : owner t with
  | waker w' o => cases o <;> grind [Owner.Fits,Owner.claimer]
  | _ => grind [Owner.claimer]

theorem congr (hthreads : s'.threads = s.threads)
    (hcores : s'.cores = s.cores) (hbatch : ∀ w, (s'.wakers w).batch = (s.wakers w).batch)
    (hseen : ∀ w, (s'.wakers w).seen → ∀ t ∈ (s.wakers w).batch.head?,
      (s.threads t).saved) : Owned owner s' := by
  refine ⟨?_,?_,?_,?_,?_,?_,?_,?_,?_,?_⟩
  all_goals simp only [hthreads,hcores,hbatch]
  exacts [h.fits,h.current,h.queued,h.queue_nodup,h.claimed,h.batch_nodup,hseen,h.saving,
    h.saving_inj,h.queue_saved]

theorem spin (hbatch : (s.wakers w).batch = t :: ts) (hsaved : (s.threads t).saved) :
    Owned owner (s.setWaker w { s.wakers w with seen := true }) := by
  refine h.congr rfl rfl (fun w' => ?_) fun w' hw t' ht' => ?_
  · grind
  · have := h.seen w'
    grind

theorem ready (hbatch : (s.wakers w).batch = t :: ts) (hseen : (s.wakers w).seen) :
    Owned owner ((s.setThread t { s.threads t with state := .ready }).setWaker w
      { s.wakers w with stored := true }) := by
  obtain ⟨-,ho⟩ := h.parked_of_seen hbatch hseen
  have hfits := h.fits t
  have hready : (s.threads t).state = .ready := by grind [Owner.Fits]
  have hsame : { s.threads t with state := .ready } = s.threads t := by rw [← hready]
  refine h.congr ?_ rfl (fun w' => ?_) fun w' hw t' ht' => ?_
  · rw [hsame]
    exact update_eq_self t s.threads
  · grind
  · have := h.seen w'
    grind

theorem enqueue (c : CoreId) (th : Thread Ω L)
    (hoff : (owner t).onCore = none) (hqueue : ∀ c', owner t ≠ .queue c')
    (hnosave : ∀ c', (s.cores c').saving ≠ some t) (hfits : (Owner.queue c).Fits th)
    (hsaved : th.saved)
    (hthreads : ∀ t', s'.threads t' = if t' = t then th else s.threads t')
    (hcores : ∀ c', s'.cores c' = if c' = c then
      { s.cores c with runQueue := (s.cores c).runQueue ++ [t] } else s.cores c')
    (hclaimed : ∀ w t', t' ∈ (s'.wakers w).batch ↔ t' ≠ t ∧ t' ∈ (s.wakers w).batch)
    (hbatch : ∀ w, (s'.wakers w).batch.Nodup)
    (hseen : ∀ w, (s'.wakers w).seen →
      (s.wakers w).seen ∧ (s'.wakers w).batch = (s.wakers w).batch) :
    Owned (Function.update owner t (.queue c)) s' := by
  refine ⟨?_,?_,?_,?_,?_,hbatch,?_,?_,?_,?_⟩
  · intro t'
    have := h.fits t'
    by_cases ht : t' = t <;> grind
  · intro c' t'
    have := h.current c' t'
    by_cases ht : t' = t <;> grind [Owner.onCore]
  · intro c' t'
    have := h.queued c' t'
    by_cases ht : t' = t <;> grind
  · intro c'
    have hnodup := h.queue_nodup c'
    have := h.queued c' t
    grind
  · intro w t'
    have := h.claimed w t'
    by_cases ht : t' = t <;> grind [Owner.claimer]
  · intro w hw t' ht'
    obtain ⟨hw',hsame⟩ := hseen w hw
    have := h.seen w hw' t' (hsame ▸ ht')
    grind
  · intro c' t' hs
    have hs' : (s.cores c').saving = some t' := by grind
    have := h.saving c' t' hs'
    grind
  · intro c₁ c₂ t'
    have := h.saving_inj c₁ c₂ t'
    grind
  · intro c' t' ho
    have := h.queue_saved c' t'
    by_cases ht : t' = t <;> grind

theorem start (hnew : (s.threads t).started = false) : ∃ owner', Owned owner' ((s.setThread t
      { s.threads t with started := true, state := .ready }).enqueueOn c t) := by
  have hfits := h.fits t
  have ho : owner t = .nobody := by
    cases ho : owner t with
    | waiting o | waker w o => cases o <;> grind [Owner.Fits]
    | _ => grind [Owner.Fits]
  rw [ho] at hfits
  obtain ⟨-,hready,hsaved,hphase⟩ | ⟨hstarted,-⟩ := hfits
  · refine ⟨_,h.enqueue ((s.threads t).cpuPlacement.getD c)
      { s.threads t with started := true, state := .ready } (by rw [ho]; rfl) (by simp [ho]) ?_
      ⟨rfl,rfl,.inl hphase⟩ hsaved (fun t' => ?_) (fun c' => ?_) (fun w' t' => ?_)
      h.batch_nodup fun w' hw => ⟨hw,rfl⟩⟩
    · intro c' hs
      have hleave := h.saving c' t hs
      rw [ho] at hleave
      simp [Owner.Leaving,hready] at hleave
    · simp [enqueueOn]
    · simp [enqueueOn]
    have hclaim := h.claimed w' t
    rw [ho] at hclaim
    have hne : t' ∈ (s.wakers w').batch → t' ≠ t := by
      rintro hin rfl
      simpa [Owner.claimer] using hclaim.mp hin
    exact ⟨fun hin => ⟨hne hin,hin⟩,fun hin => hin.2⟩
  · rw [hnew] at hstarted
    cases hstarted

theorem push (hbatch : (s.wakers w).batch = t :: ts) (hseen : (s.wakers w).seen) :
    ∃ owner', Owned owner' ((s.enqueueOn c t).setWaker w
      ⟨(s.wakers w).todo,ts,false,false⟩) := by
  obtain ⟨hsaved,ho⟩ := h.parked_of_seen hbatch hseen
  have hfits := h.fits t
  rw [ho] at hfits
  have hnodup := h.batch_nodup
  refine ⟨_,h.enqueue ((s.threads t).cpuPlacement.getD c) (s.threads t) (by rw [ho]; rfl)
    (by simp [ho]) ?_ ⟨hfits.1,hfits.2.1,.inr hfits.2.2⟩ hsaved (fun t' => ?_)
    (fun c' => ?_) (fun w' t' => ?_) (fun w' => ?_) fun w' hw => ?_⟩
  · intro c' hs
    have hleave := h.saving c' t hs
    rw [ho] at hleave
    simp [Owner.Leaving,hsaved] at hleave
  · simp only [enqueueOn,setWaker_threads,setCore_threads]
    split
    · next ht => rw [ht]
    · rfl
  · simp [enqueueOn]
  · have hin := h.claimed w' t'
    by_cases ht : t' = t <;> grind [enqueueOn,Owner.claimer]
  · have := hnodup w'
    grind [enqueueOn]
  · grind [enqueueOn]

theorem save (hs : (s.cores c).saving = some t) :
    Owned owner ((s.setThread t { s.threads t with saved := true }).setCore c
      { s.cores c with saving := none }) := by
  have hleave := h.saving c t hs
  refine ⟨?_,?_,?_,?_,h.claimed,h.batch_nodup,?_,?_,?_,?_⟩
  · intro t'
    have hfits := h.fits t'
    by_cases ht : t' = t
    · cases ho : owner t' with
      | waiting o | waker w o => cases o <;> grind [Owner.Fits,Owner.Leaving]
      | _ => grind [Owner.Fits,Owner.Leaving]
    · grind
  · intro c' t'
    have := h.current c' t'
    grind
  · intro c' t'
    have := h.queued c' t'
    grind
  · intro c'
    have := h.queue_nodup c'
    grind
  · intro w hw t' ht'
    have := h.seen w hw t' ht'
    grind
  · intro c' t' hs'
    have hne : c' ≠ c := by
      rintro rfl
      simp at hs'
    have hs'' : (s.cores c').saving = some t' := by simpa [hne] using hs'
    have ht : t' ≠ t := fun heq => hne (h.saving_inj c' c t (heq ▸ hs'') hs)
    simpa [ht] using h.saving c' t' hs''
  · intro c₁ c₂ t'
    have := h.saving_inj c₁ c₂ t'
    grind
  · intro c' t' ho
    have := h.queue_saved c' t' ho
    grind

theorem todo {todo : List Wake} {ω : Ω} (hidle : (s.wakers w).batch = []) :
    Owned owner ({ s with objects := ω }.setWaker w ⟨todo,[],false,false⟩) := by
  refine h.congr rfl rfl (fun w' => ?_) fun w' hw => h.seen w' ?_
  · grind
  · grind

section

variable (hrun : s.running c = some t)
include hrun

theorem parkStep {room : Bool} (hshort : ∀ p l, (s.threads t).pc = .retract p l [] → p.any = false →
      (s.threads t).state = .blocked)
    (hstep : State.ParkStep s t room s') : ∃ owner', Owned owner' s' := by
  cases hstep with
  | reserve hpc => exact h.stay hrun rfl rfl rfl (by cases room <;> simp [hpc,phase])
  | arm hpc =>
    obtain ⟨-,hfits⟩ := h.core_of_running hrun (by simp [hpc,phase])
    refine h.advance hrun (by simp [hpc,phase]) ?_ rfl
    exact ⟨hfits.1,hfits.2.1,.inr (.inr ⟨rfl,rfl⟩)⟩
  | @mark p l _ hpc =>
    obtain ⟨ho,hfits⟩ := h.core_of_running hrun (by simp [hpc,phase])
    refine ⟨_,h.update hrun (.waiting (some c))
      { s.threads t with state := .blocked, pc := .register p l p.koids } ?_ rfl (by rw [ho]; rfl)
      (fun t' => by grind [setState]) (fun _ => rfl) fun _ => rfl⟩
    exact ⟨hfits.1,rfl,by simpa [hpc,phase] using hfits.2.2,rfl⟩
  | registered hpc | register hpc | refuse hpc | retract hpc | claimedAny hpc _ _
  | timed ws hpc | read hpc _ | yes hpc | no hpc | tooLate hpc _ | cleanup hpc
  | cleaned ws hpc => exact h.stay hrun rfl rfl rfl (by simp [hpc,phase])
  | reprieve hpc hblocked | abort hpc hblocked => exact h.reclaim hrun _ hblocked rfl
  | claimedFlagged hpc hblocked hany => exact absurd (hshort _ _ hpc hany) hblocked
  | reprieved hpc | reclaimed hpc | resume hpc =>
    obtain ⟨-,hfits⟩ := h.core_of_running hrun (by simp [hpc,phase])
    refine h.advance hrun (by simp [hpc,phase]) ?_ rfl
    exact ⟨hfits.1,by simp [hfits.2.1],.inl rfl⟩

theorem switch (hfits : o.Fits th) (hcore : o.onCore = none)
    (hclaim : o.claimer = (owner t).claimer) (hleave : o.Leaving c th)
    (hqueue : (o = .queue c ∧ queue = (s.cores c).runQueue ++ [t] ∧ (s.cores c).runQueue ≠ []) ∨
      ((∀ c', o ≠ .queue c') ∧ queue = (s.cores c).runQueue)) :
    ∃ owner', Owned owner' (((s.setThread t th).leave c t queue).dispatch c) := by
  have hnot := h.not_queued (h.onCore_of_running hrun) c
  refine (h.leave hrun hfits hcore hclaim hleave ?_).dispatch (by simp) ?_
  · exact hqueue.imp_left fun hq => ⟨hq.1,hq.2.1⟩
  intro t' ht' heq
  obtain rfl : t = t' := by simpa using heq
  have hmem : t ∈ (s.cores c).runQueue := by
    rcases hqueue with ⟨-,rfl,hne⟩ | ⟨-,rfl⟩
    · refine List.mem_of_mem_head? ?_
      simpa [List.head?_append_of_ne_nil _ hne] using ht'
    · exact List.mem_of_mem_head? (by simpa using ht')
  exact hnot hmem

theorem requeue (hon : (s.threads t).pc.preemptible) (idle : Bool) :
    ∃ owner', Owned owner' (s.requeue c t idle) := by
  have hphase := awake_of_preemptible hon
  obtain ⟨ho,hfits⟩ := h.core_of_running hrun (by simp [hphase])
  have hqueue : (Owner.queue c).Fits { s.threads t with state := .ready } :=
    ⟨hfits.1,rfl,.inl hphase⟩
  have hclaim : (Owner.queue c).claimer = (owner t).claimer := by rw [ho]; rfl
  unfold State.requeue
  split
  · exact ⟨_,h.leave hrun hqueue rfl hclaim rfl (.inl ⟨rfl,rfl⟩)⟩
  split
  · refine h.advance hrun (by simp [hphase]) ?_ rfl
    exact ⟨hfits.1,.inr rfl,.inl hphase⟩
  · next hne => exact h.switch hrun hqueue rfl hclaim rfl (.inl ⟨rfl,rfl,hne⟩)

theorem retire (hpc : (s.threads t).pc = .run l) : ∃ owner', Owned owner' (s.retire c t) := by
  obtain ⟨ho,hfits⟩ := h.core_of_running hrun (by simp [hpc,phase])
  exact h.switch (o := .nobody) hrun (.inr ⟨hfits.1,rfl⟩) rfl (by rw [ho]; rfl) rfl
    (.inr ⟨fun _ heq => (by cases heq),rfl⟩)

theorem blockCurrent {p : Park Ω} (hpc : (s.threads t).pc = .switch p l) :
    ∃ owner', Owned owner' (s.blockCurrent c t p l) := by
  have hon := h.onCore_of_running hrun
  have hfits := h.fits t
  cases ho : owner t with
  | waiting o =>
    obtain rfl : o = some c := by simpa [ho,Owner.onCore] using hon
    rw [ho] at hfits
    exact h.switch (o := .waiting none) hrun ⟨hfits.1,hfits.2.1,rfl⟩ rfl (by rw [ho]; rfl)
      hfits.2.2.1 (.inr ⟨fun _ heq => (by cases heq),rfl⟩)
  | waker w o =>
    obtain rfl : o = some c := by simpa [ho,Owner.onCore] using hon
    rw [ho] at hfits
    exact h.switch (o := .waker w none) hrun ⟨hfits.1,hfits.2.1,rfl⟩ rfl (by rw [ho]; rfl)
      hfits.2.2.1 (.inr ⟨fun _ heq => (by cases heq),rfl⟩)
  | core c' =>
    rw [ho] at hfits
    simp [Owner.Fits,hpc,phase] at hfits
  | _ => simp [ho,Owner.onCore] at hon

end

end Owned

/-- The arm of `block_on_flagged` for a heap that is short under the bucket's lock finds the
thread unclaimed. -/
def reclaims (s : State Ω L) : Event Op Ch → Bool
  | .park c _ =>
    match s.running c with
    | some t =>
      match (s.threads t).pc with
      | .retract p _ [] => p.any || (s.threads t).state == .blocked
      | _ => true
    | none => true
  | _ => true

theorem Owned.step {M : Machine Ω L Op Ch} {s s' : State Ω L} {e : Event Op Ch}
    (h : ∃ owner, Owned owner s) (hok : reclaims s e) (hstep : step M s e = some s') :
    ∃ owner, Owned owner s' := by
  obtain ⟨owner,h⟩ := h
  cases step_cases hstep with
  | start hnew => exact h.start hnew
  | act htodo hidle _ => exact ⟨owner,h.todo hidle⟩
  | expire htodo hidle => exact ⟨owner,h.todo hidle⟩
  | wake _ hidle =>
    obtain ⟨ts,todo,hclaims⟩ := wakeStep_claims M s _ _ _
    exact h.claim hidle hclaims
  | spin hbatch hsaved => exact ⟨owner,h.spin hbatch hsaved⟩
  | ready hbatch hseen => exact ⟨owner,h.ready hbatch hseen⟩
  | push hbatch hseen => exact h.push hbatch hseen
  | goto hrun hpc _ | enter hrun hpc _ => exact h.stay hrun rfl rfl rfl (by simp [hpc,phase])
  | park hrun hpark =>
    refine h.parkStep hrun (fun p l hpc hany => ?_) hpark
    simpa [reclaims,hrun,hpc,hany] using hok
  | yield hrun hon => exact h.requeue hrun hon _
  | exit hrun hpc => exact h.retire hrun hpc
  | block hrun hpc => exact h.blockCurrent hrun hpc
  | idle hsaving hcurrent => exact h.dispatch hcurrent fun t _ => by simp [hsaving]
  | save hsaving => exact ⟨owner,h.save hsaving⟩

end LiberSystem.Sched
