import LiberSystem.Kernel.Object.Thread

/-!
# When a process ends

The count of live threads is the number of the registered threads that have not been counted out, as
long as nothing is counted out that was never counted in; a thread that is built and then refused
is.
-/

namespace LiberSystem.Threads

open List Function Option Threads.Thread Process

def Thread.inside (th : Thread) : Bool :=
  match th.stage with
  | .registered | .ready | .started | .counting .gone => true
  | .dropping .gone => !th.started
  | _ => false

def Stage.early : Stage → Bool
  | .absent | .charged | .stacked | .undo | .built | .guarded => true
  | _ => false

/-- The stages a thread goes through whose registration is not refused, with its flag. -/
def Thread.regular (th : Thread) : Bool :=
  match th.stage with
  | .started | .exited | .finishing .exited | .tearing .exited => th.started
  | .dropping .gone | .gone => true
  | .refused | .dropping _ | .counting .undo | .counting .exited => false
  | .finishing .undo | .tearing .undo => false
  | _ => !th.started

def Process.accepts (P : Process) : Action → Bool
  | .extend => !P.terminating
  | .register room => !P.terminating && room && decide (P.threads.length < VEC_MAX)
  | _ => true

/-- What a step of a thread does to its process's count. -/
inductive Change (t : ThreadId) (P P' : Process) (th th' : Thread) : Prop
  | enters (hearly : th.stage.early = true) (hin : th'.inside = true)
      (hroom : P.threads.length < VEC_MAX) (hthreads : P'.threads = P.threads ++ [t])
      (hcount : P'.liveThreadCount = fetchAdd P.liveThreadCount) (hends : P'.ends = P.ends)
  | leaves (hin : th.inside = true) (hout : th'.inside = false) (hthreads : P'.threads = P.threads)
      (hcount : P'.liveThreadCount = fetchSub P.liveThreadCount)
      (hends : P'.ends = if P.liveThreadCount = 1 then P.ends + 1 else P.ends)
      (hlast : ∀ after, th'.stage = .finishing after → P.liveThreadCount = 1)
  | stays (hin : th'.inside = th.inside) (hthreads : P'.threads = P.threads)
      (hcount : P'.liveThreadCount = P.liveThreadCount) (hends : P'.ends = P.ends)
      (hlast : ∀ after, th'.stage = .finishing after → th.stage = .finishing after)

variable {P P' : Process} {t : ThreadId} {th th' : Thread} {a : Action} {refund : Bool}
  {p : ProcessId}

section

variable (h : P.act t th a = some (P', th', refund))
include h

theorem process_of_act : th'.process = th.process := by
  unfold act at h
  grind [goto]

theorem act_regular (hok : P.accepts a) (hreg : th.regular) : th'.regular := by
  unfold act at h
  split at h <;> grind [cases After,goto,regular,accepts,After.stage]

theorem act_early (hreg : th.regular) (hlate : th.stage.early = false) :
    th'.stage.early = false := by
  unfold act at h
  split at h <;> grind [cases After,goto,regular,Stage.early,After.stage]

end

section ThreadExited

variable (P)

theorem setCount_threads (count ends : Nat) : (P.setCount count ends).threads = P.threads := rfl

theorem threadExited_threads : P.threadExited.2.threads = P.threads := setCount_threads P _ _

theorem threadExited_ends :
    P.threadExited.2.ends = if P.liveThreadCount = 1 then P.ends + 1 else P.ends := by
  by_cases h : P.liveThreadCount = 1 <;> simp [threadExited,setCount,h]

theorem threadExited_eq_true : P.threadExited.1 ↔ P.liveThreadCount = 1 := by
  simp [threadExited]

end ThreadExited

theorem leaves_threadExited (after : After) (hafter : after ≠ .undo) (hin : th.inside) :
    Change t P P.threadExited.2 th
      (th.goto (if P.threadExited.1 then .finishing after else after.stage)) := by
  refine .leaves hin ?_ (threadExited_threads P) rfl (threadExited_ends P) ?_
  · cases after <;> cases P.threadExited.1 <;> first | contradiction | rfl
  intro after' hlast
  rw [← threadExited_eq_true]
  by_contra hne
  rw [if_neg hne] at hlast
  cases after <;> cases hlast

theorem act_change (h : P.act t th a = some (P', th', refund)) (hok : P.accepts a)
    (hreg : th.regular) : Change t P P' th th' := by
  unfold act at h
  split at h
  case h_5 room hstage =>
    simp only [accepts,Bool.and_eq_true,Bool.not_eq_true',decide_eq_true_eq] at hok
    rw [if_neg (by simp [hok])] at h
    obtain ⟨rfl,rfl,-⟩ := h
    exact .enters (by rw [hstage]; rfl) rfl hok.2 rfl rfl rfl
  case h_9 hstage =>
    obtain ⟨rfl,rfl,-⟩ := h
    exact leaves_threadExited .exited (by decide) (by simp only [inside,hstage])
  case h_10 hstage =>
    simp only [ite_none_right_eq_some,some.injEq] at h
    obtain ⟨-,rfl,rfl,-⟩ := h
    exact leaves_threadExited .exited (by decide) (by simp only [inside,hstage])
  case h_14 after hstage =>
    obtain ⟨rfl,rfl,-⟩ := h
    have hgone : after = .gone := by
      cases after <;> simp [regular,hstage] at hreg ⊢
    subst hgone
    exact leaves_threadExited .gone (by decide) (by simp only [inside,hstage])
  all_goals
    refine .stays ?_ ?_ ?_ ?_ ?_ <;>
      grind [cases After,goto,inside,regular,After.stage]

/-- The process `p` counts those of its threads that are inside, and it has ended once if they
have all been counted out, and never otherwise. -/
structure Process.Counted (P : Process) (p : ProcessId) (ths : ThreadId → Thread) : Prop where
  nodup : P.threads.Nodup
  short : P.threads.length ≤ VEC_MAX
  member : ∀ t ∈ P.threads, (ths t).process = p ∧ (ths t).stage.early = false
  listed : ∀ t, (ths t).process = p → (ths t).inside = true → t ∈ P.threads
  count : P.liveThreadCount = P.threads.countP fun t => (ths t).inside
  ends : P.ends = 0 ∨ P.ends = 1 ∧ P.liveThreadCount = 0
  finishing : ∀ t after, (ths t).process = p → (ths t).stage = .finishing after → P.ends ≠ 0

namespace Process.Counted

variable {p : ProcessId} {ths : ThreadId → Thread}

theorem new (p : ProcessId) (th : Thread) (hout : th.inside = false)
    (hlast : ∀ after, th.stage ≠ .finishing after) : new.Counted p fun _ => th where
  nodup := nodup_nil
  short := Nat.zero_le _
  member t ht := (by cases ht)
  listed t _ hin := absurd (hout.symm.trans hin) (by decide)
  count := rfl
  ends := .inl rfl
  finishing t after _ hstage := absurd hstage (hlast after)

variable (hP : P.Counted p ths)

include hP

/-- One thread changes, and it is the only one that may come to be listed. -/
theorem of_update (hnodup : P'.threads.Nodup) (hshort : P'.threads.length ≤ VEC_MAX)
    (hkeep : P.threads ⊆ P'.threads) (hnew : ∀ u ∈ P'.threads, u ≠ t → u ∈ P.threads)
    (hmember : t ∈ P'.threads → th'.process = p ∧ th'.stage.early = false)
    (hlisted : th'.process = p → th'.inside → t ∈ P'.threads)
    (hcount : P'.liveThreadCount = P'.threads.countP fun u => (update ths t th' u).inside)
    (hends : P'.ends = 0 ∨ P'.ends = 1 ∧ P'.liveThreadCount = 0) (hended : P.ends ≠ 0 → P'.ends ≠ 0)
    (hlast : ∀ after, th'.process = p → th'.stage = .finishing after → P'.ends ≠ 0) :
    P'.Counted p (update ths t th') where
  nodup := hnodup
  short := hshort
  member u hu := by
    by_cases hut : u = t
    · subst hut
      rw [update_self]
      exact hmember hu
    · rw [update_of_ne hut]
      exact hP.member u (hnew u hu hut)
  listed u hproc hin := by
    by_cases hut : u = t
    · subst hut
      rw [update_self] at hproc hin
      exact hlisted hproc hin
    · rw [update_of_ne hut] at hproc hin
      exact hkeep (hP.listed u hproc hin)
  count := hcount
  ends := hends
  finishing u after hproc hstage := by
    by_cases hut : u = t
    · subst hut
      rw [update_self] at hproc hstage
      exact hlast after hproc hstage
    · rw [update_of_ne hut] at hproc hstage
      exact hended (hP.finishing u after hproc hstage)

theorem update_other (ht : t ∉ P.threads)
    (hth : th'.process = p → th'.inside = false ∧ ∀ after, th'.stage ≠ .finishing after) :
    P.Counted p (update ths t th') := by
  refine hP.of_update hP.nodup hP.short (Subset.refl _) (fun _ hu _ => hu) (fun h => absurd h ht)
    (fun hproc hin => ?_) ?_ hP.ends id fun after hproc hstage => ?_
  · exact absurd ((hth hproc).1.symm.trans hin) (by decide)
  · rw [countP_update_of_not_mem inside ths ht]
    exact hP.count
  · exact absurd hstage ((hth hproc).2 after)

theorem count_le : P.liveThreadCount ≤ P.threads.length := by
  rw [hP.count]
  exact countP_le_length

theorem not_mem_of_early (hearly : (ths t).stage.early) : t ∉ P.threads := by
  intro ht
  exact absurd ((hP.member t ht).2.symm.trans hearly) (by decide)

theorem enters (hearly : (ths t).stage.early)
    (hproc : th'.process = p) (hin : th'.inside) (hlate : th'.stage.early = false)
    (hroom : P.threads.length < VEC_MAX) (hthreads : P'.threads = P.threads ++ [t])
    (hcount : P'.liveThreadCount = fetchAdd P.liveThreadCount) (hends : P'.ends = P.ends)
    (hopen : P.ends = 0) : P'.Counted p (update ths t th') := by
  have ht : t ∉ P.threads := hP.not_mem_of_early hearly
  have hlive : P'.liveThreadCount = P.liveThreadCount + 1 := by
    have hle := hP.count_le
    rw [hcount,Channel.fetchAdd_of_lt (by unfold VEC_MAX at hroom; omega)]
  refine hP.of_update ?_ ?_ ?_ (fun u hu hut => ?_) (fun _ => ⟨hproc,hlate⟩) (fun _ _ => ?_) ?_
    (.inl (hends.trans hopen)) (fun h => absurd hopen h) fun after _ hstage => ?_
  · rw [hthreads]
    exact hP.nodup.append (nodup_singleton t) (by simpa using ht)
  · rw [hthreads,length_append,length_singleton]
    exact hroom
  · rw [hthreads]
    exact subset_append_left _ _
  · rw [hthreads,mem_append,mem_singleton] at hu
    exact hu.resolve_right hut
  · rw [hthreads]
    exact mem_append_right _ (mem_singleton_self t)
  · rw [hlive,hthreads,countP_append,countP_update_of_not_mem inside ths ht,← hP.count,
      countP_singleton,update_self,hin]
    rfl
  · simp [inside,hstage] at hin

section

variable (hold : (ths t).process = p) (hproc : th'.process = p)
include hold hproc

theorem leaves (hin : (ths t).inside) (hout : th'.inside = false) (hlate : th'.stage.early = false)
    (hthreads : P'.threads = P.threads) (hcount : P'.liveThreadCount = fetchSub P.liveThreadCount)
    (hends : P'.ends = if P.liveThreadCount = 1 then P.ends + 1 else P.ends)
    (hlast : ∀ after, th'.stage = .finishing after → P.liveThreadCount = 1) :
    P'.Counted p (update ths t th') := by
  have ht : t ∈ P.threads := hP.listed t hold hin
  have hcountP := countP_update inside ths hP.nodup ht th'
  rw [hin,hout,← hP.count] at hcountP
  simp only [Bool.toNat_true,Bool.toNat_false,Nat.add_zero] at hcountP
  have hlive : P'.liveThreadCount = P.liveThreadCount - 1 := by
    have hle := hP.count_le
    have hshort := hP.short
    unfold VEC_MAX at hshort
    rw [hcount,Channel.fetchSub_of_pos (by omega) (by omega)]
  -- The process has not ended before: the thread that is inside is counted.
  have hopen : P.ends = 0 := by
    rcases hP.ends with hzero | ⟨-,hnone⟩
    · exact hzero
    · omega
  rw [← hthreads] at ht hcountP
  refine hP.of_update (hthreads ▸ hP.nodup) (hthreads ▸ hP.short) (hthreads ▸ Subset.refl _)
    (fun u hu _ => hthreads ▸ hu) (fun _ => ⟨hproc,hlate⟩) (fun _ _ => ht) (by omega) ?_
    (fun h => absurd hopen h) fun after _ hstage => ?_
  · rw [hends,hlive]
    split
    · next hone => exact .inr ⟨by omega,by omega⟩
    · exact .inl hopen
  · rw [hends,if_pos (hlast after hstage)]
    exact Nat.succ_ne_zero _

theorem stays (hin : th'.inside = (ths t).inside)
    (hlate : (ths t).stage.early = false → th'.stage.early = false)
    (hthreads : P'.threads = P.threads) (hcount : P'.liveThreadCount = P.liveThreadCount)
    (hends : P'.ends = P.ends)
    (hlast : ∀ after, th'.stage = .finishing after → (ths t).stage = .finishing after) :
    P'.Counted p (update ths t th') := by
  have hinside : ∀ u, (update ths t th' u).inside = (ths u).inside :=
    (forall_update_iff ths fun u th => th.inside = (ths u).inside).mpr ⟨hin,fun _ _ => rfl⟩
  refine hP.of_update (hthreads ▸ hP.nodup) (hthreads ▸ hP.short) (hthreads ▸ Subset.refl _)
    (fun u hu _ => hthreads ▸ hu) (fun ht => ⟨hproc,hlate (hP.member t (hthreads ▸ ht)).2⟩)
    (fun _ hth => ?_) ?_ ?_ (fun h => hends ▸ h) fun after _ hstage => ?_
  · rw [hthreads]
    exact hP.listed t hold (hin ▸ hth)
  · rw [hcount,hthreads,hP.count]
    exact countP_congr fun u _ => by rw [hinside u]
  · rw [hends,hcount]
    exact hP.ends
  · rw [hends]
    exact hP.finishing t after hold (hlast after hstage)

end

theorem change (hc : Change t P P' (ths t) th') (hold : (ths t).process = p)
    (hproc : th'.process = p) (hlate : (ths t).stage.early = false → th'.stage.early = false)
    (hopen : P'.threads ≠ P.threads → P.ends = 0) : P'.Counted p (update ths t th') := by
  -- A thread that is inside is registered, whatever it does.
  have hlate_of_inside : ∀ u : Thread, u.inside → u.stage.early = false := by
    intro u hu
    unfold inside at hu
    split at hu <;> simp_all [Stage.early]
  cases hc with
  | enters hearly hin hroom hthreads hcount hends =>
    exact hP.enters hearly hproc hin (hlate_of_inside _ hin) hroom hthreads hcount hends
      (hopen (by rw [hthreads]; simp))
  | leaves hin hout hthreads hcount hends hlast =>
    exact hP.leaves hold hproc hin hout (hlate (hlate_of_inside _ hin)) hthreads hcount hends hlast
  | stays hin hthreads hcount hends hlast =>
    exact hP.stays hold hproc hin hlate hthreads hcount hends hlast

theorem flags (terminating killing killed : Bool) :
    ({ P with terminating := terminating, killing := killing, killed := killed }).Counted p ths :=
  ⟨hP.nodup,hP.short,hP.member,hP.listed,hP.count,hP.ends,hP.finishing⟩

end Process.Counted

theorem threads_of_act (h : P.act t th a = some (P', th', refund))
    (hne : P'.threads ≠ P.threads) : ∃ room, a = .register room := by
  unfold act at h
  split at h <;> grind [threadExited_threads]

namespace World

/-- The step is not the refusal of a thread that has been built. -/
def accepts (s : World) : Event → Bool
  | .act t a => (s.processes (s.threads t).process).accepts a
  | _ => true

/-- No thread is refused, and none is registered once `thread_exited` has answered true. -/
def orderly (s : World) (e : Event) : Bool :=
  s.accepts e && match e with
    | .act t (.register _) => (s.processes (s.threads t).process).ends == 0
    | _ => true

structure Counted (s : World) : Prop where
  regular : ∀ t, (s.threads t).regular = true
  counted : ∀ p, (s.processes p).Counted p s.threads

variable {L : Layout} {s s' : World} {e : Event}

theorem regular_update {ths : ThreadId → Thread} (hreg : ∀ u, (ths u).regular)
    (hth : th'.regular) : ∀ u, (update ths t th' u).regular :=
  (forall_update_iff ths fun _ th => th.regular).mpr ⟨hth,fun u _ => hreg u⟩

theorem step_create {enforce : Bool} (h : step L s (.create t p enforce) = some s') :
    (s.threads t).stage = .absent ∧ s'.processes = s.processes ∧
      (s'.threads = s.threads ∧ s'.created = s.created ∨
        s'.threads = update s.threads t ⟨p,.charged,false⟩ ∧ s'.created = s.created ++ [t]) := by
  simp only [step,ite_none_right_eq_some] at h
  obtain ⟨⟨habsent,-⟩,h⟩ := h
  refine ⟨habsent,?_⟩
  split at h
  · split at h <;> cases h
    · exact ⟨rfl,.inr ⟨rfl,rfl⟩⟩
    · exact ⟨rfl,.inl ⟨rfl,rfl⟩⟩
  · cases h
    exact ⟨rfl,.inr ⟨rfl,rfl⟩⟩

theorem step_act (h : step L s (.act t a) = some s') :
    ∃ P' th' refund, (s.processes (s.threads t).process).act t (s.threads t) a
        = some (P', th', refund) ∧
      s'.processes = update s.processes (s.threads t).process P' ∧
      s'.threads = update s.threads t th' ∧ s'.created = s.created ∧
      s'.accounts = if refund then
        Accounts.unchargeHier .threads 1 (L.path (s.threads t).process) s.accounts
        else s.accounts := by
  simp only [step,map_eq_some_iff,Prod.exists] at h
  obtain ⟨P',th',refund,hact,rfl⟩ := h
  exact ⟨P',th',refund,hact,rfl,rfl,rfl,rfl⟩

theorem Counted.step (hs : s.Counted) (hok : s.orderly e)
    (h : World.step L s e = some s') : s'.Counted := by
  cases e with
  | create t p enforce =>
    obtain ⟨habsent,hprocesses,hthreads⟩ := step_create h
    rcases hthreads with ⟨hthreads,-⟩ | ⟨hthreads,-⟩
    · refine ⟨?_,?_⟩
      · rw [hthreads]
        exact hs.regular
      · rw [hthreads,hprocesses]
        exact hs.counted
    · refine ⟨?_,fun q => ?_⟩
      · rw [hthreads]
        exact regular_update hs.regular rfl
      rw [hthreads,hprocesses]
      have hearly : (s.threads t).stage.early := by rw [habsent]; rfl
      exact (hs.counted q).update_other ((hs.counted q).not_mem_of_early hearly)
        fun _ => ⟨rfl,by simp⟩
  | act t a =>
    obtain ⟨P',th',refund,hact,hprocesses,hthreads,-,-⟩ := step_act h
    obtain ⟨haccepts,hopen⟩ := Bool.and_eq_true_iff.mp hok
    have hproc := process_of_act hact
    refine ⟨?_,fun q => ?_⟩
    · rw [hthreads]
      exact regular_update hs.regular (act_regular hact haccepts (hs.regular t))
    rw [hthreads,hprocesses]
    by_cases hq : q = (s.threads t).process
    · subst hq
      rw [update_self]
      refine (hs.counted _).change (act_change hact haccepts (hs.regular t)) rfl hproc
        (act_early hact (hs.regular t)) fun hne => ?_
      obtain ⟨room,rfl⟩ := threads_of_act hact hne
      exact eq_of_beq hopen
    · rw [update_of_ne hq]
      refine (hs.counted q).update_other (fun ht => hq ?_) fun hp => absurd ?_ hq
      · exact ((hs.counted q).member t ht).1.symm
      · exact hp.symm.trans hproc
  | terminate p =>
    cases h
    exact ⟨hs.regular,(forall_update_iff s.processes fun q P => P.Counted q s.threads).mpr
      ⟨(hs.counted p).flags _ _ _,fun q _ => hs.counted q⟩⟩
  | kill p =>
    simp only [World.step,ite_none_right_eq_some,some.injEq] at h
    obtain ⟨-,rfl⟩ := h
    exact ⟨hs.regular,(forall_update_iff s.processes fun q P => P.Counted q s.threads).mpr
      ⟨(hs.counted p).flags _ _ _,fun q _ => hs.counted q⟩⟩

theorem counted_of_reaches {limits : DomainId → Resource → Nat}
    (h : Reaches (step L) (fun s e => s.orderly e) (new limits) s) : s.Counted :=
  h.invariant ⟨fun _ => rfl,fun p => .new p _ rfl (by simp)⟩ fun _ _ _ hs hok h => hs.step hok h

end World

theorem act_of_terminating (h : P.act t th a = some (P', th', refund)) (hterm : P.terminating) :
    P'.terminating ∧ (th'.started → th.started) := by
  unfold act at h
  split at h <;> grind [goto,threadExited,setCount]

namespace World

variable {L : Layout} {s s' : World} {e : Event}

/-- The process `p` is going away, and its threads that have started had in `s₀`. -/
def Closed (s₀ : World) (p : ProcessId) (s : World) : Prop :=
  (s.processes p).terminating = true ∧
    ∀ t, (s.threads t).process = p → (s.threads t).started = true → (s₀.threads t).started = true

theorem Closed.step {s₀ : World} (hs : s₀.Closed p s)
    (h : World.step L s e = some s') : s₀.Closed p s' := by
  obtain ⟨hterm,hstarted⟩ := hs
  cases e with
  | create t q enforce =>
    obtain ⟨-,hprocesses,hthreads⟩ := step_create h
    refine ⟨hprocesses ▸ hterm,fun u hproc hu => ?_⟩
    rcases hthreads with ⟨hthreads,-⟩ | ⟨hthreads,-⟩ <;> rw [hthreads] at hproc hu
    · exact hstarted u hproc hu
    by_cases hut : u = t
    · subst hut
      rw [update_self] at hu
      cases hu
    · rw [update_of_ne hut] at hproc hu
      exact hstarted u hproc hu
  | act t a =>
    obtain ⟨P',th',refund,hact,hprocesses,hthreads,-,-⟩ := step_act h
    refine ⟨?_,fun u hproc hu => ?_⟩
    · rw [hprocesses]
      by_cases hp : p = (s.threads t).process
      · subst hp
        rw [update_self]
        exact (act_of_terminating hact hterm).1
      · rw [update_of_ne hp]
        exact hterm
    · rw [hthreads] at hproc hu
      by_cases hut : u = t
      · subst hut
        rw [update_self] at hproc hu
        have hold : (s.threads u).process = p := (process_of_act hact).symm.trans hproc
        rw [← hold] at hterm
        exact hstarted u hold ((act_of_terminating hact hterm).2 hu)
      · rw [update_of_ne hut] at hproc hu
        exact hstarted u hproc hu
  | terminate q =>
    cases h
    refine ⟨?_,hstarted⟩
    by_cases hp : p = q
    · subst hp
      simp only [setProcess,update_self]
    · simp only [setProcess,update_of_ne hp]
      exact hterm
  | kill q =>
    simp only [World.step,ite_none_right_eq_some,some.injEq] at h
    obtain ⟨-,rfl⟩ := h
    refine ⟨?_,hstarted⟩
    by_cases hp : p = q
    · subst hp
      simp only [setProcess,update_self]
      exact hterm
    · simp only [setProcess,update_of_ne hp]
      exact hterm

/-- As long as no built thread is refused and none is registered behind the last one,
`thread_exited` answers true at most once, and only when every thread that was ever registered
has been counted out. And in any case no thread starts once the flag is up. -/
theorem process_ends_once (L : Layout) (limits : DomainId → Resource → Nat) (s : World) :
    (Reaches (step L) (fun s e => s.orderly e = true) (new limits) s →
      (∀ p, (s.processes p).ends ≤ 1) ∧
      ∀ t after, (s.threads t).stage = .finishing after →
        ∀ u ∈ (s.processes (s.threads t).process).threads, (s.threads u).inside = false) ∧
    (Reaches (step L) (fun _ _ => True) (new limits) s →
      ∀ p s', (s.processes p).terminating = true → Reaches (step L) (fun _ _ => True) s s' →
        ∀ t, (s'.threads t).process = p → (s'.threads t).started = true →
          (s.threads t).started = true) := by
  refine ⟨fun h => ?_,fun _ p s' hterm h => ?_⟩
  · have hs := counted_of_reaches h
    refine ⟨fun p => ?_,fun t after hstage u hu => ?_⟩
    · rcases (hs.counted p).ends with hzero | ⟨hone,-⟩ <;> omega
    have hP := hs.counted (s.threads t).process
    have hnone := (hP.ends.resolve_left (hP.finishing t after rfl hstage)).2
    rw [hP.count,countP_eq_zero] at hnone
    simpa using hnone u hu
  · have hclosed : s.Closed p s' :=
      h.invariant ⟨hterm,fun _ _ hu => hu⟩ fun _ _ _ hs _ h => hs.step h
    exact hclosed.2

def constructing (t : ThreadId) : List Event :=
  [.create t 0 true,.act t (.allocate true),.act t (.object true),.act t .extend,
    .act t (.register true),.act t .endExtend]

/-- Two threads run and exit, and the second one is the last. -/
theorem process_ends_once_two :
    ∃ s, Reaches (step ⟨.siblings,fun _ => 1⟩) (fun s e => s.orderly e = true)
        (new fun _ _ => UNLIMITED) s ∧
      (s.threads 1).stage = .finishing .exited ∧ (s.processes 0).threads = [0,1] ∧
      (s.processes 0).ends ≤ 1 ∧ ∀ u ∈ (s.processes 0).threads, (s.threads u).inside = false := by
  refine exists_reaches_imp (P := fun s => (s.threads 1).stage = .finishing .exited ∧
      (s.threads 1).process = 0 ∧ (s.processes 0).threads = [0,1])
    (constructing 0 ++ constructing 1 ++ [.act 0 .start,.act 1 .start,.act 0 .exit,.act 1 .exit])
    (by decide +kernel) fun s hrun ⟨hstage,hproc,hthreads⟩ => ?_
  have hends := (process_ends_once _ _ s).1 hrun
  refine ⟨hstage,hthreads,hends.1 0,?_⟩
  have hall := hends.2 1 .exited hstage
  rwa [hproc] at hall

/-- A thread is built while the heap is short and refused, and the end of its object is counted
as the end of the one thread that runs. And where two threads are not refused at all, one
registered between the answer of `thread_exited` and the flag makes it answer true again. -/
theorem process_ends_wrongly :
    (∃ s, Reaches (step ⟨.siblings,fun _ => 1⟩) (fun _ _ => True) (new fun _ _ => UNLIMITED) s ∧
      (s.threads 1).stage = .finishing .undo ∧ (s.threads 0).stage = .started ∧
      (s.threads 0).process = (s.threads 1).process) ∧
    ∃ s, Reaches (step ⟨.siblings,fun _ => 1⟩) (fun s e => s.accepts e = true)
        (new fun _ _ => UNLIMITED) s ∧ (s.processes 0).ends = 2 := by
  constructor
  · exact exists_reaches (constructing 0 ++ [.act 0 .start,.create 1 0 true,
      .act 1 (.allocate true),.act 1 (.object true),.act 1 .extend,.act 1 (.register false),
      .act 1 .endExtend,.act 1 .refund,.act 1 .count]) (by decide +kernel)
  · exact exists_reaches (constructing 0 ++ [.act 0 .start,.act 0 .exit] ++ constructing 1 ++
      [.act 0 .publish,.act 0 .finish,.act 1 .start,.act 1 .drop,.act 1 .refund,.act 1 .count])
      (by decide +kernel)

end World

end LiberSystem.Threads
