import LiberSystem.Kernel.Sched.Atoms
import LiberSystem.Lib.Counting

/-!
# The observers of the wait sets

What the membership of the sets, the table of their observers and the charges say of each other, at
every moment of `add`, `remove` and `drop`.
-/

namespace LiberSystem.Sched

open List Function Shared WaitSet

variable {D : Type} {lay : Layout} {Q : Quota D} {ω ω' : Shared D} {op : Op} {ws : List Wake}

namespace WaitSet

def registered (set : WaitSet) : List Koid :=
  match set.phase with
  | .idle => set.members
  | .adding koid => set.members.filter (· ≠ koid)
  | .removing koid _ => koid :: set.members
  | .dropping rest => rest
  | .gone => []

/-- What holds of a set, whoever has its lock. -/
structure Inv (set : WaitSet) : Prop where
  nodup : set.members.Nodup
  registered : set.registered.Nodup
  last : ∀ koid, set.phase = .adding koid → ∃ init, set.members = init ++ [koid]
  charged : set.charged =
    match set.phase with
    | .removing _ n => set.members.length + n
    | .gone => 0
    | _ => set.members.length

theorem settled_subset_registered (set : WaitSet) : set.settled ⊆ set.registered := by
  intro m hm
  unfold settled at hm
  unfold registered
  cases hphase : set.phase <;> simp_all

end WaitSet

variable {l : List Koid} {k m : Koid} {n : Nat}

theorem filter_ne_eq_self (h : k ∉ l) : l.filter (· ≠ k) = l := by
  refine filter_eq_self.mpr fun m hm => ?_
  simp only [ne_eq,decide_not,Bool.not_eq_true',decide_eq_false_iff_not]
  rintro rfl
  exact h hm

theorem filter_ne_append_self (h : k ∉ l) : (l ++ [k]).filter (· ≠ k) = l := by
  rw [filter_append,filter_ne_eq_self h]
  simp

theorem not_mem_filter_ne : k ∉ l.filter (· ≠ k) := by
  simp

def Shared.entries (ω : Shared D) : Nat :=
  ∑ n ∈ Finset.range WAIT_BUCKET_COUNT, (ω.observers n).length

/-- The table of the observers. -/
structure Shared.ObserversInv (ω : Shared D) : Prop where
  placed : ∀ n, ∀ o ∈ ω.observers n, o.member % WAIT_BUCKET_COUNT = n
  count : ω.observerCount = ω.entries
  few : ∀ m, ((ω.observersOf m).countP fun o => o.member = m) ≤ MAX_SETS_PER_OBJECT
  entry : ∀ s m, (ω.observersOf m).count ⟨m,s⟩ = (ω.sets s).registered.count m

theorem bucket_mem (k : Koid) : k % WAIT_BUCKET_COUNT ∈ Finset.range WAIT_BUCKET_COUNT :=
  Finset.mem_range.mpr (Nat.mod_lt _ (by decide))

theorem entries_setObservers (ω : Shared D) (k : Koid) (l : List SetObserver) :
    (ω.setObservers k l).entries + (ω.observersOf k).length = ω.entries + l.length := by
  have hsum := sum_update (fun _ l => l.length) ω.observers (bucket_mem k) l
  exact hsum

@[simp] theorem observersOf_setSet (ω : Shared D) (s m : Koid) (set : WaitSet) :
    (ω.setSet s set).observersOf m = ω.observersOf m := rfl

theorem observersOf_setObservers (ω : Shared D) (k m : Koid) (l : List SetObserver) :
    (ω.setObservers k l).observersOf m =
      if m % WAIT_BUCKET_COUNT = k % WAIT_BUCKET_COUNT then l else ω.observersOf m := by
  unfold observersOf setObservers
  dsimp only
  by_cases h : m % WAIT_BUCKET_COUNT = k % WAIT_BUCKET_COUNT
  · rw [if_pos h,h,update_self]
  · rw [if_neg h,update_of_ne h]

theorem setSet_sets (ω : Shared D) (s s' : Koid) (set : WaitSet) :
    (ω.setSet s set).sets s' = if s' = s then set else ω.sets s' := by
  by_cases h : s' = s
  · rw [if_pos h,h]
    exact update_self ..
  · rw [if_neg h]
    exact update_of_ne h ..

namespace Shared.ObserversInv

variable {s k : Koid} {set : WaitSet}

section

variable (h : ω.ObserversInv)
include h

theorem setSet (hsame : ∀ m, set.registered.count m = (ω.sets s).registered.count m) :
    (ω.setSet s set).ObserversInv where
  placed := h.placed
  count := h.count
  few := h.few
  entry s' m := by
    rw [observersOf_setSet,h.entry,setSet_sets]
    by_cases hs : s' = s
    · rw [if_pos hs,hs]
      exact (hsame m).symm
    · rw [if_neg hs]

/-- The bucket of `k` is replaced together with the set `s`. -/
theorem setObservers {l : List SetObserver}
    (hplaced : ∀ o ∈ l, o.member % WAIT_BUCKET_COUNT = k % WAIT_BUCKET_COUNT)
    (hcount : n + (ω.observersOf k).length = ω.observerCount + l.length)
    (hfew : ∀ m, (l.countP fun o => o.member = m) ≤
      max (((ω.observersOf k).countP fun o => o.member = m)) MAX_SETS_PER_OBJECT)
    (hentry : ∀ m s', ω.observersOf m = ω.observersOf k → l.count ⟨m,s'⟩ =
      if s' = s then set.registered.count m else (ω.observersOf m).count ⟨m,s'⟩)
    (hother : ∀ m, m ≠ k → set.registered.count m = (ω.sets s).registered.count m) :
    (({ ω.setObservers k l with observerCount := n } : Shared D).setSet s set).ObserversInv := by
  have hbucket m := observersOf_setObservers ω k m l
  have hsame {m : Koid} (hm : m % WAIT_BUCKET_COUNT = k % WAIT_BUCKET_COUNT) :
      ω.observersOf m = ω.observersOf k := by
    unfold observersOf
    rw [hm]
  refine ⟨fun i o ho => ?_,?_,fun m => ?_,fun s' m => ?_⟩
  · change o ∈ Function.update ω.observers _ _ _ at ho
    by_cases hi : i = k % WAIT_BUCKET_COUNT
    · rw [hi,update_self] at ho
      exact hi ▸ hplaced o ho
    · rw [update_of_ne hi] at ho
      exact h.placed i o ho
  · have htotal := entries_setObservers ω k l
    have hold := h.count
    change n = (ω.setObservers k l).entries
    omega
  · change ((ω.setObservers k l).observersOf m).countP _ ≤ _
    rw [hbucket m]
    split
    · next hm =>
      have hold := h.few m
      rw [hsame hm] at hold
      exact (hfew m).trans (max_le hold le_rfl)
    · exact h.few m
  change ((ω.setObservers k l).observersOf m).count _ = _
  rw [hbucket m,setSet_sets]
  have hold := h.entry s' m
  split
  · next hm =>
    rw [hentry m s' (hsame hm),hold]
    split <;> rfl
  next hm =>
  rw [hold]
  split
  · next hs => rw [hs,hother m fun heq => hm (heq ▸ rfl)]
  · rfl

theorem register (hfew : ((ω.observersOf k).countP fun o => o.member = k) < MAX_SETS_PER_OBJECT)
    (hmore : ∀ m, set.registered.count m = (ω.sets s).registered.count m + if m = k then 1 else 0) :
    ((ω.registerSetObserver k s).setSet s set).ObserversInv := by
  refine h.setObservers (forall_mem_append.mpr ⟨h.placed _,forall_mem_singleton.mpr rfl⟩) ?_
    (fun m => ?_) (fun m s' hm => ?_) fun m hm => ?_
  · rw [length_append,length_singleton]
    omega
  · rw [countP_append,countP_singleton]
    by_cases hm : k = m
    · subst hm
      simp only [decide_true,if_true]
      omega
    · rw [if_neg (by simpa using hm),Nat.add_zero]
      exact le_max_left _ _
  · rw [← hm,count_append,count_singleton,h.entry]
    by_cases hs : s' = s
    · rw [if_pos hs,hmore m,hs]
      simp only [beq_iff_eq,SetObserver.mk.injEq,eq_comm (a := k),and_true]
    · rw [if_neg hs,if_neg (by simp [Ne.symm hs]),Nat.add_zero]
  · rw [hmore m,if_neg hm,Nat.add_zero]

theorem unregister
    (hless : ∀ m, set.registered.count m = if m = k then 0 else (ω.sets s).registered.count m) :
    ((ω.unregisterSetObserver k s).setSet s set).ObserversInv := by
  let gone : SetObserver → Bool := fun o => ¬ (o.member = k ∧ o.set = s)
  refine h.setObservers (l := (ω.observersOf k).filter gone)
    (fun o ho => h.placed _ o (mem_of_mem_filter ho)) ?_
    (fun m => (List.Sublist.countP_le filter_sublist).trans (le_max_left _ _)) (fun m s' hm => ?_)
    fun m hm => by rw [hless m,if_neg hm]
  · have hle := length_filter_le gone (ω.observersOf k)
    have hbound : (ω.observersOf k).length ≤ ω.observerCount := by
      rw [h.count]
      exact Finset.single_le_sum (f := fun n => (ω.observers n).length)
        (fun _ _ => Nat.zero_le _) (bucket_mem k)
    change ω.observerCount - ((ω.observersOf k).length - ((ω.observersOf k).filter gone).length) +
      _ = _
    omega
  · rw [← hm]
    by_cases hboth : m = k ∧ s' = s
    · rw [if_pos hboth.2,hless m,if_pos hboth.1]
      refine count_eq_zero.mpr fun hmem => ?_
      simpa [gone,hboth] using (mem_filter.mp hmem).2
    · rw [count_filter (p := gone) (decide_eq_true hboth)]
      split
      · next hs => rw [hless m,if_neg fun heq => hboth ⟨heq,hs⟩,h.entry,hs]
      · rfl

theorem forwards (hm : m ∈ (ω.sets s).settled) : ω.observerCount ≠ 0 ∧ s ∈ ω.watchers m := by
  have hreg : 0 < (ω.sets s).registered.count m :=
    count_pos_iff.mpr ((ω.sets s).settled_subset_registered hm)
  rw [← h.entry s m] at hreg
  have hmem : ⟨m,s⟩ ∈ ω.observersOf m := count_pos_iff.mp hreg
  constructor
  · have hle := Finset.single_le_sum (f := fun n => (ω.observers n).length)
      (fun _ _ => Nat.zero_le _) (bucket_mem m)
    have hpos : 0 < (ω.observers (m % WAIT_BUCKET_COUNT)).length := length_pos_of_mem hmem
    have hcount := h.count
    unfold entries at hcount
    omega
  · unfold watchers
    have hshort := h.few m
    rw [countP_eq_length_filter] at hshort
    rw [take_of_length_le (by simpa using hshort)]
    exact mem_map.mpr ⟨⟨m,s⟩,mem_filter.mpr ⟨hmem,by simp⟩,rfl⟩

end

end Shared.ObserversInv

/-- What holds of the sets and of what they wait for. -/
structure Shared.SetsInv (lay : Layout) (ω : Shared D) : Prop where
  endpoints : ω.EndpointsInv
  groups : ω.GroupsInv lay
  /-- A group is created before it becomes a member. -/
  created : ∀ s, ∀ m ∈ (ω.sets s).members, lay.kind m = .processGroup → ω.groups m ≠ .absent
  sets : ∀ s, (ω.sets s).Inv
  observers : ω.ObserversInv

theorem sets_of_perform (hinv : ω.EndpointsInv) (hop : ¬ op.onSet)
    (h : ω.perform lay Q op = some (ω', ws)) :
    ω'.sets = ω.sets ∧ ω'.observers = ω.observers ∧ ω'.observerCount = ω.observerCount := by
  by_cases hend : op.onEndpoint
  · cases endpointStep_of_perform hinv hend h <;> exact ⟨rfl,rfl,rfl⟩
  cases op with
  | createGroup g | dropGroup g =>
    dsimp only [perform] at h
    split at h <;> cases h
    exact ⟨rfl,rfl,rfl⟩
  | _ => first | exact absurd rfl hend | exact absurd rfl hop | cases h; exact ⟨rfl,rfl,rfl⟩

section

variable (hinv : ω.GroupsInv lay)
include hinv

theorem Shared.GroupsInv.setProcess {p : Koid} {process : Process}
    (hsame : process.groups = (ω.processes p).groups) : (ω.setProcess p process).GroupsInv lay := by
  intro g halive p' hp'
  have hwas := hinv g halive p' hp'
  rcases eq_or_ne p' p with rfl | hp
  · simpa [Shared.setProcess,hsame] using hwas
  · simpa [Shared.setProcess,hp] using hwas

theorem Shared.GroupsInv.joinGroup {g : Koid} : (ω.joinGroup lay g).GroupsInv lay := by
  intro g' halive p hp
  have hwas : g' ≠ g → ω.groups g' = .alive ∧ g' ∈ (ω.processes p).groups := by
    intro hg
    simp only [Shared.joinGroup,update_of_ne hg] at halive
    exact ⟨halive,hinv g' halive p hp⟩
  dsimp only [Shared.joinGroup]
  split
  · refine mem_append.mpr ?_
    by_cases hg : g' = g
    · exact .inr (mem_singleton.mpr hg)
    · exact .inl (mem_filter.mpr ⟨(hwas hg).2,decide_eq_true (hwas hg).1⟩)
  · next hnot => exact (hwas fun heq => hnot (heq ▸ hp)).2

/-- The groups stay what they are, and a group that has been created does not become absent. -/
theorem Shared.GroupsInv.perform (hends : ω.EndpointsInv) (h : ω.perform lay Q op = some (ω', ws)) :
    ω'.GroupsInv lay ∧ ∀ g, ω.groups g ≠ .absent → ω'.groups g ≠ .absent := by
  by_cases hend : op.onEndpoint
  · cases endpointStep_of_perform hends hend h <;> exact ⟨hinv,fun _ => id⟩
  by_cases hset : op.onSet
  · obtain ⟨-,-,hprocesses,hgroups⟩ := same_of_perform hset h
    unfold Shared.GroupsInv
    rw [hprocesses,hgroups]
    exact ⟨hinv,fun _ => id⟩
  cases op with
  | createGroup g =>
    dsimp only [perform] at h
    split at h <;> cases h
    refine ⟨hinv.joinGroup,fun g' hg => ?_⟩
    rcases eq_or_ne g' g with rfl | hne
    · simp [Shared.joinGroup]
    · simpa [Shared.joinGroup,hne] using hg
  | dropGroup g =>
    dsimp only [perform] at h
    split at h <;> cases h
    refine ⟨fun g' halive p hp => ?_,fun g' hg => ?_⟩
    all_goals rcases eq_or_ne g' g with rfl | hne
    · simp at halive
    · exact hinv g' (by simpa [hne] using halive) p hp
    · simp
    · simpa [hne] using hg
  | signal k =>
    cases h
    exact ⟨hinv,fun _ => id⟩
  | _ =>
    first
    | exact absurd rfl hend
    | exact absurd rfl hset
    | cases h
      exact ⟨hinv.setProcess rfl,fun _ => id⟩

end

/-- What an operation on sets does: nothing, or one step of `add`, `remove` or `drop`. -/
inductive SetStep (lay : Layout) (ω : Shared D) : Op → Shared D → Prop where
  | nothing {op : Op} : SetStep lay ω op ω
  | add {s m room quota} : (ω.sets s).phase = .idle → ω.live lay m = true →
      m ∉ (ω.sets s).members → SetStep lay ω (.add s m room quota)
        (ω.setSet s ⟨(ω.sets s).members ++ [m],.adding m,(ω.sets s).charged + 1⟩)
  | refuse {s m room} : (ω.sets s).phase = .adding m →
      SetStep lay ω (.addObserver s room)
        (ω.setSet s ⟨(ω.sets s).members.dropLast,.idle,(ω.sets s).charged - 1⟩)
  | observe {s m room} : (ω.sets s).phase = .adding m →
      ((ω.observersOf m).countP fun o => o.member = m) < MAX_SETS_PER_OBJECT →
      SetStep lay ω (.addObserver s room)
        ((ω.registerSetObserver m s).setSet s { ω.sets s with phase := .idle })
  | remove {s k} : (ω.sets s).phase = .idle → k ∈ (ω.sets s).members →
      SetStep lay ω (.remove s k)
        (ω.setSet s ⟨(ω.sets s).members.filter (· ≠ k),.removing k ((ω.sets s).members.length -
          ((ω.sets s).members.filter (· ≠ k)).length),(ω.sets s).charged⟩)
  | removed {s k n} : (ω.sets s).phase = .removing k n →
      SetStep lay ω (.removeObserver s)
        ((ω.unregisterSetObserver k s).setSet s ⟨(ω.sets s).members,.idle,(ω.sets s).charged - n⟩)
  | drop {s} : (ω.sets s).phase = .idle → SetStep lay ω (.dropSet s)
      (ω.setSet s { ω.sets s with phase := .dropping (ω.sets s).members })
  | dropOne {s m rest} : (ω.sets s).phase = .dropping (m :: rest) →
      SetStep lay ω (.dropObserver s)
        ((ω.unregisterSetObserver m s).setSet s { ω.sets s with phase := .dropping rest })
  | dropped {s} : (ω.sets s).phase = .dropping [] → SetStep lay ω (.dropObserver s)
      (ω.setSet s { ω.sets s with
        phase := .gone, charged := (ω.sets s).charged - (ω.sets s).members.length })

theorem setStep_of_perform (hop : op.onSet) (h : ω.perform lay Q op = some (ω', ws)) :
    SetStep lay ω op ω' := by
  cases op with
  | add s m room quota =>
    dsimp only [perform] at h
    split at h
    · next hidle =>
      split at h
      · cases h
        exact .nothing
      · next hnot =>
        cases h
        exact .add hidle.1 hidle.2 fun hm => hnot (.inr (.inl hm))
    · cases h
  | addObserver s room =>
    dsimp only [perform] at h
    split at h
    · next m hphase =>
      split at h
      · cases h
        exact .refuse hphase
      · next hnot =>
        cases h
        exact .observe hphase (lt_of_not_ge fun hge => hnot (.inl hge))
    · cases h
  | remove s k =>
    dsimp only [perform] at h
    split at h
    · next hidle =>
      split at h
      · cases h
        exact .nothing
      next hnot =>
      cases h
      refine .remove hidle (Classical.byContradiction fun hk => hnot ?_)
      rw [filter_ne_eq_self hk]
    · cases h
  | removeObserver s =>
    dsimp only [perform] at h
    split at h
    · next hphase =>
      cases h
      exact .removed hphase
    · cases h
  | dropSet s =>
    dsimp only [perform] at h
    split at h
    · next hidle =>
      cases h
      exact .drop hidle
    · cases h
  | dropObserver s =>
    dsimp only [perform] at h
    split at h
    · next hphase =>
      cases h
      exact .dropOne hphase
    · next hphase =>
      cases h
      exact .dropped hphase
    · cases h
  | _ => cases hop

namespace SetStep

theorem adding_init {set : WaitSet} (h : set.Inv) (hphase : set.phase = .adding m) :
    ∃ init, set.members = init ++ [m] ∧ m ∉ init := by
  obtain ⟨init,hinit⟩ := h.last m hphase
  have hnodup := h.nodup
  rw [hinit] at hnodup
  exact ⟨init,hinit,fun hm => (disjoint_of_nodup_append hnodup) hm mem_cons_self⟩

section

variable (h : SetStep lay ω op ω') {s : Koid}
include h

theorem sets_inv (hsets : ∀ s, (ω.sets s).Inv) (s' : Koid) : (ω'.sets s').Inv := by
  have hset {ω₁ : Shared D} {s : Koid} {set : WaitSet} (hsame : ω₁.sets = ω.sets)
      (hinv : set.Inv) : ((ω₁.setSet s set).sets s').Inv := by
    rw [setSet_sets,hsame]
    split
    · exact hinv
    · exact hsets s'
  have hcharged {s : Koid} {phase : SetPhase} (hphase : (ω.sets s).phase = phase) :=
    hphase ▸ (hsets s).charged
  cases h with
  | nothing => exact hsets s'
  | @add s m _ _ hidle _ hm =>
    have hi := hsets s
    refine hset rfl ⟨?_,?_,?_,?_⟩
    · exact concat_eq_append ▸ hi.nodup.concat hm
    · unfold registered
      dsimp only
      rw [filter_ne_append_self hm]
      exact hi.nodup
    · rintro koid heq
      cases heq
      exact ⟨_,rfl⟩
    · simp [hcharged hidle]
  | @refuse s m _ hphase =>
    have hi := hsets s
    obtain ⟨init,hinit,hm⟩ := adding_init hi hphase
    have hnodup := hi.nodup
    rw [hinit] at hnodup
    have hlast : (ω.sets s).members.dropLast = init := by simp [hinit]
    have hinit' : init.Nodup := (nodup_append.mp hnodup).1
    refine hset rfl ⟨?_,?_,fun _ heq => (by cases heq),?_⟩
    · exact hlast.symm ▸ hinit'
    · exact hlast.symm ▸ hinit'
    · simp [hcharged hphase,hinit]
  | @observe s _ _ hphase _ | @drop s hphase =>
    have hi := hsets s
    exact hset rfl ⟨hi.nodup,hi.nodup,fun _ heq => (by cases heq),hcharged hphase⟩
  | @remove s k hidle hk =>
    have hi := hsets s
    have hcharged := hcharged hidle
    have hle := length_filter_le (fun m => decide (m ≠ k)) (ω.sets s).members
    refine hset rfl ⟨hi.nodup.filter _,?_,fun _ heq => (by cases heq),?_⟩
    · exact nodup_cons.mpr ⟨not_mem_filter_ne,hi.nodup.filter _⟩
    · dsimp only at hcharged ⊢
      omega
  | @removed s k n hphase =>
    have hi := hsets s
    have hcharged := hcharged hphase
    refine hset rfl ⟨hi.nodup,hi.nodup,fun _ heq => (by cases heq),?_⟩
    dsimp only at hcharged ⊢
    omega
  | @dropOne s m rest hphase =>
    have hi := hsets s
    have hrest := hi.registered
    unfold registered at hrest
    rw [hphase] at hrest
    exact hset rfl ⟨hi.nodup,(nodup_cons.mp hrest).2,fun _ heq => (by cases heq),hcharged hphase⟩
  | @dropped s hphase =>
    have hi := hsets s
    have hcharged := hcharged hphase
    refine hset rfl ⟨hi.nodup,nodup_nil,fun _ heq => (by cases heq),?_⟩
    dsimp only at hcharged ⊢
    omega

theorem observers_inv (hsets : ∀ s, (ω.sets s).Inv) (hobservers : ω.ObserversInv) :
    ω'.ObserversInv := by
  have hreg {s : Koid} {phase : SetPhase} (hphase : (ω.sets s).phase = phase) :
      (ω.sets s).registered = (⟨(ω.sets s).members,phase,0⟩ : WaitSet).registered := by
    unfold registered
    rw [hphase]
  have htail {k : Koid} {rest : List Koid} (hnodup : (k :: rest).Nodup) (m : Koid) :
      rest.count m = if m = k then 0 else (k :: rest).count m := by
    split
    · next heq => exact count_eq_zero.mpr (heq ▸ (nodup_cons.mp hnodup).1)
    · next hne => rw [count_cons_of_ne (Ne.symm hne)]
  cases h with
  | nothing => exact hobservers
  | @add s m _ _ hidle _ hm =>
    refine hobservers.setSet fun m' => ?_
    rw [hreg hidle]
    exact congrArg (List.count m') (filter_ne_append_self hm)
  | @refuse s m _ hphase =>
    obtain ⟨init,hinit,hm⟩ := adding_init (hsets s) hphase
    refine hobservers.setSet fun m' => ?_
    rw [hreg hphase]
    simp only [registered,hinit,dropLast_concat]
    rw [filter_ne_append_self hm]
  | @observe s m _ hphase hfew =>
    obtain ⟨init,hinit,hm⟩ := adding_init (hsets s) hphase
    refine hobservers.register hfew fun m' => ?_
    rw [hreg hphase]
    simp only [registered,hinit]
    rw [filter_ne_append_self hm,count_append,count_singleton]
    simp only [beq_iff_eq,eq_comm (a := m)]
  | @remove s k hidle hk =>
    refine hobservers.setSet fun m => ?_
    rw [hreg hidle]
    simp only [registered,count_cons]
    have hone : (ω.sets s).members.count k = 1 := count_eq_one_of_mem (hsets s).nodup hk
    by_cases hm : m = k
    · subst hm
      rw [count_eq_zero.mpr not_mem_filter_ne,hone]
      simp
    · rw [count_filter (by simpa using hm),if_neg (by simpa using Ne.symm hm),Nat.add_zero]
  | @removed s _ _ hphase | @dropOne s _ _ hphase =>
    have hnodup := (hsets s).registered
    rw [hreg hphase] at hnodup
    refine hobservers.unregister fun m => ?_
    rw [hreg hphase]
    exact htail hnodup m
  | @drop s hphase | @dropped s hphase =>
    refine hobservers.setSet fun m => ?_
    rw [hreg hphase]
    rfl

theorem mem_members (hm : m ∈ (ω'.sets s).members) : m ∈ (ω.sets s).members ∨ ω.live lay m := by
  have hset {ω₁ : Shared D} {s₁ : Koid} {set : WaitSet} (hsame : ω₁.sets = ω.sets)
      (hin : m ∈ ((ω₁.setSet s₁ set).sets s).members)
      (hfrom : m ∈ set.members → m ∈ (ω.sets s₁).members ∨ ω.live lay m) :
      m ∈ (ω.sets s).members ∨ ω.live lay m := by
    rw [setSet_sets,hsame] at hin
    split at hin
    · next heq =>
      subst heq
      exact hfrom hin
    · exact .inl hin
  cases h with
  | nothing => exact .inl hm
  | add _ hlive _ =>
    refine hset rfl hm fun hin => ?_
    rcases mem_append.mp hin with hold | hnew
    · exact .inl hold
    · rw [mem_singleton.mp hnew]
      exact .inr hlive
  | refuse => exact hset rfl hm fun hin => .inl (mem_of_mem_dropLast hin)
  | observe | removed | drop | dropOne | dropped => exact hset rfl hm .inl
  | remove => exact hset rfl hm fun hin => .inl (mem_of_mem_filter hin)

theorem mem_settled (hsets : ∀ s, (ω.sets s).Inv) (hm : m ∈ (ω'.sets s).settled) :
    m ∈ (ω.sets s).settled ∨ ∃ room, op = .addObserver s room ∧ (ω.sets s).phase = .adding m := by
  have hset {ω₁ : Shared D} {s₁ : Koid} {set : WaitSet} (hsame : ω₁.sets = ω.sets)
      (hin : m ∈ ((ω₁.setSet s₁ set).sets s).settled)
      (hfrom : s = s₁ → m ∈ set.settled → m ∈ (ω.sets s₁).settled ∨
        ∃ room, op = .addObserver s room ∧ (ω.sets s₁).phase = .adding m) :
      m ∈ (ω.sets s).settled ∨ ∃ room, op = .addObserver s room ∧ (ω.sets s).phase = .adding m := by
    rw [setSet_sets,hsame] at hin
    split at hin
    · next heq =>
      subst heq
      exact hfrom rfl hin
    · exact .inl hin
  have hsettled {s₁ : Koid} {phase : SetPhase} (hphase : (ω.sets s₁).phase = phase) :
      (ω.sets s₁).settled = (⟨(ω.sets s₁).members,phase,0⟩ : WaitSet).settled := by
    unfold settled
    rw [hphase]
  cases h with
  | nothing => exact .inl hm
  | @add s₁ m₁ _ _ hidle _ hnot =>
    refine hset rfl hm fun _ hin => .inl ?_
    rw [hsettled hidle]
    exact (filter_ne_append_self hnot) ▸ hin
  | @refuse s₁ m₁ _ hphase =>
    obtain ⟨init,hinit,hm₁⟩ := adding_init (hsets s₁) hphase
    refine hset rfl hm fun _ hin => .inl ?_
    rw [hsettled hphase]
    simp only [settled,hinit,dropLast_concat] at hin ⊢
    rwa [filter_ne_append_self hm₁]
  | @observe s₁ m₁ room hphase _ =>
    obtain ⟨init,hinit,hm₁⟩ := adding_init (hsets s₁) hphase
    refine hset rfl hm fun heq hin => ?_
    subst heq
    rw [hsettled hphase]
    simp only [settled,hinit] at hin ⊢
    rw [filter_ne_append_self hm₁]
    rcases mem_append.mp hin with hold | hnew
    · exact .inl hold
    · rw [mem_singleton.mp hnew]
      exact .inr ⟨room,rfl,hphase⟩
  | remove hidle _ =>
    refine hset rfl hm fun _ hin => .inl ?_
    rw [hsettled hidle]
    exact mem_of_mem_filter hin
  | removed hphase =>
    refine hset rfl hm fun _ hin => .inl ?_
    rw [hsettled hphase]
    exact hin
  | drop | dropOne | dropped => exact hset rfl hm fun _ hin => (by cases hin)

end

end SetStep

theorem Shared.SetsInv.perform (hinv : ω.SetsInv lay) (h : ω.perform lay Q op = some (ω', ws)) :
    ω'.SetsInv lay := by
  have hends := hinv.endpoints
  obtain ⟨hgroups,hcreated⟩ := hinv.groups.perform hends h
  by_cases hset : op.onSet
  · have hstep := setStep_of_perform hset h
    refine ⟨hends.perform h,hgroups,fun s m hm hkind => ?_,
      hstep.sets_inv hinv.sets,hstep.observers_inv hinv.sets hinv.observers⟩
    refine hcreated m ?_
    rcases hstep.mem_members hm with hold | hlive
    · exact hinv.created s m hold hkind
    unfold live at hlive
    rw [hkind] at hlive
    rw [of_decide_eq_true hlive]
    decide
  obtain ⟨hsets,hobservers,hcount⟩ := sets_of_perform hends hset h
  refine ⟨hends.perform h,hgroups,fun s m hm hkind => ?_,?_,?_⟩
  · rw [hsets] at hm
    exact hcreated m (hinv.created s m hm hkind)
  · rw [hsets]
    exact hinv.sets
  have hold := hinv.observers
  refine ⟨?_,?_,?_,?_⟩
  · rw [hobservers]
    exact hold.placed
  · unfold entries
    rw [hobservers,hcount]
    exact hold.count
  · unfold observersOf
    rw [hobservers]
    exact hold.few
  · unfold observersOf
    rw [hobservers,hsets]
    exact hold.entry

end LiberSystem.Sched
