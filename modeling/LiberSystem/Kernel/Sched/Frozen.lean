import LiberSystem.Kernel.Object.Domain
import LiberSystem.Kernel.Sched.Freeze

/-!
# A frozen process runs no user code

A thread that is anywhere but on its last steps to user mode is caught by a flag.
-/

namespace LiberSystem.Freeze

open Function Option List Freeze.World

def Place.caught : Place → Bool
  | .syscall _ | .returning | .checking | .parked _ | .retired => true
  | .tickParked frozen _ => frozen
  | .user | .ticked | .held | .leaving => false

theorem act_caught {freezes : Nat} {P : Process} {place place' : Place} {a : Action}
    (h : place.act freezes P a = some place') (hcount : freezes ≠ 0) (hfrozen : P.frozen)
    (hkilled : P.killed = false) (hcaught : place.caught) : place'.caught := by
  unfold Place.act at h
  split at h <;> grind [Place.caught]

namespace World

variable {L : Layout} {s s' : World} {e : Event}

/-- The calls are as follows: a thaw names a Domain on which a freeze was called that is counted,
the count does not overflow, no freeze gives up waiting, and none finds a thread parked at the
preemption point for a stop alone. -/
def orderly (s : World) : Event → Bool
  | .freeze _ d => s.domains d || decide (s.freezes + 1 < 2 ^ 32)
  | .thaw d => !s.domains d || s.counted.contains d
  | .look _ t =>
    match s.places t with
    | .tickParked frozen _ => frozen
    | _ => true
  | .timeout _ => false
  | _ => true

def Awaited (L : Layout) (s : World) (t : ThreadId) : Prop :=
  ∃ c call, s.calls c = some call ∧ L.under call.domain (L.process t) = true ∧ t ∉ call.seen

structure Guarded (L : Layout) (s : World) : Prop where
  count : s.freezes = s.counted.length
  bound : s.freezes < 2 ^ 32
  /-- A frozen Domain has one above it on which a freeze was called. -/
  flag : ∀ x, s.domains x = true → ∃ a ∈ L.forest.path x, a ∈ s.counted ∧ s.domains a = true
  agree : ∀ p, (s.processes p).frozen = s.domains (L.domain p)
  guarded : ∀ t ∈ L.threads, (s.processes (L.process t)).frozen = true →
    (s.processes (L.process t)).killed = false → (s.places t).caught = true ∨ s.Awaited L t

namespace Guarded

theorem new (L : Layout) (places : ThreadId → Place) : Guarded L (World.new places) where
  count := rfl
  bound := Nat.two_pow_pos 32
  flag _ h := absurd h (by simp [World.new])
  agree _ := rfl
  guarded _ _ h := absurd h (by simp [World.new])

variable {p : ProcessId} {d : DomainId} {c : CallId} {freezes : Nat} {t : ThreadId}

variable (h : Guarded L s)

include h

theorem freezes_ne_zero (hfrozen : (s.processes p).frozen) : s.freezes ≠ 0 := by
  rw [h.agree p] at hfrozen
  obtain ⟨a,-,ha,-⟩ := h.flag _ hfrozen
  rw [h.count]
  exact fun hzero => ne_nil_of_mem ha (length_eq_zero_iff.mp hzero)

theorem of_same (hfreezes : s'.freezes = s.freezes)
    (hcounted : s'.counted = s.counted) (hdomains : s'.domains = s.domains)
    (hfrozen : ∀ p, (s'.processes p).frozen = (s.processes p).frozen)
    (hguarded : ∀ t ∈ L.threads, (s.processes (L.process t)).frozen →
      (s'.processes (L.process t)).killed = false →
        (s'.places t).caught ∨ s'.Awaited L t) : Guarded L s' where
  count := by rw [hfreezes,hcounted,h.count]
  bound := hfreezes ▸ h.bound
  flag x hx := by
    rw [hdomains] at hx ⊢
    rw [hcounted]
    exact h.flag x hx
  agree p := by rw [hfrozen,hdomains,h.agree]
  guarded t ht hf hk := hguarded t ht (hfrozen _ ▸ hf) hk

/-- The flags of the subtree of `d` go up, with a Domain over them that is counted. -/
theorem setFrozen_true
    {counted : List DomainId} (hfree : s.calls c = none) (hcount : freezes = counted.length)
    (hbound : freezes < 2 ^ 32) (hcounted : ∀ a ∈ s.counted, a ∈ counted)
    (hover : ∃ a ∈ L.forest.path d, a ∈ counted ∧ (a = d ∨ s.domains a)) :
    Guarded L (((s.setFreezes freezes counted).setFrozen L d true).setCall c (some ⟨d,[]⟩)) where
  count := hcount
  bound := hbound
  flag x hx := by
    dsimp only [setCall,setFrozen,setFreezes] at hx ⊢
    by_cases hd : d ∈ L.forest.path x
    · obtain ⟨a,ha,hmem,hflag⟩ := hover
      refine ⟨a,L.forest.mem_path_trans ha hd,hmem,?_⟩
      rcases hflag with rfl | hflag
      · rw [if_pos (L.forest.mem_path_self a)]
      · split
        · rfl
        · exact hflag
    · rw [if_neg hd] at hx
      obtain ⟨a,ha,hmem,hflag⟩ := h.flag x hx
      refine ⟨a,ha,hcounted a hmem,?_⟩
      split
      · rfl
      · exact hflag
  agree p := by
    dsimp only [setCall,setFrozen,setFreezes]
    by_cases hd : d ∈ L.forest.path (L.domain p)
    · simp [Layout.under,hd]
    · simp [Layout.under,hd,h.agree p]
  guarded t ht hf hk := by
    dsimp only [setCall,setFrozen,setFreezes] at hf hk ⊢
    by_cases hd : L.under d (L.process t)
    · exact .inr ⟨c,⟨d,[]⟩,update_self c _ s.calls,hd,not_mem_nil⟩
    rw [if_neg hd] at hf hk
    refine (h.guarded t ht hf hk).imp_right ?_
    rintro ⟨c',call,hcall,hunder,hseen⟩
    have hne : c' ≠ c := by
      rintro rfl
      rw [hfree] at hcall
      cases hcall
    exact ⟨c',call,(update_of_ne hne _ s.calls).trans hcall,hunder,hseen⟩

theorem setFrozen_false
    (hcount : freezes = (s.counted.erase d).length) (hbound : freezes < 2 ^ 32) :
    Guarded L ((s.setFrozen L d false).setFreezes freezes (s.counted.erase d)) where
  count := hcount
  bound := hbound
  flag x hx := by
    dsimp only [setFrozen,setFreezes] at hx ⊢
    by_cases hd : d ∈ L.forest.path x
    · rw [if_pos hd] at hx
      cases hx
    rw [if_neg hd] at hx
    obtain ⟨a,ha,hmem,hflag⟩ := h.flag x hx
    -- The Domain over `x` is not `d` and not below it, or `x` would be below `d`.
    have hda : d ∉ L.forest.path a := fun hda => hd (L.forest.mem_path_trans hda ha)
    have hne : a ≠ d := by
      rintro rfl
      exact hda (L.forest.mem_path_self a)
    refine ⟨a,ha,(mem_erase_of_ne hne).mpr hmem,?_⟩
    rw [if_neg hda]
    exact hflag
  agree p := by
    dsimp only [setFrozen,setFreezes]
    by_cases hd : d ∈ L.forest.path (L.domain p)
    · simp [Layout.under,hd]
    · simp [Layout.under,hd,h.agree p]
  guarded t ht hf hk := by
    dsimp only [setFrozen,setFreezes] at hf hk ⊢
    by_cases hd : L.under d (L.process t)
    · rw [if_pos hd] at hf
      cases hf
    · rw [if_neg hd] at hf hk
      exact h.guarded t ht hf hk

theorem step_freeze (hok : s.orderly (.freeze c d)) (hstep : step L s (.freeze c d) = some s') :
    Guarded L s' := by
  simp only [step,ite_none_right_eq_some,isNone_iff_eq_none,some.injEq] at hstep
  obtain ⟨hfree,rfl⟩ := hstep
  cases hd : s.domains d with
  | true =>
    -- The Domain is frozen already, and so there is one above it that is counted.
    obtain ⟨a,ha,hmem,hflag⟩ := h.flag d hd
    exact h.setFrozen_true hfree h.count h.bound (fun _ ha => ha) ⟨a,ha,hmem,.inr hflag⟩
  | false =>
    have hroom : s.freezes + 1 < 2 ^ 32 := by simpa [orderly,hd] using hok
    refine h.setFrozen_true hfree ?_ (Nat.mod_lt _ (Nat.two_pow_pos 32))
      (fun a ha => mem_cons_of_mem d ha)
      ⟨d,L.forest.mem_path_self d,mem_cons_self,.inl rfl⟩
    rw [Nat.mod_eq_of_lt hroom,h.count,length_cons]

theorem step_thaw (hok : s.orderly (.thaw d))
    (hstep : step L s (.thaw d) = some s') : Guarded L s' := by
  cases hd : s.domains d with
  | false =>
    simp only [step,hd] at hstep
    cases hstep
    exact h
  | true =>
    have hmem : d ∈ s.counted := by simpa [orderly,hd] using hok
    simp only [step,hd,if_true,some.injEq] at hstep
    subst hstep
    refine h.setFrozen_false ?_ (Nat.mod_lt _ (Nat.two_pow_pos 32))
    have hpos : 0 < s.counted.length := length_pos_of_mem hmem
    have hbound := h.bound
    rw [h.count] at hbound
    change (s.freezes + (2 ^ 32 - 1)) % 2 ^ 32 = _
    rw [h.count,length_erase_of_mem hmem,
      show s.counted.length + (2 ^ 32 - 1) = (s.counted.length - 1) + 2 ^ 32 by omega,
      Nat.add_mod_right,Nat.mod_eq_of_lt (by omega)]

theorem step_look (hok : s.orderly (.look c t)) (hstep : step L s (.look c t) = some s') :
    Guarded L s' := by
  simp only [step] at hstep
  split at hstep
  · next call hcall =>
    simp only [ite_none_right_eq_some,some.injEq] at hstep
    obtain ⟨hquiet,rfl⟩ := hstep
    have hcaught : (s.places t).caught := by
      unfold Place.quiet at hquiet
      unfold orderly at hok
      unfold Place.caught
      split at hquiet <;> simp_all
    refine h.of_same rfl rfl rfl (fun _ => rfl) fun u hu hf hk => ?_
    by_cases hut : u = t
    · exact .inl (hut ▸ hcaught)
    refine (h.guarded u hu hf hk).imp_right ?_
    rintro ⟨c',call',hcall',hunder,hseen⟩
    by_cases hc : c' = c
    · subst hc
      obtain rfl : call = call' := some.inj (hcall.symm.trans hcall')
      refine ⟨c',_,update_self c' _ s.calls,hunder,?_⟩
      simp [hut,hseen]
    · exact ⟨c',call',(update_of_ne hc _ s.calls).trans hcall',hunder,hseen⟩
  · cases hstep

theorem step_complete (hstep : step L s (.complete c) = some s') : Guarded L s' := by
  simp only [step] at hstep
  split at hstep
  · next call hcall =>
    simp only [ite_none_right_eq_some,some.injEq] at hstep
    obtain ⟨hall,rfl⟩ := hstep
    refine h.of_same rfl rfl rfl (fun _ => rfl) fun u hu hf hk => ?_
    refine (h.guarded u hu hf hk).imp_right ?_
    rintro ⟨c',call',hcall',hunder,hseen⟩
    by_cases hc : c' = c
    · subst hc
      obtain rfl : call = call' := some.inj (hcall.symm.trans hcall')
      exact absurd (hall u hu hunder) hseen
    · exact ⟨c',call',(update_of_ne hc _ s.calls).trans hcall',hunder,hseen⟩
  · cases hstep

theorem step_act {a : Action} (hstep : step L s (.act t a) = some s') : Guarded L s' := by
  simp only [step,ite_none_right_eq_some,map_eq_some_iff] at hstep
  obtain ⟨ht,place,hact,rfl⟩ := hstep
  refine h.of_same rfl rfl rfl (fun _ => rfl) fun u hu hf hk => ?_
  refine (h.guarded u hu hf hk).imp_left fun hcaught => ?_
  by_cases hut : u = t
  · subst hut
    dsimp only
    rw [update_self]
    exact act_caught hact (h.freezes_ne_zero hf) hf hk hcaught
  · dsimp only
    rw [update_of_ne hut]
    exact hcaught

theorem setProcess {P : Process} (hfrozen : P.frozen = (s.processes p).frozen)
    (hkilled : P.killed = false → (s.processes p).killed = false) :
    Guarded L (s.setProcess p P) := by
  refine h.of_same rfl rfl rfl (fun q => ?_) fun u hu hf hk => ?_
  · dsimp only [World.setProcess]
    by_cases hq : q = p
    · subst hq
      rw [update_self,hfrozen]
    · rw [update_of_ne hq]
  · refine h.guarded u hu hf ?_
    dsimp only [World.setProcess] at hk
    by_cases hq : L.process u = p
    · rw [hq,update_self] at hk
      exact hq ▸ hkilled hk
    · rwa [update_of_ne hq] at hk

theorem step (hok : s.orderly e) (hstep : step L s e = some s') : Guarded L s' := by
  cases e with
  | freeze c d => exact h.step_freeze hok hstep
  | look c t => exact h.step_look hok hstep
  | complete c => exact h.step_complete hstep
  | timeout c => cases hok
  | thaw d => exact h.step_thaw hok hstep
  | stop p | cont p =>
    cases hstep
    exact h.setProcess rfl id
  | kill p =>
    cases hstep
    exact h.setProcess rfl fun hk => (by cases hk)
  | act t a => exact h.step_act hstep

end Guarded

/-- As long as the calls are orderly, a thread that passes to user mode while its process is
frozen and not killed is one that a freeze over it still waits to see blocked. And while a process
is frozen the count is not zero. -/
theorem frozen_runs_no_user_code (L : Layout) (places : ThreadId → Place) (s : World)
    (h : Reaches (step L) (fun s e => s.orderly e = true) (new places) s) :
    (∀ t s', step L s (.act t .resume) = some s' →
      (s.processes (L.process t)).frozen = true → (s.processes (L.process t)).killed = false →
        s.Awaited L t) ∧
    ∀ p, (s.processes p).frozen = true → s.freezes ≠ 0 := by
  have hs : Guarded L s := h.invariant (.new L places) fun _ _ _ hs hok hstep => hs.step hok hstep
  refine ⟨fun t s' hstep hf hk => ?_,fun p => hs.freezes_ne_zero⟩
  simp only [step,ite_none_right_eq_some,map_eq_some_iff] at hstep
  obtain ⟨ht,place,hact,-⟩ := hstep
  refine (hs.guarded t ht hf hk).resolve_left ?_
  unfold Place.act at hact
  split at hact <;> simp_all [Place.caught]

def sample : Layout := ⟨.siblings,id,id,[2]⟩

/-- The thread had read the count before the freeze began, and passes while it waits. -/
theorem frozen_runs_no_user_code_waiting :
    ∃ s, Reaches (step sample) (fun s e => s.orderly e = true) (new fun _ => .user) s ∧
      (s.processes 2).frozen = true ∧ (step sample s (.act 2 .resume)).isSome = true ∧
      s.Awaited sample 2 ∧ s.freezes ≠ 0 := by
  refine exists_reaches_imp (P := fun s => (s.processes 2).frozen = true ∧
      (s.processes 2).killed = false ∧ (step sample s (.act 2 .resume)).isSome = true)
    [.act 2 .enter,.act 2 .finish,.act 2 .readCount,.freeze 0 0] (by decide +kernel)
    fun s hrun ⟨hfrozen,hkilled,hresume⟩ => ?_
  obtain ⟨hpass,hcount⟩ := frozen_runs_no_user_code sample _ s hrun
  obtain ⟨s',hs'⟩ := isSome_iff_exists.mp hresume
  exact ⟨hfrozen,hresume,hpass 2 s' hs' hfrozen hkilled,hcount 2 hfrozen⟩

def firstCall : Event → Prop
  | .freeze c _ | .look c _ | .complete c | .timeout c => c = 0
  | _ => True

variable {es : List Event}

theorem calls_of_runList {places : ThreadId → Place}
    (hes : ∀ e ∈ es, firstCall e) (h : runList (step L) (new places) es = some s)
    (hfirst : (s.calls 0).isNone) (c : CallId) : s.calls c = none := by
  have hrun := reaches_of_runList h fun _ e he => hes e he
  by_cases hc : c = 0
  · subst hc
    exact isNone_iff_eq_none.mp hfirst
  refine hrun.invariant (P := fun s => s.calls c = none) rfl fun s e s' hs hok hstep => ?_
  have hset : ∀ call, (s.setCall 0 call).calls c = none := by
    intro call
    dsimp only [setCall]
    rw [update_of_ne hc]
    exact hs
  cases e with
  | freeze c' d =>
    obtain rfl : c' = 0 := hok
    simp only [step,ite_none_right_eq_some,some.injEq] at hstep
    obtain ⟨-,rfl⟩ := hstep
    refine (update_of_ne hc _ _).trans ?_
    split <;> exact hs
  | look c' t | complete c' =>
    obtain rfl : c' = 0 := hok
    simp only [step] at hstep
    split at hstep
    · simp only [ite_none_right_eq_some,some.injEq] at hstep
      obtain ⟨-,rfl⟩ := hstep
      exact hset _
    · cases hstep
  | timeout c' =>
    obtain rfl : c' = 0 := hok
    cases hstep
    exact hset _
  | thaw d =>
    simp only [step,some.injEq] at hstep
    subst hstep
    split <;> exact hs
  | stop p | cont p | kill p =>
    cases hstep
    exact hs
  | act t a =>
    simp only [step,ite_none_right_eq_some,map_eq_some_iff] at hstep
    obtain ⟨-,place,-,rfl⟩ := hstep
    exact hs

/-- A thread passes to user mode while its process is frozen and no freeze is in progress. -/
def Escapes (L : Layout) (s : World) (t : ThreadId) : Prop :=
  (∀ c, s.calls c = none) ∧ ∃ s', step L s (.act t .resume) = some s' ∧ s'.places t = .user ∧
    (s'.processes (L.process t)).frozen = true ∧ (s'.processes (L.process t)).killed = false

theorem exists_escapes {n : Nat} (es : List Event) (hes : ∀ e ∈ es, firstCall e)
    (h : (runList (step sample) (new fun _ => .user) es).any fun s => (s.calls 0).isNone ∧
      (s.processes 2).frozen ∧ (s.processes 2).killed = false ∧ s.places 2 = .leaving ∧
      s.freezes = n) :
    ∃ s, Reaches (step sample) (fun _ _ => True) (new fun _ => .user) s ∧
      s.Escapes sample 2 ∧ s.freezes = n := by
  obtain ⟨s,hs,hcalls,hfrozen,hkilled,hplace,hn⟩ := exists_of_any h
  refine ⟨s,reaches_of_runList hs fun _ _ _ => trivial,⟨calls_of_runList hes hs hcalls,
    { s with places := Function.update s.places 2 .user },?_,update_self 2 _ s.places,hfrozen,
    hkilled⟩,hn⟩
  simp [step,sample,hplace,Place.act]

/-- So it does after the thaw of another Domain that the freeze covered, which leaves the count at
zero; and after a stop at the preemption point, a freeze and `SIG_CONT`. -/
theorem frozen_runs_user_code :
    (∃ s, Reaches (step sample) (fun _ _ => True) (new fun _ => .user) s ∧
      s.Escapes sample 2 ∧ s.freezes = 0) ∧
    ∃ s, Reaches (step sample) (fun _ _ => True) (new fun _ => .user) s ∧
      s.Escapes sample 2 ∧ s.freezes = 1 := by
  constructor
  · exact exists_escapes [.act 2 .enter,.act 2 .block,.freeze 0 0,.look 0 2,.complete 0,
      .thaw 1,.act 2 .wake,.act 2 .finish,.act 2 .readCount] (by simp [firstCall])
      (by decide +kernel)
  · exact exists_escapes [.stop 2,.act 2 .tick,.act 2 .readHeld,.act 2 .readFrozen,
      .act 2 .block,.freeze 0 0,.look 0 2,.complete 0,.cont 2,.act 2 .wake,.act 2 .unpark]
      (by simp [firstCall]) (by decide +kernel)

end World

end LiberSystem.Freeze
