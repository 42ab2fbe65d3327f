import LiberSystem.Kernel.Sched.Observers
import LiberSystem.Kernel.Sched.Signals

/-!
# A wait set and its ready members

A member's wake reaches the threads that wait on the set through the observer that `add` registers.
-/

namespace LiberSystem.Sched

variable {D : Type} {lay : Layout} {Q : Quota D} {s₀ s : State (Shared D) (Point D)}

def Atom.forwarded (lay : Layout) (set : Koid) (a : Atom) : Fact (Shared D) :=
  ⟨a.src,set,fun ω => a.src ∈ (ω.sets set).settled ∧ a.Holds lay ω⟩

/-- The member that joins is not ready, or no thread is registered on the set. -/
def addsUnready (lay : Layout) (s : State (Shared D) (Point D)) : Op → Bool
  | .addObserver set _ =>
    match (s.objects.sets set).phase with
    | .adding m => !(objectReady lay m).eval s.objects || (s.bucketOf set).all (·.koid ≠ set)
    | _ => true
  | _ => true

def membership (lay : Layout) (set m : Koid) : Watch (Shared D) (Point D) where
  inv := Shared.SetsInv lay
  facts := {f | ∃ a : Atom, a.Readies lay false ∧ a.src = m ∧ f = a.forwarded lay set}
  goal pl ω :=
    match pl.2 with
    | .top .unready (.set s _) => s = set ∧ m ∈ (ω.sets set).settled ∧ ω.live lay m = true ∧
        (objectReady lay m).eval ω = true
    | _ => False

variable {ω : Shared D} {set m : Koid}

theorem covered_of_settled {op : Op} {a : Atom}
    (hinv : ω.SetsInv lay) (hroom : roomForGroups ω op) (ha : a.Readies lay false)
    (hmem : a.src ∈ (ω.sets set).members) {ω' : Shared D} {ws : List Wake}
    (h : ω.perform lay Q op = some (ω', ws)) : a.Covered lay ω op := by
  cases a with
  | finished g ending =>
    refine ⟨hinv.groups,hroom,?_⟩
    rintro rfl
    -- a group that is a member has been created before
    dsimp only [Shared.perform] at h
    split at h
    · next hmay =>
      have habsent : ω.groups g = .absent := by
        simp only [Shared.mayGroup,Bool.and_eq_true,decide_eq_true_eq] at hmay
        exact hmay.1.1.1.1.2
      exact hinv.created set g hmem ha habsent
    · cases h
  | _ => trivial

theorem settled_subset_members {set : WaitSet} : set.settled ⊆ set.members := by
  intro m hm
  unfold WaitSet.settled at hm
  split at hm
  · exact List.mem_of_mem_filter hm
  · exact hm
  · exact hm
  · cases hm
  · cases hm

theorem covers_membership (set m : Koid) :
    Covers (kernel lay Q) (membership lay set m) fun ω op k =>
      (∀ room m, op = .addObserver k room → (ω.sets k).phase = .adding m →
        (objectReady lay m).eval ω = false) ∧ roomForGroups ω op where
  inv hinv h := hinv.perform h
  wakes := by
    rintro op ω ω' ws hinv h f ⟨a,hreadies,rfl,rfl⟩ ⟨hunready,hroom⟩ ⟨hsettled,hholds⟩
    have hforwards : Forwards (kernel lay Q) ω' (a.forwarded lay set) := by
      obtain ⟨hobserved,hwatch⟩ := (hinv.perform h).observers.forwards hsettled
      exact .inr ⟨decide_eq_true hobserved,hwatch⟩
    by_cases hset : op.onSet
    · -- the atoms do not change, and a new member is not ready
      obtain ⟨hendpoints,hsignaled,hprocesses,hgroups⟩ := same_of_perform hset h
      have hwas : a.Holds lay ω := by
        cases a <;> simpa only [Atom.Holds,hendpoints,hsignaled,hprocesses,hgroups] using hholds
      rcases (setStep_of_perform hset h).mem_settled hinv.sets hsettled
        with hold | ⟨room,rfl,hphase⟩
      · exact .inl ⟨⟨hold,hwas⟩,fun _ => hforwards⟩
      · have hno := hunready room _ rfl hphase
        rw [objectReady,eval_of_holds hreadies hwas] at hno
        cases hno
    · have hold : a.src ∈ (ω.sets set).settled := by
        rwa [(sets_of_perform hinv.endpoints hset h).1] at hsettled
      have hcovered := covered_of_settled hinv hroom hreadies (settled_subset_members hold) h
      rcases becomes_of_perform hinv.endpoints h hcovered hholds with hwas | hwake
      · exact .inl ⟨⟨hold,hwas⟩,fun _ => hforwards⟩
      · exact .inr ⟨hforwards,hwake⟩

theorem refutes_membership {me : Koid} {p : Park (Shared D)} {l : Point D}
    (hparks : l.Parks lay me p) {seen : Set (Fact (Shared D))} :
    (membership lay set m).Refutes (p, l) p.ready seen := by
  unfold Watch.Refutes membership
  dsimp only
  split
  · next s deadline =>
    by_cases hs : s = set
    case neg => exact .of_seen fun ω _ h => absurd h.1 hs
    subst hs
    obtain rfl : p = _ := hparks
    have hfacts (a : Atom) (hreadies : a.Readies lay false) (hsrc : a.src = m) :
        a.forwarded lay s ∈ (membership (D := D) lay s m).watched
          ((Wait.set s deadline).park lay) :=
      ⟨⟨a,hreadies,hsrc,rfl⟩,List.mem_singleton.mpr rfl⟩
    have hgoal (ω : Shared D) (hsettled : m ∈ (ω.sets s).settled) (hlive : ω.live lay m)
        (hready : (objectReady lay m).eval ω) :
        ∃ a : Atom, a.Readies lay false ∧ a.src = m ∧ (a.forwarded lay s).holds ω := by
      obtain ⟨a,hreadies,hsrc,hholds⟩ := holds_of_eval hlive hready
      exact ⟨a,hreadies,hsrc,hsrc ▸ hsettled,hholds⟩
    intro ω _ hfree
    by_cases hm : m ∈ (ω.sets s).members
    · refine (Check.Refutes.any (g := fun k ω' => k = m ∧ ∃ a : Atom, a.Readies lay false ∧
        a.src = m ∧ (a.forwarded lay s).holds ω') fun k _ => ?_).imp ?_
      · by_cases hk : k = m
        · subst hk
          exact (refutes_objectReadyFor (fun a => a.forwarded lay s) (fun a ω h => h.2)
            hfacts).imp fun ω' _ h => h.2
        · exact .of_seen fun ω' _ h => absurd h.1 hk
      · rintro ω' - ⟨-,hsettled,hlive,hready⟩
        exact ⟨m,hm,rfl,hgoal ω' hsettled hlive hready⟩
    · -- the member has joined since the members were read
      refine .of_seen ?_
      rintro ω' - ⟨-,hsettled,hlive,hready⟩
      obtain ⟨a,hreadies,hsrc,hholds⟩ := hgoal ω' hsettled hlive hready
      refine ⟨_,.inr ⟨hfacts a hreadies hsrc,fun h => hm ?_⟩,hholds⟩
      rw [← hsrc]
      exact settled_subset_members h.1
  · exact .of_seen fun ω _ h => h.elim

def Pc.awaitedSet : Pc (Shared D) (Point D) → Option Koid
  | .recheck _ (.top .unready (.set s _)) (.done false) => some s
  | .switch _ (.top .unready (.set s _)) => some s
  | .parked _ (.top .unready (.set s _)) => some s
  | _ => none

theorem remaining_of_awaitedSet {pc : Pc (Shared D) (Point D)}
    (h : pc.awaitedSet = some set) : ∃ p deadline,
      pc.remaining = some ((p, .top .unready (.set set deadline)), .done false) := by
  unfold Pc.awaitedSet at h
  split at h <;> cases h <;> exact ⟨_,_,rfl⟩

/-- Members join when they are not ready or nobody waits on the set, and the end of a process finds
room for its groups. -/
def setsOrderly (lay : Layout) (s : State (Shared D) (Point D)) : Event Op Choice → Bool
  | .act _ op => addsUnready lay s op && roomForGroups s.objects op
  | _ => true

/-- A wake of the member, or of the threads that wait on the set, is in progress. -/
def State.Forwarding (s : State (Shared D) (Point D)) (set m : Koid) : Prop :=
  ∃ w, ∃ task ∈ (s.wakers w).todo, task = .object m ∨ task = .collect m ∨ task = .drain set

theorem forwarding_of_ready (h0 : Start s₀) (hinv : s₀.objects.SetsInv lay)
    (hrun : Reaches (step (kernel lay Q)) (fun s e => setsOrderly lay s e) s₀ s)
    {t : ThreadId} (hblocked : (s.threads t).state = .blocked)
    (hwaits : (s.threads t).pc.awaitedSet = some set) (hm : m ∈ (s.objects.sets set).settled)
    (hlive : s.objects.live lay m) (hready : (objectReady lay m).eval s.objects) :
    s.Forwarding set m := by
  have hholds : (membership lay set m).Holds (kernel lay Q) s := by
    refine Watch.holds_of_reaches (covers_membership set m) h0 hinv (fun s e hreach _ hok => ?_)
      hrun
    cases e with
    | act w op =>
      obtain ⟨hunready,hroom⟩ := Bool.and_eq_true_iff.mp hok
      refine fun t k hin => ⟨fun room m hop hphase => ?_,hroom⟩
      subst hop
      simp only [addsUnready,hphase,Bool.or_eq_true,Bool.not_eq_true',List.all_eq_true,
        decide_eq_true_eq] at hunready
      exact hunready.resolve_right fun hall => hall _ hin rfl
    | park c room =>
      intro t p l _ hpc
      exact refutes_membership (parks_of_reaches h0 hreach (by rw [hpc]; rfl))
    | _ => trivial
  obtain ⟨p,deadline,hpast⟩ := remaining_of_awaitedSet hwaits
  obtain ⟨f,⟨⟨a,-,rfl,rfl⟩,-⟩,-,w,task,hin,haim⟩ :=
    hholds.pending_of_goal hblocked hpast ⟨rfl,hm,hlive,hready⟩
  refine ⟨w,task,hin,?_⟩
  cases task with
  | object k => exact .inl (congrArg _ haim.1)
  | collect k => exact .inr (.inl (congrArg _ haim.1))
  | drain k => exact .inr (.inr (congrArg _ haim))
  | thread t | deadlines now => exact haim.elim

/-- The sets are accounted for: in a set whose lock is free the charge is the number of members,
each has one entry in the table, and `OBSERVER_COUNT` is the number of entries. -/
structure Shared.SetsAccounted (ω : Shared D) : Prop where
  charged : ∀ s, (ω.sets s).phase = .idle → (ω.sets s).charged = (ω.sets s).members.length
  entry : ∀ s, (ω.sets s).phase = .idle → ∀ m ∈ (ω.sets s).members,
    ∑ n ∈ Finset.range WAIT_BUCKET_COUNT, (ω.observers n).count ⟨m,s⟩ = 1
  count : ω.observerCount = ω.entries

theorem Shared.SetsInv.accounted (h : ω.SetsInv lay) : ω.SetsAccounted where
  charged s hidle := by
    have hcharged := (h.sets s).charged
    rwa [hidle] at hcharged
  entry s hidle m hm := by
    have hone : (ω.observersOf m).count ⟨m,s⟩ = 1 := by
      rw [h.observers.entry,WaitSet.registered,hidle]
      exact List.count_eq_one_of_mem (h.sets s).nodup hm
    rw [Finset.sum_eq_single_of_mem _ (bucket_mem m) fun n _ hn => ?_]
    · exact hone
    · -- an entry of the member is in the bucket of the member only
      exact List.count_eq_zero.mpr fun hin => hn (h.observers.placed n _ hin).symm
  count := h.observers.count

theorem setsInv_of_reaches {ok : State (Shared D) (Point D) → Event Op Choice → Prop}
    (hinv : s₀.objects.SetsInv lay) (hrun : Reaches (step (kernel lay Q)) ok s₀ s) :
    s.objects.SetsInv lay := by
  refine hrun.invariant (P := fun s => s.objects.SetsInv lay) hinv fun s e s' h _ hstep => ?_
  rcases objects_of_step hstep with hsame | ⟨w,op,ws,-,hop,-⟩
  · rwa [hsame]
  · exact h.perform hop

/-- A thread is Blocked past its re-check on a set of which a current member is ready: then a wake
of that member is in progress, if members join when they are not ready or nobody waits on the set
and no process ends in more groups than `record_in_groups` has room for. The accounts of the sets
hold in every run. -/
theorem wait_set_wakes (h0 : Start s₀) (hinv : s₀.objects.SetsInv lay) :
    (∀ s, Reaches (step (kernel lay Q)) (fun s e => setsOrderly lay s e = true) s₀ s →
      ∀ t set m, (s.threads t).state = .blocked → (s.threads t).pc.awaitedSet = some set →
        m ∈ (s.objects.sets set).settled → s.objects.live lay m = true →
        (objectReady lay m).eval s.objects = true → s.Forwarding set m) ∧
    ∀ s, Reaches (step (kernel lay Q)) (fun _ _ => True) s₀ s → s.objects.SetsAccounted := by
  refine ⟨fun s hrun t set m hblocked hwaits hm hlive hready => ?_,fun s hrun => ?_⟩
  · exact forwarding_of_ready h0 hinv hrun hblocked hwaits hm hlive hready
  · exact (setsInv_of_reaches hinv hrun).accounted

namespace Small

theorem objects_setsInv : objects.SetsInv layout where
  endpoints k _ := .new 4
  groups g halive := by cases halive
  created s m hm := by cases hm
  sets s := ⟨List.nodup_nil,List.nodup_nil,fun _ h => (by cases h),rfl⟩
  observers := ⟨fun _ _ ho => (by cases ho),(Finset.sum_eq_zero fun _ _ => rfl).symm,
    fun _ => Nat.zero_le _,fun _ _ => rfl⟩

def joins (m : Koid) : List (Event Op Choice) :=
  [.act 0 (.add 4 m true true),.act 0 (.addObserver 4 true)]

def sleeps (n : Nat) : List (Event Op Choice) :=
  enter (.waitSet 4 none) ++ go (4 + n) ++ parks (7 + n) ++ [.block 0,.save 0]

def wakes (n : Nat) : List (Event Op Choice) := List.replicate n (.wake 0)

def signalled : List (Event Op Choice) := joins 3 ++ sleeps 2 ++ [.act 0 (.signal 3)]

def joinedReady : List (Event Op Choice) :=
  sleeps 1 ++ [.act 0 (.signal 3)] ++ wakes 2 ++ joins 3

def manyGroups : List (Event Op Choice) :=
  (List.range 65).map (fun n => .act 0 (.createGroup (200 + n))) ++ joins 264 ++ sleeps 4 ++
    [.act 0 (.terminate 1001 false)] ++ wakes 195

end Small

open Sched.Small in
theorem wait_set_wakes_signalled : ∃ s,
    Reaches (step (kernel layout quota)) (fun s e => setsOrderly layout s e = true) start s ∧
    (s.threads 0).state = .blocked ∧ (s.threads 0).pc.awaitedSet = some 4 ∧
    3 ∈ (s.objects.sets 4).settled ∧ (objectReady layout 3).eval s.objects = true ∧
    s.Forwarding 4 3 := by
  refine exists_reaches_imp (P := fun s => (s.threads 0).state = .blocked ∧
      (s.threads 0).pc.awaitedSet = some 4 ∧ 3 ∈ (s.objects.sets 4).settled ∧
      s.objects.signaled 3 = true)
    signalled (by decide +kernel) fun s hreach ⟨hstate,hwaits,hm,hsignaled⟩ => ?_
  exact ⟨hstate,hwaits,hm,hsignaled,
    (wait_set_wakes start_start objects_setsInv).1 s hreach 0 4 3 hstate hwaits hm rfl hsignaled⟩

open Sched.Small in
/-- A member that is ready when it joins wakes nobody, and neither does a group that the array
of `record_in_groups` has no room for. -/
theorem wait_set_sleeps : [(joinedReady, 3),(manyGroups, 264)].Forall fun run => ∃ s,
    runList (step (kernel layout quota)) start run.1 = some s ∧
    (s.threads 0).state = .blocked ∧ (s.threads 0).pc.awaitedSet = some 4 ∧
    (s.objects.sets 4).phase = .idle ∧ run.2 ∈ (s.objects.sets 4).members ∧
    (objectReady layout run.2).eval s.objects = true ∧ s.Quiescent := by
  have hruns : ∀ run ∈ [(joinedReady, 3),(manyGroups, 264)],
      ((runList (step (kernel layout quota)) start run.1).any fun s =>
        (s.threads 0).state = .blocked ∧ (s.threads 0).pc.awaitedSet = some 4 ∧
        (s.objects.sets 4).phase = .idle ∧ run.2 ∈ (s.objects.sets 4).members ∧
        (objectReady layout run.2).eval s.objects = true ∧
        (s.wakers 0).todo = [] ∧ (s.wakers 0).batch = []) ∧
      ∀ e ∈ run.1, e.waker = none ∨ e.waker = some 0 := by decide +kernel
  refine List.forall_iff_forall_mem.mpr fun run hmem => ?_
  obtain ⟨hview,honly⟩ := hruns run hmem
  obtain ⟨s,hs,hstate,hwaits,hphase,hmem,hready,hidle⟩ := exists_of_any hview
  exact ⟨s,hs,hstate,hwaits,hphase,hmem,hready,
    quiescent_of_runList (fun _ => ⟨rfl,rfl⟩) hs honly hidle⟩

end LiberSystem.Sched
