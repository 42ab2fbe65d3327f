import LiberSystem.Kernel.Object.DomainWalk
import LiberSystem.Lib.Counting
import LiberSystem.Lib.Runs

/-!
# Concurrent charges

Any number of threads charge and refund one resource over the tree of Domains at once, and their
steps interleave.
-/

namespace LiberSystem.Walk

open Function

inductive Job where
  | tryCharge
  | charge
  | uncharge

structure State (ι : Type) where
  counters : Counters
  calls : ι → Call
  outstanding : DomainId → Nat
  /-- Some charge was made whatever the limit. -/
  forced : Bool

inductive Act (ι : Type) where
  | start (i : ι) (job : Job) (d : DomainId) (amount : Nat)
  | advance (i : ι) (spurious : Bool)
  | retire (i : ι)
  | setLimit (d : DomainId) (limit : Nat)

namespace State

variable {ι : Type} [DecidableEq ι]

def new (limits : DomainId → Nat) : State ι where
  counters d := ResourceCounter.new (limits d)
  calls _ := ⟨.idle,0,0,fun _ => 0⟩
  outstanding _ := 0
  forced := false

/-- A step over the first `count` Domains of the tree `F`. A refund returns part of
what its Domain has outstanding. -/
def step (F : Forest) (count : Nat) (s : State ι) : Act ι → Option (State ι)
  | .start i job d amount =>
    match (s.calls i).phase with
    | .idle =>
      if d < count then
        let call phase : Call := ⟨phase,d,amount,fun _ => 0⟩
        match job with
        | .tryCharge =>
          some { s with calls := update s.calls i
                          (call (.tryLimit [] d (F.path d).tail)) }
        | .charge =>
          some { s with calls := update s.calls i (call (.force [] (F.path d))),
                        forced := true }
        | .uncharge =>
          if amount ≤ s.outstanding d then
            some { s with calls := update s.calls i (call (.refund (F.path d))),
                          outstanding := update s.outstanding d
                            (s.outstanding d - amount) }
          else none
      else none
    | _ => none
  | .advance i spurious =>
    (Walk.advance s.counters (s.calls i) spurious).map fun r =>
      { s with
        counters := r.1
        calls := update s.calls i r.2
        outstanding :=
          if (s.calls i).phase.settles then
            update s.outstanding (s.calls i).domain
              (s.outstanding (s.calls i).domain + (s.calls i).amount)
          else s.outstanding }
  | .retire i =>
    match (s.calls i).phase with
    | .done _ =>
      some { s with calls := update s.calls i { s.calls i with phase := .idle } }
    | _ => none
  | .setLimit d limit =>
    some { s with counters := update s.counters d
                    { s.counters d with limit := limit } }

variable [Fintype ι] {F : Forest} {c' : Counters} {d : DomainId} {spurious : Bool} {count : Nat}
  {s t : State ι}

def owedBelow (F : Forest) (count : Nat) (outstanding : DomainId → Nat) (x : DomainId) : Nat :=
  ∑ d ∈ Finset.range count, if x ∈ F.path d then outstanding d else 0

structure Inv (F : Forest) (count : Nat) (s : State ι) : Prop where
  wf : ∀ i, (s.calls i).Wf F
  domain : ∀ i, (s.calls i).phase ≠ .idle → (s.calls i).domain < count
  seen : ∀ i, (s.calls i).Seen s.counters
  net : ∀ i, (s.calls i).Exact F
  used : ∀ x, (s.counters x).used =
    owedBelow F count s.outstanding x + ∑ i, (s.calls i).share F x
  unforced : s.forced = false →
    (∀ i, (s.calls i).phase.forces = false) ∧ ∀ x, (s.counters x).used ≤ (s.counters x).limit

/-- No charge saturates and no limit is lowered. -/
def Permitted (s : State ι) : Act ι → Prop
  | .advance i _ => (s.calls i).Fits s.counters
  | .setLimit d limit => (s.counters d).limit ≤ limit
  | .start _ _ _ _ | .retire _ => True

instance (s : State ι) : (act : Act ι) → Decidable (Permitted s act)
  | .advance i _ => inferInstanceAs (Decidable ((s.calls i).Fits s.counters))
  | .setLimit d limit => inferInstanceAs (Decidable ((s.counters d).limit ≤ limit))
  | .start _ _ _ _ | .retire _ => isTrue trivial

/-- No charge and no refund is in progress. -/
def Quiescent (s : State ι) : Prop :=
  ∀ i, (s.calls i).phase = .idle ∨ ∃ granted, (s.calls i).phase = .done granted

omit [DecidableEq ι] in
theorem Inv.new (limits : DomainId → Nat) : (new limits : State ι).Inv F count := by
  refine ⟨fun _ => trivial,fun _ h => absurd rfl h,fun _ => trivial,nofun,fun x => ?_,
    fun _ => ⟨fun _ => rfl,fun x => Nat.zero_le _⟩⟩
  simp [State.new,ResourceCounter.new,owedBelow,Call.share,Call.levels]

theorem owedBelow_update (hd : d < count) (outstanding : DomainId → Nat) (n : Nat)
    (x : DomainId) : owedBelow F count (update outstanding d n) x +
      (if x ∈ F.path d then outstanding d else 0) =
    owedBelow F count outstanding x + if x ∈ F.path d then n else 0 :=
  sum_update (fun d n => if x ∈ F.path d then n else 0) outstanding (Finset.mem_range.mpr hd) n

variable {i : ι}

/-- A step of the call `i` keeps the invariant when the use of each counter moves with
the outstanding charges and the share of the call. -/
theorem Inv.update (hs : s.Inv F count) {call' : Call} {outstanding : DomainId → Nat}
    {forced : Bool} (hwf : call'.Wf F) (hdomain : call'.phase ≠ .idle → call'.domain < count)
    (hseen : call'.Seen c') (hlimit : ∀ x, (c' x).limit = (s.counters x).limit)
    (hnet : call'.Exact F)
    (hused : ∀ x, (c' x).used + owedBelow F count s.outstanding x + (s.calls i).share F x =
      (s.counters x).used + owedBelow F count outstanding x + call'.share F x)
    (hunforced : forced = false → s.forced = false ∧ call'.phase.forces = false ∧
      ∀ x, (c' x).used ≤ (s.counters x).used ∨ (c' x).used ≤ (s.counters x).limit) :
    Inv F count { counters := c'
                  calls := update s.calls i call'
                  outstanding := outstanding
                  forced := forced } := by
  have hcalls : ∀ P : Call → Prop, P call' → (∀ j, P (s.calls j)) →
      ∀ j, P (Function.update s.calls i call' j) := by
    intro P hi hrest j
    by_cases hj : j = i
    · subst hj
      rw [update_self]
      exact hi
    · rw [update_of_ne hj]
      exact hrest j
  refine ⟨hcalls _ hwf hs.wf,
    hcalls (fun call => call.phase ≠ .idle → call.domain < count) hdomain hs.domain,
    hcalls _ hseen fun j => ?_,hcalls _ hnet hs.net,fun x => ?_,fun hf => ?_⟩
  · exact (hs.seen j).mono fun x => (hlimit x).ge
  · have hsum := sum_update (fun _ (call : Call) => call.share F x) s.calls
      (Finset.mem_univ i) call'
    have hx := hused x
    have hold := hs.used x
    dsimp only at hsum ⊢
    omega
  · obtain ⟨hf',hforces,hwithin⟩ := hunforced hf
    obtain ⟨hother,hle⟩ := hs.unforced hf'
    refine ⟨hcalls (fun call => call.phase.forces = false) hforces hother,fun x => ?_⟩
    rw [hlimit x]
    rcases hwithin x with h | h
    · exact h.trans (hle x)
    · exact h

omit [DecidableEq ι] in
theorem Inv.amount_le (hs : s.Inv F count) (i : ι) {x : DomainId}
    (hx : x ∈ (s.calls i).levels F) : (s.calls i).amount ≤ (s.counters x).used := by
  have hle : (s.calls i).share F x ≤ ∑ j, (s.calls j).share F x :=
    Finset.single_le_sum (f := fun j => (s.calls j).share F x) (fun _ _ => Nat.zero_le _)
      (Finset.mem_univ i)
  rw [share_of_mem hx] at hle
  rw [hs.used x]
  omega

section

variable (hs : s.Inv F count)
include hs

theorem Inv.start {job : Job} {amount : Nat} (h : step F count s (.start i job d amount) = some t) :
    t.Inv F count := by
  simp only [step] at h
  split at h
  · next hidle =>
    have hshare : ∀ x, (s.calls i).share F x = 0 := by
      intro x
      simp [Call.share,Call.levels,hidle]
    split at h
    · next hd =>
      cases job with
      | tryCharge =>
        cases h
        refine hs.update (F.cons_tail_path d) (fun _ => hd) trivial (fun _ => rfl)
          (fun _ x => rfl) ?_ (fun hf => ⟨hf,rfl,fun x => .inl le_rfl⟩)
        intro x
        rw [hshare x]
        rfl
      | charge =>
        cases h
        refine hs.update rfl (fun _ => hd) trivial (fun _ => rfl) (fun h => by cases h) ?_
          (fun hf => by cases hf)
        intro x
        rw [hshare x]
        rfl
      | uncharge =>
        dsimp only at h
        split at h
        · next hle =>
          cases h
          refine hs.update (F.nodup_path d) (fun _ => hd) trivial (fun _ => rfl)
            (fun h => by cases h) ?_ (fun hf => ⟨hf,rfl,fun x => .inl le_rfl⟩)
          intro x
          have hsum := owedBelow_update hd s.outstanding (s.outstanding d - amount) (F := F) x
          change _ = _ + _ + if x ∈ F.path d then amount else 0
          split at hsum <;> simp_all only [if_true,if_false] <;> omega
        · cases h
    · cases h
  · cases h

theorem Inv.advance (hfit : (s.calls i).Fits s.counters)
    (h : step F count s (.advance i spurious) = some t) : t.Inv F count := by
  obtain ⟨⟨c',call'⟩,hadv,rfl⟩ := Option.map_eq_some_iff.mp h
  have hd := hs.domain i (advance_started hadv)
  have spec := advance_spec (hs.wf i) hfit (fun x => hs.amount_le i) hadv
  refine hs.update spec.wf (fun _ => spec.domain ▸ hd) (spec.seen (hs.seen i)) spec.limit ?_ ?_ ?_
  · intro htries x
    obtain ⟨hold,hset⟩ := spec.tries htries
    have hmove := spec.net hset x
    have hnet := hs.net i hold x
    dsimp only at hmove ⊢
    omega
  · intro x
    cases hset : (s.calls i).phase.settles with
    | true =>
      -- the charge is granted: what was the call's share is now outstanding
      obtain ⟨hsame,hold,hnew⟩ := spec.settles hset x
      have hsum := owedBelow_update hd s.outstanding
        (s.outstanding (s.calls i).domain + (s.calls i).amount) (F := F) x
      rw [hsame,hold,hnew,if_pos rfl]
      split <;> simp_all only [if_true,if_false] <;> omega
    | false =>
      -- a counter and the call's share in it move together
      have := spec.moves hset x
      rw [if_neg (by simp)]
      dsimp only
      omega
  · intro hf
    have hforces := (hs.unforced hf).1 i
    refine ⟨hf,?_,spec.within hforces (hs.seen i)⟩
    cases hf' : call'.phase.forces with
    | false => rfl
    | true =>
      rw [spec.forces hf'] at hforces
      cases hforces

theorem Inv.retire (h : step F count s (.retire i) = some t) : t.Inv F count := by
  simp only [step] at h
  split at h
  · next granted hdone =>
    cases h
    refine hs.update trivial (fun h => absurd rfl h) trivial (fun _ => rfl) nofun ?_
      (fun hf => ⟨hf,rfl,fun x => .inl le_rfl⟩)
    intro x
    have hshare : (s.calls i).share F x = 0 := by
      simp [Call.share,Call.levels,hdone]
    rw [hshare]
    rfl
  · cases h

theorem Inv.setLimit {limit : Nat} (hle : (s.counters d).limit ≤ limit)
    (h : step F count s (.setLimit d limit) = some t) : t.Inv F count := by
  cases h
  have hused : ∀ x, (Function.update s.counters d { s.counters d with limit := limit } x).used =
      (s.counters x).used := by
    intro x
    by_cases hx : x = d
    · subst hx
      rw [update_self]
    · rw [update_of_ne hx]
  have hlimit : ∀ x, (s.counters x).limit ≤
      (Function.update s.counters d { s.counters d with limit := limit } x).limit := by
    intro x
    by_cases hx : x = d
    · subst hx
      rw [update_self]
      exact hle
    · rw [update_of_ne hx]
  refine ⟨hs.wf,hs.domain,fun i => (hs.seen i).mono hlimit,hs.net,fun x => ?_,fun hf => ?_⟩
  · rw [hused x,hs.used x]
  obtain ⟨hforces,hwithin⟩ := hs.unforced hf
  refine ⟨hforces,fun x => ?_⟩
  rw [hused x]
  exact (hwithin x).trans (hlimit x)

theorem Inv.step {act : Act ι} (hok : Permitted s act) (h : step F count s act = some t) :
    t.Inv F count := by
  cases act with
  | start i job d amount => exact hs.start h
  | advance i spurious => exact hs.advance hok h
  | retire i => exact hs.retire h
  | setLimit d limit => exact hs.setLimit hok h

end

omit [DecidableEq ι] in
theorem Inv.used_of_quiescent (hs : s.Inv F count) (hq : s.Quiescent) (x : DomainId) :
    (s.counters x).used = owedBelow F count s.outstanding x := by
  rw [hs.used x,Finset.sum_eq_zero,Nat.add_zero]
  intro i _
  rcases hq i with h | ⟨granted,h⟩ <;> simp [Call.share,Call.levels,h]

/-- Calls interleave step by step. While no charge is forced, no use is above its
limit. When no call is in progress, the use of a Domain is what it and its descendants
have outstanding. And a refused charge has in sum added nothing to any counter. -/
theorem hierarchical_quota {limits : DomainId → Nat}
    (hrun : Reaches (step F count) Permitted (new limits) s) :
    (s.forced = false → ∀ x, (s.counters x).used ≤ (s.counters x).limit) ∧
    (s.Quiescent → ∀ x, (s.counters x).used =
      ∑ d ∈ Finset.range count, if x ∈ F.path d then s.outstanding d else 0) ∧
    ∀ i, (s.calls i).phase = .done false → ∀ x, (s.calls i).net x = 0 := by
  have hs : s.Inv F count := hrun.invariant (Inv.new limits) fun _ _ _ hs hok h => hs.step hok h
  refine ⟨fun hf => (hs.unforced hf).2,hs.used_of_quiescent,fun i hdone x => ?_⟩
  rw [hs.net i (by rw [hdone]; rfl) x]
  simp [Call.share,Call.levels,hdone]

/-- Two children of a Domain with a limit of 4 charge 3 each. Both have loaded the use
of the parent before either exchanges: the second exchange fails, and then the limit
refuses it. -/
def raceActs : List (Act Bool) :=
  [.start true .tryCharge 1 3,.start false .tryCharge 2 3] ++
  List.replicate 5 (.advance true false) ++ List.replicate 5 (.advance false false) ++
  [.advance true false] ++ List.replicate 5 (.advance false false) ++
  List.replicate 5 (.advance true false)

theorem hierarchical_quota_race :
    ∃ s, Reaches (step .siblings 3) Permitted (new fun d => if d = 0 then 4 else UNLIMITED) s ∧
      (s.calls true).phase = .done true ∧ (s.calls false).phase = .done false ∧
      (s.counters 0).used = 3 ∧ (s.counters 0).used ≤ (s.counters 0).limit ∧
      (s.counters 2).used = owedBelow .siblings 3 s.outstanding 2 ∧
      (s.calls false).net 2 = 0 := by
  refine exists_reaches_imp (P := fun s => (s.calls true).phase = .done true ∧
      (s.calls false).phase = .done false ∧ (s.counters 0).used = 3 ∧ s.forced = false)
    raceActs (by decide) fun s hrun ⟨htrue,hfalse,hused,hforced⟩ => ?_
  obtain ⟨hwithin,hquiet,hnet⟩ := hierarchical_quota hrun
  refine ⟨htrue,hfalse,hused,hwithin hforced 0,hquiet ?_ 2,hnet false hfalse 2⟩
  intro i
  cases i with
  | true => exact .inr ⟨_,htrue⟩
  | false => exact .inr ⟨_,hfalse⟩

end State

end LiberSystem.Walk
