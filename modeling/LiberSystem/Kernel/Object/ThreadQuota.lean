import LiberSystem.Kernel.Object.ThreadLife

/-!
# What threads cost

A thread is charged to its process's Domain and to every Domain above it, from before it is built
until its object is dropped.
-/

namespace LiberSystem.Threads

variable {P P' : Process} {t : ThreadId} {th th' : Thread} {a : Action} {refund : Bool}

theorem act_paid (h : P.act t th a = some (P', th', refund)) (hreg : th.regular)
    (hok : P.accepts a) : th.stage ≠ .absent ∧ th'.stage ≠ .absent ∧
      th.stage.paid.toNat = refund.toNat + th'.stage.paid.toNat := by
  unfold Process.act at h
  split at h <;>
    grind [cases After,Thread.goto,Thread.regular,After.stage,Stage.paid]

theorem Layout.nodup_path (L : Layout) (p : ProcessId) : (L.path p).Nodup :=
  L.forest.nodup_path (L.domain p)

def Thread.paidBy (L : Layout) (x : DomainId) (th : Thread) : Bool :=
  th.stage.paid && decide (x ∈ L.path th.process)

namespace World

def paidBy (s : World) (L : Layout) (x : DomainId) : Nat :=
  s.created.countP fun t => (s.threads t).paidBy L x

theorem paidBy_le_population (s : World) (L : Layout) (x : DomainId) :
    s.paidBy L x ≤ s.population := by
  refine List.countP_mono_left fun t _ hpaid => ?_
  exact (Bool.and_eq_true_iff.mp hpaid).1

/-- Every account holds what the threads below it cost. -/
structure Charged (L : Layout) (s : World) : Prop where
  regular : ∀ t, (s.threads t).regular = true
  nodup : s.created.Nodup
  created : ∀ t, t ∈ s.created ↔ (s.threads t).stage ≠ .absent
  used : ∀ x, s.accounts.used .threads x = s.paidBy L x

variable {L : Layout} {s s' : World} {e : Event}

theorem Charged.begin (hs : s.Charged L) {p : ProcessId} {accounts : Accounts}
    (habsent : (s.threads t).stage = .absent)
    (hshift : Accounts.Shifted .threads (L.path p) 1 s.accounts accounts) :
    (s.begin t p accounts).Charged L := by
  have ht : t ∉ s.created := fun hmem => (hs.created t).mp hmem habsent
  refine ⟨regular_update hs.regular rfl,?_,fun u => ?_,fun x => ?_⟩
  · exact hs.nodup.append (List.nodup_singleton t) (by simpa using ht)
  · simp only [World.begin,setThread,List.mem_append,List.mem_singleton]
    by_cases hut : u = t
    · subst hut
      simp
    · rw [Function.update_of_ne hut,hs.created u]
      simp [hut]
  have hpaid : (s.begin t p accounts).paidBy L x
      = s.paidBy L x + if x ∈ L.path p then 1 else 0 := by
    simp only [paidBy,World.begin,setThread,List.countP_append,List.countP_singleton,
      Function.update_self]
    rw [countP_update_of_not_mem (Thread.paidBy L x) s.threads ht]
    simp [Thread.paidBy,Stage.paid]
  have hx := hshift x
  rw [hs.used x] at hx
  rw [hpaid]
  change accounts.used .threads x = _
  by_cases hmem : x ∈ L.path p
  · rw [if_pos hmem] at hx ⊢
    omega
  · rw [if_neg hmem] at hx ⊢
    omega

theorem Charged.act (hs : s.Charged L) (hok : s.accepts (.act t a))
    (h : step L s (.act t a) = some s') : s'.Charged L := by
  obtain ⟨P',th',refund,hact,-,hthreads,hcreated,haccounts⟩ := step_act h
  obtain ⟨hold,hnew,hpaid⟩ := act_paid hact (hs.regular t) hok
  have hproc := process_of_act hact
  have ht : t ∈ s.created := (hs.created t).mpr hold
  have hpaidBy : ∀ x, s'.paidBy L x + (if x ∈ L.path (s.threads t).process then refund.toNat else 0)
      = s.paidBy L x := by
    intro x
    have hcount := countP_update (Thread.paidBy L x) s.threads hs.nodup ht th'
    rw [paidBy,paidBy,hthreads,hcreated]
    simp only [Thread.paidBy,hproc] at hcount ⊢
    split
    · next hx =>
      simp only [hx,decide_true,Bool.and_true] at hcount
      omega
    · next hx =>
      simp only [hx,decide_false,Bool.and_false] at hcount
      omega
  refine ⟨?_,?_,fun u => ?_,fun x => ?_⟩
  · rw [hthreads]
    exact regular_update hs.regular (act_regular hact hok (hs.regular t))
  · rw [hcreated]
    exact hs.nodup
  · rw [hcreated,hthreads,hs.created u]
    by_cases hut : u = t
    · subst hut
      rw [Function.update_self]
      exact iff_of_true hold hnew
    · rw [Function.update_of_ne hut]
  have hx := hpaidBy x
  rw [haccounts]
  cases refund with
  | false =>
    rw [if_neg (by decide),hs.used x]
    simpa using hx.symm
  | true =>
    have hpaid : ∀ y ∈ L.path (s.threads t).process, 1 ≤ s.accounts.used .threads y := by
      intro y hy
      have hy' := hpaidBy y
      rw [if_pos hy,Bool.toNat_true] at hy'
      rw [hs.used y]
      omega
    have hshift := Accounts.unchargeHier_shifted (L.nodup_path _) hpaid x
    rw [hs.used x] at hshift
    rw [if_pos rfl]
    by_cases hmem : x ∈ L.path (s.threads t).process
    · rw [if_pos hmem] at hshift hx
      simp only [Bool.toNat_true] at hx
      omega
    · rw [if_neg hmem] at hshift hx
      omega

theorem Charged.step (hs : s.Charged L) (hok : s.accepts e)
    (h : World.step L s e = some s') : s'.Charged L := by
  cases e with
  | create t p enforce =>
    simp only [World.step,Option.ite_none_right_eq_some] at h
    obtain ⟨⟨habsent,hroom⟩,h⟩ := h
    have hnd := L.nodup_path p
    have hfit : Accounts.Fits .threads 1 (L.path p) s.accounts := by
      intro x _
      have hle := s.paidBy_le_population L x
      rw [hs.used x]
      unfold heapWindow at hroom
      unfold u64Max
      omega
    split at h
    · split at h
      · next accounts hcharge =>
        cases h
        have hshift := (Accounts.tryChargeHier_spec hnd hfit).1 (by rw [hcharge])
        rw [hcharge] at hshift
        exact hs.begin habsent hshift
      · next accounts hcharge =>
        cases h
        have hsame := (Accounts.tryChargeHier_spec hnd hfit).2 (by rw [hcharge])
        rw [hcharge] at hsame
        subst hsame
        exact hs
    · cases h
      exact hs.begin habsent (Accounts.chargeHier_shifted hnd hfit)
  | act t a => exact hs.act hok h
  | terminate p =>
    cases h
    exact ⟨hs.regular,hs.nodup,hs.created,hs.used⟩
  | kill p =>
    simp only [World.step,Option.ite_none_right_eq_some,Option.some.injEq] at h
    obtain ⟨-,rfl⟩ := h
    exact ⟨hs.regular,hs.nodup,hs.created,hs.used⟩

/-- As long as no built thread is refused, the thread charge of every Domain is the number of
the threads below it whose object exists or is under construction. -/
theorem thread_quota_conserved (L : Layout) (limits : DomainId → Resource → Nat) (s : World)
    (h : Reaches (step L) (fun s e => s.accepts e = true) (new limits) s) (x : DomainId) :
    s.accounts.used .threads x = s.paidBy L x := by
  have hs : s.Charged L := by
    refine h.invariant ⟨fun _ => rfl,List.nodup_nil,fun t => ?_,fun _ => rfl⟩
      fun _ _ _ hs hok h => hs.step hok h
    simp [new]
  exact hs.used x

/-- One thread is there, the stack of a second was not to be had, a third is being built. -/
theorem thread_quota_conserved_three :
    ∃ s, Reaches (step ⟨.siblings,fun _ => 1⟩) (fun s e => s.accepts e = true)
        (new fun _ _ => UNLIMITED) s ∧
      s.paidBy ⟨.siblings,fun _ => 1⟩ 0 = 2 ∧ s.accounts.used .threads 0 = 2 := by
  refine exists_reaches_imp (P := fun s => s.paidBy ⟨.siblings,fun _ => 1⟩ 0 = 2)
    (constructing 0 ++ [.create 1 0 true,.act 1 (.allocate false),.act 1 .undo,
      .create 2 0 false]) (by decide +kernel) fun s hrun hpaid => ?_
  exact ⟨hpaid,(thread_quota_conserved _ _ s hrun 0).trans hpaid⟩

/-- A creation whose registration the heap refuses returns nothing, and it refunds the charge of
the thread that is there besides its own. -/
theorem thread_refunded_twice :
    ∃ s, Reaches (step ⟨.siblings,fun _ => 1⟩) (fun _ _ => True) (new fun _ _ => UNLIMITED) s ∧
      (s.threads 0).stage = .ready ∧ (s.threads 1).stage = .gone ∧
      s.paidBy ⟨.siblings,fun _ => 1⟩ 0 = 1 ∧ s.accounts.used .threads 0 = 0 := by
  exact exists_reaches (constructing 0 ++ [.create 1 0 true,.act 1 (.allocate true),
    .act 1 (.object true),.act 1 .extend,.act 1 (.register false),.act 1 .endExtend,.act 1 .refund,
    .act 1 .count,.act 1 .publish,.act 1 .finish,.act 1 .undo]) (by decide +kernel)

end World

end LiberSystem.Threads
