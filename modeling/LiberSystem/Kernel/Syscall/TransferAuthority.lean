import LiberSystem.Kernel.Object.HandleRun
import LiberSystem.Kernel.Syscall.TransferRun

/-!
# Authority never widens

Every capability anywhere in the system goes back to a mint of its object, and along the way rights
were only taken away.
-/

namespace LiberSystem

open Function Multiset TableState

namespace Capability

def lineage (cap : Capability) : List Rights := cap.rights :: cap.chain

/-- The capability goes back to a logged mint of its object, and no step on the way added
a right. -/
def Descends (mints : List (Koid × Rights)) (cap : Capability) : Prop :=
  cap.lineage.Pairwise (· ≤ ·) ∧
    ∃ origin, cap.lineage.getLast? = some origin ∧ (cap.object, origin) ∈ mints

variable {mints mints' : List (Koid × Rights)} {cap : Capability}

theorem Descends.mono (h : cap.Descends mints) (hsub : mints ⊆ mints') : cap.Descends mints' := by
  obtain ⟨hchain,origin,hlast,hmem⟩ := h
  exact ⟨hchain,origin,hlast,hsub hmem⟩

theorem descends_new (objs : Objects) (object : Koid) (rights : Rights) :
    (new objs object rights).Descends ((object, rights) :: mints) :=
  ⟨List.pairwise_singleton _ _,rights,rfl,List.mem_cons_self⟩

theorem Descends.child (h : cap.Descends mints) {child : Capability}
    (hobject : child.object = cap.object) (hchain : child.chain = cap.lineage)
    (hle : child.rights ≤ cap.rights) : child.Descends mints := by
  obtain ⟨hpair,origin,hlast,hmem⟩ := h
  refine ⟨?_,origin,?_,?_⟩
  · unfold lineage
    rw [hchain,List.pairwise_cons]
    refine ⟨fun r hr => ?_,hpair⟩
    rcases List.mem_cons.mp hr with rfl | hr
    · exact hle
    · exact Rights.le_trans hle (List.rel_of_pairwise_cons hpair hr)
  · unfold lineage at hlast ⊢
    rw [hchain,lineage,List.getLast?_cons_cons]
    exact hlast
  · rw [hobject]
    exact hmem

theorem Descends.derivesFrom {origin : Capability} (h : origin.Descends mints)
    (hder : cap.DerivesFrom origin) : cap.Descends mints := by
  rcases hder with rfl | ⟨mask,rfl⟩
  · exact h
  · exact h.child rfl rfl (Rights.inter_le _ _)

theorem Descends.derived (h : cap.Descends mints) (objs : Objects) {rights : Rights}
    (hle : rights ≤ cap.rights) : (derived objs cap rights).Descends mints :=
  h.child rfl rfl hle

end Capability

namespace World

variable {D π τ κ : Type}

def Present (s : World D π τ κ) (cap : Capability) : Prop :=
  (∃ p, cap ∈ (s.tables p).caps) ∨ (∃ i, cap ∈ (s.threads i).phase.held) ∨
    ∃ k, cap ∈ (s.channels k).queued

def takenOf [Fintype τ] [DecidableEq π] (M : Wiring π τ κ) (s : World D π τ κ) (p : π) :
    Multiset Handle :=
  ∑ i, if M.process i = p then ((s.threads i).phase.taken : Multiset Handle) else 0

variable {s s' : World D π τ κ} {k : κ} {cap : Capability}

theorem present_of_mem_stock {p : π} {i : τ}
    (h : cap ∈ stock (s.tables p) (s.threads i).phase.held (s.channels k)) : s.Present cap := by
  unfold stock at h
  rw [mem_add,mem_add] at h
  rcases h with (h | h) | h
  · exact .inl ⟨p,h⟩
  · exact .inr (.inl ⟨i,mem_coe.mp h⟩)
  · exact .inr (.inr ⟨k,h⟩)

section Runs

variable [DecidableEq π] [DecidableEq τ] [DecidableEq κ] {M : Wiring π τ κ} {Q : Quota D}

variable {i : τ} {t : HandleTable} {th : Thread κ} {ch : Channel} {a : Act π τ κ} {ds : D}
  {id : Nat}

theorem present_become (h : (s.become M i ds id t th k ch).Present cap) :
    cap ∈ stock t th.phase.held ch ∨ s.Present cap := by
  unfold stock
  simp only [mem_add,mem_coe]
  rcases h with ⟨p,h⟩ | ⟨j,h⟩ | ⟨k',h⟩
  · by_cases hp : p = M.process i
    · subst hp
      exact .inl (.inl (.inl (by simpa [become] using h)))
    · exact .inr (.inl ⟨p,by simpa [become,update_of_ne hp] using h⟩)
  · by_cases hj : j = i
    · subst hj
      exact .inl (.inl (.inr (by simpa [become] using h)))
    · exact .inr (.inr (.inl ⟨j,by simpa [become,update_of_ne hj] using h⟩))
  · by_cases hk : k' = k
    · subst hk
      exact .inl (.inr (by simpa [become] using h))
    · exact .inr (.inr (.inr ⟨k',by simpa [become,update_of_ne hk] using h⟩))

variable [Fintype τ]

theorem descends_step (hs : ∀ cap, s.Present cap → cap.Descends s.mints)
    (h : s.step M Q a = some s') : ∀ cap, s'.Present cap → cap.Descends s'.mints := by
  intro cap hcap
  rcases step_cases h with ⟨i,room,-,hstep⟩ | hstep | ⟨objs,rfl⟩ | ⟨k,ds,ch,alive,rfl,hch⟩
  -- a step of a call: what is there afterwards comes from what was there
  · obtain ⟨ds,id,t,th,k,ch,rfl,hadv⟩ := hstep
    rcases present_become hcap with hin | hin
    · obtain ⟨origin,hmem,hder⟩ := hadv.derives cap hin
      exact (hs origin (present_of_mem_stock hmem)).derivesFrom hder
    · exact hs cap hin
  · obtain ⟨p,t,ds,put,mints,rfl,hgrant,hcaps,-⟩ := hstep
    -- a step on a table: what is new there was minted or duplicated
    have hsub : s.mints ⊆ mints := by
      cases hgrant with
      | mint => exact List.subset_cons_self _ _
      | duplicate | nothing => exact List.Subset.refl _
    rcases hcap with ⟨q,hcap⟩ | hcap | hcap
    · by_cases hq : q = p
      · subst hq
        have hmem : cap ∈ (s.tables q).caps + put := mem_of_le hcaps (by simpa using hcap)
        rcases mem_add.mp hmem with hmem | hmem
        · exact (hs cap (.inl ⟨q,hmem⟩)).mono hsub
        cases hgrant with
        | mint =>
          rw [mem_singleton.mp hmem]
          exact Capability.descends_new _ _ _
        | duplicate hheld hle =>
          rw [mem_singleton.mp hmem]
          exact (hs _ (.inl ⟨q,HandleTable.mem_caps_of_capOf hheld⟩)).derived _ hle
        | nothing => exact absurd hmem (notMem_zero cap)
      · exact (hs cap (.inl ⟨q,by simpa [update_of_ne hq] using hcap⟩)).mono hsub
    · exact (hs cap (.inr (.inl hcap))).mono hsub
    · exact (hs cap (.inr (.inr hcap))).mono hsub
  · exact hs cap hcap
  · refine hs cap ?_
    rcases hcap with hcap | hcap | ⟨k',hcap⟩
    · exact .inl hcap
    · exact .inr (.inl hcap)
    by_cases hk : k' = k
    · subst hk
      have hcap : cap ∈ ch.queued := by simpa using hcap
      rw [hch] at hcap
      exact absurd hcap (notMem_zero cap)
    · exact .inr (.inr ⟨k',by simpa [update_of_ne hk] using hcap⟩)

/-- Every table is sound with the transfers that its threads have to resolve. -/
structure Sound (M : Wiring π τ κ) (s : World D π τ κ) : Prop where
  wf : ∀ i, (s.threads i).Wf
  table : ∀ p, TableInv (s.tables p) (takenOf M s p)

omit [DecidableEq κ] in
theorem takenOf_eq (s : World D π τ κ) (i : τ) (p : π) :
    takenOf M s p = (if M.process i = p then ((s.threads i).phase.taken : Multiset Handle) else 0) +
      ∑ j ∈ Finset.univ.erase i,
        if M.process j = p then ((s.threads j).phase.taken : Multiset Handle) else 0 :=
  (Finset.add_sum_erase _ _ (Finset.mem_univ i)).symm

theorem takenOf_become (p : π) : takenOf M (s.become M i ds id t th k ch) p =
      (if M.process i = p then (th.phase.taken : Multiset Handle) else 0) +
      ∑ j ∈ Finset.univ.erase i,
        if M.process j = p then ((s.threads j).phase.taken : Multiset Handle) else 0 :=
  sum_update_eq (fun j th => if M.process j = p then ((Thread.phase th).taken : Multiset Handle)
    else 0) s.threads (Finset.mem_univ i) th

theorem Sound.stepped {room : Nat → Bool} (hs : Sound M s) (hroom : RoomBounded room)
    (hwf : ∀ i, (s'.threads i).Wf) (h : Stepped M room i s s') : Sound M s' := by
  obtain ⟨ds,id,t,th,k,ch,rfl,hadv⟩ := h
  refine ⟨hwf,fun p => ?_⟩
  have htable := hs.table p
  rw [takenOf_become]
  rw [takenOf_eq s i p] at htable
  by_cases hp : M.process i = p
  · subst hp
    rw [if_pos rfl] at htable ⊢
    simpa [become] using hadv.owned (hs.wf i) hroom htable
  -- another process has the same table and the same transfers
  · rw [if_neg hp] at htable ⊢
    simpa [become,update_of_ne (Ne.symm hp)] using htable

theorem Sound.step (hs : Sound M s) (hok : a.Bounded)
    (h : s.step M Q a = some s') : Sound M s' := by
  have hwf := wf_step hs.wf h
  rcases step_cases h with ⟨i,room,hroom,hstep⟩ | hstep | ⟨objs,rfl⟩ | ⟨k,ds,ch,alive,rfl,-⟩
  · exact hs.stepped (hroom hok) hwf hstep
  · obtain ⟨p,t,ds,put,mints,rfl,-,-,hinv⟩ := hstep
    refine ⟨hwf,fun q => ?_⟩
    change TableInv (Function.update s.tables p t q) (takenOf M s q)
    by_cases hq : q = p
    · subst hq
      rw [update_self]
      exact hinv hok (hs.table q)
    · rw [update_of_ne hq]
      exact hs.table q
  · exact ⟨hwf,hs.table⟩
  · exact ⟨hwf,hs.table⟩

omit [DecidableEq τ] [DecidableEq κ] in
theorem Sound.new {domains : D} {objs : Objects} {owner : π → Option DomainId} {depth : κ → Nat} :
    Sound M (new domains objs owner depth : World D π τ κ) := by
  refine ⟨fun i => trivial,fun p => ?_⟩
  have htaken : takenOf M (World.new domains objs owner depth) p = 0 :=
    Finset.sum_eq_zero fun i _ => by split <;> rfl
  rw [htaken]
  exact TableInv.new (owner p)

/-- In every run, a capability that is anywhere goes back to a mint of its object through
capabilities of which each has no right that the one before did not have. And in every
run in which no table outgrows the indices of handles, when a send of any kind ends with
an error and the table is open, each handle that it names holds what it held. -/
theorem authority_never_widens {domains : D} {objs : Objects} {owner : π → Option DomainId}
    {depth : κ → Nat} :
    (∀ s : World D π τ κ,
      Reaches (step M Q) (fun _ _ => True) (World.new domains objs owner depth) s →
      ∀ cap, s.Present cap → cap.Descends s.mints) ∧
    ∀ (s t : World D π τ κ) (i : τ) (env : Env) (err : SysError),
      Reaches (step M Q) (fun _ a => a.Bounded) (World.new domains objs owner depth) s →
      RoomBounded env.room → s.step M Q (.advance i env) = some t →
      (s.threads i).phase.sends = true → (t.threads i).phase = .done (.error err) →
      (s.tables (M.process i)).closed = false →
      (t.threads i).named = snapshot (t.tables (M.process i)) (t.threads i).asked := by
  refine ⟨fun s hrun => ?_,fun s t i env err hrun hroom hstep hsends hdone hopen => ?_⟩
  · refine hrun.invariant ?_ fun u a u' hu _ h => descends_step hu h
    -- at the start there is no capability anywhere
    rintro cap (⟨p,h⟩ | ⟨i,h⟩ | ⟨k,h⟩)
    · exact absurd h (notMem_zero cap)
    · cases h
    · exact absurd h (notMem_zero cap)
  have hs : Sound M s := hrun.invariant Sound.new fun _ _ _ hs hok h => hs.step hok h
  obtain ⟨ds,id,t',th,k,ch,rfl,hadv⟩ := stepped_advance hstep
  -- the transfers of this thread apart from those of the other threads
  have htable := hs.table (M.process i)
  rw [takenOf_eq s i,if_pos rfl] at htable
  have hth : (s.become M i ds id t' th k ch).threads i = th := update_self ..
  have ht : (s.become M i ds id t' th k ch).tables (M.process i) = t' := update_self ..
  rw [hth] at hdone ⊢
  rw [ht]
  exact hadv.refused (hs.wf i) hroom htable hopen hsends hdone

end Runs

/-- The peer is gone when a process sends it an attenuated copy of the object 7, and
`meanwhile` happens after the send has taken the capability. -/
def refusedActs (meanwhile : List (Act Bool Bool Bool)) : List (Act Bool Bool Bool) :=
  [.mint true 1 Rights.all true (within none).room,.mint true 7 Rights.all true (within none).room,
   .closeEndpoint false,
   .send true (.sendCapsAttenuated (Handle.new 1 0) [] [(Handle.new 1 1, 0x81)]),
   .advance true (within none),.advance true (within none)] ++ meanwhile ++
  [.advance true (within none)]

theorem refusedActs_bounded {meanwhile : List (Act Bool Bool Bool)}
    (h : ∀ a ∈ meanwhile, a.Bounded) : ∀ a ∈ refusedActs meanwhile, a.Bounded := by
  intro a ha
  simp only [refusedActs,List.mem_append,List.mem_cons,List.not_mem_nil,or_false] at ha
  rcases ha with ((rfl | rfl | rfl | rfl | rfl | rfl) | ha) | rfl
  · exact within_bounded none
  · exact within_bounded none
  · trivial
  · trivial
  · exact within_bounded none
  · exact within_bounded none
  · exact h a ha
  · exact within_bounded none

def sevenCap : Capability := ⟨7,Rights.all,0,[]⟩

theorem authority_never_widens_refused :
    ∃ s t, Reaches (step pair TableState.unlimited) (fun _ a => a.Bounded) small s ∧
      s.step pair TableState.unlimited (.advance true (within none)) = some t ∧
      (t.threads true).phase = .done (.error .peerClosed) ∧
      (t.threads true).asked = [Handle.new 1 1] ∧
      (t.threads true).named = snapshot (t.tables true) (t.threads true).asked ∧
      s.Present sevenCap ∧ sevenCap.Descends s.mints := by
  have hend : (runList (step pair unlimited) small (refusedActs [])).map
      (fun s => ((s.threads true).phase, (s.tables true).closed,
        (s.step pair unlimited (.advance true (within none))).map fun t =>
          ((t.threads true).phase, (t.threads true).asked))) =
      some (.restore .peerClosed [(Handle.new 1 1, sevenCap)], false,
        some (.done (.error .peerClosed), [Handle.new 1 1])) := by
    decide
  obtain ⟨s,hs,hvals⟩ := Option.map_eq_some_iff.mp hend
  simp only [Prod.mk.injEq,Option.map_eq_some_iff] at hvals
  obtain ⟨hphase,hopen,t,ht,hdone,hasked⟩ := hvals
  have hrun := reaches_of_runList hs fun _ => refusedActs_bounded (fun a ha => by cases ha)
  have hpresent : s.Present sevenCap := .inr (.inl ⟨true,by rw [hphase]; exact List.mem_cons_self⟩)
  refine ⟨s,t,hrun,ht,hdone,hasked,?_,hpresent,?_⟩
  · exact authority_never_widens.2 s t true (within none) .peerClosed hrun (within_bounded none) ht
      (by rw [hphase]; rfl) hdone hopen
  · exact authority_never_widens.1 s (hrun.mono fun _ _ _ => trivial) sevenCap hpresent

/-- The process ends while its send is under way: the handle that the refused send named
held a capability, and is dead. -/
theorem authority_never_widens_closedMidway :
    ∃ s t, Reaches (step pair TableState.unlimited) (fun _ a => a.Bounded) small s ∧
      s.step pair TableState.unlimited (.advance true (within none)) = some t ∧
      (s.threads true).phase.sends = true ∧
      (t.threads true).phase = .done (.error .peerClosed) ∧
      (t.threads true).named = [(Handle.new 1 1, some sevenCap)] ∧
      snapshot (t.tables true) (t.threads true).asked = [(Handle.new 1 1, none)] := by
  have hend : (runList (step pair unlimited) small (refusedActs [.closeAll true])).map
      (fun s => ((s.threads true).phase.sends,
        (s.step pair unlimited (.advance true (within none))).map fun t =>
          ((t.threads true).phase, decide
            ((t.threads true).named = [(Handle.new 1 1, some sevenCap)] ∧
              snapshot (t.tables true) (t.threads true).asked = [(Handle.new 1 1, none)])))) =
      some (true, some (.done (.error .peerClosed), true)) := by
    decide
  obtain ⟨s,hs,hvals⟩ := Option.map_eq_some_iff.mp hend
  simp only [Prod.mk.injEq,Option.map_eq_some_iff,decide_eq_true_eq] at hvals
  obtain ⟨hsends,t,ht,hdone,hnamed,hdead⟩ := hvals
  refine ⟨s,t,reaches_of_runList hs fun _ => refusedActs_bounded fun a ha => ?_,ht,hsends,hdone,
    hnamed,hdead⟩
  rw [List.mem_singleton.mp ha]
  trivial

end World

end LiberSystem
