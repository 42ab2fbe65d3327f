import LiberSystem.Kernel.Syscall.TransferRun
import LiberSystem.Kernel.Object.HandleRun

/-!
# Transfers are linear

Capabilities move between tables, the hands of threads and queues, and a send or a receive can fail
between any two moves.
-/

namespace LiberSystem

open Multiset

variable (o : Koid)

def references (caps : Multiset Capability) : Nat :=
  (caps.map Capability.object).count o

@[simp] theorem references_add (m m' : Multiset Capability) :
    references o (m + m') = references o m + references o m' := by
  unfold references
  rw [map_add,count_add]

@[simp] theorem references_zero : references o 0 = 0 := rfl

theorem references_mono {o : Koid} {m m' : Multiset Capability}
    (h : m.map Capability.object ≤ m'.map Capability.object) :
    references o m ≤ references o m' :=
  count_le_of_le o h

theorem references_singleton_of_ne {o : Koid} {cap : Capability} (h : cap.object ≠ o) :
    references o {cap} = 0 := by
  unfold references
  rw [map_singleton,count_singleton,if_neg (Ne.symm h)]

namespace World

variable {D π τ κ : Type}

def Creates (o : Koid) (s : World D π τ κ) : Act π τ κ → Prop
  | .mint _ object _ _ _ => object = o
  | .duplicate p h _ _ =>
    match (s.tables p).capOf h with
    | .ok cap => cap.object = o
    | .error _ => False
  | _ => False

instance (o : Koid) (s : World D π τ κ) (a : Act π τ κ) : Decidable (s.Creates o a) := by
  cases a <;> unfold Creates <;> first | infer_instance | (dsimp only; split <;> infer_instance)

theorem Grants.references_eq_zero {o : Koid} {s : World D π τ κ} {p : π} {a : Act π τ κ}
    {put : Multiset Capability} {mints : List (Koid × Rights)} (h : s.Grants p a put mints)
    (hnew : ¬ s.Creates o a) : references o put = 0 := by
  cases h with
  | mint => exact references_singleton_of_ne hnew
  | duplicate hcap hle =>
    simp only [Creates,hcap] at hnew
    exact references_singleton_of_ne hnew
  | nothing => rfl

section Runs

variable [Fintype π] [Fintype τ] [Fintype κ]

/-- The copies of `o` that bear authority: in tables, in the hands of threads and in
queues. An original and the copy that travels for it are one. -/
def copies (s : World D π τ κ) : Nat :=
  ∑ p, references o (s.tables p).caps + ∑ i, references o (s.threads i).phase.counted +
    ∑ k, references o (s.channels k).queued

variable {M : Wiring π τ κ} {Q : Quota D} {s s' : World D π τ κ} [DecidableEq π]

variable {o : Koid} {a : Act π τ κ}

theorem copies_tabled (hnew : ¬ s.Creates o a) (h : s.Tabled s' a) : s'.copies o ≤ s.copies o := by
  obtain ⟨p,t,ds,put,mints,rfl,hgrant,hcaps,-⟩ := h
  have hle := references_mono (o := o) (map_le_map hcaps)
  rw [references_add,hgrant.references_eq_zero hnew] at hle
  have ht := sum_update (fun _ t => references o (HandleTable.caps t)) s.tables
    (Finset.mem_univ p) t
  unfold copies
  dsimp only at ht ⊢
  omega

variable [DecidableEq τ] [DecidableEq κ]

theorem copies_stepped {room : Nat → Bool} {i : τ} (hwf : ∀ i, (s.threads i).Wf)
    (h : Stepped M room i s s') : s'.copies o ≤ s.copies o := by
  obtain ⟨ds,id,t,th,k,ch,rfl,hadv⟩ := h
  have hle := references_mono (o := o) (hadv.objects (hwf i))
  unfold stock at hle
  simp only [references_add] at hle
  -- one component of each of the three sums changes
  have ht := sum_update (fun _ t => references o (HandleTable.caps t)) s.tables
    (Finset.mem_univ (M.process i)) t
  have hth := sum_update (fun _ th => references o (Phase.counted (Thread.phase th) :
    Multiset Capability)) s.threads (Finset.mem_univ i) th
  have hch := sum_update (fun _ ch => references o (Channel.queued ch)) s.channels
    (Finset.mem_univ k) ch
  unfold copies become
  dsimp only at ht hth hch ⊢
  omega

theorem copies_step (hwf : ∀ i, (s.threads i).Wf)
    (hnew : ¬ s.Creates o a) (h : s.step M Q a = some s') : s'.copies o ≤ s.copies o := by
  rcases step_cases h with ⟨i,room,-,hs⟩ | hs | ⟨objs,rfl⟩ | ⟨k,ds,ch,alive,rfl,hch⟩
  · exact copies_stepped hwf hs
  · exact copies_tabled hnew hs
  · exact le_refl _
  have hsum := sum_update (fun _ ch => references o (Channel.queued ch)) s.channels
    (Finset.mem_univ k) ch
  unfold copies
  dsimp only at hsum ⊢
  rw [hch,references_zero] at hsum
  omega

/-- Any number of processes, threads and endpoints, in any interleaving: if no step mints
`o` or duplicates a capability to it, there are never more copies of `o` than there were
at the start. -/
theorem transfer_linear {o : Koid} {s₀ s : World D π τ κ}
    (hidle : ∀ i, (s₀.threads i).phase = .idle)
    (hrun : Reaches (step M Q) (fun s a => ¬ s.Creates o a) s₀ s) :
    s.copies o ≤ s₀.copies o := by
  -- the count alone is not inductive: a send in progress must hold what it took
  have hstart : ∀ i, (s₀.threads i).Wf := fun i => Thread.wf_of_not_sends (by rw [hidle i]; rfl)
  have hinv : (∀ i, (s.threads i).Wf) ∧ s.copies o ≤ s₀.copies o := by
    refine hrun.invariant (P := fun s => (∀ i, (s.threads i).Wf) ∧ s.copies o ≤ s₀.copies o)
      ⟨hstart,le_refl _⟩ fun u a u' hu hnew h => ?_
    exact ⟨wf_step hu.1 h,(copies_step hu.1 hnew h).trans hu.2⟩
  exact hinv.2

end Runs

def courier : World Unit Bool Bool Bool :=
  { small with tables := fun p => ⟨⟨some ⟨p.toNat,Rights.all,0,[]⟩,1,false⟩ ::
      if p then [⟨some ⟨7,Rights.all,0,[]⟩,1,false⟩] else [],[],[],false,none⟩ }

/-- The first process sends an attenuated copy. The second one's first receive fails
while it copies out, and its second one succeeds. -/
def courierActs : List (Act Bool Bool Bool) :=
  [.send true (.sendCapsAttenuated (Handle.new 1 0) [] [(Handle.new 1 1, 0x81)])] ++
  List.replicate 4 (.advance true (within none)) ++
  [.recv false (sysChannelRecvCaps (Handle.new 1 0) 16)] ++
  List.replicate 4 (.advance false (within none)) ++
  [.advance false (within (some .notMapped)),.advance false (within none),
   .advance false (within none),.retire false,
   .recv false (sysChannelRecvCaps (Handle.new 1 0) 16)] ++
  List.replicate 8 (.advance false (within none))

theorem transfer_linear_courier :
    ∃ s, Reaches (step pair TableState.unlimited) (fun s a => ¬ s.Creates 7 a) courier s ∧
      (s.tables true).capOf (Handle.new 1 1) = .error .badHandle ∧
      ((s.tables false).capOf (Handle.new 1 1)).toOption.map Capability.rights = some ⟨0x81⟩ ∧
      s.copies 7 ≤ courier.copies 7 ∧ courier.copies 7 = 1 := by
  refine exists_reaches_imp
    (P := fun s => (s.tables true).capOf (Handle.new 1 1) = .error .badHandle ∧
      ((s.tables false).capOf (Handle.new 1 1)).toOption.map Capability.rights = some ⟨0x81⟩)
    courierActs (by decide) fun s hrun ⟨hgone,hthere⟩ => ?_
  exact ⟨hgone,hthere,transfer_linear (fun _ => rfl) hrun,by decide⟩

end World

end LiberSystem
