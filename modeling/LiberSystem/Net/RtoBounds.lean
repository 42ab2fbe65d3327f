import LiberSystem.Lib.Runs
import LiberSystem.Net.Timers

/-!
# The bounds of the round-trip estimator

The estimator with the arithmetic of the machine: a call in which a sum or a difference leaves the
32 bits has no outcome.
-/

namespace LiberSystem.Net.Rto

def checkedAdd (a b : Nat) : Option Nat := if a + b ≤ u32Max then some (a + b) else none

def checkedSub (a b : Nat) : Option Nat := if b ≤ a then some (a - b) else none

/-- `scaled - scaled / weight + value`. -/
def smoothed (scaled weight value : Nat) : Option Nat :=
  (checkedSub scaled (scaled / weight)).bind (checkedAdd · value)

def sampleChecked (r : Rto) (rtt : Nat) (segmentWasRetransmitted : Bool) : Option Rto :=
  if segmentWasRetransmitted then some r
  else do
    let srtt := r.srttScaled / 8
    let difference := max srtt rtt - min srtt rtt
    let rttvarScaled ←
      if r.measured then smoothed r.rttvarScaled 4 difference else some (satMul rtt 2)
    let srttScaled ← if r.measured then smoothed r.srttScaled 8 rtt else some (satMul rtt 8)
    let computed := satAdd (srttScaled / 8) (max rttvarScaled clockGranularityMs)
    some ⟨srttScaled,rttvarScaled,true,clampRto computed,0⟩

def srttMs (r : Rto) : Option Nat := if r.measured then some (r.srttScaled / 8) else none

def rttvarMs (r : Rto) : Option Nat := if r.measured then some (r.rttvarScaled / 4) else none

variable {m M rtt : Nat} {r : Rto}

inductive Call where
  | sample (rtt : Nat) (segmentWasRetransmitted : Bool)
  | backOff
  | restart

def Call.accepted : Call → Bool
  | .sample _ segmentWasRetransmitted => !segmentWasRetransmitted
  | _ => false

def step (r : Rto) : Call → Option Rto
  | .sample rtt segmentWasRetransmitted => r.sampleChecked rtt segmentWasRetransmitted
  | .backOff => some r.backOff
  | .restart => some r.restart

/-- A measured round trip lies within these bounds. -/
def Measures (m M : Nat) (_ : Rto) : Call → Prop
  | .sample rtt segmentWasRetransmitted => segmentWasRetransmitted = false → m ≤ rtt ∧ rtt ≤ M
  | _ => True

instance (r : Rto) (c : Call) : Decidable (Measures m M r c) := by
  cases c <;> unfold Measures <;> infer_instance

/-- The scaled values lie within eight and four times the bounds of what was measured. -/
structure Within (m M : Nat) (r : Rto) : Prop where
  srtt : r.measured → 8 * m ≤ r.srttScaled ∧ r.srttScaled ≤ 8 * M
  rttvar : r.measured → r.rttvarScaled ≤ 4 * M
  rto : 200 ≤ r.rtoMs ∧ r.rtoMs ≤ 60000

theorem clampRto_bounds (value : Nat) : 200 ≤ clampRto value ∧ clampRto value ≤ 60000 := by
  unfold clampRto minRtoMs maxRtoMs
  omega

theorem smoothed_eq {scaled weight value : Nat} (h : scaled - scaled / weight + value ≤ u32Max) :
    smoothed scaled weight value = some (scaled - scaled / weight + value) := by
  rw [smoothed,checkedSub,if_pos (Nat.div_le_self scaled weight),Option.bind_some,checkedAdd,
    if_pos h]

theorem Within.sample (h : Within m M r) (hM : M ≤ 2 ^ 28) (hm : m ≤ rtt) (hrtt : rtt ≤ M) :
    r.sampleChecked rtt false = some (r.sample rtt false) ∧ Within m M (r.sample rtt false) ∧
      (r.sample rtt false).rtoMs = clampRto ((r.sample rtt false).srttScaled / 8 +
        max 1 (r.sample rtt false).rttvarScaled) := by
  have hmax : u32Max = 4294967295 := rfl
  have hg : clockGranularityMs = 1 := rfl
  obtain ⟨s,v,hlow,hhigh,hvar,hsample,hchecked⟩ : ∃ s v, 8 * m ≤ s ∧ s ≤ 8 * M ∧ v ≤ 4 * M ∧
      r.sample rtt false = ⟨s,v,true,clampRto (satAdd (s / 8) (max v clockGranularityMs)),0⟩ ∧
      r.sampleChecked rtt false = some (r.sample rtt false) := by
    unfold sampleChecked Rto.sample
    cases hmeasured : r.measured with
    | false =>
      have hsat {n : Nat} (hn : n ≤ 8) : satMul rtt n = rtt * n :=
        Nat.min_eq_left (Nat.le_trans (Nat.mul_le_mul_left rtt hn) (by omega))
      refine ⟨satMul rtt 8,satMul rtt 2,?_,?_,?_,rfl,rfl⟩
      all_goals
        rw [hsat (by decide)]
        omega
    | true =>
      have hsrtt := h.srtt hmeasured
      have hvar := h.rttvar hmeasured
      refine ⟨r.srttScaled - r.srttScaled / 8 + rtt,r.rttvarScaled - r.rttvarScaled / 4 +
        (max (r.srttScaled / 8) rtt - min (r.srttScaled / 8) rtt),by omega,by omega,by omega,rfl,?_⟩
      simp only [if_true]
      rw [smoothed_eq (by omega),smoothed_eq (by omega)]
      rfl
  rw [hchecked,hsample]
  refine ⟨rfl,⟨fun _ => ⟨hlow,hhigh⟩,fun _ => hvar,clampRto_bounds _⟩,congrArg clampRto ?_⟩
  change min (s / 8 + max v clockGranularityMs) u32Max = s / 8 + max 1 v
  omega

theorem Within.step (h : Within m M r) (hM : M ≤ 2 ^ 28) {c : Call} (hc : Measures m M r c) :
    ∃ r', r.step c = some r' ∧ Within m M r' ∧ r'.measured = (r.measured || c.accepted) ∧
      (c.accepted → r'.rtoMs = clampRto (r'.srttScaled / 8 + max 1 r'.rttvarScaled)) := by
  have hno : r.measured = (r.measured || false) := (Bool.or_false _).symm
  cases c with
  | sample rtt retransmitted =>
    cases retransmitted with
    | true => exact ⟨r,rfl,h,hno,nofun⟩
    | false =>
      obtain ⟨hs,hwithin,hrto⟩ := h.sample hM (hc rfl).1 (hc rfl).2
      exact ⟨_,hs,hwithin,(Bool.or_true _).symm,fun _ => hrto⟩
  | backOff => exact ⟨_,rfl,⟨h.srtt,h.rttvar,clampRto_bounds _⟩,hno,nofun⟩
  | restart => exact ⟨_,rfl,⟨h.srtt,h.rttvar,h.rto⟩,hno,nofun⟩

/-- No call of a run overflows. The estimates stay within what was measured from the first accepted
sample on, and the timeout within its bounds. -/
theorem estimator_stays_within (hM : M ≤ 2 ^ 28) (h : Reaches step (Measures m M) new r) :
    200 ≤ r.rtoMs ∧ r.rtoMs ≤ 60000 ∧
      (r.measured → ∃ srtt rttvar, r.srttMs = some srtt ∧ r.rttvarMs = some rttvar ∧
        m ≤ srtt ∧ srtt ≤ M ∧ rttvar ≤ M) ∧
      (∀ rtt, r.step (.sample rtt true) = some r) ∧
      ∀ c, Measures m M r c → ∃ r', r.step c = some r' ∧ r'.measured = (r.measured || c.accepted) ∧
        (c.accepted → r'.rtoMs = clampRto (r'.srttScaled / 8 + max 1 r'.rttvarScaled)) := by
  have hnew : Within m M new := ⟨(fun h => by cases h),(fun h => by cases h),by decide⟩
  have h : Within m M r := h.invariant hnew fun r c r' hr hc hs => by
    obtain ⟨r₁,hs₁,hr₁,-⟩ := hr.step hM hc
    exact Option.some.inj (hs₁.symm.trans hs) ▸ hr₁
  refine ⟨h.rto.1,h.rto.2,fun hmeasured => ?_,fun _ => rfl,fun c hc => ?_⟩
  · have hsrtt := h.srtt hmeasured
    have hvar := h.rttvar hmeasured
    exact ⟨_,_,if_pos hmeasured,if_pos hmeasured,by omega,by omega,by omega⟩
  · obtain ⟨r',hs,-,hrest⟩ := h.step hM hc
    exact ⟨r',hs,hrest⟩

/-- Three samples, with a timeout and the measurement of a retransmitted segment among them. -/
theorem estimator_stays_within_three : ∃ r, Reaches step (Measures 80 120) new r ∧
    (r.srttMs, r.rttvarMs, r.rtoMs) = (some 86, some 32, 216) ∧ ∃ srtt rttvar,
      r.srttMs = some srtt ∧ r.rttvarMs = some rttvar ∧ 80 ≤ srtt ∧ srtt ≤ 120 ∧ rttvar ≤ 120 :=
  exists_reaches_imp
    (P := fun r => r.measured ∧ (r.srttMs, r.rttvarMs, r.rtoMs) = (some 86, some 32, 216))
    [.sample 80 false,.sample 120 false,.backOff,.sample 5000 true,.sample 95 false] (by decide)
    fun _ hrun h => ⟨h.2,(estimator_stays_within (by decide) hrun).2.2.1 h.1⟩

end LiberSystem.Net.Rto
