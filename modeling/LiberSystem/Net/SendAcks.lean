import LiberSystem.Lib.Runs
import LiberSystem.Net.SendStream

/-!
# Acknowledgements of what was sent, and the FIN

Calls on one transmit queue, with the bytes it has accepted and the highest sequence number that a
segment of it ended at. A rewind sets the cursor back, and what was sent before then lies beyond it;
and it forgets that the FIN was sent, also when the FIN is acknowledged.
-/

namespace LiberSystem.Net

open SendQueue BitVec

inductive SendOp where
  | accept (data : List UInt8) (aggregateRemaining : Nat)
  | queueFin
  | nextSegment (smss usable : Nat)
  | rewind
  | onAck (ack : Seq)
  deriving DecidableEq

structure Sender where
  queue : SendQueue
  accepted : List UInt8
  highest : Seq

namespace Sender

def new (iss : Seq) : Sender := ⟨.new iss,[],iss⟩

def step (s : Sender) : SendOp → Option Sender
  | .accept data room => some { s with
      queue := (s.queue.accept data room).2
      accepted := s.accepted ++ data.take (s.queue.accept data room).1 }
  | .queueFin => some { s with queue := s.queue.queueFin.2 }
  | .nextSegment smss usable =>
    match s.queue.nextSegment smss usable with
    | (none, q) => some { s with queue := q }
    | (some segment, q) =>
      let stop := segment.sequence + segment.sequenceLen
      some { s with queue := q
                    highest := if (stop - s.highest).negative then s.highest else stop }
  | .rewind => some { s with queue := s.queue.rewind }
  | .onAck ack => some { s with queue := (s.queue.onAck ack).2 }

/-- No flight is rewound. -/
def KeepsFlight (s : Sender) (op : SendOp) : Prop := op = .rewind → s.queue.flight = 0

instance (s : Sender) (op : SendOp) : Decidable (s.KeepsFlight op) :=
  inferInstanceAs (Decidable (_ → _))

variable {iss : Seq} {s s' : Sender} {op : SendOp}

theorem window_of_step (h : ∃ retired, Window iss s.accepted s.queue retired)
    (hs : s.step op = some s') : ∃ retired, Window iss s'.accepted s'.queue retired := by
  obtain ⟨retired,hw⟩ := h
  cases op with
  | accept data room => exact Option.some.inj hs ▸ ⟨retired,hw.accept data room⟩
  | queueFin => exact Option.some.inj hs ▸ ⟨retired,hw.queueFin⟩
  | nextSegment smss usable =>
    have hw' := hw.nextSegment smss usable
    rw [step] at hs
    split at hs <;> next heq =>
      rw [heq] at hw'
      cases hs
      exact ⟨retired,hw'⟩
  | rewind => exact Option.some.inj hs ▸ ⟨retired,hw.rewind⟩
  | onAck ack =>
    obtain ⟨retired',-,hw'⟩ := hw.onAck ack
    exact Option.some.inj hs ▸ ⟨retired',hw'⟩

/-- The cursor stays where the last segment ended. -/
theorem caught_of_step (hw : ∃ retired, Window iss s.accepted s.queue retired)
    (h : s.highest = s.queue.sndNxt) (hkept : s.KeepsFlight op) (hs : s.step op = some s') :
    s'.highest = s'.queue.sndNxt := by
  cases op with
  | accept data room =>
    cases hs
    unfold accept
    split <;> exact h
  | queueFin =>
    cases hs
    unfold queueFin
    split <;> exact h
  | nextSegment smss usable =>
    rw [step] at hs
    split at hs
    · next hnone =>
      cases hs
      unfold nextSegment at hnone
      dsimp only at hnone
      split at hnone <;> split at hnone <;> cases hnone <;> exact h
    next segment q hsome =>
    cases hs
    obtain ⟨retired,hw⟩ := hw
    obtain ⟨hseq,-,hle,-,-,rfl⟩ := nextSegment_eq_some hsome
    have hbound := hw.bounded
    have hfin := Bool.toNat_le segment.fin
    have hstop : segment.sequence + segment.sequenceLen - s.highest = segment.sequenceLen := by
      bv_omega
    have hlen : segment.sequenceLen.toNat < 2 ^ 31 := by
      unfold maxUnackedPerFlow at hbound
      rw [Segment.sequenceLen,toNat_add,toNat_ofNat,toNat_ofNat]
      omega
    rw [hstop,Seq.negative,msb_eq_decide,if_neg (by simpa using hlen),hseq]
  | rewind =>
    cases hs
    have hnext := s.queue.sndNxt_eq
    rw [hkept rfl] at hnext
    exact h.trans (hnext.trans (BitVec.add_zero _))
  | onAck ack =>
    cases hs
    refine h.trans ?_
    rcases s.queue.onAck_cases ack with ⟨⟨n,a,heq⟩,-⟩ | ⟨hne,hold,hinvalid⟩
    · rw [heq]
    · obtain ⟨r,heq⟩ := onAck_taken hne hold hinvalid
      rw [heq]

/-- While no flight has been rewound since the cursor stood at the end of all that was sent, an
acknowledgement of what was sent retires what it covers, and one that is refused is past it. -/
theorem ack_of_sent_taken (iss : Seq) (s₀ s : Sender)
    (hstart : Reaches step (fun _ _ => True) (new iss) s₀) (hcaught : s₀.highest = s₀.queue.sndNxt)
    (hrun : Reaches step KeepsFlight s₀ s) (ack : Seq) :
    (ack ≠ s.queue.sndUna → (ack - s.queue.sndUna).negative = false →
      (s.highest - ack).negative = false →
      (s.queue.onAck ack).1 = .advanced (ack - s.queue.sndUna) (s.queue.coversFin ack) ∧
      (s.queue.onAck ack).2.bytes = s.queue.bytes.drop (ack - s.queue.sndUna).toNat ∧
      (s.queue.onAck ack).2.sndUna = ack ∧
      (s.queue.onAck ack).2.finAcknowledged = (s.queue.finAcknowledged || s.queue.coversFin ack)) ∧
    ((s.queue.onAck ack).1 = .invalid → (s.highest - ack).negative) := by
  have hwindow := hstart.invariant
    (P := fun s => ∃ retired, Window iss s.accepted s.queue retired) ⟨0,.new iss⟩
    fun _ _ _ h _ hs => window_of_step h hs
  obtain ⟨-,hcursor⟩ := hrun.invariant
    (P := fun s => (∃ retired, Window iss s.accepted s.queue retired) ∧
      s.highest = s.queue.sndNxt) ⟨hwindow,hcaught⟩
    fun _ _ _ h hkept hs => ⟨window_of_step h.1 hs,caught_of_step h.1 h.2 hkept hs⟩
  rw [hcursor]
  constructor
  · intro hne hold hinvalid
    obtain ⟨r,htaken⟩ := onAck_taken hne hold hinvalid
    rw [htaken]
    exact ⟨rfl,rfl,rfl,rfl⟩
  intro hs
  rcases s.queue.onAck_cases ack with ⟨-,-,hpast⟩ | ⟨hne,hold,hinvalid⟩
  · exact hpast hs
  · obtain ⟨r,htaken⟩ := onAck_taken hne hold hinvalid
    rw [htaken] at hs
    cases hs

theorem ack_of_sent_taken_of_send : ∃ s, Reaches step KeepsFlight (new 0) s ∧
    s.highest = 1 ∧ (s.queue.onAck 1).1 = .advanced 1 false :=
  exists_reaches_imp (P := fun s => s.highest = 1 ∧ s.queue.sndUna = 0 ∧
      s.queue.coversFin 1 = false) [.accept [7] 1,.nextSegment 1 1] (by decide)
    fun s hrun ⟨hhigh,huna,hfin⟩ => by
      have h := (ack_of_sent_taken 0 _ s .refl rfl hrun 1).1
      rw [hhigh,huna,hfin] at h
      exact ⟨hhigh,(h (by decide) rfl rfl).1⟩

/-- The byte was sent and is acknowledged after a timeout: the cursor is back at the byte, and the
acknowledgement is refused. -/
theorem ack_after_rewind_invalid : ∃ s, runList step (new 0)
    [.accept [7] 1,.nextSegment 1 1,.rewind] = some s ∧ 1 ≠ s.queue.sndUna ∧
      (1 - s.queue.sndUna).negative = false ∧ (s.highest - 1).negative = false ∧
      (s.queue.onAck 1).1 = .invalid :=
  ⟨_,rfl,by decide⟩

/-! ### The FIN -/

theorem sndNxt_of_window {retired : Nat} (hw : Window iss s.accepted s.queue retired)
    (hack : s.queue.finAcknowledged = false) :
    s.queue.sndNxt = iss + BitVec.ofNat 32 (retired + s.queue.flight.toNat) ∧
      retired + s.queue.bytes.length = s.accepted.length := by
  constructor
  · rw [s.queue.sndNxt_eq,hw.sndUna hack,ofNat_add,ofNat_toNat,setWidth_eq, BitVec.add_assoc]
  · rw [hw.bytes,List.length_drop,Nat.add_sub_cancel' hw.le]

/-- Once the FIN is acknowledged, everything is, up to one past the bytes. -/
structure Finished (iss : Seq) (s : Sender) : Prop where
  window : ∃ retired, Window iss s.accepted s.queue retired
  last : s.queue.finAcknowledged = true → s.queue.finSent = true ∧ s.queue.flight = 0 ∧
    s.queue.sndNxt = iss + BitVec.ofNat 32 s.accepted.length + 1

theorem ack_of_coversFin {ack : Seq} (hw : ∃ retired, Window iss s.accepted s.queue retired)
    (hold : (ack - s.queue.sndUna).negative = false)
    (hinvalid : (s.queue.sndNxt - ack).negative = false) (hcov : s.queue.coversFin ack) :
    s.queue.finSent ∧ ack = s.queue.sndNxt ∧ ack = iss + BitVec.ofNat 32 s.accepted.length + 1 := by
  obtain ⟨retired,hw⟩ := hw
  simp only [coversFin,Bool.and_eq_true,Bool.not_eq_true',decide_eq_true_eq] at hcov
  obtain ⟨⟨hsent,hack⟩,hpast⟩ := hcov
  have hsplit := s.queue.ack_splits_flight ack hold hinvalid
  have hflight := hw.flightFin hack hsent
  obtain ⟨hnext,hlength⟩ := sndNxt_of_window hw hack
  have hlast : ack = s.queue.sndNxt := by bv_omega
  refine ⟨hsent,hlast,?_⟩
  rw [hlast,hnext,hflight,← hlength,← Nat.add_assoc,BitVec.ofNat_add,BitVec.add_assoc]
  rfl

theorem Finished.nextSegment_eq (h : Finished iss s) (hack : s.queue.finAcknowledged)
    (smss usable : Nat) : s.queue.nextSegment smss usable = (none, s.queue) := by
  obtain ⟨retired,hw⟩ := h.window
  simp [nextSegment,(hw.done hack).1,(h.last hack).1]

/-- No rewind comes after the acknowledgement of the FIN. -/
def KeepsFin (s : Sender) (op : SendOp) : Prop := op = .rewind → s.queue.finAcknowledged = false

instance (s : Sender) (op : SendOp) : Decidable (s.KeepsFin op) :=
  inferInstanceAs (Decidable (_ → _))

/-- Nothing moves once the FIN is acknowledged. -/
theorem Finished.still (h : Finished iss s) (hack : s.queue.finAcknowledged)
    (hkept : s.KeepsFin op) (hs : s.step op = some s') : ∃ n a, s' = { s with
      queue := { s.queue with duplicates := n, lastAck := a } } := by
  obtain ⟨retired,hw⟩ := h.window
  have hqueued := (hw.done hack).2
  cases op with
  | accept data room =>
    rw [step,accept,if_pos hqueued] at hs
    cases hs
    exact ⟨_,_,by simp; rfl⟩
  | queueFin =>
    rw [step,queueFin,if_pos hqueued] at hs
    cases hs
    exact ⟨_,_,rfl⟩
  | nextSegment smss usable =>
    rw [step,h.nextSegment_eq hack] at hs
    cases hs
    exact ⟨_,_,rfl⟩
  | rewind =>
    rw [hkept rfl] at hack
    cases hack
  | onAck ack =>
    cases hs
    rcases s.queue.onAck_cases ack with ⟨⟨n,a,heq⟩,-⟩ | ⟨hne,hold,hinvalid⟩
    · exact ⟨n,a,by rw [heq]⟩
    · have hsplit := s.queue.ack_splits_flight ack hold hinvalid
      rw [(h.last hack).2.1] at hsplit
      exact absurd (show ack = s.queue.sndUna by bv_omega) hne

theorem Finished.step (h : Finished iss s) (hkept : s.KeepsFin op) (hs : s.step op = some s') :
    Finished iss s' := by
  refine ⟨window_of_step h.window hs,fun hack' => ?_⟩
  cases hack : s.queue.finAcknowledged with
  | true =>
    obtain ⟨n,a,rfl⟩ := h.still hack hkept hs
    exact h.last hack
  | false =>
    cases op with
    | onAck ack =>
      cases hs
      rcases s.queue.onAck_cases ack with ⟨⟨n,a,heq⟩,-⟩ | ⟨hne,hold,hinvalid⟩
      · rw [heq] at hack'
        exact absurd hack' (by simp [hack])
      obtain ⟨r,heq⟩ := onAck_taken hne hold hinvalid
      rw [heq] at hack' ⊢
      have hcov : s.queue.coversFin ack := by simpa [hack] using hack'
      obtain ⟨hsent,hlast,hplace⟩ := ack_of_coversFin h.window hold hinvalid hcov
      exact ⟨hsent,hlast ▸ BitVec.sub_self _,hlast ▸ hplace⟩
    | _ =>
      -- no other call writes the flag
      rw [Sender.step] at hs
      grind [accept,queueFin,nextSegment,rewind]

/-- While no rewind comes after its acknowledgement, the FIN ends one past the bytes that were
accepted before it, any other segment ends among the last of them that the queue may hold, only an
acknowledgement of exactly that place acknowledges it, and nothing is sent and the cursor stays once
it is acknowledged. -/
theorem fin_one_place (iss : Seq) (s : Sender) (hrun : Reaches step KeepsFin (new iss) s) :
    (s.queue.finQueued = true → ∀ data room, (s.queue.accept data room).1 = 0) ∧
    (∀ smss usable segment q, s.queue.nextSegment smss usable = (some segment, q) →
      if segment.fin then s.queue.finQueued = true ∧ segment.sequence + segment.sequenceLen =
        iss + BitVec.ofNat 32 s.accepted.length + 1
      else ∃ k ≤ s.accepted.length, s.accepted.length ≤ k + maxUnackedPerFlow ∧
        segment.sequence + segment.sequenceLen = iss + BitVec.ofNat 32 k) ∧
    (∀ ack, s.queue.finAcknowledged = false → (s.queue.onAck ack).2.finAcknowledged = true →
      ack = iss + BitVec.ofNat 32 s.accepted.length + 1) ∧
    (s.queue.finAcknowledged = true → (∀ smss usable, (s.queue.nextSegment smss usable).1 = none) ∧
      ∀ s', Reaches step KeepsFin s s' → s'.queue.finAcknowledged = true ∧
        s'.queue.sndNxt = s.queue.sndNxt) := by
  have h : Finished iss s := hrun.invariant ⟨⟨0,.new iss⟩,fun h => by cases h⟩
    fun _ _ _ h hkept hs => h.step hkept hs
  refine ⟨fun hqueued data room => ?_,fun smss usable segment q hsome => ?_,
    fun ack hack hack' => ?_,fun hack => ⟨fun smss usable => ?_,fun s' hrun' => ?_⟩⟩
  · rw [accept,if_pos hqueued]
  · have hack : s.queue.finAcknowledged = false := by
      rw [← Bool.not_eq_true]
      intro hack
      rw [h.nextSegment_eq hack] at hsome
      cases hsome
    obtain ⟨retired,hw⟩ := h.window
    have hw' := hw.nextSegment smss usable
    obtain ⟨hseq,-,hle,hnil,hfin,hq⟩ := nextSegment_eq_some hsome
    obtain ⟨hnext,hlength⟩ := sndNxt_of_window hw hack
    rw [hseq,hnext,Segment.sequenceLen,← BitVec.add_assoc,BitVec.add_assoc iss,← BitVec.ofNat_add]
    split
    · next hf =>
      obtain ⟨hsent,hlen⟩ := hfin hf
      have hflight := hw.flight hack hsent
      have hsum : retired + s.queue.flight.toNat + segment.len = s.accepted.length := by omega
      rw [hsum,hf]
      refine ⟨?_,rfl⟩
      rw [hsome,hq] at hw'
      simpa [hf] using hw'.finSent
    · next hf =>
      have hpos : segment.len ≠ 0 := fun hzero => hf (hnil hzero)
      have hbounded := hw.bounded
      refine ⟨_,?_,?_,by rw [Bool.eq_false_iff.mpr hf]; exact BitVec.add_zero _⟩
      · omega
      · omega
  · rcases s.queue.onAck_cases ack with ⟨⟨n,a,heq⟩,-⟩ | ⟨hne,hold,hinvalid⟩
    · rw [heq,hack] at hack'
      cases hack'
    · obtain ⟨r,heq⟩ := onAck_taken hne hold hinvalid
      rw [heq] at hack'
      exact (ack_of_coversFin h.window hold hinvalid (by simpa [hack] using hack')).2.2
  · rw [h.nextSegment_eq hack]
  · have hend := hrun'.invariant (P := fun s' => Finished iss s' ∧
      s'.queue.finAcknowledged = true ∧ s'.queue.sndNxt = s.queue.sndNxt) ⟨h,hack,rfl⟩ ?_
    · exact hend.2
    intro u op v hu hkept hs
    refine ⟨hu.1.step hkept hs,?_⟩
    obtain ⟨n,a,rfl⟩ := hu.1.still hu.2.1 hkept hs
    exact hu.2

theorem fin_one_place_of_close : ∃ s, Reaches step KeepsFin (new 0) s ∧
    s.queue.finAcknowledged = true ∧ (s.queue.nextSegment 1 1).1 = none := by
  refine exists_reaches_imp (P := fun s => s.queue.finAcknowledged = true)
    [.accept [7] 1,.queueFin,.nextSegment 1 1,.onAck 2] (by decide) fun s hrun hack => ?_
  exact ⟨hack,((fin_one_place 0 s hrun).2.2.2 hack).1 1 1⟩

/-- The FIN is acknowledged and then a rewind comes, as for a change of the path's segment size: it
is sent again, one further on. -/
theorem fin_sent_again : ∃ s, runList step (new 0)
    [.queueFin,.nextSegment 0 0,.onAck 1,.rewind] = some s ∧ s.queue.finAcknowledged = true ∧
      s.accepted = [] ∧ (s.queue.nextSegment 0 0).1 = some ⟨1,0,0,true,true⟩ :=
  ⟨_,rfl,by decide⟩

end Sender

end LiberSystem.Net
