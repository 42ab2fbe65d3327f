import LiberSystem.Net.SendQueue
import Mathlib.Logic.Relation

/-!
# The stream of a transmit queue

The queue is a window on the stream of accepted bytes: what it holds is the stream without its first
`retired` bytes, and a byte at offset `k` of the stream has sequence number `first + k`.
-/

namespace LiberSystem.Net

open List Bool BitVec SendQueue

/-- The queue holds the rest of `stream` from `retired` on. Once the FIN is acknowledged
nothing is left, and nothing more is accepted. -/
structure Window (first : Seq) (stream : List UInt8) (q : SendQueue) (retired : Nat) : Prop where
  le : retired ≤ stream.length
  bytes : q.bytes = stream.drop retired
  bounded : q.bytes.length ≤ maxUnackedPerFlow
  finSent : q.finSent = true → q.finQueued = true
  done : q.finAcknowledged = true → q.bytes = [] ∧ q.finQueued = true
  sndUna : q.finAcknowledged = false → q.sndUna = first + BitVec.ofNat 32 retired
  flight : q.finAcknowledged = false → q.finSent = false → q.flight.toNat ≤ q.bytes.length
  flightFin : q.finAcknowledged = false → q.finSent = true → q.flight.toNat = q.bytes.length + 1

variable (q : SendQueue)

theorem SendQueue.sndNxt_eq : q.sndNxt = q.sndUna + q.flight := by
  rw [flight,BitVec.add_comm,BitVec.sub_add_cancel]

theorem SendQueue.toNat_flight_advance (k : Seq) (h : q.flight.toNat + k.toNat < 2 ^ 32) :
    (q.sndNxt + k - q.sndUna).toNat = q.flight.toNat + k.toNat := by
  unfold flight at h ⊢
  bv_omega

/-- An acknowledgement that is on neither side of the flight by the signed comparison
splits it. -/
theorem SendQueue.ack_splits_flight (ack : Seq)
    (hold : (ack - q.sndUna).negative = false) (hinvalid : (q.sndNxt - ack).negative = false) :
    (ack - q.sndUna).toNat + (q.sndNxt - ack).toNat = q.flight.toNat := by
  rw [Seq.negative,msb_eq_false_iff_two_mul_lt] at hold hinvalid
  unfold flight
  bv_omega

theorem SendQueue.nextSegment_eq_some {q q' : SendQueue} {smss usable : Nat} {segment : Segment}
    (h : q.nextSegment smss usable = (some segment, q')) :
    segment.sequence = q.sndNxt ∧ segment.offset = q.flight.toNat ∧
      segment.len ≤ q.bytes.length - q.flight.toNat ∧
      (segment.len = 0 → segment.fin) ∧
      (segment.fin → q.finSent = false ∧ segment.len = q.bytes.length - q.flight.toNat) ∧
      q' = { q with
        sndNxt := q.sndNxt + segment.sequenceLen, finSent := q.finSent || segment.fin } := by
  unfold nextSegment at h
  dsimp only at h
  split at h
  · split at h
    · cases h
    obtain ⟨hseg,rfl⟩ := Prod.mk.inj h
    cases hseg
    refine ⟨rfl,rfl,Nat.min_le_left ..,fun hlen => ?_,fun hfin => ?_,rfl⟩
    · dsimp only at hlen
      omega
    · simp only [and_eq_true,beq_iff_eq,not_eq_true'] at hfin
      exact ⟨hfin.1.2,hfin.2⟩
  · split at h
    · next hfin =>
      obtain ⟨hseg,rfl⟩ := Prod.mk.inj h
      cases hseg
      simp only [and_eq_true,not_eq_true'] at hfin
      refine ⟨rfl,rfl,Nat.zero_le _,fun _ => rfl,fun _ => ⟨hfin.2,?_⟩,by simp [Segment.sequenceLen]⟩
      show 0 = _
      omega
    · cases h

def SendQueue.coversFin (ack : Seq) : Bool :=
  q.finSent && !q.finAcknowledged && decide ((ack - q.sndUna).toNat > q.bytes.length)

/-- What is sent is acknowledged up to `ack`, which is neither old nor beyond the cursor. -/
theorem SendQueue.onAck_taken {q : SendQueue} {ack : Seq} (hne : ack ≠ q.sndUna)
    (hold : (ack - q.sndUna).negative = false) (hinvalid : (q.sndNxt - ack).negative = false) :
    ∃ r, q.onAck ack = (.advanced (ack - q.sndUna) (q.coversFin ack), { q with
      bytes := q.bytes.drop (ack - q.sndUna).toNat
      sndUna := ack
      finAcknowledged := q.finAcknowledged || q.coversFin ack
      retransmitted := r
      lastAck := ack
      duplicates := 0 }) := by
  have hadvanced : (if q.coversFin ack then ack - q.sndUna - 1 else ack - q.sndUna) +
      BitVec.ofNat 32 (q.coversFin ack).toNat = ack - q.sndUna := by
    split
    · next hfin => exact hfin ▸ BitVec.sub_add_cancel _ _
    · next hfin => simp [hfin]
  have hbytes : q.bytes.drop (min
      (if q.coversFin ack then ack - q.sndUna - 1 else ack - q.sndUna).toNat q.bytes.length) =
        q.bytes.drop (ack - q.sndUna).toNat := by
    split
    · next hfin =>
      simp only [coversFin,and_eq_true,decide_eq_true_eq] at hfin
      have hpred : (ack - q.sndUna - 1).toNat = (ack - q.sndUna).toNat - 1 := by bv_omega
      rw [Nat.min_eq_right (by omega),drop_length,drop_eq_nil_of_le (by omega)]
    · rcases Nat.le_total (ack - q.sndUna).toNat q.bytes.length with hle | hge
      · rw [Nat.min_eq_left hle]
      · rw [Nat.min_eq_right hge,drop_length,drop_eq_nil_of_le hge]
  unfold onAck
  rw [if_neg hne,if_neg (by simp [hold]),if_neg (by simp [hinvalid])]
  dsimp only
  rw [← coversFin,hadvanced,hbytes]
  split
  · exact ⟨false,rfl⟩
  · exact ⟨q.retransmitted,rfl⟩

theorem SendQueue.onAck_cases (ack : Seq) :
    ((∃ n a, (q.onAck ack).2 = { q with duplicates := n, lastAck := a }) ∧
      (∀ n fin, (q.onAck ack).1 ≠ .advanced n fin) ∧
      ((q.onAck ack).1 = .invalid → (q.sndNxt - ack).negative)) ∨
      ack ≠ q.sndUna ∧ (ack - q.sndUna).negative = false ∧ (q.sndNxt - ack).negative = false := by
  unfold onAck
  split
  · split
    · exact .inl ⟨⟨_,_,rfl⟩,nofun,nofun⟩
    · exact .inl ⟨⟨_,_,rfl⟩,nofun,nofun⟩
  next hne =>
  split
  · exact .inl ⟨⟨_,_,rfl⟩,nofun,nofun⟩
  next hold =>
  split
  · next hinvalid => exact .inl ⟨⟨_,_,rfl⟩,nofun,fun _ => hinvalid⟩
  next hinvalid => exact .inr ⟨hne,by simpa using hold,by simpa using hinvalid⟩

namespace Window

variable {first : Seq} {stream : List UInt8} {q : SendQueue} {retired : Nat}

theorem new (first : Seq) : Window first [] (new first) 0 := by
  refine ⟨Nat.le_refl _,rfl,Nat.zero_le _,nofun,nofun,?_,?_,nofun⟩
  · simp [SendQueue.new]
  · simp [SendQueue.new,SendQueue.flight]

section

variable (h : Window first stream q retired)

include h

theorem accept (data : List UInt8) (room : Nat) :
    Window first (stream ++ data.take (q.accept data room).1) (q.accept data room).2 retired := by
  unfold SendQueue.accept
  split
  · simpa using h
  next hfin =>
  have hack : q.finAcknowledged = false := by
    rw [← not_eq_true]
    exact fun ha => hfin (h.done ha).2
  have hsent : q.finSent = false := by
    rw [← not_eq_true]
    exact fun hs => hfin (h.finSent hs)
  have hbound := h.bounded
  have hflight := h.flight hack hsent
  refine ⟨?_,?_,?_,h.finSent,?_,h.sndUna,?_,?_⟩
  · have := h.le
    rw [length_append]
    omega
  · rw [h.bytes,drop_append_of_le_length h.le]
  · simp only [length_append,length_take]
    omega
  · intro ha
    rw [hack] at ha
    cases ha
  · intro _ _
    show q.flight.toNat ≤ _
    rw [length_append]
    omega
  · intro _ hs
    rw [hsent] at hs
    cases hs

theorem queueFin : Window first stream q.queueFin.2 retired := by
  unfold SendQueue.queueFin
  split
  · exact h
  · exact ⟨h.le,h.bytes,h.bounded,fun _ => rfl,fun ha => ⟨(h.done ha).1,rfl⟩,h.sndUna,h.flight,
      h.flightFin⟩

theorem rewind : Window first stream q.rewind retired := by
  refine ⟨h.le,h.bytes,h.bounded,nofun,h.done,h.sndUna,fun _ _ => ?_,fun _ => nofun⟩
  simp [SendQueue.rewind,SendQueue.flight]

theorem finAcknowledged_eq_false (hb : q.bytes ≠ []) : q.finAcknowledged = false := by
  rw [← not_eq_true]
  exact fun ha => hb (h.done ha).1

theorem finSent_eq_false (hb : 0 < q.bytes.length - q.flight.toNat) : q.finSent = false := by
  have hack := h.finAcknowledged_eq_false (ne_nil_of_length_pos (by omega))
  rw [← not_eq_true]
  intro hs
  have := h.flightFin hack hs
  omega

theorem nextSegment (smss usable : Nat) :
    Window first stream (q.nextSegment smss usable).2 retired := by
  have hbound := h.bounded
  unfold maxUnackedPerFlow at hbound
  unfold SendQueue.nextSegment
  dsimp only
  split
  next havail =>
    have hsent := h.finSent_eq_false havail
    split
    · exact h
    next hroom =>
    generalize hlen : min (q.bytes.length - q.flight.toNat) (min usable smss) = len
    have hlenNat : (BitVec.ofNat 32 len).toNat = len :=
      (BitVec.toNat_ofNat ..).trans (Nat.mod_eq_of_lt (by omega))
    generalize hfin : (q.finQueued && !q.finSent && len == q.bytes.length - q.flight.toNat) = fin
    rw [hsent]
    cases fin with
    | false =>
      refine ⟨h.le,h.bytes,h.bounded,nofun,h.done,h.sndUna,?_,fun _ => nofun⟩
      intro _ _
      show (q.sndNxt + (BitVec.ofNat 32 len + 0#32) - q.sndUna).toNat ≤ q.bytes.length
      rw [BitVec.add_zero,q.toNat_flight_advance _ (by omega)]
      omega
    | true =>
      simp only [and_eq_true,beq_iff_eq] at hfin
      refine ⟨h.le,h.bytes,h.bounded,fun _ => hfin.1.1,h.done,h.sndUna,fun _ => nofun,?_⟩
      intro _ _
      have hk : (BitVec.ofNat 32 len + 1).toNat = len + 1 := by
        rw [toNat_add,hlenNat]
        exact Nat.mod_eq_of_lt (show len + 1 < 2 ^ 32 by omega)
      show (q.sndNxt + (BitVec.ofNat 32 len + 1) - q.sndUna).toNat = q.bytes.length + 1
      rw [q.toNat_flight_advance _ (by omega),hk]
      omega
  next havail =>
    split
    next hfin =>
      simp only [and_eq_true,not_eq_true'] at hfin
      refine ⟨h.le,h.bytes,h.bounded,fun _ => hfin.1,h.done,h.sndUna,fun _ => nofun,?_⟩
      intro hack _
      have hflight := h.flight hack hfin.2
      show (q.sndNxt + 1 - q.sndUna).toNat = _
      have hone : (1 : Seq).toNat = 1 := rfl
      rw [q.toNat_flight_advance _ (by omega),hone]
      show _ = q.bytes.length + 1
      omega
    · exact h

end

/-- Whatever `ack` says, the queue stays a window on the stream. -/
theorem onAck (h : Window first stream q retired) (ack : Seq) :
    ∃ retired', retired ≤ retired' ∧ Window first stream (q.onAck ack).2 retired' := by
  rcases q.onAck_cases ack with ⟨⟨n,a,heq⟩,-⟩ | ⟨hne,hold,hinvalid⟩
  · rw [heq]
    exact ⟨_,Nat.le_refl _,⟨h.le,h.bytes,h.bounded,h.finSent,h.done,h.sndUna,h.flight,h.flightFin⟩⟩
  have hsplit := q.ack_splits_flight ack hold hinvalid
  obtain ⟨r,heq⟩ := onAck_taken hne hold hinvalid
  rw [heq]
  have hdrop : (q.bytes.drop (ack - q.sndUna).toNat).length ≤ maxUnackedPerFlow :=
    Nat.le_trans (length_drop ▸ Nat.sub_le ..) h.bounded
  cases hack : q.finAcknowledged with
  | true =>
    obtain ⟨hbytes,hqueued⟩ := h.done hack
    refine ⟨retired,Nat.le_refl _,h.le,?_,hdrop,h.finSent,fun _ => ⟨?_,hqueued⟩,nofun,nofun,nofun⟩
    · simp [hbytes,← h.bytes]
    · simp [hbytes]
  | false =>
  cases hcov : q.coversFin ack with
  | true =>
    simp only [coversFin,Bool.and_eq_true,decide_eq_true_eq] at hcov
    have hnil : q.bytes.drop (ack - q.sndUna).toNat = [] := drop_eq_nil_of_le (by omega)
    exact ⟨stream.length,h.le,Nat.le_refl _,hnil.trans drop_length.symm,hdrop,h.finSent,
      fun _ => ⟨hnil,h.finSent hcov.1.1⟩,nofun,nofun,nofun⟩
  | false =>
    have hle : (ack - q.sndUna).toNat ≤ q.bytes.length := by
      cases hs : q.finSent with
      | false =>
        have := h.flight hack hs
        omega
      | true => simpa [coversFin,hack,hs] using hcov
    have hlen := congrArg length h.bytes
    rw [length_drop] at hlen
    refine ⟨retired + (ack - q.sndUna).toNat,Nat.le_add_right ..,?_,?_,hdrop,h.finSent,nofun,
      fun _ => ?_,fun _ hs => ?_,fun _ hs => ?_⟩
    · have := h.le
      omega
    · rw [h.bytes,drop_drop]
    · have hu := h.sndUna hack
      bv_omega
    · have := h.flight hack hs
      show (q.sndNxt - ack).toNat ≤ (q.bytes.drop _).length
      rw [length_drop]
      omega
    · have := h.flightFin hack hs
      show (q.sndNxt - ack).toNat = (q.bytes.drop _).length + 1
      rw [length_drop]
      omega

/-- What is next to send: the queue's bytes from the flight on are the stream's, each at
its own sequence number. -/
theorem getElem?_unsent (h : Window first stream q retired) {i : Nat} {byte : UInt8}
    (hbyte : (q.bytes.drop q.flight.toNat)[i]? = some byte) :
    stream[retired + q.flight.toNat + i]? = some byte ∧ q.sndNxt + BitVec.ofNat 32 i
        = first + BitVec.ofNat 32 (retired + q.flight.toNat + i) := by
  have hne : q.bytes ≠ [] := by
    rintro hnil
    rw [hnil,drop_nil,getElem?_nil] at hbyte
    cases hbyte
  refine ⟨?_,?_⟩
  · rw [h.bytes,drop_drop,getElem?_drop] at hbyte
    exact hbyte
  · rw [q.sndNxt_eq,h.sndUna (h.finAcknowledged_eq_false hne),ofNat_add,ofNat_add,
      BitVec.ofNat_toNat,BitVec.setWidth_eq,BitVec.add_assoc,BitVec.add_assoc,BitVec.add_assoc]

end Window

/-- Whatever stream the first queue is a window on, so is the second, further on. -/
def SendQueue.Evolves (q q' : SendQueue) : Prop :=
  ∀ first stream retired, Window first stream q retired →
    ∃ retired', retired ≤ retired' ∧ Window first stream q' retired'

namespace SendQueue

variable {q q' : SendQueue}

theorem Evolves.refl (q : SendQueue) : q.Evolves q := fun _ _ _ h => ⟨_,Nat.le_refl _,h⟩

theorem Evolves.trans {q'' : SendQueue} (h : q.Evolves q') (h' : q'.Evolves q'') :
    q.Evolves q'' := by
  intro first stream retired hw
  obtain ⟨r,hr,hw'⟩ := h first stream retired hw
  obtain ⟨r',hr',hw''⟩ := h' first stream r hw'
  exact ⟨r',Nat.le_trans hr hr',hw''⟩

theorem evolves_queueFin (q : SendQueue) : q.Evolves q.queueFin.2 :=
  fun _ _ _ h => ⟨_,Nat.le_refl _,h.queueFin⟩

theorem evolves_rewind (q : SendQueue) : q.Evolves q.rewind :=
  fun _ _ _ h => ⟨_,Nat.le_refl _,h.rewind⟩

theorem evolves_nextSegment (q : SendQueue) (smss usable : Nat) :
    q.Evolves (q.nextSegment smss usable).2 :=
  fun _ _ _ h => ⟨_,Nat.le_refl _,h.nextSegment smss usable⟩

theorem evolves_onAck (q : SendQueue) (ack : Seq) : q.Evolves (q.onAck ack).2 :=
  fun _ _ _ h => h.onAck ack

end SendQueue

end LiberSystem.Net
