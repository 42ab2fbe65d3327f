import LiberSystem.Lib.Runs

/-!
# The measurement buffer

`Buffer` of `perfbuf/src/lib.rs`, called by one thread. Slots are claimed by a counter that also
advances when a group is refused, so a group that straddles the end claims slots it never writes.
-/

namespace LiberSystem.Perf

structure Record where
  site : Vector UInt8 8
  cycles : UInt64
  value : UInt64
  thread : UInt32
  core : UInt16
  kind : UInt8
  detail : UInt8
  deriving DecidableEq

inductive Push where
  | accepted
  | unarmed
  | refused
  deriving DecidableEq

structure Drained where
  records : ℕ
  refused : ℕ
  incomplete : ℕ
  stale : ℕ
  deriving DecidableEq

structure Buffer where
  slots : List Record
  next : ℕ
  refused : ℕ
  armed : Bool
  armedAt : UInt64

namespace Buffer

def attach (slots : List Record) : Buffer := ⟨slots,0,0,false,0⟩

variable (b : Buffer)

def capacity : ℕ := b.slots.length

def used : ℕ := min b.next b.capacity

def arm (now : UInt64) : Bool × Buffer :=
  if b.capacity = 0 then (false, b)
  else
    -- the slots of the previous window are marked unfinished
    let slots := (b.slots.take b.used).map (fun r => { r with kind := 0 }) ++ b.slots.drop b.used
    (true, ⟨slots,0,0,true,now⟩)

def disarm : Buffer := { b with armed := false }

def pushGroup (records : List Record) : Push × Buffer :=
  if b.armed = false ∨ records = [] then (.unarmed, b)
  else
    let stop := b.next + records.length
    let claimed := { b with next := stop % 2 ^ 64 }
    if stop ≥ 2 ^ 64 ∨ stop > b.capacity then
      (.refused, { claimed with refused := (b.refused + records.length) % 2 ^ 64 })
    else
      (.accepted, { claimed with slots := b.slots.take b.next ++ records ++ b.slots.drop stop })

def push (record : Record) : Push × Buffer := b.pushGroup [record]

/-- Nobody else writes, so a slot that is not complete stays so. -/
def drain (b : Buffer) : (List Record × Drained) × Buffer :=
  let claimed := b.slots.take b.used
  let complete := claimed.filter (·.kind ≠ 0)
  let fresh := complete.filter (¬ ·.cycles < b.armedAt)
  ((fresh, ⟨fresh.length,b.refused,claimed.countP (·.kind = 0),
    complete.countP (·.cycles < b.armedAt)⟩), b.disarm)

end Buffer

open List

/-- A buffer, the groups it accepted since it was armed and the number of records pushed since. -/
structure Window where
  buffer : Buffer
  groups : List (List Record)
  pushed : ℕ

inductive Call where
  | arm (now : UInt64)
  | push (record : Record)
  | pushGroup (records : List Record)
  | disarm
  | drain

def Call.records : Call → List Record
  | push record => [record]
  | pushGroup records => records
  | _ => []

namespace Window

def new (slots : List Record) : Window := ⟨.attach slots,[],0⟩

def took (w : Window) (records : List Record) : Push × Buffer → Window
  | (.accepted, b) => ⟨b,w.groups ++ [records],w.pushed + records.length⟩
  | (.refused, b) => ⟨b,w.groups,w.pushed + records.length⟩
  | (.unarmed, b) => { w with buffer := b }

def step (w : Window) : Call → Option Window
  | .arm now => match w.buffer.arm now with
    | (true, b) => some ⟨b,[],0⟩
    | (false, b) => some { w with buffer := b }
  | .push record => some (w.took [record] (w.buffer.push record))
  | .pushGroup records => some (w.took records (w.buffer.pushGroup records))
  | .disarm => some { w with buffer := w.buffer.disarm }
  | .drain => some { w with buffer := w.buffer.drain.2 }

/-- Records have a kind, and no group pushed while armed straddles the end of the storage. -/
def NoStraddle (w : Window) (c : Call) : Prop :=
  (∀ r ∈ c.records, r.kind ≠ 0) ∧ (w.buffer.armed = true →
    w.buffer.next + c.records.length < 2 ^ 64 ∧ (w.buffer.capacity ≤ w.buffer.next ∨
      w.buffer.next + c.records.length ≤ w.buffer.capacity))

instance (w : Window) (c : Call) : Decidable (w.NoStraddle c) := inferInstanceAs (Decidable (_ ∧ _))

structure Inv (w : Window) : Prop where
  next : w.buffer.next = w.pushed
  written : w.groups.flatten = w.buffer.slots.take w.buffer.used
  counted : w.buffer.refused + w.groups.flatten.length = w.pushed
  kinds : ∀ r ∈ w.groups.flatten, r.kind ≠ 0

variable {w w' : Window} {records : List Record}

theorem Inv.pushGroup (h : w.Inv) (hok : w.NoStraddle (.pushGroup records)) :
    (w.took records (w.buffer.pushGroup records)).Inv := by
  have hcounted := h.counted
  have hnext := h.next
  rw [Buffer.pushGroup]
  split
  · exact ⟨h.next,h.written,h.counted,h.kinds⟩
  next hlive =>
  obtain ⟨hlt,hends⟩ := hok.2 (eq_true_of_ne_false fun hoff => hlive (.inl hoff))
  dsimp only [Call.records] at hlt hends
  have hpos : 0 < records.length := length_pos_iff.mpr fun hnil => hlive (.inr hnil)
  simp only [Nat.mod_eq_of_lt hlt]
  split
  · next hfull =>
    refine ⟨by rw [took,hnext],?_,?_,h.kinds⟩
    · rw [took,h.written]
      congr 1
      simp only [Buffer.used,Buffer.capacity] at hends hfull ⊢
      omega
    · rw [took,Nat.mod_eq_of_lt (by omega)]
      dsimp only
      omega
  next hroom =>
  have hfits : w.buffer.next + records.length ≤ w.buffer.slots.length := by
    rw [Buffer.capacity] at hroom
    omega
  have hwritten := h.written
  rw [Buffer.used,Buffer.capacity,Nat.min_eq_left (by omega)] at hwritten
  refine ⟨by rw [took,hnext],?_,?_,?_⟩
  · rw [took,flatten_concat,hwritten,Buffer.used,Buffer.capacity]
    refine (take_left' ?_).symm
    simp only [length_append,length_take,length_drop]
    omega
  · rw [took,flatten_concat,length_append]
    dsimp only
    omega
  · intro r hr
    rw [took,flatten_concat] at hr
    exact (mem_append.mp hr).elim (h.kinds r) (hok.1 r)

theorem Inv.step {c : Call} (h : w.Inv) (hok : w.NoStraddle c) (hs : w.step c = some w') :
    w'.Inv := by
  cases c with
  | arm now =>
    rw [Window.step,Buffer.arm] at hs
    by_cases hcap : w.buffer.capacity = 0
    · rw [if_pos hcap] at hs
      exact Option.some.inj hs ▸ h
    · rw [if_neg hcap] at hs
      exact Option.some.inj hs ▸ ⟨rfl,by simp [Buffer.used],rfl,fun r hr => by cases hr⟩
  | push record | pushGroup records => exact Option.some.inj hs ▸ h.pushGroup hok
  | disarm | drain => exact Option.some.inj hs ▸ ⟨h.next,h.written,h.counted,h.kinds⟩

/-- After any calls in which no group straddles the end, a drain hands out the records of the
accepted groups that are not before the arm, in their order, and counts all that was pushed. -/
theorem nothing_lost_silently (slots : List Record) (w : Window)
    (hrun : Reaches step NoStraddle (new slots) w) :
    w.buffer.drain.1.1 = w.groups.flatten.filter (¬ ·.cycles < w.buffer.armedAt) ∧
    w.buffer.drain.1.2.records = w.buffer.drain.1.1.length ∧
    w.buffer.drain.1.2.incomplete = 0 ∧
    w.buffer.drain.1.2.records + w.buffer.drain.1.2.stale + w.buffer.drain.1.2.refused =
      w.pushed := by
  have h : w.Inv := hrun.invariant ⟨rfl,by simp [new,Buffer.attach,Buffer.used],rfl,
    fun r hr => by cases hr⟩ fun _ _ _ hi hok hs => hi.step hok hs
  have hcounted := h.counted
  have hcomplete : w.groups.flatten.filter (·.kind ≠ 0) = w.groups.flatten :=
    filter_eq_self.mpr (by simpa using h.kinds)
  have hsplit := w.groups.flatten.length_eq_countP_add_countP (·.cycles < w.buffer.armedAt)
  simp only [decide_eq_true_eq] at hsplit
  rw [Buffer.drain,← h.written]
  dsimp only
  rw [hcomplete]
  refine ⟨rfl,rfl,countP_eq_zero.mpr (by simpa using h.kinds),?_⟩
  rw [← countP_eq_length_filter]
  omega

def sample (kind : UInt8) : Record := ⟨.replicate 8 0,7,0,0,0,kind,0⟩

/-- Over three slots, a group of two, a record from before the arm and a group past the end. -/
theorem nothing_lost_silently_full :
    ∃ w, Reaches step NoStraddle (new (replicate 3 (sample 0))) w ∧
      w.pushed = 5 ∧ w.buffer.drain.1 = ([sample 1,sample 1], ⟨2,2,0,1⟩) ∧
      w.buffer.drain.1.1 = w.groups.flatten.filter (¬ ·.cycles < w.buffer.armedAt) :=
  exists_reaches_imp
    (P := fun w => w.pushed = 5 ∧ w.buffer.drain.1 = ([sample 1,sample 1], ⟨2,2,0,1⟩))
    [.arm 7,.pushGroup [sample 1,sample 1],.push { sample 1 with cycles := 3 },
      .pushGroup [sample 1,sample 1]] (by decide)
    fun w hrun h => ⟨h.1,h.2,(nothing_lost_silently _ w hrun).1⟩

/-- A group of two over one slot is refused, and its first slot counts as incomplete. -/
theorem straddling_incomplete : ∃ w, runList step (new [sample 0])
    [.arm 0,.pushGroup [sample 1,sample 1]] = some w ∧
      w.pushed = 2 ∧ w.buffer.drain.1.2 = ⟨0,2,1,0⟩ :=
  ⟨_,rfl,by decide⟩

end Window

end LiberSystem.Perf
