import LiberSystem.Boot.Rollback
import LiberSystem.Lib.Runs

/-!
# The floor over boots that may lose power

A write leaves its slot as it was, with the new record, or with something that does not validate,
whatever it answers; a boot may end at any request.
-/

namespace LiberSystem.Rollback

open Proc

/-- What firmware would answer for each of the three variables. -/
structure Nvram where
  marker : Read
  slot : Slot → Read

namespace Nvram

def read (n : Nvram) : Variable → Read
  | .slotA => n.slot .a
  | .slotB => n.slot .b
  | .marker => n.marker

def put (n : Nvram) (slot : Slot) (content : Read) : Nvram :=
  { n with slot := fun s => if s = slot then content else n.slot s }

variable (n : Nvram) (slot : Slot)
include n slot

@[simp] theorem read_toVariable : n.read slot.toVariable = n.slot slot := by
  cases slot <;> rfl

@[simp] theorem put_slot_self (content : Read) :
    (n.put slot content).slot slot = content := if_pos rfl

@[simp] theorem put_slot_other (content : Read) :
    (n.put slot content).slot slot.other = n.slot slot.other := if_neg slot.other_ne

end Nvram

/-- What a write leaves in its slot. -/
inductive Left where
  | old
  | new
  | torn (content : Read)

/-- What firmware makes of a write: its answer, and what the slot holds afterwards. -/
structure Landing where
  answer : Except WriteFault Unit
  left : Left

def Landing.kept : Landing := ⟨.ok (),.new⟩

def Left.content (left : Left) (old : Read) (record : Bytes 64) : Read :=
  match left with
  | .old => old
  | .new => .present attributes 64 record
  | .torn content => content

variable [Sha256] {product : Bytes 32} {P : Landing → Prop} {n n' : Nvram} {slot : Slot}
  {f g : UInt64}

def answer (c : Landing) (n : Nvram) : (r : Request) → r.Answer × Nvram
  | .read which => (n.read which, n)
  | .write slot record => (c.answer, n.put slot (c.left.content (n.slot slot) record))

/-- What a torn write leaves does not validate. -/
def Landing.Fails (product : Bytes 32) (c : Landing) : Request → Prop
  | .read _ => True
  | .write slot _ => ∀ content, c.left = .torn content →
      (slotState content slot product).floor = none

theorem Landing.kept_fails : ∀ r, Landing.kept.Fails product r
  | .read _ => trivial
  | .write _ _ => fun _ hleft => by cases hleft

def firmware (product : Bytes 32) (P : Landing → Prop) : Environment Request Request.Answer Nvram :=
  fun n r ans n' => ∃ c, P c ∧ c.Fails product r ∧ answer c n r = (ans, n')

namespace Nvram

def Holds (product : Bytes 32) (n : Nvram) (slot : Slot) (floor : UInt64) : Prop :=
  slotState (n.slot slot) slot product = .valid floor

def floor (product : Bytes 32) (n : Nvram) : Option UInt64 :=
  match (slotState (n.slot .a) .a product).floor, (slotState (n.slot .b) .b product).floor with
  | some x, some y => some (max x y)
  | some x, none => some x
  | none, y => y

/-- The marker stays, and for every valid floor there is one at least as high afterwards. -/
structure Grows (product : Bytes 32) (n n' : Nvram) : Prop where
  marker : n'.marker = n.marker
  floors : ∀ slot f, n.Holds product slot f → ∃ slot' f', n'.Holds product slot' f' ∧ f ≤ f'

theorem Grows.refl (n : Nvram) : Grows product n n :=
  ⟨rfl,fun slot f hf => ⟨slot,f,hf,UInt64.le_refl f⟩⟩

theorem Grows.trans {m : Nvram} (h : Grows product n m) (h' : Grows product m n') :
    Grows product n n' := by
  refine ⟨h'.marker.trans h.marker,fun slot f hf => ?_⟩
  obtain ⟨s,x,hx,hle⟩ := h.floors slot f hf
  obtain ⟨t,y,hy,hle'⟩ := h'.floors s x hx
  exact ⟨t,y,hy,UInt64.le_trans hle hle'⟩

theorem Holds.unique (h : n.Holds product slot f) (h' : n.Holds product slot g) : f = g :=
  SlotState.valid.inj (h.symm.trans h')

end Nvram

omit [Sha256] in
theorem SlotState.floor_eq_some {state : SlotState} : state.floor = some f ↔ state = .valid f := by
  cases state <;> simp [SlotState.floor]

namespace Nvram

theorem holds_iff :
    n.Holds product slot f ↔ (slotState (n.slot slot) slot product).floor = some f :=
  SlotState.floor_eq_some.symm

/-- How a provisioned machine with a valid slot is classified: at the highest valid floor,
with the slot that does not hold it. -/
theorem classify_spec (hvalid : ∃ slot f, n.Holds product slot f) :
    ∃ floor lagging, n.floor product = some floor ∧
      classify .present (slotState (n.slot .a) .a product) (slotState (n.slot .b) .b product) =
        .provisioned floor lagging ∧
      (∀ slot f, n.Holds product slot f → f ≤ floor) ∧
      (lagging = none → ∀ slot, n.Holds product slot floor) ∧
      ∀ slot, lagging = some slot → n.Holds product slot.other floor := by
  simp only [holds_iff] at hvalid ⊢
  have hslots : ∀ Q : Slot → Prop, (∀ slot, Q slot) ↔ Q .a ∧ Q .b := fun Q =>
    ⟨fun h => ⟨h .a,h .b⟩,fun h slot => by cases slot; exacts [h.1,h.2]⟩
  have hmax (x y : UInt64) : max x y = if x ≤ y then y else x := rfl
  cases ha : (slotState (n.slot .a) .a product).floor with
  | some x =>
    cases hb : (slotState (n.slot .b) .b product).floor with
    | some y =>
      by_cases hxy : x = y
      · subst hxy
        refine ⟨x,none,?_⟩
        simp only [floor,classify,ha,hb,hslots,hmax]
        simp
      refine ⟨max x y,some (if x < y then .a else .b),?_⟩
      simp only [floor,classify,ha,hb,hslots,hmax]
      by_cases hlt : x < y
      · have hle : x ≤ y := UInt64.le_of_lt hlt
        simp [hxy,hlt,hle,Slot.other,hb]
      · have hle : y ≤ x := UInt64.not_lt.mp hlt
        have hnle : ¬ x ≤ y := fun h => hxy (UInt64.le_antisymm h hle)
        simp [hxy,hlt,hle,hnle,Slot.other,ha]
    | none =>
      refine ⟨x,some .b,?_⟩
      simp only [floor,classify,ha,hb,hslots]
      simp [Slot.other,ha]
  | none =>
    cases hb : (slotState (n.slot .b) .b product).floor with
    | some y =>
      refine ⟨y,some .a,?_⟩
      simp only [floor,classify,ha,hb,hslots]
      simp [Slot.other,hb]
    | none =>
      obtain ⟨slot,f,hf⟩ := hvalid
      cases slot
      · rw [ha] at hf
        cases hf
      · rw [hb] at hf
        cases hf

end Nvram

/-- The slot may be written at `g`: the other one holds the highest floor, at most `g`. -/
def Spare (product : Bytes 32) (n : Nvram) (slot : Slot) (g : UInt64) : Prop :=
  ∃ f, n.Holds product slot.other f ∧ f ≤ g ∧ ∀ f', n.Holds product slot f' → f' ≤ f

theorem slotState_landed (slot : Slot) (g : UInt64) :
    slotState (.present attributes 64 (encode g slot product)) slot product = .valid g := by
  have hlen : ((64 : Fin 65) : ℕ) = 64 := rfl
  rw [slotState,if_neg (by simp),hlen,decode_encode]

theorem Spare.grows (h : Spare product n slot g) {left : Left}
    (htorn : ∀ content, left = .torn content → (slotState content slot product).floor = none) :
    n.Grows product (n.put slot (left.content (n.slot slot) (encode g slot product))) := by
  obtain ⟨f,hother,hle,hbelow⟩ := h
  refine ⟨rfl,fun s x hx => ?_⟩
  have hkeep : (n.put slot (left.content (n.slot slot) (encode g slot product))).Holds product
      slot.other f := by
    rw [Nvram.Holds,Nvram.put_slot_other]
    exact hother
  refine ⟨slot.other,f,hkeep,?_⟩
  rcases s.eq_or_eq_other slot with rfl | rfl
  · exact hbelow x hx
  · exact UInt64.le_of_eq (hx.unique hother)

theorem wp_read {which : Variable} {Q : Read → Unit → Nvram → Prop}
    {E : Fault → Unit → Nvram → Prop}
    (hQ : Q (n.read which) () n) :
    wp (firmware product P) (Nvram.Grows product) (Firmware.read which) Q E () n :=
  fun _ _ ⟨_,_,_,heq⟩ => by
    cases heq
    exact ⟨Nvram.Grows.refl n,hQ⟩

theorem writeSlot_spec (h : Spare product n slot g) :
    wp (firmware product P) (Nvram.Grows product) (writeSlot product g slot)
      (fun _ _ n' => n'.Holds product slot g ∧ n'.slot slot.other = n.slot slot.other)
      (fun _ _ _ => ∃ c, P c ∧ c ≠ Landing.kept) () n := by
  rintro _ _ ⟨⟨answer,left⟩,hP,htorn,heq⟩
  cases heq
  refine ⟨h.grows htorn,?_⟩
  cases answer with
  | error fault => exact ⟨_,hP,fun hk => by cases hk⟩
  | ok u =>
    refine wp_bind.mpr (wp_read ?_)
    rw [wp_ite,Nvram.read_toVariable]
    split
    · next hne =>
      refine ⟨_,hP,fun hk => hne ?_⟩
      obtain ⟨-,rfl⟩ := Landing.mk.inj hk
      rw [Nvram.put_slot_self]
      exact slotState_landed slot g
    · next heq =>
      exact ⟨not_not.mp heq,Nvram.put_slot_other n slot _⟩

/-- Both slots written, the spare one first. Once it holds the new floor the other one
is spare in its turn. -/
theorem writeBoth_spec (h : Spare product n slot g)
    (hle : ∀ f, n.Holds product slot.other f → f ≤ g) :
    wp (firmware product P) (Nvram.Grows product) (writeSlots product g [slot,slot.other])
      (fun _ _ n' => ∀ s, n'.Holds product s g)
      (fun _ _ _ => ∃ c, P c ∧ c ≠ Landing.kept) () n := by
  refine wp_bind.mpr ((writeSlot_spec h).mono ?_ fun _ _ _ he => he)
  rintro - - n₁ ⟨hslot,hother⟩
  have hspare : Spare product n₁ slot.other g := by
    refine ⟨g,by rwa [Slot.other_other],UInt64.le_refl g,fun f hf => hle f ?_⟩
    rwa [Nvram.Holds,hother] at hf
  refine wp_bind.mpr ((writeSlot_spec hspare).mono ?_ fun _ _ _ he => he)
  rintro - - n₂ ⟨hslot',hother'⟩ s
  rw [Slot.other_other] at hother'
  rcases s.eq_or_eq_other slot with rfl | rfl
  · rwa [Nvram.Holds,hother']
  · exact hslot'

/-- A boot on a provisioned machine with a valid slot. An accepted boot leaves both slots
at its generation; a boot that ends otherwise is below the floor or had a write fail. -/
theorem enforce_spec (g : UInt64) (hmarker : markerState n.marker = .present)
    (hvalid : ∃ slot f, n.Holds product slot f) :
    wp (firmware product P) (Nvram.Grows product) (enforce product g)
      (fun o _ n' => ∃ previous writes, o = .accepted previous g writes ∧
        ∀ slot, n'.Holds product slot g)
      (fun _ _ _ => (∃ c, P c ∧ c ≠ Landing.kept) ∨ ∃ f, n.floor product = some f ∧ g < f)
      () n := by
  obtain ⟨floor,lagging,hfloor,hclass,hbelow,hnone,hsome⟩ := Nvram.classify_spec hvalid
  refine wp_bind.mpr (wp_read (wp_bind.mpr (wp_read (wp_bind.mpr (wp_read ?_)))))
  have hread : classify (markerState (n.read .marker)) (slotState (n.read .slotA) .a product)
      (slotState (n.read .slotB) .b product) = .provisioned floor lagging := by
    rw [← hclass,← hmarker]
    rfl
  dsimp only
  rw [hread,Provisioning.decide]
  by_cases hlt : g < floor
  · rw [if_pos hlt]
    exact Or.inr ⟨floor,hfloor,hlt⟩
  have hle : floor ≤ g := UInt64.not_lt.mp hlt
  rw [if_neg hlt]
  by_cases heq : g = floor
  · -- an equal generation writes only a lagging slot
    subst heq
    rw [if_pos rfl]
    cases lagging with
    | none => exact ⟨g,⟨none,none⟩,rfl,hnone rfl⟩
    | some slot =>
      have hother := hsome slot rfl
      refine wp_bind.mpr (wp_bind.mpr ?_)
      refine (writeSlot_spec ⟨g,hother,hle,hbelow slot⟩).mono ?_ fun _ _ _ he => Or.inl he
      rintro - - n' ⟨hslot,hkeep⟩
      refine ⟨g,⟨some slot,none⟩,rfl,fun s => ?_⟩
      rcases s.eq_or_eq_other slot with rfl | rfl
      · exact hslot
      · rwa [Nvram.Holds,hkeep]
  · rw [if_neg heq]
    have hother : n.Holds product (lagging.getD .a).other floor := by
      cases lagging with
      | none => exact hnone rfl _
      | some slot => exact hsome slot rfl
    refine wp_bind.mpr ((writeBoth_spec ⟨floor,hother,hle,hbelow _⟩ fun f hf => ?_).mono ?_
      fun _ _ _ he => Or.inl he)
    · exact UInt64.le_trans (hbelow _ f hf) hle
    · exact fun _ _ n' hall => ⟨floor,_,rfl,hall⟩

/-- The variables and the boot under way: its generation and what is left of it. -/
structure Machine where
  nvram : Nvram
  boot : Option (UInt64 × Interact Request Request.Answer (Except Fault Outcome × Unit))

inductive Event where
  | powerOn (generation : UInt64)
  | firmware (c : Landing)
  | powerOff

namespace Machine

/-- Power comes on for a release of some generation, the boot under way puts its next
request, or power is lost. -/
def step (product : Bytes 32) (m : Machine) : Event → Option Machine
  | .powerOn generation => match m.boot with
    | none => some { m with boot := some (generation, exec (enforce product generation) ()) }
    | some _ => none
  | .firmware c => match m.boot with
    | some (generation, .ask r next) =>
      some ⟨(answer c m.nvram r).2,some (generation, next (answer c m.nvram r).1)⟩
    | _ => none
  | .powerOff => some { m with boot := none }

def ok (product : Bytes 32) (m : Machine) : Event → Prop
  | .firmware c => ∀ generation r next, m.boot = some (generation, .ask r next) →
      c.Fails product r
  | _ => True

def accepted (m : Machine) : Option UInt64 :=
  match m.boot with
  | some (generation, .done (.ok (.accepted _ _ _), ())) => some generation
  | _ => none

/-- The marker is there, a slot is valid, and what is left of the boot under way keeps
the floor and, if it is accepted, leaves both slots at its generation. -/
structure Inv (product : Bytes 32) (m : Machine) : Prop where
  marker : markerState m.nvram.marker = .present
  valid : ∃ slot f, m.nvram.Holds product slot f
  boot : ∀ g p, m.boot = some (g, p) →
    Interact.wp (Rollback.firmware product fun _ => True) (Nvram.Grows product) p
      (Ends (fun _ _ n' => ∀ slot, n'.Holds product slot g) fun _ _ _ => True) m.nvram

variable {m m' : Machine} {e : Event}

variable (h : Inv product m)
include h

theorem inv_step (hok : ok product m e) (hs : m.step product e = some m') :
    Inv product m' ∧ m.nvram.Grows product m'.nvram := by
  cases e with
  | powerOff =>
    cases hs
    exact ⟨⟨h.marker,h.valid,fun g p hp => by cases hp⟩,Nvram.Grows.refl _⟩
  | powerOn generation =>
    rw [step] at hs
    split at hs
    · cases hs
      refine ⟨⟨h.marker,h.valid,fun g p hp => ?_⟩,Nvram.Grows.refl _⟩
      cases hp
      refine (enforce_spec generation h.marker h.valid).mono ?_ fun _ _ _ _ => trivial
      exact fun _ _ _ ⟨_,_,_,hall⟩ => hall
    · cases hs
  | firmware c =>
    rw [step] at hs
    split at hs
    · next generation r next hboot =>
      cases hs
      obtain ⟨hgrows,hnext⟩ := h.boot _ _ hboot _ _ ⟨c,trivial,hok generation r next hboot,rfl⟩
      obtain ⟨slot,f,hf⟩ := h.valid
      obtain ⟨slot',f',hf',-⟩ := hgrows.floors slot f hf
      refine ⟨⟨hgrows.marker ▸ h.marker,⟨slot',f',hf'⟩,fun g p hp => ?_⟩,hgrows⟩
      cases hp
      exact hnext
    · cases hs

theorem inv_run (hrun : Reaches (step product) (ok product) m m') :
    Inv product m' ∧ m.nvram.Grows product m'.nvram :=
  hrun.invariant (P := fun m' => Inv product m' ∧ m.nvram.Grows product m'.nvram)
    ⟨h,Nvram.Grows.refl _⟩ fun _ _ _ ih hok hs =>
      ⟨(inv_step ih.1 hok hs).1,ih.2.trans (inv_step ih.1 hok hs).2⟩

theorem Inv.holds (hacc : m.accepted = some g) (slot : Slot) : m.nvram.Holds product slot g := by
  rw [accepted] at hacc
  split at hacc
  · next generation previous floor writes hboot =>
    cases hacc
    exact h.boot _ _ hboot slot
  · cases hacc

end Machine

theorem Nvram.floor_spec (hvalid : ∃ slot f, n.Holds product slot f) :
    ∃ f, n.floor product = some f ∧ (∃ slot, n.Holds product slot f) ∧
      ∀ slot f', n.Holds product slot f' → f' ≤ f := by
  obtain ⟨floor,lagging,hfloor,-,hbelow,hnone,hsome⟩ := Nvram.classify_spec hvalid
  refine ⟨floor,hfloor,?_,hbelow⟩
  cases lagging with
  | none => exact ⟨.a,hnone rfl .a⟩
  | some slot => exact ⟨slot.other,hsome slot rfl⟩

theorem accepted_of_kept (hmarker : markerState n.marker = .present)
    (hvalid : ∃ slot f, n.Holds product slot f) (hge : ∀ f, n.floor product = some f → f ≤ g) :
    ∃ previous writes, (Interact.run (answer Landing.kept) (exec (enforce product g) ()) n).1 =
      (.ok (.accepted previous g writes), ()) := by
  have hspec := enforce_spec (P := fun c => c = Landing.kept) g hmarker hvalid
  have hrun := Interact.wp.run (a := answer Landing.kept) hspec fun n r =>
    ⟨Landing.kept,rfl,Landing.kept_fails r,rfl⟩
  generalize Interact.run (answer Landing.kept) (exec (enforce product g) ()) n = r at hrun ⊢
  obtain ⟨⟨e | o,u⟩,n'⟩ := r
  · exfalso
    rcases hrun with ⟨c,rfl,hne⟩ | ⟨f,hf,hlt⟩
    · exact hne rfl
    · exact absurd (hge f hf) (UInt64.not_le.mpr hlt)
  · obtain ⟨previous,writes,rfl,-⟩ := hrun
    exact ⟨previous,writes,rfl⟩

/-- On a machine whose marker is present and one of whose slots is valid, over every run
of boots of any generations that may lose power at any request: a slot is valid and the
highest valid floor does not go down; an accepted boot leaves both slots at its
generation, and no later boot is accepted below it; and a boot from the floor on whose
writes are kept is accepted. -/
theorem floor_never_goes_down (product : Bytes 32) {m₀ m : Machine}
    (hmarker : markerState m₀.nvram.marker = .present)
    (hvalid : ∃ slot f, m₀.nvram.Holds product slot f) (hoff : m₀.boot = none)
    (hrun : Reaches (Machine.step product) (Machine.ok product) m₀ m) :
    (∃ slot f, m.nvram.Holds product slot f) ∧
    (∀ m', Reaches (Machine.step product) (Machine.ok product) m m' →
      ∃ f f', m.nvram.floor product = some f ∧ m'.nvram.floor product = some f' ∧ f ≤ f') ∧
    (∀ g, m.accepted = some g → (∀ slot, m.nvram.Holds product slot g) ∧
      ∀ m' g', Reaches (Machine.step product) (Machine.ok product) m m' →
        m'.accepted = some g' → g ≤ g') ∧
    ∀ g, (∀ f, m.nvram.floor product = some f → f ≤ g) →
      ∃ previous writes, (Interact.run (answer Landing.kept) (exec (enforce product g) ())
        m.nvram).1 = (.ok (.accepted previous g writes), ()) := by
  have hstart : Machine.Inv product m₀ :=
    ⟨hmarker,hvalid,fun g p hp => by rw [hoff] at hp; cases hp⟩
  obtain ⟨hinv,-⟩ := Machine.inv_run hstart hrun
  refine ⟨hinv.valid,fun m' hrun' => ?_,fun g hacc => ⟨hinv.holds hacc,fun m' g' hrun' hacc' => ?_⟩,
    fun g => accepted_of_kept hinv.marker hinv.valid⟩
  · obtain ⟨hinv',hgrows⟩ := Machine.inv_run hinv hrun'
    obtain ⟨f,hf,⟨slot,hslot⟩,-⟩ := Nvram.floor_spec hinv.valid
    obtain ⟨f',hf',-,habove⟩ := Nvram.floor_spec hinv'.valid
    obtain ⟨s,x,hx,hle⟩ := hgrows.floors slot f hslot
    exact ⟨f,f',hf,hf',UInt64.le_trans hle (habove s x hx)⟩
  · obtain ⟨hinv',hgrows⟩ := Machine.inv_run hinv hrun'
    obtain ⟨s,x,hx,hle⟩ := hgrows.floors .a g (hinv.holds hacc .a)
    rwa [hx.unique (hinv'.holds hacc' s)] at hle

def halfProvisioned : Machine :=
  ⟨⟨.present attributes 1 (Bytes.zeros.put 0 [markerValue]),
    fun | .a => .present attributes 64 (encode 3 .a Bytes.zeros) | .b => .absent⟩,none⟩

/-- A boot of generation five tears its first write and loses power; the next one is
accepted. -/
def tornThenAccepted : List Event :=
  let read := Event.firmware Landing.kept
  let write := Event.firmware Landing.kept
  [.powerOn 5,read,read,read,.firmware ⟨.error (.refused 7),.torn .absent⟩,.powerOff,.powerOn 5,
    read,read,read,write,read,write,read]

theorem ok_tornThenAccepted (product : Bytes 32) (s : Machine) :
    ∀ e ∈ tornThenAccepted, s.ok product e := by
  have hkept : s.ok product (.firmware Landing.kept) := fun _ r _ _ => Landing.kept_fails r
  have htorn : s.ok product (.firmware ⟨.error (.refused 7),.torn .absent⟩) := by
    rintro - (which | ⟨slot,record⟩) - -
    · trivial
    · rintro content hleft
      obtain rfl := Left.torn.inj hleft
      rfl
  intro e he
  simp only [tornThenAccepted,List.mem_cons,List.not_mem_nil,or_false] at he
  rcases he with rfl | rfl | rfl | rfl | rfl | rfl | rfl | rfl | rfl | rfl | rfl | rfl | rfl | rfl
  all_goals first | exact hkept | exact htorn | trivial

omit [Sha256] in
/-- Two boots of generation five, the first with its first write torn. The tags tell the slots
apart. -/
theorem floor_never_goes_down_torn : ∃ (_ : Sha256) (m : Machine),
    tag [] .a ≠ tag [] .b ∧ m.accepted = some 5 ∧
    ∀ slot, m.nvram.Holds Bytes.zeros slot 5 := by
  let plain : Sha256 := ⟨fun data => Bytes.zeros.put 0 (toLe 32 (data.foldl
    (fun h b => (h * 257 + b.toNat + 1) % 2 ^ 256) 0))⟩
  have hrun : (runList (Machine.step Bytes.zeros) halfProvisioned tornThenAccepted).map
      Machine.accepted = some (some 5) := by decide +kernel
  obtain ⟨m,hm,hacc⟩ := Option.map_eq_some_iff.mp hrun
  have hslot : halfProvisioned.nvram.Holds Bytes.zeros .a 3 := slotState_landed .a 3
  have hreach := reaches_of_runList hm (ok_tornThenAccepted Bytes.zeros)
  have hall := floor_never_goes_down Bytes.zeros (by decide +kernel) ⟨.a,3,hslot⟩ rfl hreach
  exact ⟨plain,m,by decide +kernel,hacc,(hall.2.2.1 5 hacc).1⟩

end LiberSystem.Rollback
