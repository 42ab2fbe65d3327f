import LiberSystem.Lsidl.Codec
import LiberSystem.Wire.Primitives

/-!
# What a value looks like in a message

There are two grammars, one for what is written and one for what is read. A reader does not look at
the bytes that stand for a handle, and it holds a field to its `@bound`.
-/

namespace LiberSystem.Lsidl

open List Spelling

open Wire VecWriter

structure Grammar where
  /-- What may stand for a handle. -/
  placeholder : List UInt8 → Prop
  /-- Whether bounds are held to. -/
  bounded : Bool

namespace Grammar

def written : Grammar := ⟨fun bs => bs = toLe 4 0,false⟩

def read : Grammar := ⟨fun bs => bs.length = 4,true⟩

def Fits (g : Grammar) (bound : Option Nat) (n : Nat) : Prop :=
  g.bounded = true → withinBound bound n = true

theorem fits_read {bound : Option Nat} {n : Nat} : read.Fits bound n ↔ withinBound bound n = true :=
  ⟨fun h => h rfl,fun h _ => h⟩

end Grammar

section Spells

variable (g : Grammar) (σ : Schema)

mutual

def Spells : Val → Ty → Option Nat → List UInt8 → List UInt64 → Prop
  | .bool b, t, _, bs, hs => σ.resolve t = .bool ∧ bs = [b.toUInt8] ∧ hs = []
  | .scalar s bits, t, _, bs, hs =>
    σ.resolve t = .scalar s ∧ bs = toLe s.size bits.toNat ∧ hs = []
  | .string s, t, bound, bs, hs =>
    σ.resolve t = .string ∧ g.Fits bound (utf8 s).length ∧
      (utf8 s).length ≤ U16_MAX ∧ bs = toLe 2 (utf8 s).length ++ utf8 s ∧ hs = []
  | .unit, t, _, bs, hs => σ.resolve t = .unit ∧ bs = [] ∧ hs = []
  | .none, t, _, bs, hs => ∃ inner, σ.resolve t = .option inner ∧ bs = [0] ∧ hs = []
  | .some v, t, bound, bs, hs =>
    ∃ inner bs', σ.resolve t = .option inner ∧ bs = 1 :: bs' ∧ Spells v inner bound bs' hs
  | .list vs, t, bound, bs, hs =>
    ∃ inner bs', σ.resolve t = .list inner ∧ g.Fits bound vs.length ∧ vs.length ≤ U16_MAX ∧
      bs = toLe 2 vs.length ++ bs' ∧
      SpellsEach vs (List.replicate vs.length ⟨inner,none⟩) bs' hs
  | .tuple vs, t, _, bs, hs =>
    ∃ elems, σ.resolve t = .tuple elems ∧
      SpellsEach vs (elems.map fun t => ⟨t,none⟩) bs hs
  | .ok v, t, bound, bs, hs =>
    ∃ ok err bs', σ.resolve t = .result ok err ∧ bs = 1 :: bs' ∧ Spells v ok bound bs' hs
  | .err v, t, _, bs, hs =>
    ∃ ok err bs', σ.resolve t = .result ok err ∧ bs = 0 :: bs' ∧ Spells v err none bs' hs
  | .handle h, t, _, bs, hs => σ.resolve t = .handle ∧ g.placeholder bs ∧ hs = [h]
  | .buffer handle len, t, _, bs, hs =>
    σ.resolve t = .buffer ∧ bs = toLe 8 len.toNat ∧ hs = [handle]
  | .record vs, t, _, bs, hs => ∃ fs, σ.resolve t = .record fs ∧ SpellsEach vs fs bs hs
  | .case i, t, _, bs, hs =>
    (∃ cs ord, σ.resolve t = .enum cs ∧ (effectiveOrdinals cs)[i]? = some ord ∧
      bs = [UInt8.ofNat ord] ∧ hs = []) ∨
    ∃ cs, σ.resolve t = .variant cs ∧ cs[i]? = some none ∧ bs = [UInt8.ofNat i] ∧ hs = []
  | .carrying i v, t, _, bs, hs =>
    ∃ cs payload bs', σ.resolve t = .variant cs ∧ cs[i]? = some (some payload) ∧
      bs = UInt8.ofNat i :: bs' ∧ Spells v payload none bs' hs
  | .flags s bits, t, _, bs, hs =>
    ∃ count, σ.resolve t = .flags count ∧ s = flagsWidth count ∧
      bs = toLe s.size bits.toNat ∧ hs = []

def SpellsEach : List Val → List Field → List UInt8 → List UInt64 → Prop
  | [], [], bs, hs => bs = [] ∧ hs = []
  | v :: vs, f :: fs, bs, hs =>
    ∃ bs₁ hs₁ bs₂ hs₂, Spells v f.ty f.bound bs₁ hs₁ ∧ SpellsEach vs fs bs₂ hs₂ ∧
      bs = bs₁ ++ bs₂ ∧ hs = hs₁ ++ hs₂
  | _, _, _, _ => False

end

end Spells

def Val.parts : Val → List Val
  | .some v | .ok v | .err v | .carrying _ v => [v]
  | .list vs | .tuple vs | .record vs => vs
  | _ => []

theorem Val.sizeOf_lt_of_mem_parts {v v' : Val} (h : v' ∈ v.parts) : sizeOf v' < sizeOf v := by
  cases v with
  | list vs | tuple vs | record vs =>
    exact (sizeOf_lt_of_mem (show v' ∈ vs from h)).trans_le (by simp)
  | some v | ok v | err v =>
    cases mem_singleton.mp h
    simp
  | carrying i v =>
    cases mem_singleton.mp h
    simp only [Val.carrying.sizeOf_spec]
    omega
  | _ => cases h

theorem Val.induct {P : Val → Prop} (h : ∀ v, (∀ v' ∈ v.parts, P v') → P v) (v : Val) : P v :=
  h v fun v' _ => Val.induct h v'
termination_by sizeOf v
decreasing_by exact Val.sizeOf_lt_of_mem_parts ‹_›

variable {g : Grammar} {σ : Schema} {bound : Option Nat}

theorem spellsEach_iff {vs : List Val} {fs : List Field} {bs : List UInt8} {hs : List UInt64} :
    SpellsEach g σ vs fs bs hs ↔
      each (fun f v bs hs => Spells g σ v f.ty f.bound bs hs) fs vs bs hs := by
  induction vs generalizing fs bs hs with
  | nil =>
    cases fs with
    | nil => simp [SpellsEach,Spelling.each,Spelling.pure]
    | cons f fs => simp [SpellsEach,each]
  | cons v vs ih =>
    cases fs with
    | nil => simp [SpellsEach,Spelling.each,Spelling.pure]
    | cons f fs => simp [SpellsEach,each,ih]

theorem writeEach_writes (vs : List Val) (ih : ∀ v ∈ vs, ∀ t bound,
      Writes (write σ v t) (Spells .written σ v t bound)) (fs : List Field) :
    Writes (writeEach σ vs (fs.map Field.ty)) (SpellsEach .written σ vs fs) := by
  induction vs generalizing fs with
  | nil =>
    cases fs with
    | nil => exact Writes.id.congr (fun w => rfl) fun bs hs => by rw [SpellsEach]
    | cons f fs => exact .nothing (fun w => rfl) fun bs hs => by simp [SpellsEach]
  | cons v vs ihvs =>
    cases fs with
    | nil => exact .nothing (fun w => rfl) fun bs hs => by simp [SpellsEach]
    | cons f fs =>
      have hv := ih v mem_cons_self f.ty f.bound
      have hvs := ihvs (fun v' hv' => ih v' (mem_cons_of_mem v hv')) fs
      exact (hv.bind hvs).congr (fun w => rfl) fun bs hs => by rw [SpellsEach]

theorem write_writes (v : Val) (t : Ty) (bound : Option Nat) :
    Writes (write σ v t) (Spells .written σ v t bound) := by
  induction v using Val.induct generalizing t bound with
  | h v ih =>
  cases v <;> cases hf : σ.resolve t
  case bool.bool b =>
    exact (Writes.add [b.toUInt8] []).congr (by simp [write,hf]) (by simp [Spells,hf])
  case scalar.scalar s bits s' =>
    by_cases hs : s = s'
    · exact (Writes.add (toLe s.size bits.toNat) []).congr (by simp [write,hf,hs])
        (by simp [Spells,hf,hs])
    · exact .nothing (by simp [write,hf,hs]) (by simp [Spells,hf,Ne.symm hs])
  case string.string s =>
    exact (bytesLp_writes (utf8 s)).congr (by simp [write,hf])
      (by simp [Spells,hf,Grammar.Fits,Grammar.written])
  case unit.unit => exact Writes.id.congr (by simp [write,hf]) (by simp [Spells,hf])
  case none.option inner =>
    exact (Writes.add [0] []).congr (by simp [write,hf]) (by simp [Spells,hf])
  case some.option v inner =>
    have hv := ih v (mem_singleton.mpr rfl) inner bound
    exact ((Writes.add [1] []).bind hv).congr (by simp [write,hf]) (by simp [Spells,hf,and_comm])
  case list.list vs inner =>
    by_cases hle : vs.length ≤ U16_MAX
    · have hvs := writeEach_writes vs ih (List.replicate vs.length ⟨inner,none⟩)
      exact ((Writes.add (toLe 2 vs.length) []).bind hvs).congr
        (by simp [write,hf,not_lt.mpr hle,Sink.u16])
        (by simp [Spells,hf,hle,Grammar.Fits,Grammar.written,and_comm])
    · exact .nothing (by simp [write,hf,not_le.mp hle]) (by simp [Spells,hf,hle])
  case tuple.tuple vs elems =>
    have hvs := writeEach_writes vs ih (elems.map fun t => ⟨t,none⟩)
    exact hvs.congr (by simp [write,hf,Function.comp_def]) (by simp [Spells,hf])
  case ok.result v ok err =>
    have hv := ih v (mem_singleton.mpr rfl) ok bound
    exact ((Writes.add [1] []).bind hv).congr (by simp [write,hf]) (by simp [Spells,hf,and_comm])
  case err.result v ok err =>
    have hv := ih v (mem_singleton.mpr rfl) err none
    exact ((Writes.add [0] []).bind hv).congr (by simp [write,hf]) (by simp [Spells,hf,and_comm])
  case handle.handle h =>
    exact ((Writes.add [] [h]).bind (.add (toLe 4 0) [])).congr (by simp [write,hf,Sink.u32])
      (by simp [Spells,hf,Grammar.written])
  case buffer.buffer handle len =>
    exact ((Writes.add [] [handle]).bind (.add (toLe 8 len.toNat) [])).congr
      (by simp [write,hf,Sink.u64]) (by simp [Spells,hf])
  case record.record vs fs =>
    exact (writeEach_writes vs ih fs).congr (by simp [write,hf]) (by simp [Spells,hf])
  case case.enum i cs =>
    cases hord : (effectiveOrdinals cs)[i]? with
    | none => exact .nothing (by simp [write,hf,hord]) (by simp [Spells,hf,hord])
    | some ord =>
      exact (Writes.add [UInt8.ofNat ord] []).congr (by simp [write,hf,hord])
        (by simp [Spells,hf,hord])
  case case.variant i cs =>
    rcases hcase : cs[i]? with _ | _ | payload
    · exact .nothing (by simp [write,hf,hcase]) (by simp [Spells,hf,hcase])
    · exact (Writes.add [UInt8.ofNat i] []).congr (by simp [write,hf,hcase])
        (by simp [Spells,hf,hcase])
    · exact .nothing (by simp [write,hf,hcase]) (by simp [Spells,hf,hcase])
  case carrying.variant i v cs =>
    rcases hcase : cs[i]? with _ | _ | payload
    · exact .nothing (by simp [write,hf,hcase]) (by simp [Spells,hf,hcase])
    · exact .nothing (by simp [write,hf,hcase]) (by simp [Spells,hf,hcase])
    have hv := ih v (mem_singleton.mpr rfl) payload none
    exact ((Writes.add [UInt8.ofNat i] []).bind hv).congr (by simp [write,hf,hcase])
      (by simp [Spells,hf,hcase,and_comm])
  case flags.flags s bits count =>
    by_cases hs : s = flagsWidth count
    · exact (Writes.add (toLe s.size bits.toNat) []).congr (by simp [write,hf,hs])
        (by simp [Spells,hf,hs])
    · exact .nothing (by simp [write,hf,hs]) (by simp [Spells,hf,hs])
  -- A value that is not of the type is not written, and not spelled.
  all_goals exact .nothing (by simp [write,hf]) (by simp [Spells,hf])

end LiberSystem.Lsidl
