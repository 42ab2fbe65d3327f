import LiberSystem.Lsidl.Schema

/-!
# Generated codecs

What the code does that `tools/lsidl-gen/src/codegen.rs` emits. A reader goes as deep as the type
is, and into the elements of a list with one list less to go; each list takes bytes for its length.
-/

namespace LiberSystem.Lsidl

open Wire

inductive Val where
  | bool (b : Bool)
  | scalar (s : Scalar) (bits : BitVec (8 * s.size))
  | string (s : String)
  | unit
  | none
  | some (v : Val)
  | list (vs : List Val)
  | tuple (vs : List Val)
  | ok (v : Val)
  | err (v : Val)
  | handle (h : UInt64)
  | buffer (handle len : UInt64)
  | record (fields : List Val)
  /-- A case of an enum, or of a variant without a payload. -/
  | case (i : Nat)
  | carrying (i : Nat) (v : Val)
  | flags (s : Scalar) (bits : BitVec (8 * s.size))

section Write

variable {W : Type} [Sink W] (σ : Schema)

mutual

def write : Val → Ty → W → Option W
  | .bool b, t, w =>
    match σ.resolve t with
    | .bool => Sink.boolean w b
    | _ => none
  | .scalar s bits, t, w =>
    match σ.resolve t with
    | .scalar s' => if s = s' then Sink.scalar w s bits.toNat else none
    | _ => none
  | .string s, t, w =>
    match σ.resolve t with
    | .string => Sink.bytesLp w (utf8 s)
    | _ => none
  | .unit, t, w =>
    match σ.resolve t with
    | .unit => some w
    | _ => none
  | .none, t, w =>
    match σ.resolve t with
    | .option _ => Sink.u8 w 0
    | _ => none
  | .some v, t, w =>
    match σ.resolve t with
    | .option inner => do
      let w ← Sink.u8 w 1
      write v inner w
    | _ => none
  | .list vs, t, w =>
    match σ.resolve t with
    | .list inner =>
      if vs.length > U16_MAX then none
      else do
        let w ← Sink.u16 w vs.length
        writeEach vs (List.replicate vs.length inner) w
    | _ => none
  | .tuple vs, t, w =>
    match σ.resolve t with
    | .tuple elems => writeEach vs elems w
    | _ => none
  | .ok v, t, w =>
    match σ.resolve t with
    | .result ok _ => do
      let w ← Sink.u8 w 1
      write v ok w
    | _ => none
  | .err v, t, w =>
    match σ.resolve t with
    | .result _ err => do
      let w ← Sink.u8 w 0
      write v err w
    | _ => none
  | .handle h, t, w =>
    match σ.resolve t with
    | .handle => do
      let w ← Sink.setHandle w h
      Sink.u32 w 0
    | _ => none
  | .buffer handle len, t, w =>
    match σ.resolve t with
    | .buffer => do
      let w ← Sink.setHandle w handle
      Sink.u64 w len.toNat
    | _ => none
  | .record vs, t, w =>
    match σ.resolve t with
    | .record fs => writeEach vs (fs.map Field.ty) w
    | _ => none
  | .case i, t, w =>
    match σ.resolve t with
    | .enum cs => do
      let ord ← (effectiveOrdinals cs)[i]?
      Sink.u8 w (UInt8.ofNat ord)
    | .variant cs =>
      match cs[i]? with
      | some none => Sink.u8 w (UInt8.ofNat i)
      | _ => none
    | _ => none
  | .carrying i v, t, w =>
    match σ.resolve t with
    | .variant cs =>
      match cs[i]? with
      | some (some payload) => do
        let w ← Sink.u8 w (UInt8.ofNat i)
        write v payload w
      | _ => none
    | _ => none
  | .flags s bits, t, w =>
    match σ.resolve t with
    | .flags count => if s = flagsWidth count then Sink.scalar w s bits.toNat else none
    | _ => none

def writeEach : List Val → List Ty → W → Option W
  | [], [], w => some w
  | v :: vs, t :: ts, w => do
    let w ← write v t w
    writeEach vs ts w
  | _, _, _ => none

end

end Write

def encodeMessage (σ : Schema) (t : Ty) (v : Val) : Option (List UInt8 × Handles) :=
  (write σ v t VecWriter.new).map VecWriter.intoMessage

def withinBound (bound : Option Nat) (n : Nat) : Bool := bound.all (n ≤ ·)

section Read

variable (direct : Ty → Option Nat → Parser Reader Val) (element : Ty → Parser Reader Val)

/-- `read_value_bounded`, and `read_value` where there is no bound. -/
def readForm (bound : Option Nat) : Form → Parser Reader Val
  | .bool => do
    let b ← Reader.boolean
    return .bool b
  | .scalar s => do
    let n ← Reader.scalar s
    return .scalar s (BitVec.ofNat _ n)
  | .string => do
    let s ← Reader.stringLp
    if withinBound bound (utf8 s).length then return .string s else throw .refused
  | .unit => return .unit
  | .option inner => do
    let tag ← Reader.tag
    if tag then
      let v ← direct inner bound
      return .some v
    else return .none
  | .list inner => do
    let n ← Reader.u16
    if withinBound bound n then
      let vs ← Parser.each element (List.replicate n inner)
      return .list vs
    else throw .refused
  | .tuple elems => do
    let vs ← Parser.each (fun t => direct t none) elems
    return .tuple vs
  | .result ok err => do
    let tag ← Reader.tag
    if tag then
      let v ← direct ok bound
      return .ok v
    else
      let v ← direct err none
      return .err v
  | .handle => do
    let _ ← Reader.u32
    let h ← Reader.takeHandle
    return .handle h
  | .buffer => do
    let len ← Reader.u64
    let handle ← Reader.takeHandle
    return .buffer handle (UInt64.ofNat len)
  | .record fs => do
    let vs ← Parser.each (fun f => direct f.ty f.bound) fs
    return .record vs
  | .enum cs => do
    let b ← Reader.u8
    match (effectiveOrdinals cs).idxOf? b.toNat with
    | some i => return .case i
    | none => throw .refused
  | .variant cs => do
    let b ← Reader.u8
    match cs[b.toNat]? with
    | some none => return .case b.toNat
    | some (some payload) =>
      let v ← direct payload none
      return .carrying b.toNat v
    | none => throw .refused
  | .flags count => do
    let n ← Reader.scalar (flagsWidth count)
    return .flags (flagsWidth count) (BitVec.ofNat _ n)
  | .unsupported => throw .refused

end Read

def readDirect (σ : Schema) (element : Ty → Parser Reader Val) :
    Nat → Ty → Option Nat → Parser Reader Val
  | 0, _, _ => throw .spent
  | n + 1, t, bound => readForm (readDirect σ element n) element bound (σ.resolve t)

/-- A value with less than so many lists in each other. -/
def read (σ : Schema) : Nat → Ty → Option Nat → Parser Reader Val
  | 0, _, _ => throw .spent
  | n + 1, t, bound =>
    readDirect σ (fun t => read σ n t none) (t.height σ.rank + 1) t bound

def decodeMessage (σ : Schema) (t : Ty) (bytes : List UInt8) (handles : Handles) :
    Except Stop (Option Val × Handles) :=
  match read σ (bytes.length + 1) t none (.withHandles bytes handles) with
  | .ok (v, r) => if r.finish then .ok (some v, handles.clear) else .ok (none, handles)
  | .error .refused => .ok (none, handles)
  | .error e => .error e

end LiberSystem.Lsidl
