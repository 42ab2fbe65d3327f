import LiberSystem.Lib.Bytes
import LiberSystem.Lib.Parsing

/-!
# Messages as bytes and handles

The primitives of `wire/src/lib.rs` that generated codecs are written in. An array with a count of
its used entries is the list of these. There is memory for what is written and read.
-/

namespace LiberSystem.Wire

def MAX_HANDLES : Nat := 4
def U16_MAX : Nat := 65535

/-- The numbers of the format. A number is its bit pattern. -/
inductive Scalar where
  | u8 | u16 | u32 | u64 | i8 | i16 | i32 | i64 | f32 | f64
  deriving DecidableEq

def Scalar.size : Scalar → Nat
  | .u8 | .i8 => 1
  | .u16 | .i16 => 2
  | .u32 | .i32 | .f32 => 4
  | .u64 | .i64 | .f64 => 8

/-- What one message carries beside its bytes. -/
structure Handles where
  list : List UInt64
  le : list.length ≤ MAX_HANDLES

namespace Handles

def new : Handles := ⟨[],Nat.zero_le _⟩

def clear (_ : Handles) : Handles := new

end Handles

def utf8 (s : String) : List UInt8 := s.toByteArray.data.toList

class Sink (W : Type) where
  put : W → UInt8 → Option W
  setHandle : W → UInt64 → Option W
  raw : W → List UInt8 → Option W

namespace Sink

variable {W : Type} [Sink W] (w : W)

def boolean (v : Bool) : Option W := put w v.toUInt8

def u8 (v : UInt8) : Option W := put w v

def word (size n : Nat) : Option W := raw w (toLe size n)

def u16 (n : Nat) : Option W := word w 2 n

def u32 (n : Nat) : Option W := word w 4 n

def u64 (n : Nat) : Option W := word w 8 n

def scalar (s : Scalar) (n : Nat) : Option W :=
  match s with
  | .u8 => u8 w (UInt8.ofNat n)
  | s => word w s.size n

def bytesLp (s : List UInt8) : Option W :=
  if s.length > U16_MAX then none
  else do
    let w ← u16 w s.length
    raw w s

end Sink

structure VecWriter where
  buf : List UInt8
  handles : Handles

namespace VecWriter

def new : VecWriter := ⟨[],.new⟩

def setHandle (w : VecWriter) (h : UInt64) : Option VecWriter :=
  if hlt : w.handles.list.length < MAX_HANDLES then
    some { w with handles := ⟨w.handles.list ++ [h],by rw [List.length_append]; exact hlt⟩ }
  else none

instance : Sink VecWriter where
  put w b := some { w with buf := w.buf ++ [b] }
  setHandle := setHandle
  raw w s := some { w with buf := w.buf ++ s }

def intoMessage (w : VecWriter) : List UInt8 × Handles := (w.buf, w.handles)

end VecWriter

structure Reader where
  buf : List UInt8
  pos : Nat
  handles : List UInt64
  count : Nat
  taken : Nat

namespace Reader

def withHandles (buf : List UInt8) (transferred : Handles) : Reader where
  buf := buf
  pos := 0
  handles := transferred.list ++ List.replicate (MAX_HANDLES - transferred.list.length) 0
  count := transferred.list.length
  taken := 0

def takeHandle : Parser Reader UInt64 := fun r =>
  if r.taken ≥ r.count then .error .refused
  else
    match r.handles[r.taken]? with
    | none => .error .fault
    | some h => .ok (h, { r with taken := r.taken + 1 })

def take (n : Nat) : Parser Reader (List UInt8) := fun r =>
  if r.pos + n ≤ r.buf.length then
    .ok ((r.buf.drop r.pos).take n, { r with pos := r.pos + n })
  else .error .refused

def u8 : Parser Reader UInt8 := do
  let s ← take 1
  match s[0]? with
  | none => throw .fault
  | some b => return b

def word (size : Nat) : Parser Reader Nat := do
  let s ← take size
  if s.length = size then return ofLe s else throw .refused

def u16 : Parser Reader Nat := word 2

def u32 : Parser Reader Nat := word 4

def u64 : Parser Reader Nat := word 8

def scalar (s : Scalar) : Parser Reader Nat :=
  match s with
  | .u8 => do
    let b ← u8
    return b.toNat
  | s => word s.size

def tag : Parser Reader Bool := do
  let b ← u8
  match b with
  | 0 => return false
  | 1 => return true
  | _ => throw .refused

def boolean : Parser Reader Bool := tag

def bytesLp : Parser Reader (List UInt8) := do
  let n ← u16
  take n

def stringLp : Parser Reader String := do
  let bytes ← bytesLp
  match String.fromUTF8? ⟨bytes.toArray⟩ with
  | some s => return s
  | none => throw .refused

def finish (r : Reader) : Bool := !(r.pos ≠ r.buf.length || r.taken ≠ r.count)

end Reader

end LiberSystem.Wire
