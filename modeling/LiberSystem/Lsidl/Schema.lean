import LiberSystem.Wire.Message
import Mathlib.Data.Option.NAry

/-!
# Schemas

The types and declarations of `tools/lsidl-gen/src/ast.rs` that have a codec, and what `validate.rs`
says about them.
-/

namespace LiberSystem.Lsidl

open Wire (Scalar)

inductive Ty where
  | bool
  | scalar (s : Scalar)
  | string
  | unit
  | buffer
  | option (inner : Ty)
  | list (inner : Ty)
  | stream (item : Ty)
  | tuple (elems : List Ty)
  | result (ok err : Ty)
  | handle (resource : String)
  | named (name : String)

structure Field where
  ty : Ty
  bound : Option Nat

inductive Decl where
  | aliasOf (ty : Ty)
  | record (fields : List Field)
  /-- The cases by their ordinals, as far as these are written. -/
  | enum (cases : List (Option Nat))
  /-- The cases by their payloads. -/
  | variant (cases : List (Option Ty))
  | flags (count : Nat)

section Height

variable (rank : String → Nat)

mutual

def Ty.height : Ty → Nat
  | .option t => t.height + 1
  | .tuple ts => Ty.heights ts + 1
  | .result a e => max a.height e.height + 1
  | .named n => rank n
  | _ => 0

def Ty.heights : List Ty → Nat
  | [] => 0
  | t :: ts => max t.height (Ty.heights ts)

end

def Decl.height : Decl → Nat
  | .aliasOf t => t.height rank
  | .record fs => Ty.heights rank (fs.map Field.ty) + 1
  | .variant cs => Ty.heights rank cs.reduceOption + 1
  | _ => 0

theorem Ty.height_le_heights {t : Ty} {ts : List Ty} (h : t ∈ ts) :
    t.height rank ≤ Ty.heights rank ts := by
  induction ts with
  | nil => cases h
  | cons t' ts ih =>
    rcases List.mem_cons.mp h with rfl | h
    · exact Nat.le_max_left _ _
    · exact (ih h).trans (Nat.le_max_right _ _)

end Height

def ordinalsFrom : Nat → List (Option Nat) → List Nat
  | _, [] => []
  | next, c :: cs => c.getD next :: ordinalsFrom (c.getD next + 1) cs

def effectiveOrdinals (cases : List (Option Nat)) : List Nat := ordinalsFrom 0 cases

/-- The smallest number type with a bit for each flag. -/
def flagsWidth (count : Nat) : Scalar :=
  if count ≤ 8 then .u8 else if count ≤ 16 then .u16 else if count ≤ 32 then .u32 else .u64

def Decl.Valid : Decl → Prop
  | .enum cs => (effectiveOrdinals cs).Nodup ∧ ∀ o ∈ effectiveOrdinals cs, o ≤ 255
  | .variant cs => cs.length ≤ 256
  | _ => True

/-- The declarations of a package, with those it imports, and what a codec relies on. A package that
`lsidl-gen` accepts has `CapsFit` besides. -/
structure Schema where
  decls : String → Option Decl
  valid : ∀ {n d}, decls n = some d → d.Valid
  rank : String → Nat
  /-- `check_value_cycles`. -/
  rank_lt : ∀ {n d}, decls n = some d → d.height rank < rank n

section Cardinality

variable (cards : String → Option Nat)

mutual

/-- `type_cardinality`: how many capabilities a value carries at most, if its type bounds them. -/
def Ty.cardinality : Ty → Option Nat
  | .handle _ | .buffer | .stream _ => some 1
  | .option t => t.cardinality
  | .list t => if t.cardinality = some 0 then some 0 else none
  | .tuple ts => Ty.cardinalities (· + ·) ts
  | .result a e => Option.map₂ max a.cardinality e.cardinality
  | .named n => cards n
  | _ => some 0

def Ty.cardinalities (join : Nat → Nat → Nat) : List Ty → Option Nat
  | [] => some 0
  | t :: ts => Option.map₂ join t.cardinality (Ty.cardinalities join ts)

end

def Decl.cardinality : Decl → Option Nat
  | .aliasOf t => t.cardinality cards
  | .record fs => Ty.cardinalities cards (· + ·) (fs.map Field.ty)
  | .variant cs => Ty.cardinalities cards max cs.reduceOption
  | _ => some 0

end Cardinality

/-- `check_wire_shapes`: a message has room for the capabilities of every declared type. -/
def Schema.CapsFit (σ : Schema) : Prop :=
  ∃ cards, ∀ name d, σ.decls name = some d →
    cards name = d.cardinality cards ∧ ∃ n ≤ Wire.MAX_HANDLES, cards name = some n

/-- What a codec is generated for. -/
inductive Form where
  | bool
  | scalar (s : Scalar)
  | string
  | unit
  | buffer
  | option (inner : Ty)
  | list (inner : Ty)
  | tuple (elems : List Ty)
  | result (ok err : Ty)
  | handle
  | record (fields : List Field)
  | enum (cases : List (Option Nat))
  | variant (cases : List (Option Ty))
  | flags (count : Nat)
  /-- There is no codec in a value position. -/
  | unsupported

namespace Form

def held : Form → List Ty
  | .option t => [t]
  | .tuple ts => ts
  | .result a e => [a,e]
  | .record fs => fs.map Field.ty
  | .variant cs => cs.reduceOption
  | _ => []

def Valid : Form → Prop
  | .enum cs => (effectiveOrdinals cs).Nodup ∧ ∀ o ∈ effectiveOrdinals cs, o ≤ 255
  | .variant cs => cs.length ≤ 256
  | _ => True

end Form

def Ty.form : Ty → Form
  | .bool => .bool
  | .scalar s => .scalar s
  | .string => .string
  | .unit => .unit
  | .buffer => .buffer
  | .option t => .option t
  | .list t => .list t
  | .tuple ts => .tuple ts
  | .result a e => .result a e
  | .handle _ => .handle
  | .stream _ | .named _ => .unsupported

def Decl.form : Decl → Form
  | .aliasOf _ => .unsupported
  | .record fs => .record fs
  | .enum cs => .enum cs
  | .variant cs => .variant cs
  | .flags count => .flags count

namespace Schema

variable (σ : Schema)

def resolveFrom : Nat → Ty → Form
  | n, .named name =>
    match σ.decls name, n with
    | some (.aliasOf t), n + 1 => resolveFrom n t
    | some d, _ => d.form
    | none, _ => .unsupported
  | _, t => t.form

def resolve (t : Ty) : Form := σ.resolveFrom (t.height σ.rank) t

variable {σ} {t t' : Ty} {name : String} {n m : Nat}

theorem resolve_induct {P : Ty → Form → Prop} (hty : ∀ t, P t t.form)
    (hdecl : ∀ name d, σ.decls name = some d → P (.named name) d.form)
    (halias : ∀ name t f, σ.decls name = some (.aliasOf t) → P t f → P (.named name) f)
    (t : Ty) : P t (σ.resolve t) := by
  rw [resolve]
  fun_induction σ.resolveFrom (t.height σ.rank) t with
  | case1 name t n hd ih => exact halias name t _ hd ih
  | case2 n name d hd => exact hdecl name d hd
  | case3 n name hd => exact hty (.named name)
  | case4 n t => exact hty t

theorem valid_resolve (t : Ty) : (σ.resolve t).Valid := by
  refine resolve_induct (P := fun _ f => f.Valid) (fun t => ?_) (fun name d hd => ?_)
    (fun _ _ _ _ hf => hf) t
  · cases t <;> trivial
  · cases d <;> first | trivial | exact σ.valid hd

theorem height_lt_of_mem_held (h : t' ∈ (σ.resolve t).held) :
    t'.height σ.rank < t.height σ.rank := by
  revert h
  refine resolve_induct (P := fun t f => t' ∈ f.held → t'.height σ.rank < t.height σ.rank)
    (fun t h => ?_) (fun name d hd h => ?_) (fun name t f hd hf h => ?_) t
  · cases t with
    | option inner =>
      cases List.mem_singleton.mp h
      exact Nat.lt_succ_self _
    | tuple elems => exact Nat.lt_succ_of_le (Ty.height_le_heights σ.rank h)
    | result a e =>
      rcases List.mem_cons.mp h with rfl | h
      · exact Nat.lt_succ_of_le (Nat.le_max_left _ _)
      · cases List.mem_singleton.mp h
        exact Nat.lt_succ_of_le (Nat.le_max_right _ _)
    | _ => cases h
  · refine Nat.lt_trans ?_ (σ.rank_lt hd)
    cases d with
    | record fs | variant cs => exact Nat.lt_succ_of_le (Ty.height_le_heights σ.rank h)
    | _ => cases h
  · exact (hf h).trans (σ.rank_lt hd)

end Schema

end LiberSystem.Lsidl
