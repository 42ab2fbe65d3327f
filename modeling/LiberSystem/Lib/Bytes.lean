import Mathlib.Algebra.Group.Nat.Even
import Mathlib.Data.List.GetD
import Mathlib.Order.Lattice

/-!
# Byte buffers of a fixed size

A buffer of `n` bytes is read by `slice` and written by `put`. Numbers are kept in little-endian
order by `toLe` and read by `ofLe`.
-/

namespace LiberSystem

open List

/-- Bytes are compared as numbers. -/
instance uint8LinearOrder : LinearOrder UInt8 where
  le_refl := UInt8.le_refl
  le_trans _ _ _ := UInt8.le_trans
  lt_iff_le_not_ge a b := by
    rw [UInt8.lt_iff_toNat_lt,UInt8.le_iff_toNat_le,UInt8.le_iff_toNat_le]
    omega
  le_antisymm _ _ := UInt8.le_antisymm
  le_total := UInt8.le_total
  toDecidableLE := inferInstance

def toLe : ℕ → ℕ → List UInt8
  | 0, _ => []
  | w + 1, x => UInt8.ofNat x :: toLe w (x / 256)

def ofLe : List UInt8 → ℕ
  | [] => 0
  | b :: bs => b.toNat + 256 * ofLe bs

@[simp] theorem length_toLe (w x : ℕ) : (toLe w x).length = w := by
  induction w generalizing x with
  | zero => rfl
  | succ w ih => rw [toLe,length_cons,ih]

theorem ofLe_toLe {w x : ℕ} (h : x < 256 ^ w) : ofLe (toLe w x) = x := by
  induction w generalizing x with
  | zero => simp only [pow_zero,Nat.lt_one_iff] at h; rw [h]; rfl
  | succ w ih =>
    have hdiv : x / 256 < 256 ^ w := by
      rw [pow_succ] at h
      exact Nat.div_lt_of_lt_mul (by rwa [Nat.mul_comm] at h)
    rw [toLe,ofLe,ih hdiv,UInt8.toNat_ofNat']
    omega

theorem ofLe_lt (bs : List UInt8) : ofLe bs < 256 ^ bs.length := by
  induction bs with
  | nil => exact Nat.one_pos
  | cons b bs ih =>
    have hb : b.toNat < 256 := b.toNat_lt
    rw [ofLe,length_cons,pow_succ]
    omega

theorem toLe_ofLe (bs : List UInt8) : toLe bs.length (ofLe bs) = bs := by
  induction bs with
  | nil => rfl
  | cons b bs ih =>
    have hb : b.toNat < 256 := b.toNat_lt
    have hlow : UInt8.ofNat (b.toNat + 256 * ofLe bs) = b := by
      apply UInt8.toNat_inj.mp
      rw [UInt8.toNat_ofNat']
      omega
    have hhigh : (b.toNat + 256 * ofLe bs) / 256 = ofLe bs := by omega
    rw [ofLe,length_cons,toLe,hlow,hhigh,ih]

def Bytes (n : ℕ) := Fin n → UInt8

namespace Bytes

variable {n src dst : ℕ} {b c : Bytes n} {off o len i : ℕ} {bs : List UInt8}

def zeros : Bytes n := fun _ => 0

/-- The byte at an offset. Past the end there is nothing to read: zero. -/
def get (b : Bytes n) (i : ℕ) : UInt8 := if h : i < n then b ⟨i,h⟩ else 0

def slice (b : Bytes n) (off len : ℕ) : List UInt8 :=
  (List.range len).map fun i => b.get (off + i)

def put (b : Bytes n) (off : ℕ) (bs : List UInt8) : Bytes n := fun i =>
  if off ≤ i.val ∧ i.val < off + bs.length then bs.getD (i.val - off) 0 else b i

/-- The buffer with the `len` bytes from `src` on copied to `dst`; the two ranges may
overlap. -/
def copyWithin (b : Bytes n) (src len dst : ℕ) : Bytes n := b.put dst (b.slice src len)

@[simp] theorem length_slice : (b.slice off len).length = len := by simp [slice]

theorem get_put : (b.put off bs).get i =
    if i < n ∧ off ≤ i ∧ i < off + bs.length then bs.getD (i - off) 0 else b.get i := by
  by_cases h : i < n
  · rw [get,dif_pos h,get,dif_pos h,put]
    simp only [h,true_and]
  · rw [get,dif_neg h,get,dif_neg h,if_neg fun hin => h hin.1]

theorem getElem_slice (h : i < (b.slice off len).length) :
    (b.slice off len)[i] = b.get (off + i) := by
  simp [slice]

theorem slice_congr (h : ∀ i < len, b.get (off + i) = c.get (o + i)) :
    b.slice off len = c.slice o len := by
  refine map_congr_left fun i hi => ?_
  exact h i (mem_range.mp hi)

theorem slice_add (m : ℕ) : b.slice off (len + m) = b.slice off len ++ b.slice (off + len) m := by
  simp only [slice,range_add,map_append,map_map]
  congr 1
  refine map_congr_left fun i _ => ?_
  rw [Function.comp_apply,Nat.add_assoc]

theorem take_drop_slice {m : ℕ} (h : i + m ≤ len) :
    ((b.slice off len).drop i).take m = b.slice (off + i) m := by
  apply ext_getElem
  · simp
    omega
  · intro j hj hj'
    rw [getElem_take,getElem_drop,getElem_slice,getElem_slice,Nat.add_assoc]

theorem slice_put_of_within (hlo : off ≤ o) (hhi : o + len ≤ off + bs.length)
    (hn : o + len ≤ n) : (b.put off bs).slice o len = (bs.drop (o - off)).take len := by
  apply ext_getElem
  · simp
    omega
  intro j hj hj'
  have hj : j < len := by simpa using hj
  have hin : o + j < n ∧ off ≤ o + j ∧ o + j < off + bs.length := by omega
  rw [getElem_slice,get_put,if_pos hin,getElem_take,getElem_drop,getD_eq_getElem _ _ (by omega)]
  congr 1
  omega

theorem slice_put_self (h : off + bs.length ≤ n) : (b.put off bs).slice off bs.length = bs := by
  rw [slice_put_of_within le_rfl le_rfl h,Nat.sub_self,drop_zero,take_length]

theorem slice_put_eq (hlen : bs.length = len) (h : off + len ≤ n) :
    (b.put off bs).slice off len = bs := by
  subst hlen
  exact slice_put_self h

theorem slice_put_of_disjoint (h : o + len ≤ off ∨ off + bs.length ≤ o) :
    (b.put off bs).slice o len = b.slice o len := by
  refine slice_congr fun i hi => ?_
  rw [get_put,if_neg (by omega)]

theorem slice_copyWithin_self (h : dst + len ≤ n) :
    (b.copyWithin src len dst).slice dst len = b.slice src len :=
  slice_put_eq length_slice h

theorem get_put_of_disjoint (h : i < off ∨ off + bs.length ≤ i) :
    (b.put off bs).get i = b.get i := by
  rw [get_put,if_neg (by omega)]

def num (b : Bytes n) (w off : ℕ) : ℕ := ofLe (b.slice off w)

def putNum (b : Bytes n) (w off x : ℕ) : Bytes n := b.put off (toLe w x)

theorem num_lt (w : ℕ) : b.num w off < 256 ^ w := by
  have := ofLe_lt (b.slice off w)
  rwa [length_slice] at this

theorem num_putNum_self {w x : ℕ} (hx : x < 256 ^ w) (hn : off + w ≤ n) :
    (b.putNum w off x).num w off = x := by
  rw [num,putNum,slice_put_eq (length_toLe w x) hn,ofLe_toLe hx]

theorem num_put_of_disjoint {w : ℕ} (h : o + w ≤ off ∨ off + bs.length ≤ o) :
    (b.put off bs).num w o = b.num w o := by
  rw [num,slice_put_of_disjoint h,num]

theorem num_putNum_of_disjoint {w v x : ℕ} (h : o + w ≤ off ∨ off + v ≤ o) :
    (b.putNum v off x).num w o = b.num w o :=
  num_put_of_disjoint (by rwa [length_toLe])

theorem num_copyWithin {w : ℕ} (hlo : dst ≤ o) (hhi : o + w ≤ dst + len)
    (hn : o + w ≤ n) : (b.copyWithin src len dst).num w o = b.num w (src + (o - dst)) := by
  have hw : o + w ≤ dst + (b.slice src len).length := by rwa [length_slice]
  rw [num,copyWithin,slice_put_of_within hlo hw hn,take_drop_slice (by omega),num]

theorem num_copyWithin_of_disjoint {w : ℕ} (h : o + w ≤ dst ∨ dst + len ≤ o) :
    (b.copyWithin src len dst).num w o = b.num w o :=
  num_put_of_disjoint (by rwa [length_slice])

end Bytes

section InARow

variable {B α β : Type*} {set : B → ℕ → α → B} {setAll : B → ℕ → List α → B} {b : B} {i j n : ℕ}
  {xs : List α}

/-- `setAll` sets the elements of a list one after another. -/
structure SetsInARow (set : B → ℕ → α → B) (setAll : B → ℕ → List α → B) : Prop where
  nil : ∀ b i, setAll b i [] = b
  cons : ∀ b i x xs, setAll b i (x :: xs) = setAll (set b i x) (i + 1) xs

variable (h : SetsInARow set setAll)
include h

theorem SetsInARow.keeps {r : B → β}
    (hkeep : ∀ b k x, i ≤ k → r (set b k x) = r b) : r (setAll b i xs) = r b := by
  induction xs generalizing b i with
  | nil => rw [h.nil]
  | cons x xs ih =>
    rw [h.cons,ih fun b k x hk => hkeep b k x (Nat.le_of_succ_le hk),hkeep b i x le_rfl]

theorem SetsInARow.get {r : B → ℕ → α} {p : α → Prop}
    (hself : ∀ b k x, k < n → p x → r (set b k x) k = x)
    (hne : ∀ b k x j, k ≠ j → r (set b k x) j = r b j) (hfits : i + xs.length ≤ n)
    (hp : ∀ x ∈ xs, p x) (hj : j < xs.length) : r (setAll b i xs) (i + j) = xs[j] := by
  induction xs generalizing b i j with
  | nil => exact absurd hj (Nat.not_lt_zero j)
  | cons x xs ih =>
    rw [length_cons] at hfits hj
    rw [h.cons]
    cases j with
    | zero =>
      have hlast : r (setAll (set b i x) (i + 1) xs) i = r (set b i x) i :=
        h.keeps (r := (r · i)) fun b k y hk => hne b k y i (Nat.ne_of_gt hk)
      exact hlast.trans (hself b i x (by omega) (hp x mem_cons_self))
    | succ j =>
      rw [← Nat.add_assoc,Nat.add_right_comm]
      exact ih (by omega) (fun y hy => hp y (mem_cons_of_mem _ hy)) (by omega)

end InARow

end LiberSystem
