import LiberSystem.LiberFs.Volume

/-!
# The checksum of a block

CRC-32C eight bytes at a time, over tables. A step of the register is linear over exclusive or, and
a step of a register with a clear low bit only shifts: from this follows what a table entry is, and
what a round over eight bytes does.
-/

namespace LiberSystem.Crc32c

open List Function BitVec

abbrev Word := BitVec 32

def poly : Word := 0x82F63B78#32

def crcStep (crc : Word) : Word := (crc >>> 1) ^^^ (poly &&& -(crc &&& 1#32))

def crcTableZero (i : Word) : Word := crcStep^[8] i

/-- The entry at `i` of the table `t`. -/
def crcTable : ℕ → Word → Word
  | 0, i => crcTableZero i
  | t + 1, i => (crcTable t i >>> 8) ^^^ crcTableZero (crcTable t i &&& 0xFF#32)

def byteWord (b : UInt8) : Word := b.toBitVec.setWidth 32

def bitWord (bit : Bool) : Word := (BitVec.ofBool bit).setWidth 32

def leWord (a b c d : UInt8) : Word := d.toBitVec ++ c.toBitVec ++ b.toBitVec ++ a.toBitVec

/-- A round: eight bytes as two words, the register in the low one. -/
def crcRound (lo hi : Word) : Word :=
  crcTable 7 (lo &&& 0xFF#32) ^^^ crcTable 6 (lo >>> 8 &&& 0xFF#32) ^^^
    crcTable 5 (lo >>> 16 &&& 0xFF#32) ^^^ crcTable 4 (lo >>> 24) ^^^
    crcTable 3 (hi &&& 0xFF#32) ^^^ crcTable 2 (hi >>> 8 &&& 0xFF#32) ^^^
    crcTable 1 (hi >>> 16 &&& 0xFF#32) ^^^ crcTable 0 (hi >>> 24)

def crcRemainder (crc : Word) (data : List UInt8) : Word :=
  data.foldl (fun crc b => (crc >>> 8) ^^^ crcTable 0 ((crc ^^^ byteWord b) &&& 0xFF#32)) crc

def crcChunks (crc : Word) : List UInt8 → Word
  | c₀ :: c₁ :: c₂ :: c₃ :: c₄ :: c₅ :: c₆ :: c₇ :: rest =>
    crcChunks (crcRound (leWord c₀ c₁ c₂ c₃ ^^^ crc) (leWord c₄ c₅ c₆ c₇)) rest
  | rest => crcRemainder crc rest

variable (data : List UInt8)

def crc32c : Word := ~~~crcChunks 0xFFFFFFFF#32 data

/-- The checksum that a volume is kept with. -/
@[reducible] def castagnoli : Checksum := ⟨fun data => ⟨crc32c data⟩⟩

/-! ### One bit at a time -/

def crcBit (crc : Word) (bit : Bool) : Word :=
  if crc.getLsbD 0 = bit then crc >>> 1 else (crc >>> 1) ^^^ poly

/-- The bits of a byte, lowest first. -/
def bitsOfByte (b : UInt8) : List Bool := (List.range 8).map b.toBitVec.getLsbD

def crcBitwise : Word :=
  ~~~(data.flatMap bitsOfByte).foldl crcBit 0xFFFFFFFF#32

variable {α : Type} {f : α → Word} {ds : List α} {a b x w : Word} {k : ℕ}

theorem crcStep_xor : crcStep (a ^^^ b) = crcStep a ^^^ crcStep b := by
  have hmask : poly &&& -((a ^^^ b) &&& 1#32) =
      (poly &&& -(a &&& 1#32)) ^^^ (poly &&& -(b &&& 1#32)) := by
    simp only [and_one_eq_setWidth_ofBool_getLsbD,getLsbD_xor]
    cases a.getLsbD 0 <;> cases b.getLsbD 0 <;> rfl
  rw [crcStep,hmask,ushiftRight_xor_distrib,crcStep,crcStep]
  ac_rfl

theorem iterate_xor (n : ℕ) : crcStep^[n] (a ^^^ b) = crcStep^[n] a ^^^ crcStep^[n] b := by
  induction n generalizing a b with
  | zero => rfl
  | succ n ih => rw [iterate_succ_apply,crcStep_xor,ih,iterate_succ_apply,iterate_succ_apply]

theorem crcStep_shiftLeft (h : w.toNat * 2 < 2 ^ 32) : crcStep (w <<< 1) = w := by
  have hlow : (w <<< 1).getLsbD 0 = false := by simp
  have hshift : w <<< 1 >>> 1 = w := by
    apply eq_of_toNat_eq
    rw [toNat_ushiftRight,toNat_shiftLeft,Nat.shiftLeft_eq,Nat.shiftRight_eq_div_pow]
    omega
  rw [crcStep,and_one_eq_setWidth_ofBool_getLsbD,hlow,hshift]
  exact xor_zero

/-- Steps over clear bits shift them out. -/
theorem iterate_shiftLeft (h : w.toNat * 2 ^ k < 2 ^ 32) : crcStep^[k] (w <<< k) = w := by
  induction k with
  | zero => exact shiftLeft_zero w
  | succ k ih =>
    rw [pow_succ,← Nat.mul_assoc] at h
    have hk : w.toNat * 2 ^ k < 2 ^ 32 := by omega
    have hstep : crcStep (w <<< k <<< 1) = w <<< k := by
      refine crcStep_shiftLeft ?_
      rwa [toNat_shiftLeft,Nat.shiftLeft_eq,Nat.mod_eq_of_lt hk]
    rw [iterate_succ_apply,shiftLeft_add,hstep,ih hk]

/-- The word with these digits of `k` bits, lowest first. -/
def ofDigits (k : ℕ) (f : α → Word) : List α → Word
  | [] => 0
  | d :: ds => f d ^^^ (ofDigits k f ds <<< k)

theorem ofDigits_lt (h : ∀ d, (f d).toNat < 2 ^ k) :
    (ofDigits k f ds).toNat < 2 ^ (ds.length * k) := by
  induction ds with
  | nil => exact Nat.two_pow_pos _
  | cons d ds ih =>
    rw [ofDigits,toNat_xor,toNat_shiftLeft,length_cons,Nat.shiftLeft_eq, Nat.add_one_mul]
    refine Nat.xor_lt_two_pow ?_ ((Nat.mod_le _ _).trans_lt ?_)
    · exact (h d).trans_le (Nat.pow_le_pow_right (by decide) (by omega))
    · rw [pow_add]
      exact Nat.mul_lt_mul_of_pos_right ih (Nat.two_pow_pos _)

/-- Digits taken in one after the other are taken in as one word. -/
theorem foldl_digits (hk : ds.length * k ≤ 32) (h : ∀ d, (f d).toNat < 2 ^ k) :
    ds.foldl (fun crc d => crcStep^[k] (crc ^^^ f d)) x =
      crcStep^[ds.length * k] (x ^^^ ofDigits k f ds) := by
  induction ds generalizing x with
  | nil => simp [ofDigits]
  | cons d ds ih =>
    rw [length_cons,Nat.add_one_mul] at hk
    have hsmall : (ofDigits k f ds).toNat * 2 ^ k < 2 ^ 32 := by
      refine lt_of_lt_of_le (Nat.mul_lt_mul_of_pos_right (ofDigits_lt h) (Nat.two_pow_pos _)) ?_
      rw [← pow_add]
      exact Nat.pow_le_pow_right (by decide) hk
    rw [foldl_cons,ih (by omega),length_cons,Nat.add_one_mul,iterate_add_apply,ofDigits,
      ← xor_assoc,iterate_xor k (a := x ^^^ f d),iterate_shiftLeft hsmall]

/-! ### Tables -/

theorem crcTableZero_eq (x : Word) :
    (x >>> 8) ^^^ crcTableZero (x &&& 0xFF#32) = crcStep^[8] x := by
  have hlow : ∀ i (_ : i < 32), (0xFF#32)[i] = decide (i < 8) := by decide
  have hsplit : x = (x &&& 0xFF#32) ^^^ (x >>> 8 <<< 8) := by
    ext i hi
    simp [hlow]
    grind
  have hsmall : (x >>> 8).toNat * 2 ^ 8 < 2 ^ 32 := by
    rw [BitVec.toNat_ushiftRight,Nat.shiftRight_eq_div_pow]
    omega
  nth_rewrite 3 [hsplit]
  rw [iterate_xor,iterate_shiftLeft hsmall,crcTableZero,BitVec.xor_comm]

theorem crcTable_eq (t : ℕ) : crcTable t x = crcStep^[t * 8] (crcTableZero x) := by
  induction t with
  | zero => rfl
  | succ t ih =>
    rw [crcTable,crcTableZero_eq,ih,← iterate_add_apply,Nat.add_comm,Nat.add_one_mul]

/-- What steps over a byte more do. -/
theorem iterate_byte (t : ℕ) : crcStep^[t * 8 + 8] x =
    crcTable t (x &&& 0xFF#32) ^^^ crcStep^[t * 8] (x >>> 8) := by
  rw [iterate_add_apply,← crcTableZero_eq,iterate_xor,crcTable_eq,BitVec.xor_comm]

theorem iterate_word : crcStep^[32] x = crcTable 3 (x &&& 0xFF#32) ^^^
    crcTable 2 (x >>> 8 &&& 0xFF#32) ^^^ crcTable 1 (x >>> 16 &&& 0xFF#32) ^^^
    crcTable 0 (x >>> 24) := by
  rw [iterate_byte 3,iterate_byte 2,iterate_byte 1,← shiftRight_add,
    ← shiftRight_add,xor_assoc,xor_assoc]
  rfl

theorem crcRound_eq (lo hi : Word) : crcRound lo hi = crcStep^[32] (crcStep^[32] lo ^^^ hi) := by
  rw [iterate_xor,iterate_word (x := hi),iterate_word (x := lo),iterate_xor,iterate_xor,iterate_xor]
  simp only [crcRound,crcTable_eq,← iterate_add_apply,xor_assoc]

/-! ### Bits and bytes taken in -/

theorem crcBit_eq (bit : Bool) : crcBit x bit = crcStep (x ^^^ bitWord bit) := by
  have hshift : bitWord bit >>> 1 = 0 := by cases bit <;> rfl
  have hlow : (bitWord bit).getLsbD 0 = bit := by cases bit <;> rfl
  rw [crcBit,crcStep,and_one_eq_setWidth_ofBool_getLsbD,ushiftRight_xor_distrib,
    hshift,getLsbD_xor,hlow]
  cases x.getLsbD 0 <;> cases bit <;> simp <;> rfl

def crcByte (crc : Word) (c : UInt8) : Word := crcStep^[8] (crc ^^^ byteWord c)

theorem foldl_bits (c : UInt8) : (bitsOfByte c).foldl crcBit x = crcByte x c := by
  have hdigits : ∀ v : BitVec 8, ofDigits 1 bitWord ((List.range 8).map v.getLsbD) =
      v.setWidth 32 := by decide +kernel
  rw [show crcBit = fun crc bit => crcStep^[1] (crc ^^^ bitWord bit) from
    funext₂ fun _ _ => crcBit_eq _,foldl_digits (by simp [bitsOfByte]) (by decide),bitsOfByte,
    hdigits]
  rfl

theorem foldl_bytes (c₀ c₁ c₂ c₃ : UInt8) :
    [c₀,c₁,c₂,c₃].foldl crcByte x = crcStep^[32] (leWord c₀ c₁ c₂ c₃ ^^^ x) := by
  have hdigits : leWord c₀ c₁ c₂ c₃ = ofDigits 8 byteWord [c₀,c₁,c₂,c₃] := by
    ext i hi
    simp [leWord,ofDigits,byteWord]
    grind
  rw [BitVec.xor_comm,hdigits]
  refine foldl_digits le_rfl fun c => ?_
  rw [byteWord,BitVec.toNat_setWidth]
  omega

theorem crcRemainder_eq (crc : Word) (c : UInt8) :
    (crc >>> 8) ^^^ crcTable 0 ((crc ^^^ byteWord c) &&& 0xFF#32) = crcByte crc c := by
  have hshift : byteWord c >>> 8 = 0#32 := by
    ext i hi
    simp [byteWord]
  have := crcTableZero_eq (crc ^^^ byteWord c)
  rwa [ushiftRight_xor_distrib,hshift,xor_zero] at this

theorem crcChunks_eq : crcChunks x data = data.foldl crcByte x := by
  fun_induction crcChunks x data with
  | case1 x c₀ c₁ c₂ c₃ c₄ c₅ c₆ c₇ rest ih =>
    rw [ih,crcRound_eq,BitVec.xor_comm,← foldl_bytes,← foldl_bytes]
    rfl
  | case2 x rest => simp only [crcRemainder,crcRemainder_eq]

/-- The checksum is that of one bit at a time. -/
theorem crc32c_bitwise : crc32c data = crcBitwise data := by
  rw [crc32c,crcChunks_eq,crcBitwise,foldl_flatMap]
  simp only [foldl_bits]

end LiberSystem.Crc32c
