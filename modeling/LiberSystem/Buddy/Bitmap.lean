import LiberSystem.Buddy.Allocator
import LiberSystem.Lib.Dyadic
import LiberSystem.Lib.Words

/-!
# What the bitmaps hold

The packed bits are read as a finite set of blocks, `blocks`. `Rep` says that the orders do not
overlap in the vector, that the counts count and that the hints skip only empty words.
-/

namespace LiberSystem.Buddy

open List Function

variable {b : Buddy} {order index k i w : Nat}

variable {v : BitVec 64} {j m u start : Nat} {b' : Buddy}

theorem and_bitMask_ne_zero : v &&& bitMask i ≠ 0 ↔ v.getLsbD (i % 64) := and_mask_ne_zero

theorem getLsbD_or_bitMask : (v ||| bitMask i).getLsbD j = (v.getLsbD j || decide (j = i % 64)) :=
  getLsbD_or_mask

theorem getLsbD_and_not_bitMask (hj : j < 64) :
    (v &&& ~~~(bitMask i)).getLsbD j = (v.getLsbD j && !decide (j = i % 64)) :=
  getLsbD_and_not_mask hj

/-- The orders lie one after the other in the vector and fill it. -/
structure Layout (b : Buddy) : Prop where
  words_eq : ∀ k ≤ maxOrder, b.words k = wordsFor b.pages k
  offsets_succ : ∀ k < maxOrder, b.offsets (k + 1) = b.offsets k + b.words k
  length : b.bits.length = b.offsets maxOrder + b.words maxOrder

namespace Layout

variable (h : Layout b)
include h

theorem offsets_le (hm : m ≤ maxOrder) (hkm : k < m) : b.offsets k + b.words k ≤ b.offsets m := by
  induction m, Nat.succ_le_of_lt hkm using Nat.le_induction with
  | base => exact (h.offsets_succ k hm).ge
  | succ m hm' ih =>
    rw [h.offsets_succ m hm]
    omega

variable (hk : k ≤ maxOrder)
include hk

theorem word_lt (hw : w < b.words k) : b.offsets k + w < b.bits.length := by
  rw [h.length]
  rcases Nat.lt_or_eq_of_le hk with hlt | rfl
  · have := h.offsets_le le_rfl hlt
    omega
  · omega

theorem place_inj (hm : m ≤ maxOrder)
    (hw : w < b.words k) (hu : u < b.words m) (heq : b.offsets k + w = b.offsets m + u) :
    k = m ∧ w = u := by
  rcases Nat.lt_trichotomy k m with hlt | rfl | hlt
  · have := h.offsets_le hm hlt
    omega
  · exact ⟨rfl,by omega⟩
  · have := h.offsets_le hk hlt
    omega

theorem lt_words (hi : i < b.blocksAt k) : i < 64 * b.words k := by
  rw [h.words_eq k hk,wordsFor]
  unfold blocksAt at hi
  omega

end Layout

def bit (b : Buddy) (order index : Nat) : Bool :=
  (b.word order (index / 64)).getLsbD (index % 64)

def bitsOf (b : Buddy) (order : Nat) : Finset Nat :=
  (Finset.range (64 * b.words order)).filter fun i => b.bit order i

def blocks (b : Buddy) : Finset (Nat × Nat) :=
  (Finset.range (maxOrder + 1)).biUnion fun k => (b.bitsOf k).image fun i => (k, i)

theorem mem_bitsOf : i ∈ b.bitsOf k ↔ i < 64 * b.words k ∧ b.bit k i := by
  rw [bitsOf,Finset.mem_filter,Finset.mem_range]

theorem mem_blocks : (k, i) ∈ b.blocks ↔ k ≤ maxOrder ∧ i ∈ b.bitsOf k := by
  rw [← Nat.lt_succ_iff]
  simp [blocks]

theorem get_eq_true (hl : Layout b) (hk : k ≤ maxOrder) :
    b.get k i ↔ i < b.blocksAt k ∧ (k, i) ∈ b.blocks := by
  unfold get
  split
  · next h => exact iff_of_false (by simp) fun ⟨hlt,_⟩ => absurd hlt (not_lt.mpr h)
  next h =>
  have hlt := lt_of_not_ge h
  rw [bne_iff_ne,and_bitMask_ne_zero,mem_blocks,mem_bitsOf]
  exact ⟨fun hb => ⟨hlt,hk,hl.lt_words hk hlt,hb⟩,fun hb => hb.2.2.2⟩

/-- The counts count and the hints skip only empty words. -/
structure Rep (b : Buddy) : Prop extends Layout b where
  counts_eq : ∀ k ≤ maxOrder, b.counts k = (b.bitsOf k).card
  hint_empty : ∀ k ≤ maxOrder, ∀ w < b.words k, w < b.hint k → b.word k w = 0

theorem word_setWord (hl : Layout b) (hk : k ≤ maxOrder)
    (hm : m ≤ maxOrder) (hw : w < b.words k) (hu : u < b.words m) :
    (b.setWord k w v).word m u = if m = k ∧ u = w then v else b.word m u := by
  unfold word setWord
  simp only [getD_eq_getElem?_getD,getElem?_set]
  by_cases heq : b.offsets k + w = b.offsets m + u
  · obtain ⟨rfl,rfl⟩ := hl.place_inj hk hm hw hu heq
    rw [if_pos rfl,if_pos (hl.word_lt hk hw),if_pos ⟨rfl,rfl⟩]
    rfl
  · rw [if_neg heq,if_neg]
    rintro ⟨rfl,rfl⟩
    exact heq rfl

theorem Layout.of_frame (hl : Layout b) (hpages : b'.pages = b.pages)
    (hlen : b'.bits.length = b.bits.length) (hoff : b'.offsets = b.offsets)
    (hwords : b'.words = b.words) : Layout b' where
  words_eq := by rw [hwords,hpages]; exact hl.words_eq
  offsets_succ := by rw [hoff,hwords]; exact hl.offsets_succ
  length := by rw [hlen,hoff,hwords]; exact hl.length

theorem setWord_self (b : Buddy) (k w : Nat) : (b.setWord k w (b.word k w)).bits = b.bits := by
  refine ext_getElem? fun j => ?_
  rw [setWord,getElem?_set]
  split
  · next h =>
    subst h
    rw [word,getD_eq_getElem?_getD]
    split
    · next hlt => rw [getElem?_eq_getElem hlt]; rfl
    · next hge => rw [getElem?_eq_none (not_lt.mp hge)]
  · rfl

/-- Whether the bit was set or not, its word is written with the bit set. -/
theorem set_eq (b : Buddy) (k i : Nat) :
    b.set k i = { b with
      bits := (b.setWord k (i / 64) (b.word k (i / 64) ||| bitMask i)).bits
      counts := update b.counts k (if b.bit k i then b.counts k else b.counts k + 1)
      hint := update b.hint k (min (i / 64) (b.hint k)) } := by
  have hbit : b.word k (i / 64) &&& bitMask i = 0 ↔ ¬ b.bit k i := by
    rw [bit,← and_bitMask_ne_zero,not_not]
  have hhint : ¬ i / 64 < b.hint k → update b.hint k (min (i / 64) (b.hint k)) = b.hint := by
    intro h
    rw [Nat.min_eq_right (Nat.le_of_not_lt h),update_eq_self]
  unfold set
  by_cases h : b.bit k i
  · have hsame : b.word k (i / 64) ||| bitMask i = b.word k (i / 64) := by
      refine BitVec.eq_of_getLsbD_eq fun j _ => ?_
      rw [getLsbD_or_bitMask]
      by_cases hj : j = i % 64
      · rw [hj,show (b.word k (i / 64)).getLsbD (i % 64) = true from h,Bool.true_or]
      · rw [decide_eq_false hj,Bool.or_false]
    rw [if_neg (mt hbit.mp (not_not.mpr h)),if_pos h,hsame,setWord_self,update_eq_self]
    split
    · next hw => rw [Nat.min_eq_left (hw.le)]
    · next hw => rw [hhint hw]
  · rw [if_pos (hbit.mpr h),if_neg h]
    split
    · next hw => rw [Nat.min_eq_left (hw.le)]; rfl
    · next hw => rw [hhint hw]; rfl

theorem clear_eq (b : Buddy) (k i : Nat) :
    b.clear k i = { b with
      bits := (b.setWord k (i / 64) (b.word k (i / 64) &&& ~~~(bitMask i))).bits
      counts := update b.counts k (if b.bit k i then b.counts k - 1 else b.counts k) } := by
  have hbit : b.word k (i / 64) &&& bitMask i ≠ 0 ↔ b.bit k i := and_bitMask_ne_zero
  unfold clear
  by_cases h : b.bit k i
  · rw [if_pos (hbit.mpr h),if_pos h]
    rfl
  have hsame : b.word k (i / 64) &&& ~~~(bitMask i) = b.word k (i / 64) := by
    refine BitVec.eq_of_getLsbD_eq fun j hj => ?_
    rw [getLsbD_and_not_bitMask hj]
    by_cases hj : j = i % 64
    · rw [hj,show (b.word k (i / 64)).getLsbD (i % 64) = false from Bool.eq_false_iff.mpr h,
        Bool.false_and]
    · rw [decide_eq_false hj,Bool.not_false,Bool.and_true]
  rw [if_neg (mt hbit.mp h),if_neg h,hsame,setWord_self,update_eq_self]

@[simp] theorem set_pages : (b.set k i).pages = b.pages := by rw [set_eq]

@[simp] theorem set_freePages : (b.set k i).freePages = b.freePages := by rw [set_eq]

@[simp] theorem clear_pages : (b.clear k i).pages = b.pages := by rw [clear_eq]

@[simp] theorem clear_freePages : (b.clear k i).freePages = b.freePages := by rw [clear_eq]

theorem layout_set (hl : Layout b) (k i : Nat) : Layout (b.set k i) := by
  rw [set_eq]
  exact hl.of_frame rfl (length_set ..) rfl rfl

theorem layout_clear (hl : Layout b) (k i : Nat) : Layout (b.clear k i) := by
  rw [clear_eq]
  exact hl.of_frame rfl (length_set ..) rfl rfl

section Marked

variable (hl : Layout b) (hk : k ≤ maxOrder) (hi : i < 64 * b.words k)
include hl hk hi

variable {m : Nat}

/-- A word is written so that bit `i` is `a` and the other bits are as before. -/
theorem mem_bitsOf_setWord {a : Bool}
    (hv : ∀ j < 64, v.getLsbD j = if j = i % 64 then a else (b.word k (i / 64)).getLsbD j)
    (hm : m ≤ maxOrder) :
    j ∈ (b.setWord k (i / 64) v).bitsOf m ↔ if m = k ∧ j = i then a = true else j ∈ b.bitsOf m := by
  rw [mem_bitsOf,mem_bitsOf]
  change j < 64 * b.words m ∧ _ ↔ _
  by_cases hj : j < 64 * b.words m
  · rw [bit,word_setWord hl hk hm (Nat.div_lt_of_lt_mul hi) (Nat.div_lt_of_lt_mul hj)]
    by_cases hw : m = k ∧ j / 64 = i / 64
    · obtain ⟨rfl,hw⟩ := hw
      have hji : j % 64 = i % 64 ↔ j = i := by omega
      rw [if_pos ⟨rfl,hw⟩,hv _ (Nat.mod_lt _ (by decide)),← hw]
      by_cases heq : j = i
      · rw [if_pos (hji.mpr heq),if_pos ⟨rfl,heq⟩,and_iff_right hj]
      · rw [if_neg (mt hji.mp heq),if_neg fun h => heq h.2]
        rfl
    · rw [if_neg hw,if_neg fun h => hw ⟨h.1,by rw [h.2]⟩]
      rfl
  · rw [if_neg (by rintro ⟨rfl,rfl⟩; exact hj hi)]
    simp [hj]

theorem bitsOf_set (hm : m ≤ maxOrder) :
    (b.set k i).bitsOf m = if m = k then insert i (b.bitsOf m) else b.bitsOf m := by
  ext j
  have hmem := mem_bitsOf_setWord hl hk hi (a := true) (j := j)
    (v := b.word k (i / 64) ||| bitMask i) (fun j _ => by
      rw [getLsbD_or_bitMask]
      by_cases h : j = i % 64 <;> simp [h]) hm
  rw [set_eq]
  refine hmem.trans ?_
  by_cases h : m = k <;> by_cases hj : j = i <;> simp [h,hj]

theorem bitsOf_clear (hm : m ≤ maxOrder) :
    (b.clear k i).bitsOf m = if m = k then (b.bitsOf m).erase i else b.bitsOf m := by
  ext j
  have hmem := mem_bitsOf_setWord hl hk hi (a := false) (j := j)
    (v := b.word k (i / 64) &&& ~~~(bitMask i)) (fun j hj => by
      rw [getLsbD_and_not_bitMask hj]
      by_cases h : j = i % 64 <;> simp [h]) hm
  rw [clear_eq]
  refine hmem.trans ?_
  by_cases h : m = k <;> by_cases hj : j = i <;> simp [h,hj]

theorem blocks_set : (b.set k i).blocks = insert (k, i) b.blocks := by
  ext ⟨m,j⟩
  rw [Finset.mem_insert,mem_blocks,mem_blocks]
  by_cases hm : m ≤ maxOrder
  · rw [bitsOf_set hl hk hi hm]
    split
    · next h => subst h; simp [hm]
    · next h => simp [h]
  · have : m ≠ k := by omega
    simp [hm,this]

theorem blocks_clear : (b.clear k i).blocks = b.blocks.erase (k, i) := by
  ext ⟨m,j⟩
  rw [Finset.mem_erase,mem_blocks,mem_blocks]
  by_cases hm : m ≤ maxOrder
  · rw [bitsOf_clear hl hk hi hm]
    split
    · next h => subst h; simp [hm]
    · next h => simp [h]
  · simp [hm]

end Marked

section

variable (h : Rep b) (hk : k ≤ maxOrder)
include h hk

theorem rep_set (hi : i < 64 * b.words k) : Rep (b.set k i) where
  toLayout := layout_set h.toLayout k i
  counts_eq := by
    intro m hm
    rw [bitsOf_set h.toLayout hk hi hm,set_eq]
    dsimp only
    by_cases hmk : m = k
    · subst hmk
      have hmem : i ∈ b.bitsOf m ↔ b.bit m i := mem_bitsOf.trans (and_iff_right hi)
      simp only [if_pos,update_self,Finset.card_insert_eq_ite,hmem,h.counts_eq m hm]
    · rw [if_neg hmk,update_of_ne hmk,h.counts_eq m hm]
  hint_empty := by
    intro m hm u hu hlt
    rw [set_eq] at hu hlt ⊢
    dsimp only at hu hlt
    have hlow : u < b.hint m ∧ ¬ (m = k ∧ u = i / 64) := by
      by_cases hmk : m = k
      · subst hmk
        rw [update_self] at hlt
        omega
      · rw [update_of_ne hmk] at hlt
        exact ⟨hlt,fun hc => hmk hc.1⟩
    refine (word_setWord h.toLayout hk hm (Nat.div_lt_of_lt_mul hi) hu).trans ?_
    rw [if_neg hlow.2]
    exact h.hint_empty m hm u hu hlow.1

theorem rep_clear (hi : i < 64 * b.words k) : Rep (b.clear k i) where
  toLayout := layout_clear h.toLayout k i
  counts_eq := by
    intro m hm
    rw [bitsOf_clear h.toLayout hk hi hm,clear_eq]
    dsimp only
    by_cases hmk : m = k
    · subst hmk
      have hmem : i ∈ b.bitsOf m ↔ b.bit m i := mem_bitsOf.trans (and_iff_right hi)
      simp only [if_pos,update_self,Finset.card_erase_eq_ite,hmem,h.counts_eq m hm]
    · rw [if_neg hmk,update_of_ne hmk,h.counts_eq m hm]
  hint_empty := by
    intro m hm u hu hlt
    rw [clear_eq] at hu hlt ⊢
    have hzero := h.hint_empty m hm u hu hlt
    refine (word_setWord h.toLayout hk hm (Nat.div_lt_of_lt_mul hi) hu).trans ?_
    split
    · -- the word was empty, so there was nothing to clear
      next hmu =>
      obtain ⟨rfl,rfl⟩ := hmu
      rw [hzero]
      exact BitVec.zero_and
    · exact hzero

theorem scan_eq_some (hs : b.scan k = some w) :
    w < b.words k ∧ b.word k w ≠ 0 ∧ ∀ u < w, b.word k u = 0 := by
  obtain ⟨hw,pre,post,hsplit,hpre⟩ := find?_eq_some_iff_append.mp hs
  have hmem : w ∈ range' (min (b.hint k) (b.words k)) (b.words k - min (b.hint k) (b.words k)) := by
    rw [hsplit]
    exact mem_append_right _ mem_cons_self
  have hrange := mem_range'_1.mp hmem
  refine ⟨by omega,bne_iff_ne.mp hw,fun u hu => ?_⟩
  by_cases hhint : u < b.hint k
  · exact h.hint_empty k hk u (by omega) hhint
  -- the scan has passed over `u`
  have hu' : u ∈ pre ++ w :: post := by
    rw [← hsplit,mem_range'_1]
    omega
  have hsorted : (pre ++ w :: post).Pairwise (· < ·) := by
    rw [← hsplit]
    exact pairwise_lt_range'
  rcases mem_append.mp hu' with hu' | hu'
  · simpa using hpre u hu'
  have hle : w ≤ u := by
    rcases mem_cons.mp hu' with rfl | hu'
    · exact le_rfl
    · exact ((pairwise_cons.mp (pairwise_append.mp hsorted).2.1).1 u hu').le
  omega

theorem scan_eq_none (hs : b.scan k = none) : b.bitsOf k = ∅ := by
  refine Finset.eq_empty_of_forall_notMem fun i hi => ?_
  obtain ⟨hlt,hbit⟩ := mem_bitsOf.mp hi
  have hw : i / 64 < b.words k := Nat.div_lt_of_lt_mul hlt
  have hne : b.word k (i / 64) ≠ 0 := by
    intro h0
    rw [bit,h0] at hbit
    simp at hbit
  have hhint : ¬ i / 64 < b.hint k := fun hlt' => hne (h.hint_empty k hk _ hw hlt')
  have hzero := find?_eq_none.mp hs (i / 64) (mem_range'_1.mpr (by omega))
  exact hzero (bne_iff_ne.mpr hne)

end

theorem lowest_mem (hk : k ≤ maxOrder) (hw : w < b.words k) (hne : b.word k w ≠ 0) :
    (k, w * 64 + (b.word k w).ctz.toNat) ∈ b.blocks := by
  have hbit := BitVec.getLsbD_true_ctz_of_ne_zero hne
  have hlt : (b.word k w).ctz.toNat < 64 := BitVec.lt_of_getLsbD hbit
  refine mem_blocks.mpr ⟨hk,mem_bitsOf.mpr ⟨by omega,?_⟩⟩
  rw [bit,show (w * 64 + (b.word k w).ctz.toNat) / 64 = w by omega,
    show (w * 64 + (b.word k w).ctz.toNat) % 64 = (b.word k w).ctz.toNat by omega]
  exact hbit

/-- The state differs from `b` at most in its hints. -/
structure SameBits (b b' : Buddy) : Prop where
  base : b'.base = b.base
  pages : b'.pages = b.pages
  blocks : b'.blocks = b.blocks
  freePages : b'.freePages = b.freePages

theorem SameBits.refl : SameBits b b := ⟨rfl,rfl,rfl,rfl⟩

theorem SameBits.trans {b'' : Buddy} (h : SameBits b b') (h' : SameBits b' b'') : SameBits b b'' :=
  ⟨h'.base.trans h.base,h'.pages.trans h.pages,h'.blocks.trans h.blocks,
    h'.freePages.trans h.freePages⟩

theorem rep_hint (h : Rep b) (hempty : ∀ u < w, u < b.words k → b.word k u = 0) :
    Rep { b with hint := update b.hint k w } where
  toLayout := h.toLayout.of_frame rfl rfl rfl rfl
  counts_eq := h.counts_eq
  hint_empty := by
    intro m hm u hu hlt
    by_cases hmk : m = k
    · subst hmk
      exact hempty u (by simpa using hlt) hu
    · exact h.hint_empty m hm u hu (by simpa [update_of_ne hmk] using hlt)

theorem firstFree_spec (h : Rep b) (hk : k ≤ maxOrder) :
    Rep (b.firstFree k).2 ∧ SameBits b (b.firstFree k).2 ∧
      ∀ i, (b.firstFree k).1 = some i → (k, i) ∈ b.blocks := by
  unfold firstFree
  split
  · exact ⟨h,.refl,fun i hi => by cases hi⟩
  split
  · next w hs =>
    obtain ⟨hw,hne,hlow⟩ := scan_eq_some h hk hs
    refine ⟨rep_hint h fun u hu _ => hlow u hu,⟨rfl,rfl,rfl,rfl⟩,fun i hi => ?_⟩
    simp only [lowestIn] at hi
    split at hi
    · cases hi
      exact lowest_mem hk hw hne
    · cases hi
  · next hs =>
    have hempty := scan_eq_none h hk hs
    refine ⟨rep_hint h fun u _ hu => ?_,⟨rfl,rfl,rfl,rfl⟩,fun i hi => by cases hi⟩
    by_contra hne
    have hmem := (mem_blocks.mp (lowest_mem hk hu hne)).2
    rw [hempty] at hmem
    cases hmem

theorem getLsbD_maskedWord {stop : Nat} (hj : j < 64) (hstop : 0 < stop)
    (hlo : start / 64 ≤ w) (hhi : w ≤ (stop - 1) / 64) :
    (b.maskedWord k start stop w).getLsbD j =
      (b.bit k (w * 64 + j) && decide (start ≤ w * 64 + j ∧ w * 64 + j < stop)) := by
  have hbit : b.bit k (w * 64 + j) = (b.word k w).getLsbD j := by
    rw [bit,show (w * 64 + j) / 64 = w by omega,show (w * 64 + j) % 64 = j by omega]
  have hlow : (if w = start / 64 then b.word k w &&& (BitVec.allOnes 64 <<< (start % 64))
      else b.word k w).getLsbD j = (b.bit k (w * 64 + j) && decide (start ≤ w * 64 + j)) := by
    rw [hbit]
    split
    · rw [BitVec.getLsbD_and,BitVec.getLsbD_shiftLeft,BitVec.getLsbD_allOnes]
      congr 1
      rw [decide_eq_true hj,decide_eq_true (show j - start % 64 < 64 by omega)]
      simp only [Bool.true_and,Bool.and_true,← decide_not,decide_eq_decide]
      omega
    · rw [decide_eq_true (by omega),Bool.and_true]
  unfold maskedWord
  dsimp only
  split
  · have hhigh : (BitVec.allOnes 64 >>> (64 - stop % 64)).getLsbD j =
        decide (w * 64 + j < stop) := by
      rw [BitVec.getLsbD_ushiftRight,BitVec.getLsbD_allOnes]
      simp only [decide_eq_decide]
      omega
    rw [BitVec.getLsbD_and,hlow,hhigh,Bool.and_assoc,← Bool.decide_and]
  · rw [hlow]
    congr 1
    simp only [decide_eq_decide]
    omega

theorem anyBitInRange_eq_true {count : Nat} : b.anyBitInRange k start count ↔
      ∃ i, start ≤ i ∧ i < start + count ∧ i < b.blocksAt k ∧ b.bit k i := by
  unfold anyBitInRange
  dsimp only
  split
  · refine iff_of_false (by simp) ?_
    rintro ⟨i,h1,h2,h3,-⟩
    omega
  rw [any_eq_true]
  constructor
  · rintro ⟨w,hw,hv⟩
    have hw' := mem_range'_1.mp hw
    have hbit := BitVec.getLsbD_true_ctz_of_ne_zero (bne_iff_ne.mp hv)
    rw [getLsbD_maskedWord (BitVec.lt_of_getLsbD hbit) (by omega) (by omega) (by omega),
      Bool.and_eq_true,decide_eq_true_eq] at hbit
    exact ⟨_,hbit.2.1,by omega,by omega,hbit.1⟩
  rintro ⟨i,h1,h2,h3,hbit⟩
  have hlo : start / 64 ≤ i / 64 := Nat.div_le_div_right h1
  have hhi : i / 64 ≤ (min (start + count) (b.blocksAt k) - 1) / 64 :=
    Nat.div_le_div_right (by omega)
  refine ⟨i / 64,mem_range'_1.mpr (by omega),bne_iff_ne.mpr fun h0 => ?_⟩
  have hmask := getLsbD_maskedWord (b := b) (k := k) (j := i % 64)
    (Nat.mod_lt _ (by decide)) (by omega) hlo hhi
  rw [h0,show i / 64 * 64 + i % 64 = i by omega,hbit,decide_eq_true (by omega)] at hmask
  simp at hmask

end LiberSystem.Buddy
