import LiberSystem.Buddy.Bitmap
import LiberSystem.Lib.Runs

/-!
# The allocator's invariant

The free blocks form a coalesced set of dyadic blocks whose weight is the count of free pages.
-/

namespace LiberSystem.Buddy

open Function Option Finset

open DyadicBlock

variable {b : Buddy} {order index k i n : Nat}

structure Inv (b : Buddy) : Prop where
  rep : Rep b
  coalesced : Coalesced maxOrder b.pages b.blocks
  freePages_eq : b.freePages = weight b.blocks

/-- A block in hand, beside a state whose bits are in order. -/
structure Hand (b : Buddy) (x : Nat × Nat) : Prop where
  rep : Rep b
  fits : Fits maxOrder b.pages b.blocks x

theorem lt_blocksAt (h : (i + 1) * 2 ^ k ≤ b.pages) : i < b.blocksAt k := by
  have hle : i + 1 ≤ b.pages >>> k := by
    rw [Nat.shiftRight_eq_div_pow]
    exact (Nat.le_div_iff_mul_le (Nat.two_pow_pos k)).mpr h
  exact Nat.lt_of_lt_of_le hle (Nat.le_max_left _ _)

theorem Hand.lt_words (h : Hand b (k, i)) : i < 64 * b.words k :=
  h.rep.toLayout.lt_words h.fits.order (lt_blocksAt h.fits.inside)

theorem get_iff_mem (hr : Rep b) (hc : Coalesced maxOrder b.pages b.blocks) (hk : k ≤ maxOrder) :
    b.get k i = true ↔ (k, i) ∈ b.blocks := by
  rw [get_eq_true hr.toLayout hk]
  exact ⟨fun h => h.2,fun h => ⟨lt_blocksAt (hc.inside _ h),h⟩⟩

theorem splitDown_spec (h : Hand b (order + n, i)) :
    let r := b.splitDown order n i
    Hand r.2 (order, r.1) ∧ weight r.2.blocks + 2 ^ order = weight b.blocks + 2 ^ (order + n) ∧
      r.2.pages = b.pages ∧ r.2.freePages = b.freePages ∧ r.1 = i * 2 ^ n := by
  induction n generalizing b i with
  | zero => exact ⟨h,rfl,rfl,rfl,(Nat.mul_one i).symm⟩
  | succ n ih =>
    have hsplit := Fits.split h.fits
    have hk : order + n ≤ maxOrder := hsplit.order
    -- the upper half, as a block in hand, has a bit to set
    have hupper : 2 * i + 1 < 64 * b.words (order + n) := by
      refine h.rep.toLayout.lt_words hk (lt_blocksAt ?_)
      exact hsplit.coalesced.inside _ (mem_insert_self _ _)
    have hfresh : (order + n, 2 * i + 1) ∉ b.blocks := by
      intro hmem
      refine disjoint_left.mp (h.fits.clear _ hmem) ?_ (first_mem_span _)
      exact mem_span_succ.mpr (.inr (first_mem_span _))
    have hblocks := blocks_set h.rep.toLayout hk hupper
    have hnext : Hand (b.set (order + n) (i * 2 + 1)) (order + n, i * 2) := by
      rw [Nat.mul_comm i 2]
      refine ⟨rep_set h.rep hk hupper,?_⟩
      rw [set_pages,hblocks]
      exact hsplit
    obtain ⟨hhand,hweight,hpages,hfree,hidx⟩ := ih hnext
    refine ⟨hhand,?_,hpages.trans set_pages,hfree.trans set_freePages,?_⟩
    · change weight (splitDown _ order n _).2.blocks + 2 ^ order = _
      rw [hweight,Nat.mul_comm i 2,hblocks,weight_insert hfresh,← Nat.add_assoc order n 1,pow_succ]
      ring
    · change (splitDown _ order n _).1 = _
      rw [hidx,pow_succ]
      ring

variable {larger phys pages limit base left taken : Nat} {b' : Buddy} {room : Bool}

/-- The invariant holds again, of an extent with the same pages. -/
structure Kept (b b' : Buddy) : Prop where
  inv : Inv b'
  pages : b'.pages = b.pages

theorem Kept.trans {b'' : Buddy} (h : Kept b b') (h' : Kept b' b'') : Kept b b'' :=
  ⟨h'.inv,h'.pages.trans h.pages⟩

theorem Inv.kept (h : Inv b) : Kept b b := ⟨h,rfl⟩

theorem kept_takeBlock (h : Inv b) (hle : order ≤ larger)
    (hmem : (larger, index) ∈ b.blocks) : Kept b (b.takeBlock order larger index).2 := by
  have hk : larger ≤ maxOrder := (mem_blocks.mp hmem).1
  have hidx : index < 64 * b.words larger := (mem_bitsOf.mp (mem_blocks.mp hmem).2).1
  have hblocks := blocks_clear h.rep.toLayout hk hidx
  have hhand : Hand (b.clear larger index) (order + (larger - order), index) := by
    rw [Nat.add_sub_cancel' hle]
    refine ⟨rep_clear h.rep hk hidx,?_⟩
    rw [clear_pages,hblocks]
    exact Fits.of_mem h.coalesced hmem
  obtain ⟨hhand',hweight,hpages,hfree,-⟩ := splitDown_spec hhand
  rw [hblocks,Nat.add_sub_cancel' hle,weight_erase hmem,← h.freePages_eq] at hweight
  refine ⟨⟨?_,hhand'.fits.coalesced,?_⟩,hpages.trans clear_pages⟩
  · exact ⟨hhand'.rep.toLayout.of_frame rfl rfl rfl rfl,hhand'.rep.counts_eq,hhand'.rep.hint_empty⟩
  · change Buddy.freePages _ - 2 ^ order = weight (splitDown _ _ _ _).2.blocks
    rw [hfree,clear_freePages,← hweight,Nat.add_sub_cancel]

theorem Inv.of_sameBits (h : Inv b) (hr : Rep b') (hs : SameBits b b') : Kept b b' where
  inv := {
    rep := hr
    coalesced := by rw [hs.pages,hs.blocks]; exact h.coalesced
    freePages_eq := by rw [hs.freePages,hs.blocks]; exact h.freePages_eq }
  pages := hs.pages

theorem findFree_spec (h : Rep b) {orders : List Nat} (horders : ∀ k ∈ orders, k ≤ maxOrder) :
    Rep (b.findFree orders).2 ∧ SameBits b (b.findFree orders).2 ∧
      ∀ x, (b.findFree orders).1 = some x → x.1 ∈ orders ∧ x ∈ b.blocks := by
  induction orders generalizing b with
  | nil => exact ⟨h,.refl,fun x hx => by cases hx⟩
  | cons larger rest ih =>
    obtain ⟨hrep,hsame,hmem⟩ := firstFree_spec h (horders larger List.mem_cons_self)
    unfold findFree
    split
    · next index b' heq =>
      rw [heq] at hrep hsame hmem
      refine ⟨hrep,hsame,fun x hx => ?_⟩
      cases hx
      exact ⟨List.mem_cons_self,hmem index rfl⟩
    · next b' heq =>
      rw [heq] at hrep hsame
      obtain ⟨hrep',hsame',hmem'⟩ := ih hrep fun k hk => horders k (List.mem_cons_of_mem _ hk)
      refine ⟨hrep',hsame.trans hsame',fun x hx => ?_⟩
      obtain ⟨hx1,hx2⟩ := hmem' x hx
      exact ⟨List.mem_cons_of_mem _ hx1,hsame.blocks ▸ hx2⟩

theorem orders_le (hk : k ∈ List.range' order (maxOrder + 1 - order)) :
    order ≤ k ∧ k ≤ maxOrder := by
  have := List.mem_range'_1.mp hk
  omega

theorem kept_alloc (h : Inv b) : Kept b (b.alloc order).2 := by
  unfold alloc
  split
  · exact h.kept
  have horders : ∀ k ∈ List.range' order (maxOrder + 1 - order), k ≤ maxOrder :=
    fun k hk => (orders_le hk).2
  obtain ⟨hrep,hsame,hmem⟩ := findFree_spec h.rep horders
  split
  · next b' heq =>
    rw [heq] at hrep hsame
    exact h.of_sameBits hrep hsame
  next larger index b' heq =>
  rw [heq] at hrep hsame hmem
  obtain ⟨hlarger,hfree⟩ := hmem _ rfl
  have hfound := h.of_sameBits hrep hsame
  exact hfound.trans (kept_takeBlock hfound.inv (orders_le hlarger).1 (hsame.blocks ▸ hfree))

theorem mergeUp_spec (h : Hand b (k, i)) (hn : k + n = maxOrder) :
    let r := b.mergeUp n k i
    Hand r.2.2 (r.1, r.2.1) ∧ (r.1 < maxOrder → (r.1, r.2.1 ^^^ 1) ∉ r.2.2.blocks) ∧
      weight r.2.2.blocks + 2 ^ r.1 = weight b.blocks + 2 ^ k ∧
      r.2.2.pages = b.pages ∧ r.2.2.freePages = b.freePages := by
  induction n generalizing b k i with
  | zero => exact ⟨h,fun hlt => absurd hlt (by simp only [mergeUp]; omega),rfl,rfl,rfl⟩
  | succ n ih =>
    have hk : k < maxOrder := by omega
    have hget := get_iff_mem (i := i ^^^ 1) h.rep h.fits.coalesced (hk.le)
    simp only [mergeUp]
    split
    · next hno =>
      have hno' : (k, i ^^^ 1) ∉ b.blocks := fun hmem => by simp [hget.mpr hmem] at hno
      exact ⟨h,fun _ => hno',rfl,rfl,rfl⟩
    next hyes =>
    have hmem : (k, i ^^^ 1) ∈ b.blocks := hget.mp (by simpa using hyes)
    have habsorb := h.fits.absorb hk hmem
    split
    · -- the two halves lie inside the extent, so the whole block does
      next hpast =>
      have hinside := habsorb.inside
      have hsum : i / 2 * 2 * 2 ^ k + 2 * 2 ^ k = (i / 2 + 1) * 2 ^ (k + 1) := by
        rw [pow_succ]; ring
      dsimp only at hinside
      omega
    have hidx : i ^^^ 1 < 64 * b.words k := (mem_bitsOf.mp (mem_blocks.mp hmem).2).1
    have hblocks := blocks_clear h.rep.toLayout (hk.le) hidx
    have hnext : Hand (b.clear k (i ^^^ 1)) (k + 1, i >>> 1) := by
      refine ⟨rep_clear h.rep (hk.le) hidx,?_⟩
      rw [clear_pages,hblocks,Nat.shiftRight_one]
      exact habsorb
    obtain ⟨hhand,hbuddy,hweight,hpages,hfree⟩ := ih hnext (by omega)
    refine ⟨hhand,hbuddy,?_,hpages.trans clear_pages,hfree.trans clear_freePages⟩
    have herase := weight_erase hmem
    rw [hweight,hblocks,← herase,pow_succ]
    ring

section

variable (h : Inv b)
include h

theorem hand_of_not_touching {page : Nat} (horder : order ≤ maxOrder)
    (halign : page % 2 ^ order = 0) (hinside : page + 2 ^ order ≤ b.pages)
    (hno : b.blockTouchesFree page order = false) : Hand b (order, page >>> order) := by
  have hpage : page >>> order * 2 ^ order = page := by
    rw [Nat.shiftRight_eq_div_pow]
    exact Nat.div_mul_cancel (Nat.dvd_of_mod_eq_zero halign)
  simp only [blockTouchesFree,Bool.or_eq_false_iff,List.any_eq_false] at hno
  obtain ⟨hlarger,hsmaller⟩ := hno
  refine ⟨h.rep,h.coalesced,horder,?_,?_⟩
  · simp only [Nat.succ_mul,hpage]
    exact hinside
  rintro ⟨m,j⟩ hmem
  have hm : m ≤ maxOrder := (mem_blocks.mp hmem).1
  by_contra hover
  rcases Nat.lt_or_ge m order with hlt | hge
  · -- a smaller block inside this one
    have hj : j / 2 ^ (order - m) = page >>> order :=
      (not_disjoint_span_iff (hlt.le)).mp fun hd => hover hd.symm
    refine hsmaller m (List.mem_range.mpr hlt) (anyBitInRange_eq_true.mpr ⟨j,?_⟩)
    have hpow : 2 ^ order = 2 ^ (order - m) * 2 ^ m := by
      rw [← pow_add,Nat.sub_add_cancel (hlt.le)]
    have hstart : page >>> m = page >>> order * 2 ^ (order - m) := by
      calc page >>> m = page >>> order * 2 ^ order / 2 ^ m := by
            rw [hpage,Nat.shiftRight_eq_div_pow]
        _ = page >>> order * 2 ^ (order - m) := by
            rw [hpow,← Nat.mul_assoc,Nat.mul_div_cancel _ (Nat.two_pow_pos m)]
    have hrange := (Nat.div_eq_iff (Nat.two_pow_pos (order - m))).mp hj
    rw [hstart,Nat.one_shiftLeft]
    refine ⟨hrange.1,?_,lt_blocksAt (h.coalesced.inside _ hmem),
      (mem_bitsOf.mp (mem_blocks.mp hmem).2).2⟩
    have := Nat.two_pow_pos (order - m)
    omega
  · -- a block that covers this one
    have hj : page >>> order / 2 ^ (m - order) = j := (not_disjoint_span_iff hge).mp hover
    have hcover : page >>> m = j := by
      rw [← hj,Nat.shiftRight_eq_div_pow,Nat.shiftRight_eq_div_pow,Nat.div_div_eq_div_mul,← pow_add,
        Nat.add_sub_cancel' hge]
    refine hlarger m (List.mem_range'_1.mpr (by omega)) ?_
    rw [hcover]
    exact (get_iff_mem h.rep h.coalesced hm).mpr hmem

theorem kept_putBlock (hhand : Hand b (order, index)) :
    let r := b.mergeUp (maxOrder - order) order index
    Kept b { r.2.2.set r.1 r.2.1 with
      freePages := (r.2.2.set r.1 r.2.1).freePages + 2 ^ order } := by
  have hle : order ≤ maxOrder := hhand.fits.order
  obtain ⟨hmerged,hbuddy,hweight,hpages,hfree⟩ := mergeUp_spec hhand (Nat.add_sub_cancel' hle)
  intro r
  have hrep := rep_set hmerged.rep hmerged.fits.order hmerged.lt_words
  have hblocks := blocks_set hmerged.rep.toLayout hmerged.fits.order hmerged.lt_words
  refine ⟨⟨⟨hrep.toLayout.of_frame rfl rfl rfl rfl,hrep.counts_eq,hrep.hint_empty⟩,?_,?_⟩,
    set_pages.trans hpages⟩
  · change Coalesced maxOrder (r.2.2.set r.1 r.2.1).pages (r.2.2.set r.1 r.2.1).blocks
    rw [set_pages,hblocks]
    exact hmerged.fits.put hbuddy
  · change (r.2.2.set r.1 r.2.1).freePages + 2 ^ order = weight (r.2.2.set r.1 r.2.1).blocks
    rw [set_freePages,hblocks,weight_insert hmerged.fits.not_mem]
    exact (congrArg (· + 2 ^ order) (hfree.trans h.freePages_eq)).trans hweight.symm

theorem kept_free : Kept b (b.free phys order).2 := by
  unfold free freeInner
  split
  · exact h.kept
  next horder =>
  split
  · exact h.kept
  dsimp only
  split
  · exact h.kept
  next halign =>
  split
  · exact h.kept
  next hinside =>
  split
  · exact h.kept
  next htouch =>
  refine kept_putBlock h (hand_of_not_touching h ?_ ?_ ?_ ?_)
  · omega
  · omega
  · omega
  · simpa using htouch

theorem kept_freeBlockOrSplit : Kept b (b.freeBlockOrSplit phys order).2 := by
  induction order generalizing b phys with
  | zero =>
    have hfree : Kept b (b.free phys 0).2 := kept_free h
    simp only [freeBlockOrSplit]
    split <;> next heq => rw [heq] at hfree; exact hfree
  | succ half ih =>
    have hfree : Kept b (b.free phys (half + 1)).2 := kept_free h
    simp only [freeBlockOrSplit]
    split
    · next heq => rw [heq] at hfree; exact hfree
    · next heq =>
      rw [heq] at hfree
      exact (hfree.trans (ih hfree.inv)).trans (ih (ih hfree.inv).inv)

theorem kept_freeSpanLoop : Kept b (b.freeSpanLoop n phys left taken).2 := by
  induction n generalizing b phys left taken with
  | zero => exact h.kept
  | succ n ih =>
    simp only [freeSpanLoop]
    split
    · exact h.kept
    · exact (kept_freeBlockOrSplit h).trans (ih (kept_freeBlockOrSplit h).inv)

end

/-- `left` turns of the loop are enough to frame `left` pages. -/
theorem freeSpanLoop_fuel {m : Nat} (hn : left ≤ n) (hm : left ≤ m) :
    b.freeSpanLoop n phys left taken = b.freeSpanLoop m phys left taken := by
  induction n generalizing b phys left taken m with
  | zero =>
    have hleft : left = 0 := by omega
    cases m with
    | zero => rfl
    | succ m => simp [freeSpanLoop,hleft]
  | succ n ih =>
    cases m with
    | zero =>
      have hleft : left = 0 := by omega
      simp [freeSpanLoop,hleft]
    | succ m =>
      simp only [freeSpanLoop]
      split
      · rfl
      · have := Nat.two_pow_pos (spanOrder ((phys - b.base) / pageSize) left)
        exact ih (by omega) (by omega)

theorem kept_freeSpan (h : Inv b) : Kept b (b.freeSpan phys pages).2 := by
  unfold freeSpan
  split
  · exact h.kept
  dsimp only
  split
  · exact h.kept
  · exact kept_freeSpanLoop h

theorem kept_returnRest (h : Inv b) : Kept b (b.returnRest phys order pages) := by
  unfold returnRest
  split
  · exact kept_freeSpan h
  · exact h.kept

theorem kept_allocContiguous (h : Inv b) : Kept b (b.allocContiguous pages).2 := by
  unfold allocContiguous
  split
  · exact h.kept
  dsimp only
  split
  · exact h.kept
  have halloc : Kept b (b.alloc (orderFor pages)).2 := kept_alloc h
  split
  · next heq => rw [heq] at halloc; exact halloc
  · next heq => rw [heq] at halloc; exact halloc.trans (kept_returnRest halloc.inv)

theorem kept_allocContiguousBelow (h : Inv b) : Kept b (b.allocContiguousBelow pages limit).2 := by
  unfold allocContiguousBelow
  split
  · exact h.kept
  dsimp only
  split
  · exact h.kept
  split
  · exact h.kept
  split
  · exact h.kept
  next larger hfits =>
  obtain ⟨hle,hk⟩ := orders_le (List.mem_of_find?_eq_some hfits)
  obtain ⟨hrep,hsame,hmem⟩ := firstFree_spec h.rep hk
  split
  · next heq =>
    rw [heq] at hrep hsame
    exact h.of_sameBits hrep hsame
  next index b' heq =>
  rw [heq] at hrep hsame hmem
  have hfound := h.of_sameBits hrep hsame
  have htaken := hfound.trans (kept_takeBlock hfound.inv hle (hsame.blocks ▸ hmem index rfl))
  exact htaken.trans (kept_returnRest htaken.inv)

theorem layout_fold {offsets words : Nat → Nat} {total : Nat}
    (h : (List.range n).foldlM (layoutStep pages) (fun _ => 0, fun _ => 0, 0) =
      some (offsets, words, total)) :
    (∀ k < n, words k = wordsFor pages k) ∧
      (∀ k, k + 1 < n → offsets (k + 1) = offsets k + words k) ∧
      (∀ k, k + 1 = n → total = offsets k + words k) := by
  induction n generalizing offsets words total with
  | zero => exact ⟨fun k hk => by omega,fun k hk => by omega,fun k hk => by omega⟩
  | succ n ih =>
    rw [List.range_succ,List.foldlM_append] at h
    obtain ⟨⟨offsets',words',total'⟩,hprev,hstep⟩ := bind_eq_some_iff.mp h
    obtain ⟨hwords,hoffsets,htotal⟩ := ih hprev
    simp only [List.foldlM_cons,List.foldlM_nil,layoutStep,bind_eq_bind] at hstep
    split at hstep
    · obtain ⟨rfl,rfl,rfl⟩ := hstep
      refine ⟨fun k hk => ?_,fun k hk => ?_,fun k hk => ?_⟩
      · by_cases hkn : k = n
        · rw [hkn,update_self]
        · rw [update_of_ne hkn]
          exact hwords k (by omega)
      · rw [update_of_ne (show k ≠ n by omega),update_of_ne (show k ≠ n by omega)]
        by_cases hkn : k + 1 = n
        · rw [hkn,update_self]
          exact htotal k hkn
        · rw [update_of_ne hkn]
          exact hoffsets k (by omega)
      · obtain rfl : k = n := by omega
        rw [update_self,update_self]
    · simp at hstep

theorem inv_new (h : new room base pages = some b) : Inv b ∧ b.pages = pages := by
  unfold new at h
  split at h
  · cases h
  split at h
  · cases h
  split at h
  · cases h
  obtain ⟨⟨offsets,words,total⟩,hlayout,h⟩ := bind_eq_some_iff.mp h
  obtain ⟨hwords,hoffsets,htotal⟩ := layout_fold hlayout
  dsimp only at h
  split at h
  · cases h
  cases h
  have hword : ∀ k w, word ⟨base,pages,List.replicate total 0,offsets,words,fun _ => 2 ^ 64 - 1,
      fun _ => 0,0⟩ k w = 0 := by
    intro k w
    rw [word,List.getD_eq_getElem?_getD,List.getElem?_replicate]
    split <;> rfl
  have hbits : ∀ k, bitsOf ⟨base,pages,List.replicate total 0,offsets,words,fun _ => 2 ^ 64 - 1,
      fun _ => 0,0⟩ k = ∅ := by
    intro k
    refine eq_empty_of_forall_notMem fun i hi => ?_
    have hbit := (mem_bitsOf.mp hi).2
    rw [bit,hword] at hbit
    simp at hbit
  have hblocks : blocks ⟨base,pages,List.replicate total 0,offsets,words,fun _ => 2 ^ 64 - 1,
      fun _ => 0,0⟩ = ∅ := by
    refine eq_empty_of_forall_notMem ?_
    rintro ⟨k,i⟩ hmem
    have hi := (mem_blocks.mp hmem).2
    rw [hbits] at hi
    cases hi
  refine ⟨⟨⟨⟨?_,?_,?_⟩,?_,?_⟩,?_,?_⟩,rfl⟩
  · exact fun k hk => hwords k (by omega)
  · exact fun k hk => hoffsets k (by omega)
  · exact (List.length_replicate ..).trans (htotal maxOrder rfl)
  · intro k _
    rw [hbits]
    rfl
  · exact fun k _ w _ _ => hword k w
  · rw [hblocks]
    exact Coalesced.empty
  · rw [hblocks]
    rfl

inductive Op where
  | free (phys order : Nat)
  | freeSpan (phys pages : Nat)
  | alloc (order : Nat)
  | allocContiguous (pages : Nat)
  | allocContiguousBelow (pages limit : Nat)

def step (b : Buddy) : Op → Option Buddy
  | .free phys order => some (b.free phys order).2
  | .freeSpan phys pages => some (b.freeSpan phys pages).2
  | .alloc order => some (b.alloc order).2
  | .allocContiguous pages => some (b.allocContiguous pages).2
  | .allocContiguousBelow pages limit => some (b.allocContiguousBelow pages limit).2

theorem kept_step {op : Op} (h : Inv b) (hs : b.step op = some b') : Kept b b' := by
  cases op with
  | free phys order => cases hs; exact kept_free h
  | freeSpan phys pages => cases hs; exact kept_freeSpan h
  | alloc order => cases hs; exact kept_alloc h
  | allocContiguous pages => cases hs; exact kept_allocContiguous h
  | allocContiguousBelow pages limit => cases hs; exact kept_allocContiguousBelow h

theorem inv_of_reaches {b₀ : Buddy}
    (h₀ : new room base pages = some b₀) (h : Reaches step (fun _ _ => True) b₀ b) :
    Inv b ∧ b.pages = pages :=
  h.invariant (P := fun b => Inv b ∧ b.pages = pages) (inv_new h₀) fun _ _ _ hi _ hs =>
    ⟨(kept_step hi.1 hs).inv,(kept_step hi.1 hs).pages.trans hi.2⟩

theorem biUnion_span_eq (h : Inv b) : b.blocks.biUnion span =
      (Finset.range b.pages).filter fun p => ∃ k ≤ maxOrder, p / 2 ^ k ∈ b.bitsOf k := by
  ext p
  rw [mem_biUnion,mem_filter,mem_range]
  constructor
  · rintro ⟨⟨k,i⟩,hmem,hp⟩
    have hlt := (mem_Ico.mp hp).2
    have hinside := h.coalesced.inside _ hmem
    obtain ⟨hk,hi⟩ := mem_blocks.mp hmem
    exact ⟨hlt.trans_le hinside,k,hk,(mem_span.mp hp).symm ▸ hi⟩
  · rintro ⟨-,k,hk,hi⟩
    exact ⟨(k, p / 2 ^ k),mem_blocks.mpr ⟨hk,hi⟩,mem_span.mpr rfl⟩

/-- In every state that calls with any arguments reach from an accepted extent: every
set bit names a block wholly inside the extent; no page is covered by two set bits;
no two buddies below the top order are both set; the counts count the set bits; every
word below a hint is empty; and the free pages are the pages under the set bits. -/
theorem representation_invariant {room : Bool} {base pages : Nat} {b₀ b : Buddy}
    (h₀ : new room base pages = some b₀) (h : Reaches step (fun _ _ => True) b₀ b) :
    (∀ k ≤ maxOrder, ∀ i ∈ b.bitsOf k, (i + 1) * 2 ^ k ≤ pages) ∧
    (∀ k ≤ maxOrder, ∀ i ∈ b.bitsOf k, ∀ m ≤ maxOrder, ∀ j ∈ b.bitsOf m, ∀ p,
      p ∈ Set.Ico (i * 2 ^ k) ((i + 1) * 2 ^ k) → p ∈ Set.Ico (j * 2 ^ m) ((j + 1) * 2 ^ m) →
        k = m ∧ i = j) ∧
    (∀ k < maxOrder, ∀ i ∈ b.bitsOf k, i ^^^ 1 ∉ b.bitsOf k) ∧
    (∀ k ≤ maxOrder, b.counts k = (b.bitsOf k).card) ∧
    (∀ k ≤ maxOrder, ∀ w < b.words k, w < b.hint k → b.word k w = 0) ∧
    b.freePages =
      ((Finset.range pages).filter fun p => ∃ k ≤ maxOrder, p / 2 ^ k ∈ b.bitsOf k).card := by
  obtain ⟨hinv,hpages⟩ := inv_of_reaches h₀ h
  refine ⟨?_,?_,?_,hinv.rep.counts_eq,hinv.rep.hint_empty,?_⟩
  · intro k hk i hi
    exact hpages ▸ hinv.coalesced.inside (k, i) (mem_blocks.mpr ⟨hk,hi⟩)
  · intro k hk i hi m hm j hj p hp hp'
    by_contra hne
    have hdis := hinv.coalesced.disjoint (k, i) (mem_blocks.mpr ⟨hk,hi⟩) (m, j)
      (mem_blocks.mpr ⟨hm,hj⟩) fun heq => hne (Prod.mk.inj heq)
    exact disjoint_left.mp hdis (mem_Ico.mpr hp) (mem_Ico.mpr hp')
  · intro k hk i hi hbuddy
    exact hinv.coalesced.buddies (k, i) (mem_blocks.mpr ⟨hk.le,hi⟩) hk
      (mem_blocks.mpr ⟨hk.le,hbuddy⟩)
  · rw [hinv.freePages_eq,hinv.coalesced.weight_eq_card,biUnion_span_eq hinv,hpages]

/-- Seed an extent of thirteen pages twice, take three pages, take one page low, give
it back twice and take the eight pages that it merges into. -/
def thirteen : List Op :=
  [.freeSpan 0x1000 5,.freeSpan 0x1000 40,.allocContiguous 3,.allocContiguousBelow 1 0x8000,
    .free 0x1000 0,.free 0x1000 0,.alloc 3]

theorem representation_invariant_thirteen :
    ∃ b₀ b, new true 0x1000 13 = some b₀ ∧ runList step b₀ thirteen = some b ∧ b.freePages = 2 ∧
      b.freePages =
        ((Finset.range 13).filter fun p => ∃ k ≤ maxOrder, p / 2 ^ k ∈ b.bitsOf k).card := by
  have hrun : ((new true 0x1000 13).bind fun b₀ => runList step b₀ thirteen).map freePages
      = some 2 := by decide +kernel
  obtain ⟨b,hb,hfree⟩ := map_eq_some_iff.mp hrun
  obtain ⟨b₀,h₀,hb⟩ := bind_eq_some_iff.mp hb
  refine ⟨b₀,b,h₀,hb,hfree,?_⟩
  exact (representation_invariant h₀ (reaches_of_runList hb fun _ _ _ => trivial)).2.2.2.2.2

end LiberSystem.Buddy
