import LiberSystem.Kernel.Mem.Hotplug
import LiberSystem.Lib.Counting
import LiberSystem.Lib.Words

/-!
# One region

`Ok` is what the table keeps of each region: its counts count, and a free frame is in an online
block. The four changes to a region keep it, and each is said by the bits and the blocks that it
changes.
-/

namespace LiberSystem.Hotplug.Region

open List Function

variable {r r' : Region} {first count base pages frame phys : Nat}

theorem bit_eq (r : Region) (frame : Nat) :
    r.bit frame = (r.free.getD (frame / 64) 0).getLsbD (frame % 64) := by
  rw [Bool.eq_iff_iff,bit,bne_iff_ne,and_mask_ne_zero]

theorem bit_set (hf : frame / 64 < r.free.length) (b : Bool) :
    (r.set frame b).bit = update r.bit frame b := by
  funext g
  have hlt : g % 64 < 64 := Nat.mod_lt _ (by decide)
  rw [bit_eq]
  by_cases hw : g / 64 = frame / 64
  · have hword : (r.set frame b).free.getD (g / 64) 0
        = if b then r.free.getD (frame / 64) 0 ||| 1#64 <<< (frame % 64)
          else r.free.getD (frame / 64) 0 &&& ~~~(1#64 <<< (frame % 64)) := by
      rw [hw,set,getD_eq_getElem?_getD,getElem?_set_self hf]
      rfl
    rw [hword,update_apply,bit_eq,hw]
    have hiff : g = frame ↔ g % 64 = frame % 64 := by omega
    cases b with
    | true =>
      rw [if_pos rfl,getLsbD_or_mask]
      by_cases hg : g = frame
      · rw [if_pos hg,decide_eq_true (hiff.mp hg),Bool.or_true]
      · rw [if_neg hg,decide_eq_false fun h => hg (hiff.mpr h),Bool.or_false]
    | false =>
      rw [if_neg Bool.false_ne_true,getLsbD_and_not_mask hlt]
      by_cases hg : g = frame
      · rw [if_pos hg,decide_eq_true (hiff.mp hg),Bool.not_true,Bool.and_false]
      · rw [if_neg hg,decide_eq_false fun h => hg (hiff.mpr h),Bool.not_false,Bool.and_true]
  · have hg : g ≠ frame := fun h => hw (h ▸ rfl)
    rw [update_of_ne hg,bit_eq,set,getD_eq_getElem?_getD,getElem?_set_ne (Ne.symm hw),
      ← getD_eq_getElem?_getD]

theorem setAll_eq (r : Region) (frames : List Nat) (b : Bool)
    (hf : ∀ f ∈ frames, f / 64 < r.free.length) :
    ∃ free, r.setAll frames b = { r with free := free } ∧ free.length = r.free.length ∧
      ∀ g, (r.setAll frames b).bit g = if g ∈ frames then b else r.bit g := by
  induction frames generalizing r with
  | nil => exact ⟨r.free,rfl,rfl,fun g => (if_neg (not_mem_nil)).symm⟩
  | cons f rest ih =>
    have hlen : (r.set f b).free.length = r.free.length := length_set
    obtain ⟨free,heq,hfree,hbit⟩ := ih (r.set f b) fun g hg => hlen ▸ hf g (mem_cons_of_mem f hg)
    refine ⟨free,heq,hfree.trans hlen,fun g => ?_⟩
    refine (hbit g).trans ?_
    rw [bit_set (hf f mem_cons_self),update_apply]
    by_cases hg : g ∈ rest
    · rw [if_pos hg,if_pos (mem_cons_of_mem f hg)]
    rw [if_neg hg]
    by_cases hgf : g = f
    · rw [if_pos hgf,if_pos (hgf ▸ mem_cons_self)]
    · rw [if_neg hgf,if_neg fun h => (mem_cons.mp h).elim hgf hg]

def frameOnline (r : Region) (frame : Nat) : Bool := r.online.getD (r.blockOf frame) false

abbrev In (a n frame : Nat) : Prop := a ≤ frame ∧ frame < a + n

theorem frameOnline_mark (hpos : 0 < r.blockPages) (hle : first + count ≤ r.online.length)
    (b : Bool) (f : Nat) :
    (r.mark first count b).frameOnline f
      = if In (first * r.blockPages) (count * r.blockPages) f then b else r.frameOnline f := by
  have hin : In (first * r.blockPages) (count * r.blockPages) f
      ↔ first ≤ f / r.blockPages ∧ f / r.blockPages < first + count := by
    rw [In,Nat.le_div_iff_mul_le hpos,Nat.div_lt_iff_lt_mul hpos,Nat.add_mul]
  rw [frameOnline,mark,getD_eq_getElem?_getD,getElem?_mapIdx]
  simp only [blockOf,hin,frameOnline,getD_eq_getElem?_getD]
  by_cases hlt : f / r.blockPages < r.online.length
  · rw [getElem?_eq_getElem hlt]
    rfl
  · rw [getElem?_eq_none (Nat.le_of_not_lt hlt),if_neg (by omega)]
    rfl

structure Ok (r : Region) : Prop where
  blockPages_pos : 0 < r.blockPages
  pages_eq : r.pages = r.online.length * r.blockPages
  words : r.pages ≤ 64 * r.free.length
  freePages_eq : r.freePages = (List.range r.pages).countP r.bit
  onlinePages_eq : r.onlinePages = (List.range r.pages).countP r.frameOnline
  online_of_bit : ∀ f, r.bit f = true → r.frameOnline f = true

theorem Ok.lt_pages (h : r.Ok) (hf : r.frameOnline frame) : frame < r.pages := by
  rw [h.pages_eq]
  by_contra hge
  have hlen : r.online.length ≤ frame / r.blockPages :=
    (Nat.le_div_iff_mul_le h.blockPages_pos).mpr (Nat.le_of_not_lt hge)
  rw [frameOnline,blockOf,getD_eq_getElem?_getD,getElem?_eq_none hlen] at hf
  cases hf

theorem Ok.word_lt (h : r.Ok) (hf : frame < r.pages) : frame / 64 < r.free.length := by
  have := h.words
  omega

/-- What no change to a region changes. -/
structure SameShape (r r' : Region) : Prop where
  base : r'.base = r.base
  pages : r'.pages = r.pages
  blockPages : r'.blockPages = r.blockPages
  blocks : r'.online.length = r.online.length

structure Spans (r : Region) (first count base pages : Nat) : Prop where
  base_eq : base = r.base + first * r.blockPages * PAGE
  pages_eq : pages = count * r.blockPages
  blocks_le : first + count ≤ r.online.length

namespace Spans

variable (h : r.Spans first count base pages)

include h

theorem start_eq : (base - r.base) / PAGE = first * r.blockPages := by
  rw [h.base_eq,Nat.add_sub_cancel_left,Nat.mul_div_cancel _ (by decide)]

theorem le_pages (hr : r.Ok) : first * r.blockPages + pages ≤ r.pages := by
  rw [hr.pages_eq,h.pages_eq,← Nat.add_mul]
  exact Nat.mul_le_mul_right _ h.blocks_le

theorem of_sameShape (hs : r.SameShape r') : r'.Spans first count base pages where
  base_eq := by rw [hs.base,hs.blockPages,h.base_eq]
  pages_eq := by rw [hs.blockPages,h.pages_eq]
  blocks_le := hs.blocks ▸ h.blocks_le

theorem page_eq (i : Nat) : base + i * PAGE = r.base + (first * r.blockPages + i) * PAGE := by
  rw [h.base_eq,Nat.add_mul,Nat.add_assoc]

end Spans

section

variable (h : r.Ok) (hsp : r.Spans first count base pages)
include h hsp

theorem Ok.write (b : Bool) :
    let r₁ := (r.setAll (range' ((base - r.base) / PAGE) pages) b).mark first count b
    r.SameShape r₁ ∧ r₁.free.length = r.free.length ∧
      (∀ f, r₁.bit f = if In (first * r.blockPages) pages f then b else r.bit f) ∧
      ∀ f, r₁.frameOnline f = if In (first * r.blockPages) pages f then b else r.frameOnline f := by
  rw [hsp.start_eq]
  have hin : ∀ f ∈ range' (first * r.blockPages) pages, f / 64 < r.free.length := by
    intro f hf
    have := mem_range'_1.mp hf
    exact h.word_lt (this.2.trans_le (hsp.le_pages h))
  obtain ⟨free,heq,hlen,hbit⟩ := r.setAll_eq _ b hin
  intro r₁
  have hr₁ : r₁ = mark { r with free := free } first count b := by
    change mark _ _ _ _ = _
    rw [heq]
  have hbit₁ : r₁.bit = (r.setAll (range' (first * r.blockPages) pages) b).bit := rfl
  refine ⟨?_,by rw [hr₁]; exact hlen,fun f => ?_,fun f => ?_⟩
  · rw [hr₁]
    exact ⟨rfl,rfl,rfl,length_mapIdx⟩
  · rw [hbit₁,hbit f]
    simp only [mem_range'_1]
  · rw [hr₁,frameOnline_mark (r := { r with free := free }) h.blockPages_pos hsp.blocks_le,
      hsp.pages_eq]
    rfl

theorem bringOnline_spec (hoff : ∀ f, In (first * r.blockPages) pages f → r.frameOnline f = false) :
    let r' := r.bringOnline base pages first count
    r'.Ok ∧ r.SameShape r' ∧
      (∀ f, r'.bit f = if In (first * r.blockPages) pages f then true else r.bit f) ∧
      ∀ f, r'.frameOnline f
        = if In (first * r.blockPages) pages f then true else r.frameOnline f := by
  obtain ⟨hshape,hfree,hbit,honline⟩ := h.write hsp true
  intro r'
  have hshape' : r.SameShape r' := ⟨hshape.base,hshape.pages,hshape.blockPages,hshape.blocks⟩
  have hle := hsp.le_pages h
  have hclear : ∀ f, first * r.blockPages ≤ f → f < first * r.blockPages + pages →
      r.bit f = false := by
    intro f hlo hhi
    by_contra hset
    have := h.online_of_bit f (Bool.eq_true_of_not_eq_false hset)
    rw [hoff f ⟨hlo,hhi⟩] at this
    cases this
  refine ⟨⟨?_,?_,?_,?_,?_,?_⟩,hshape',hbit,honline⟩
  · rw [hshape'.blockPages]
    exact h.blockPages_pos
  · rw [hshape'.pages,hshape'.blocks,hshape'.blockPages,h.pages_eq]
  · rw [hshape'.pages]
    exact h.words.trans_eq (congrArg _ hfree.symm)
  · have hcount : (range r.pages).countP r'.bit = _ := countP_range_stretch hle hclear hbit
    rw [hshape'.pages,hcount,← h.freePages_eq]
    rfl
  · have hcount : (range r.pages).countP r'.frameOnline = _ :=
      countP_range_stretch hle (fun f hlo hhi => hoff f ⟨hlo,hhi⟩) honline
    rw [hshape'.pages,hcount,← h.onlinePages_eq]
    rfl
  intro f hf
  have hb := hbit f
  have ho := honline f
  split at hb
  · next hin => rw [if_pos hin] at ho; exact ho
  · next hin =>
    rw [if_neg hin] at ho
    exact ho.trans (h.online_of_bit f (hb.symm.trans hf))

theorem takeOffline_spec (heq : r.takeOffline base pages first count = .ok r') :
    r'.Ok ∧ r.SameShape r' ∧ (∀ f, In (first * r.blockPages) pages f → r.bit f) ∧
      (∀ f, r'.bit f = if In (first * r.blockPages) pages f then false else r.bit f) ∧
      ∀ f, r'.frameOnline f
        = if In (first * r.blockPages) pages f then false else r.frameOnline f := by
  obtain ⟨hshape,hfree,hbit,honline⟩ := h.write hsp false
  rw [takeOffline] at heq
  split at heq
  · cases heq
  split at heq
  · cases heq
  next hfrees =>
  have hall : ∀ f, In (first * r.blockPages) pages f → r.bit f := by
    intro f hin
    by_contra hset
    refine hfrees (any_eq_true.mpr ⟨f,?_,?_⟩)
    · rw [hsp.start_eq]
      exact mem_range'_1.mpr hin
    · rw [Bool.eq_false_of_not_eq_true hset,Bool.not_false]
  injection heq with heq
  have hshape' : r.SameShape r' := by
    rw [← heq]
    exact ⟨hshape.base,hshape.pages,hshape.blockPages,hshape.blocks⟩
  have hbit' : ∀ f, r'.bit f = if In (first * r.blockPages) pages f then false else r.bit f := by
    rw [← heq]
    exact hbit
  have honline' : ∀ f, r'.frameOnline f
      = if In (first * r.blockPages) pages f then false else r.frameOnline f := by
    rw [← heq]
    exact honline
  have hle := hsp.le_pages h
  -- Read backwards, the stretch that has gone is one that comes.
  have hback : ∀ {p q : Nat → Bool}, (∀ f, In (first * r.blockPages) pages f → p f) →
      (∀ f, q f = if In (first * r.blockPages) pages f then false else p f) →
      (range r.pages).countP p = (range r.pages).countP q + pages := by
    intro p q hp hq
    refine countP_range_stretch hle (fun f hlo hhi => ?_) fun f => ?_
    · rw [hq,if_pos ⟨hlo,hhi⟩]
    · split
      · next hin => exact hp f hin
      · next hin => rw [hq,if_neg hin]
  refine ⟨⟨?_,?_,?_,?_,?_,?_⟩,hshape',hall,hbit',honline'⟩
  · rw [hshape'.blockPages]
    exact h.blockPages_pos
  · rw [hshape'.pages,hshape'.blocks,hshape'.blockPages,h.pages_eq]
  · rw [hshape'.pages,← heq]
    exact h.words.trans_eq (congrArg _ hfree.symm)
  · have hcount := hback hall hbit'
    have hless : r'.freePages = r.freePages - pages := heq ▸ rfl
    rw [hshape'.pages,hless,h.freePages_eq,hcount,Nat.add_sub_cancel]
  · have hcount := hback (fun f hin => h.online_of_bit f (hall f hin)) honline'
    have hless : r'.onlinePages = r.onlinePages - pages := heq ▸ rfl
    rw [hshape'.pages,hless,h.onlinePages_eq,hcount,Nat.add_sub_cancel]
  intro f hf
  have hb := hbit' f
  have ho := honline' f
  split at hb
  · rw [hf] at hb
    cases hb
  · next hin =>
    rw [if_neg hin] at ho
    exact ho.trans (h.online_of_bit f (hb.symm.trans hf))

end

theorem Ok.writeBit (h : r.Ok) (cursor : Nat) (hf : r.frameOnline frame) {b : Bool}
    {n : Nat} (hn : n + (r.bit frame).toNat = r.freePages + b.toNat) :
    Ok { r.set frame b with freePages := n, cursor := cursor } := by
  have hlt := h.lt_pages hf
  have hbit := bit_set (h.word_lt hlt) b
  refine ⟨h.blockPages_pos,h.pages_eq,?_,?_,h.onlinePages_eq,fun g hg => ?_⟩
  · exact h.words.trans_eq (congrArg _ length_set.symm)
  · change n = (range r.pages).countP (r.set frame b).bit
    have hcount := countP_update id r.bit nodup_range (mem_range.mpr hlt) b
    simp only [id_eq] at hcount
    rw [hbit]
    have := h.freePages_eq
    change n = (range r.pages).countP fun j => update r.bit frame b j
    change r.freePages = (range r.pages).countP fun j => r.bit j at this
    omega
  · change (r.set frame b).bit g at hg
    rw [hbit,update_apply] at hg
    split at hg
    · next heq => exact heq ▸ hf
    · exact h.online_of_bit g hg

theorem take_spec (h : r.Ok) (heq : r.take = some (phys, r')) :
    ∃ f, r.bit f ∧ phys = r.base + f * PAGE ∧ r'.Ok ∧ r.SameShape r' ∧
      r'.frameOnline = r.frameOnline ∧ r'.bit = update r.bit f false := by
  rw [take] at heq
  split at heq
  · cases heq
  next hfree =>
  split at heq
  · cases heq
  next step hstep =>
  have hbit := find?_some hstep
  have hon := h.online_of_bit _ hbit
  obtain ⟨rfl,rfl⟩ := heq
  refine ⟨_,hbit,rfl,h.writeBit _ hon ?_,⟨rfl,rfl,rfl,rfl⟩,rfl,?_⟩
  · rw [hbit,Bool.toNat_true,Bool.toNat_false]
    omega
  · exact bit_set (h.word_lt (h.lt_pages hon)) false

theorem give_spec (h : r.Ok) (hc : r.contains phys) :
    (r.give phys).Ok ∧ r.SameShape (r.give phys) ∧ (r.give phys).frameOnline = r.frameOnline ∧
      ∀ f, r.bit f = false → ¬ In (r.base + f * PAGE) PAGE phys → (r.give phys).bit f = false := by
  rw [give]
  split
  · exact ⟨h,⟨rfl,rfl,rfl,rfl⟩,rfl,fun f hf _ => hf⟩
  next hrefuse =>
  simp only [Bool.or_eq_true,Bool.not_eq_true',not_or,Bool.not_eq_true,Bool.not_eq_false] at hrefuse
  obtain ⟨hon,hbit⟩ := hrefuse
  have hlo : r.base ≤ phys := by
    rw [contains,Bool.and_eq_true,decide_eq_true_eq] at hc
    exact hc.1
  refine ⟨h.writeBit r.cursor hon ?_,⟨rfl,rfl,rfl,rfl⟩,rfl,fun f hf hout => ?_⟩
  · rw [hbit,Bool.toNat_true,Bool.toNat_false]
  change (r.set _ true).bit f = false
  rw [bit_set (h.word_lt (h.lt_pages hon)),update_of_ne _ _ _,hf]
  intro heq
  refine hout ⟨?_,?_⟩
  · rw [heq]
    have := Nat.div_mul_le_self (phys - r.base) PAGE
    omega
  · rw [heq]
    have := Nat.lt_div_mul_add (a := phys - r.base) (b := PAGE) (by decide)
    omega

variable {block size : Nat} {taken : List (Nat × Nat)}

theorem page_dvd_block (hle : PAGE ≤ block) (hpow : isPowerOfTwo block) : PAGE ∣ block := by
  have hblock : block = 2 ^ block.log2 := beq_iff_eq.mp hpow
  have hexp : 12 ≤ block.log2 := by
    refine (Nat.pow_le_pow_iff_right (a := 2) (by decide)).mp ?_
    rw [← hblock]
    exact hle
  rw [hblock]
  exact pow_dvd_pow 2 hexp

theorem check_ok (h : check base size block taken = .ok ()) :
    PAGE ≤ block ∧ PAGE ∣ block ∧ block ∣ size := by
  rw [check] at h
  split at h
  · cases h
  next hal =>
  simp only [Bool.or_eq_true,not_or,decide_eq_true_eq,Bool.not_eq_true',bne_iff_ne,
    Bool.not_eq_false,not_not] at hal
  obtain ⟨⟨⟨⟨hpage,hpow⟩,-⟩,-⟩,hsize⟩ := hal
  have hle : PAGE ≤ block := Nat.le_of_not_lt hpage
  exact ⟨hle,page_dvd_block hle hpow,Nat.dvd_of_mod_eq_zero hsize⟩

theorem frameOnline_new (base size block f : Nat) :
    (new base size block).frameOnline f = false := by
  rw [frameOnline,new,getD_eq_getElem?_getD,getElem?_replicate]
  split <;> rfl

theorem bit_new (base size block f : Nat) : (new base size block).bit f = false := by
  rw [bit_eq,new,getD_eq_getElem?_getD,getElem?_replicate]
  split <;> simp

theorem new_ok (h : check base size block taken = .ok ()) :
    (new base size block).Ok ∧ (new base size block).pages * PAGE = size := by
  obtain ⟨hle,hpage,hblock⟩ := check_ok h
  have hpages : size / PAGE = size / block * (block / PAGE) := by
    rw [← Nat.mul_div_assoc _ hpage,Nat.div_mul_cancel hblock]
  refine ⟨⟨Nat.div_pos hle (by decide),?_,?_,?_,?_,?_⟩,?_⟩
  · rw [show (new base size block).online.length = size / block from length_replicate]
    exact hpages
  · rw [show (new base size block).free.length = (size / PAGE + 63) / 64 from length_replicate]
    change size / PAGE ≤ _
    omega
  · rw [countP_eq_zero.mpr fun f _ => by rw [bit_new]; exact Bool.false_ne_true]
    rfl
  · rw [countP_eq_zero.mpr fun f _ => by rw [frameOnline_new]; exact Bool.false_ne_true]
    rfl
  · intro f hf
    rw [bit_new] at hf
    cases hf
  · exact Nat.div_mul_cancel (hpage.trans hblock)

end LiberSystem.Hotplug.Region
