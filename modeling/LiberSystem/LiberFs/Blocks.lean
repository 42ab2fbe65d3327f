import LiberSystem.LiberFs.Volume

/-!
# What a call does to the blocks

Every block of a volume is free, allocated by the transaction in flight, dropped by it, or held
otherwise.
-/

namespace LiberSystem

open Multiset

open Fallible

inductive Standing
  | free | fresh | held | dead
  deriving DecidableEq

namespace LiberFs

variable {fs fs' fs'' : LiberFs} {A A' A'' F : Multiset ℕ} {b c start byte found : ℕ}

def standing (fs : LiberFs) (b : ℕ) : Standing :=
  if fs.isAlloc b = false then .free
  else if b ∈ fs.fresh then .fresh
  else if b ∈ fs.dead then .dead
  else .held

/-- Blocks that the transaction allocated are marked and not dropped, blocks that it
dropped are still marked, and the superblock slots are never free. -/
structure Sound (fs : LiberFs) : Prop where
  fresh : ∀ b ∈ fs.fresh, fs.isAlloc b = true ∧ b ∉ fs.dead
  dead : ∀ b ∈ fs.dead, fs.isAlloc b = true
  slots : ∀ b < poolStart, fs.isAlloc b = true
  numBlocks_le : fs.numBlocks ≤ maxBlocks

theorem standing_eq_free : fs.standing b = .free ↔ fs.isAlloc b = false := by
  rw [standing]
  split
  · next h => exact iff_of_true rfl h
  · next h =>
    refine iff_of_false ?_ h
    split <;> [decide; split <;> decide]

theorem Sound.standing_eq_fresh (h : fs.Sound) : fs.standing b = .fresh ↔ b ∈ fs.fresh := by
  rw [standing]
  split
  · next hf =>
    refine iff_of_false (by decide) fun hb => ?_
    rw [(h.fresh b hb).1] at hf
    cases hf
  · split <;> [skip; split] <;> simpa

/-- Distinct blocks of the pool that are in use and not dropped. -/
structure Owns (fs : LiberFs) (A : Multiset ℕ) : Prop where
  nodup : A.Nodup
  pool : ∀ b ∈ A, poolStart ≤ b ∧ b < fs.numBlocks
  live : ∀ b ∈ A, fs.standing b = .fresh ∨ fs.standing b = .held

theorem Owns.ne_free (h : Owns fs A) (hb : b ∈ A) : fs.standing b ≠ .free := by
  rcases h.live b hb with hl | hl <;> rw [hl] <;> decide

theorem Owns.ne_zero (h : Owns fs A) (hb : b ∈ A) : b ≠ 0 := by
  have := (h.pool b hb).1
  rw [poolStart] at this
  omega

theorem Owns.mono (h : Owns fs A) (hle : A' ≤ A) : Owns fs A' where
  nodup := nodup_of_le hle h.nodup
  pool b hb := h.pool b (mem_of_le hle hb)
  live b hb := h.live b (mem_of_le hle hb)

structure Trades (fs : LiberFs) (A : Multiset ℕ) (fs' : LiberFs) (A' : Multiset ℕ) : Prop where
  sound : fs'.Sound
  numBlocks : fs'.numBlocks = fs.numBlocks
  owns : Owns fs' A'
  same : ∀ b, (b ∈ A ↔ b ∈ A') → fs'.standing b = fs.standing b
  gain : ∀ b, b ∉ A → b ∈ A' → fs.standing b = .free ∧ fs'.standing b = .fresh
  lose : ∀ b, b ∈ A → b ∉ A' →
    fs'.standing b = if fs.standing b = .fresh then .free else .dead
  dev : ∀ b, fs.standing b ≠ .free → (b ∈ A → fs.standing b ≠ .fresh) → fs'.dev b = fs.dev b

namespace Trades

theorem refl (h : fs.Sound) (hA : Owns fs A) : Trades fs A fs A where
  sound := h
  numBlocks := rfl
  owns := hA
  same _ _ := rfl
  gain _ hb hb' := absurd hb' hb
  lose _ hb hb' := absurd hb hb'
  dev _ _ _ := rfl

theorem trans (h : Trades fs A fs' A') (h' : Trades fs' A' fs'' A'') : Trades fs A fs'' A'' where
  sound := h'.sound
  numBlocks := h'.numBlocks.trans h.numBlocks
  owns := h'.owns
  same b hb := by
    by_cases hA : b ∈ A <;> by_cases hA' : b ∈ A'
    · rw [h'.same b (iff_of_true hA' (hb.mp hA)),h.same b (iff_of_true hA hA')]
    · -- dropped and allocated again: it was fresh before, too
      obtain ⟨hfree,hfresh⟩ := h'.gain b hA' (hb.mp hA)
      have hlose := h.lose b hA hA'
      rw [hfree] at hlose
      split at hlose
      · next hb => rw [hfresh,hb]
      · cases hlose
    · obtain ⟨hfree,hfresh⟩ := h.gain b hA hA'
      rw [h'.lose b hA' fun h => hA (hb.mpr h),if_pos hfresh,hfree]
    · rw [h'.same b (iff_of_false hA' fun h => hA (hb.mpr h)),h.same b (iff_of_false hA hA')]
  gain b hA hA'' := by
    by_cases hA' : b ∈ A'
    · rw [h'.same b (iff_of_true hA' hA'')]
      exact h.gain b hA hA'
    · rw [← h.same b (iff_of_false hA hA')]
      exact h'.gain b hA' hA''
  lose b hA hA'' := by
    by_cases hA' : b ∈ A'
    · rw [← h.same b (iff_of_true hA hA')]
      exact h'.lose b hA' hA''
    · rw [h'.same b (iff_of_false hA' hA'')]
      exact h.lose b hA hA'
  dev b hne hfresh := by
    rw [← h.dev b hne hfresh]
    by_cases hA : b ∈ A <;> by_cases hA' : b ∈ A'
    · have hsame := h.same b (iff_of_true hA hA')
      exact h'.dev b (hsame ▸ hne) fun _ => hsame ▸ hfresh hA
    · have hlose := h.lose b hA hA'
      rw [if_neg (hfresh hA)] at hlose
      exact h'.dev b (by rw [hlose]; decide) fun h => absurd h hA'
    · exact absurd (h.gain b hA hA').1 hne
    · exact h'.dev b (h.same b (iff_of_false hA hA') ▸ hne) fun h => absurd h hA'

section

variable (h : Trades fs A fs' A') (hF : Owns fs (A + F))
include h hF

theorem disjoint (hb : b ∈ F) : b ∉ A ∧ b ∉ A' := by
  have hA : b ∉ A := fun hA => (disjoint_left.mp (nodup_add.mp hF.nodup).2.2) hA hb
  refine ⟨hA,fun hA' => hF.ne_free (mem_add.mpr (.inr hb)) (h.gain b hA hA').1⟩

theorem dev_frame (hb : b ∈ F) : fs'.dev b = fs.dev b :=
  h.dev b (hF.ne_free (mem_add.mpr (.inr hb))) fun hA => absurd hA (h.disjoint hF hb).1

theorem frame : Trades fs (A + F) fs' (A' + F) where
  sound := h.sound
  numBlocks := h.numBlocks
  owns :=
    { nodup := nodup_add.mpr ⟨h.owns.nodup,(nodup_add.mp hF.nodup).2.1,
        disjoint_left.mpr fun hA' hb => (h.disjoint hF hb).2 hA'⟩
      pool := fun b hb => by
        rcases mem_add.mp hb with hb | hb
        · exact h.owns.pool b hb
        · rw [h.numBlocks]
          exact hF.pool b (mem_add.mpr (.inr hb))
      live := fun b hb => by
        rcases mem_add.mp hb with hb | hb
        · exact h.owns.live b hb
        · obtain ⟨hA,hA'⟩ := h.disjoint hF hb
          rw [h.same b (iff_of_false hA hA')]
          exact hF.live b (mem_add.mpr (.inr hb)) }
  same b hb := by
    by_cases hbF : b ∈ F
    · obtain ⟨hA,hA'⟩ := h.disjoint hF hbF
      exact h.same b (iff_of_false hA hA')
    · refine h.same b ?_
      simpa only [mem_add,hbF,or_false] using hb
  gain b hb hb' := by
    rw [mem_add,not_or] at hb
    exact h.gain b hb.1 ((mem_add.mp hb').resolve_right hb.2)
  lose b hb hb' := by
    rw [mem_add,not_or] at hb'
    exact h.lose b ((mem_add.mp hb).resolve_right hb'.2) hb'.1
  dev b hne hfresh := h.dev b hne fun hA => hfresh (mem_add.mpr (.inl hA))

end

end Trades

theorem isAlloc_claim : (fs.claim b).isAlloc c = (fs.isAlloc c || decide (c = b)) := by
  have hlt : b % 8 < 8 := Nat.mod_lt _ (by decide)
  simp only [isAlloc,claim,Function.update_apply]
  by_cases hbyte : c / 8 = b / 8
  · rw [if_pos hbyte,hbyte,← BitVec.twoPow_eq,BitVec.getLsbD_or,BitVec.getLsbD_twoPow]
    congr 1
    simp only [hlt,decide_true,Bool.true_and,decide_eq_decide]
    omega
  · rw [if_neg hbyte]
    have hne : c ≠ b := fun h => hbyte (by rw [h])
    simp [hne]

theorem isAlloc_unclaim : (fs.unclaim b).isAlloc c = (fs.isAlloc c && !decide (c = b)) := by
  have hlt : b % 8 < 8 := Nat.mod_lt _ (by decide)
  have hlt' : c % 8 < 8 := Nat.mod_lt _ (by decide)
  simp only [isAlloc,unclaim,forgetBlock,Function.update_apply]
  by_cases hbyte : c / 8 = b / 8
  · rw [if_pos hbyte,hbyte,← BitVec.twoPow_eq,BitVec.getLsbD_and,BitVec.getLsbD_not,
      BitVec.getLsbD_twoPow]
    congr 1
    simp only [hlt,hlt',decide_true,Bool.true_and]
    congr 1
    simp only [decide_eq_decide]
    omega
  · rw [if_neg hbyte]
    have hne : c ≠ b := fun h => hbyte (by rw [h])
    simp [hne]

theorem isAlloc_congr (h : fs'.free = fs.free) : fs'.isAlloc b = fs.isAlloc b := by
  rw [isAlloc,h,isAlloc]

theorem standing_congr (hfree : fs'.free = fs.free) (hfresh : fs'.fresh = fs.fresh)
    (hdead : fs'.dead = fs.dead) : fs'.standing b = fs.standing b := by
  rw [standing,standing,isAlloc_congr hfree,hfresh,hdead]

section

variable (h : fs.Sound)
include h

theorem Sound.congr (hfree : fs'.free = fs.free) (hfresh : fs'.fresh = fs.fresh)
    (hdead : fs'.dead = fs.dead) (hnum : fs'.numBlocks = fs.numBlocks) : fs'.Sound where
  fresh b hb := by
    rw [isAlloc_congr hfree,hdead]
    exact h.fresh b (hfresh ▸ hb)
  dead b hb := by
    rw [isAlloc_congr hfree]
    exact h.dead b (hdead ▸ hb)
  slots b hb := by
    rw [isAlloc_congr hfree]
    exact h.slots b hb
  numBlocks_le := hnum ▸ h.numBlocks_le

theorem trades_claim {cursor : ℕ} (hfree : fs.isAlloc b = false)
    (hlo : poolStart ≤ b) (hhi : b < fs.numBlocks) :
    Trades fs 0 { fs.claim b with metaCursor := cursor } {b} := by
  set fs' : LiberFs := { fs.claim b with metaCursor := cursor }
  have halloc : ∀ c, fs'.isAlloc c = (fs.isAlloc c || decide (c = b)) := fun c => isAlloc_claim
  have hsound : fs'.Sound :=
    { fresh := fun c hc => by
        rcases Finset.mem_insert.mp hc with rfl | hc
        · refine ⟨by simp [halloc],fun hd => ?_⟩
          rw [h.dead c hd] at hfree
          cases hfree
        · exact ⟨by simp [halloc,(h.fresh c hc).1],(h.fresh c hc).2⟩
      dead := fun c hc => by simp [halloc,h.dead c hc]
      slots := fun c hc => by simp [halloc,h.slots c hc]
      numBlocks_le := h.numBlocks_le }
  have hfresh : fs'.standing b = .fresh := hsound.standing_eq_fresh.mpr (Finset.mem_insert_self _ _)
  refine ⟨hsound,rfl,⟨nodup_singleton b,?_,?_⟩,?_,?_,?_,fun _ _ _ => rfl⟩
  · intro c hc
    rw [mem_singleton.mp hc]
    exact ⟨hlo,hhi⟩
  · intro c hc
    rw [mem_singleton.mp hc]
    exact .inl hfresh
  · intro c hc
    have hne : c ≠ b := fun hcb => notMem_zero c (hc.mpr (mem_singleton.mpr hcb))
    have hmem : c ∈ fs'.fresh ↔ c ∈ fs.fresh := by
      change c ∈ insert b fs.fresh ↔ _
      rw [Finset.mem_insert,or_iff_right hne]
    simp only [standing,halloc,hne,decide_false,Bool.or_false,hmem]
    rfl
  · intro c _ hc
    rw [mem_singleton.mp hc]
    exact ⟨standing_eq_free.mpr hfree,hfresh⟩
  · intro c hc
    exact absurd hc (notMem_zero c)

theorem trades_dropBlock (hb : Owns fs {b}) : Trades fs {b} (fs.dropBlock b) 0 := by
  have hmem : b ∈ ({b}) := mem_singleton_self b
  have hlo := (hb.pool b hmem).1
  have h0 : b ≠ 0 := hb.ne_zero hmem
  have hne : ∀ c, (c ∈ ({b} : Multiset ℕ) ↔ c ∈ (0 : Multiset ℕ)) → c ≠ b := fun c hc hcb =>
    notMem_zero c (hc.mp (mem_singleton.mpr hcb))
  have hempty : ∀ {fs' : LiberFs}, Owns fs' 0 := ⟨nodup_zero,fun c hc => absurd hc (notMem_zero c),
    fun c hc => absurd hc (notMem_zero c)⟩
  rw [dropBlock,if_neg h0]
  by_cases hfresh : b ∈ fs.fresh
  · rw [if_pos hfresh]
    have halloc : ∀ c, (fs.unclaim b).isAlloc c = (fs.isAlloc c && !decide (c = b)) :=
      fun c => isAlloc_unclaim
    have hin : ∀ c, c ∈ (fs.unclaim b).fresh ↔ c ≠ b ∧ c ∈ fs.fresh := fun c => Finset.mem_erase
    have hdead : b ∉ fs.dead := (h.fresh b hfresh).2
    refine ⟨⟨?_,?_,?_,h.numBlocks_le⟩,rfl,hempty,?_,?_,?_,fun _ _ _ => rfl⟩
    · intro c hc
      obtain ⟨hcb,hc⟩ := (hin c).mp hc
      exact ⟨by simp [halloc,(h.fresh c hc).1,hcb],(h.fresh c hc).2⟩
    · intro c hc
      have hcb : c ≠ b := fun heq => hdead (heq ▸ hc)
      simp [halloc,h.dead c hc,hcb]
    · intro c hc
      have hcb : c ≠ b := by omega
      simp [halloc,h.slots c hc,hcb]
    · intro c hc
      have hcb := hne c hc
      simp only [standing,halloc,hcb,decide_false,Bool.not_false,Bool.and_true,hin,ne_eq,
        not_false_eq_true,true_and]
      rfl
    · intro c _ hc
      exact absurd hc (notMem_zero c)
    · intro c hc _
      rw [mem_singleton.mp hc,if_pos (h.standing_eq_fresh.mpr hfresh),standing_eq_free,halloc]
      simp
  · rw [if_neg hfresh]
    set fs' : LiberFs := forgetBlock { fs with dead := insert b fs.dead } b
    have halloc : ∀ c, fs'.isAlloc c = fs.isAlloc c := fun c => rfl
    have hb' : fs.isAlloc b = true := by
      have := hb.ne_free hmem
      rwa [ne_eq,standing_eq_free,Bool.not_eq_false] at this
    have hin : ∀ c, c ∈ fs'.dead ↔ c = b ∨ c ∈ fs.dead := fun c => Finset.mem_insert
    refine ⟨⟨?_,?_,h.slots,h.numBlocks_le⟩,rfl,hempty,?_,?_,?_,fun _ _ _ => rfl⟩
    · intro c hc
      refine ⟨(h.fresh c hc).1,fun hd => ?_⟩
      rcases (hin c).mp hd with rfl | hd
      · exact hfresh hc
      · exact (h.fresh c hc).2 hd
    · intro c hc
      rcases (hin c).mp hc with rfl | hc
      · exact hb'
      · exact h.dead c hc
    · intro c hc
      have hcb := hne c hc
      simp only [standing,halloc,hin,hcb,false_or]
      rfl
    · intro c _ hc
      exact absurd hc (notMem_zero c)
    · intro c hc _
      rw [mem_singleton.mp hc,if_neg (mt h.standing_eq_fresh.mp hfresh),standing]
      have hnf : b ∉ fs'.fresh := hfresh
      rw [halloc,hb',if_neg (by decide),if_neg hnf,if_pos ((hin b).mpr (.inl rfl))]

theorem trades_write {buf : Block} (hb : Owns fs {b}) (hfresh : fs.standing b = .fresh) :
    Trades fs {b} { fs with dev := Function.update fs.dev b buf } {b} where
  sound := h.congr rfl rfl rfl rfl
  numBlocks := rfl
  owns := ⟨hb.nodup,hb.pool,hb.live⟩
  same _ _ := standing_congr rfl rfl rfl
  gain _ hc hc' := absurd hc' hc
  lose _ hc hc' := absurd hc hc'
  dev c _ hc := by
    have hcb : c ≠ b := fun heq => hc (mem_singleton.mpr heq) (heq ▸ hfresh)
    exact Function.update_of_ne hcb _ _

end

theorem scanDownEdge_spec (h : start < fs.numBlocks) (hlo : poolStart ≤ start) :
    match fs.scanDownEdge start with
    | .inl found => fs.isAlloc found = false ∧ poolStart ≤ found ∧ found < fs.numBlocks
    | .inr stop => stop < fs.numBlocks ∧ (stop = poolStart ∨ stop % 8 = 7) := by
  induction start with
  | zero => exact absurd hlo (by decide)
  | succ start ih =>
    rw [scanDownEdge]
    by_cases hc : start + 1 > poolStart ∧ (start + 1) % 8 ≠ 7
    · rw [if_pos hc]
      cases ha : fs.isAlloc (start + 1) with
      | true => exact ih (by omega) (by omega)
      | false => exact ⟨ha,by omega,h⟩
    · rw [if_neg hc]
      refine ⟨h,?_⟩
      by_cases heq : start + 1 = poolStart
      · exact .inl heq
      · exact .inr (by omega)

theorem lastFree_spec (h : fs.free byte ≠ 0xFF#8) (hf : fs.lastFree byte = some found) :
    fs.isAlloc found = false ∧ poolStart ≤ found ∧ found < byte * 8 + 8 := by
  have hbit : ∀ x : BitVec 8, x ≠ 0xFF#8 → x.getLsbD (7 - (~~~x).clz.toNat) = false := by decide
  simp only [lastFree,Option.ite_none_right_eq_some,Option.some.injEq] at hf
  obtain ⟨hlo,rfl⟩ := hf
  have hclz : 7 - (~~~(fs.free byte)).clz.toNat < 8 := by omega
  refine ⟨?_,hlo,by omega⟩
  rw [isAlloc,Nat.mul_comm byte 8,Nat.mul_add_div (by decide),Nat.mul_add_mod,Nat.div_eq_of_lt hclz,
    Nat.mod_eq_of_lt hclz,Nat.add_zero]
  exact hbit _ h

theorem scanDownBytes_spec (hf : fs.scanDownBytes byte = some found) :
    fs.isAlloc found = false ∧ poolStart ≤ found ∧ found < byte * 8 + 8 := by
  induction byte with
  | zero =>
    rw [scanDownBytes] at hf
    split at hf
    · next h => exact lastFree_spec h hf
    · cases hf
  | succ byte ih =>
    rw [scanDownBytes] at hf
    split at hf
    · next h => exact lastFree_spec h hf
    · obtain ⟨ha,hlo,hlt⟩ := ih hf
      exact ⟨ha,hlo,by omega⟩

theorem scanDown_spec (hf : fs.scanDown start = some found) :
    fs.isAlloc found = false ∧ poolStart ≤ found ∧ found < fs.numBlocks := by
  simp only [scanDown] at hf
  split at hf
  · cases hf
  next hlo =>
  have hlo : poolStart ≤ min start (fs.numBlocks - 1) := Nat.le_of_not_lt hlo
  have hlt : min start (fs.numBlocks - 1) < fs.numBlocks := by
    simp only [poolStart] at hlo
    omega
  have hedge := scanDownEdge_spec hlt hlo
  cases he : fs.scanDownEdge (min start (fs.numBlocks - 1)) with
  | inl block =>
    rw [he] at hf hedge
    cases hf
    exact hedge
  | inr block =>
    rw [he] at hf hedge
    obtain ⟨hlt,hstop⟩ := hedge
    dsimp only at hf
    split at hf
    · next heq =>
      split at hf
      · cases hf
      · next ha =>
        cases hf
        exact ⟨Bool.eq_false_iff.mpr ha,heq.ge,hlt⟩
    · next hne =>
      obtain ⟨ha,hlo,hlt'⟩ := scanDownBytes_spec hf
      exact ⟨ha,hlo,by omega⟩

end LiberFs

namespace FsM

open LiberFs

variable {m : Machine} {A F : Multiset ℕ}

theorem allocMeta_spec (h : m.fs.Sound) :
    wp allocMeta (fun b m' => Trades m.fs 0 m'.fs {b} ∧ m'.fs.dev = m.fs.dev)
      (fun _ _ => True) m := by
  rw [allocMeta,allocBlock]
  simp only [wp_bind,wp_getFs,if_true]
  cases hs : (m.fs.scanDown m.fs.metaCursor).or (m.fs.scanDown (m.fs.numBlocks - 1)) with
  | none => simp
  | some block =>
    have hfound : m.fs.isAlloc block = false ∧ poolStart ≤ block ∧ block < m.fs.numBlocks := by
      rcases Option.or_eq_some_iff.mp hs with hs | ⟨-,hs⟩ <;> exact scanDown_spec hs
    exact ⟨trades_claim h hfound.1 hfound.2.1 hfound.2.2,rfl⟩

end FsM

end LiberSystem
