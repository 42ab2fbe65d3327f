import LiberSystem.Dma.Iova
import LiberSystem.Lib.Runs
import Mathlib.Order.Bounds.Defs
import Mathlib.Order.MinMax

/-!
# First fit over whole runs

As long as the search ends before its sums pass the top of the address space, every range handed
out lies in the window and meets nothing else, and an allocation answers with the lowest address
there is.
-/

namespace LiberSystem.Dma.IovaSpace

open OrdMap List

variable (s : IovaSpace)

/-- What an allocation has to keep clear of. -/
def Held (base len : ℕ) : Prop :=
  Reserved.mk base len ∈ s.reserved ++ s.quarantined ∨ s.taken.get? base = some len

def Clear (at' len : ℕ) : Prop :=
  ∀ b l, s.Held b l → Apart (range at' len) (range b l)

def Inside (at' len : ℕ) : Prop := s.base ≤ at' ∧ at' + len ≤ s.base + s.len

/-- The addresses an allocation may answer with. -/
def Free (len alignment at' : ℕ) : Prop :=
  at' ≠ 0 ∧ alignment ∣ at' ∧ s.Inside at' len ∧ s.Clear at' len

/-- Rounding up to the alignment, from wherever the search may stand, stays in 64 bits. -/
def Roomy (alignment : ℕ) : Prop :=
  s.base + s.len + alignment ≤ u64Max ∧ ∀ r ∈ s.reserved, r.base + r.len + alignment ≤ u64Max

/-- The search from `first` on ends at a free address, or there is room behind it. -/
def Ends (len alignment first : ℕ) : Prop :=
  (∃ a, first ≤ a ∧ s.Free len alignment a) ∨ s.Roomy alignment

variable {s s' : IovaSpace} {at' len alignment a : ℕ}

theorem Tidy.clear (h : s.Tidy) (hno : s.overlapsAny at' len = false) (hpos : 0 < len)
    (hfit : at' + len ≤ u64Max) : s.Clear at' len := by
  obtain ⟨htaken,hquar⟩ := h.apart_of_overlapsAny hno hfit
  rintro b l (hregion | hb)
  · rcases mem_append.mp hregion with hres | hq
    · simp only [overlapsAny,Bool.or_eq_false_iff] at hno
      have hmiss : ¬ (at' < saturatingAdd b l ∧ b < saturatingAdd at' len) := by
        simpa using any_eq_false.mp hno.1.1 _ hres
      simp only [saturatingAdd] at hmiss
      simp only [Apart,range]
      omega
    · exact hquar _ hq
  · exact (htaken b l hb).symm

theorem not_clear_of_overlapsAny (h : s.overlapsAny at' len = true) : ¬ s.Clear at' len := by
  have hheld : ∃ b l, s.Held b l ∧ at' < saturatingAdd b l ∧ b < saturatingAdd at' len := by
    simp only [overlapsAny,touches,Bool.or_eq_true,any_eq_true,Option.any_eq_true,
      Bool.and_eq_true,decide_eq_true_eq] at h
    rcases h with (⟨r,hr,hmeet⟩ | ⟨r,hr,hmeet⟩) | ⟨⟨b,l⟩,hlast,hmeet⟩
    · exact ⟨r.base,r.len,.inl (mem_append_left _ hr),hmeet⟩
    · exact ⟨r.base,r.len,.inl (mem_append_right _ hr),hmeet⟩
    · obtain ⟨hb,hlt,-⟩ := lastBelow_eq_some hlast
      exact ⟨b,l,.inr hb,hmeet,hlt⟩
  obtain ⟨b,l,hb,hlo,hhi⟩ := hheld
  intro hclear
  have hapart := hclear b l hb
  simp only [Apart,range,saturatingAdd] at hapart hlo hhi
  omega

/-- The search steps by one, or to the end of something that holds the address. -/
def Past (s : IovaSpace) (at' past : ℕ) : Prop :=
  past = saturatingAdd at' 1 ∨ ∃ b l, s.Held b l ∧ b ≤ at' ∧ past = saturatingAdd b l

theorem past_nextFreeAfter (s : IovaSpace) (at' : ℕ) : s.Past at' (s.nextFreeAfter at') := by
  have hmax : ∀ p q, s.Past at' p → s.Past at' q → s.Past at' (max p q) := by
    intro p q hp hq
    rcases max_choice p q with hmax | hmax <;> rw [hmax] <;> assumption
  have hregions : s.Past at' ((s.reserved ++ s.quarantined).foldl (fun past r =>
      if at' ≥ r.base ∧ at' < saturatingAdd r.base r.len then
        max past (saturatingAdd r.base r.len) else past) (saturatingAdd at' 1)) := by
    refine foldlRecOn _ _ (.inl rfl) fun past hpast r hr => ?_
    split
    · next hin => exact hmax _ _ hpast (.inr ⟨r.base,r.len,.inl hr,hin.1,rfl⟩)
    · exact hpast
  unfold nextFreeAfter
  split
  · next b l hlast =>
    obtain ⟨hb,hlt,-⟩ := lastBelow_eq_some hlast
    split
    · exact hmax _ _ hregions (.inr ⟨b,l,.inr hb,Nat.le_of_lt_succ hlt,rfl⟩)
    · exact hregions
  · exact hregions

theorem not_clear_of_lt_nextFreeAfter (hlo : at' < a) (hhi : a < s.nextFreeAfter at')
    (hpos : 0 < len) : ¬ s.Clear a len := by
  intro hclear
  rcases s.past_nextFreeAfter at' with heq | ⟨b,l,hb,hle,heq⟩
  · rw [heq,saturatingAdd] at hhi
    omega
  have hapart := hclear b l hb
  rw [heq] at hhi
  simp only [Apart,range,saturatingAdd] at hapart hhi
  omega

theorem roundUp_spec (hpos : 0 < alignment) (hmod : a % alignment ≠ 0) :
    alignment ∣ a + (alignment - a % alignment) ∧
      ∀ b, a ≤ b → alignment ∣ b → a + (alignment - a % alignment) ≤ b := by
  have hdiv := Nat.div_add_mod a alignment
  have hnext : a + (alignment - a % alignment) = alignment * (a / alignment + 1) := by
    have := Nat.mod_lt a hpos
    rw [Nat.mul_succ]
    omega
  rw [hnext]
  refine ⟨⟨_,rfl⟩,?_⟩
  rintro b hb ⟨k,rfl⟩
  refine Nat.mul_le_mul_left _ (Nat.lt_of_mul_lt_mul_left (a := alignment) ?_)
  omega

theorem nextMultipleOf_spec {n : ℕ} (hpos : 0 < alignment)
    (h : nextMultipleOf a alignment = some n) :
    alignment ∣ n ∧ ∀ b, a ≤ b → alignment ∣ b → n ≤ b := by
  rw [nextMultipleOf] at h
  split at h
  · next hdvd =>
    cases h
    exact ⟨Nat.dvd_of_mod_eq_zero hdvd,fun b hb _ => hb⟩
  next hmod =>
  rw [checkedAdd] at h
  split at h
  · cases h
    exact roundUp_spec hpos hmod
  · cases h

/-- Rounding up does not overflow below a multiple, nor where there is room. -/
theorem nextMultipleOf_ne_none (hpos : 0 < alignment)
    (h : (∃ b, a ≤ b ∧ alignment ∣ b ∧ b ≤ u64Max) ∨
      (a % alignment ≠ 0 → a + alignment ≤ u64Max)) :
    nextMultipleOf a alignment ≠ none := by
  rw [nextMultipleOf]
  split
  · exact Option.some_ne_none _
  next hmod =>
  have hle : a + (alignment - a % alignment) ≤ u64Max := by
    rcases h with ⟨b,hb,hdvd,hmax⟩ | hroom
    · exact ((roundUp_spec hpos hmod).2 b hb hdvd).trans hmax
    · have := hroom hmod
      omega
  rw [checkedAdd,if_pos hle]
  exact Option.some_ne_none _

/-- An answer is the lowest address with the property; a refusal says that there is none. -/
def Lowest (P : ℕ → Prop) : Except Halt ℕ → Prop
  | .ok a => IsLeast {a | P a} a
  | .error e => e = .fault .noSpace ∧ ∀ a, ¬ P a

/-- What was handed out lies in the window, and meets nothing else. -/
structure Sound (s : IovaSpace) : Prop where
  tidy : s.Tidy
  taken : ∀ a l, s.taken.get? a = some l → s.Inside a l ∧
    ∀ r ∈ s.reserved, Apart (range a l) (range r.base r.len)
  aside : ∀ r ∈ s.quarantined, s.Inside r.base r.len

section

variable (h : s.Sound)
include h

theorem Sound.nextFreeAfter_le (hroom : s.Roomy alignment) (hat : at' + 1 ≤ s.base + s.len) :
    s.nextFreeAfter at' + alignment ≤ u64Max := by
  obtain ⟨hwindow,hreserved⟩ := hroom
  rcases s.past_nextFreeAfter at' with heq | ⟨b,l,hb,-,heq⟩ <;> rw [heq,saturatingAdd]
  · omega
  have hle : b + l + alignment ≤ u64Max := by
    rcases hb with hregion | hb
    · rcases mem_append.mp hregion with hr | hq
      · exact hreserved _ hr
      · have : b + l ≤ s.base + s.len := (h.aside _ hq).2
        omega
    · have := (h.taken b l hb).1.2
      omega
  omega

variable (hwindow : s.base + s.len ≤ u64Max)
include hwindow

/-- Each step of the search passes only addresses that are not free. -/
theorem Sound.search_lowest (hal : 0 < alignment) (hpos : 0 < len) {fuel : ℕ}
    (hends : s.Ends len alignment at') (hfuel : 0 < fuel) (hend : s.base + s.len ≤ fuel + at')
    (hdvd : alignment ∣ at') (hbase : s.base ≤ at') (hzero : at' ≠ 0) :
    Lowest (fun a => at' ≤ a ∧ s.Free len alignment a) (s.search len alignment fuel at') := by
  have hendAt : s.endAt = s.base + s.len := Nat.min_eq_left hwindow
  induction fuel generalizing at' with
  | zero => omega
  | succ fuel ih =>
    rw [search]
    split
    · next hfit =>
      have hin : at' + len ≤ s.base + s.len := by
        rw [hendAt,saturatingAdd] at hfit
        rcases hends with ⟨a,hle,-,-,hinside,-⟩ | ⟨hroom,-⟩
        · have := hinside.2
          omega
        · omega
      split
      · next hno =>
        have hclear := h.tidy.clear hno hpos (by omega)
        exact ⟨⟨le_rfl,hzero,hdvd,⟨hbase,hin⟩,hclear⟩,fun b hb => hb.1⟩
      next hmeets =>
      have hpast : ∀ a, at' ≤ a → s.Free len alignment a → s.nextFreeAfter at' ≤ a := by
        intro a hle hfree
        by_contra hbelow
        rcases Nat.eq_or_lt_of_le hle with rfl | hlo
        · exact not_clear_of_overlapsAny (Bool.eq_true_of_not_eq_false hmeets) hfree.2.2.2
        · exact not_clear_of_lt_nextFreeAfter hlo (not_le.mp hbelow) hpos hfree.2.2.2
      cases hnext : nextMultipleOf (s.nextFreeAfter at') alignment with
      | none =>
        refine absurd hnext (nextMultipleOf_ne_none hal (hends.imp ?_ fun hroom _ => ?_))
        · rintro ⟨a,hle,hfree⟩
          have := hfree.2.2.1.2
          exact ⟨a,hpast a hle hfree,hfree.2.1,by omega⟩
        · exact h.nextFreeAfter_le hroom (by omega)
      | some next =>
        obtain ⟨hnextDvd,hnextLe⟩ := nextMultipleOf_spec hal hnext
        have hone := le_nextFreeAfter.trans (le_nextMultipleOf hnext)
        rw [saturatingAdd,Nat.min_eq_left (by omega)] at hone
        have hskip : (fun a => at' ≤ a ∧ s.Free len alignment a)
            = fun a => next ≤ a ∧ s.Free len alignment a := by
          funext a
          refine propext (and_congr_left fun hfree => ⟨fun hle => ?_,fun hle => by omega⟩)
          exact hnextLe a (hpast a hle hfree) hfree.2.1
        rw [Ends,hskip] at hends
        rw [hskip]
        dsimp only
        split
        · refine ⟨rfl,fun a ha => ?_⟩
          have := ha.2.2.2.1.2
          omega
        · next hinside =>
          have hlt := lt_next hnext (not_le.mp hinside)
          exact ih hends (by omega) (by omega) hnextDvd (by omega) (by omega)
    · next hfit =>
      refine ⟨rfl,fun a ha => ?_⟩
      have := ha.2.2.2.1.2
      rw [hendAt,saturatingAdd] at hfit
      omega

theorem Sound.allocate_lowest (hpos : 0 < len) (hpow : isPowerOfTwo alignment = true)
    (hends : s.Ends len alignment 0) :
    Lowest (s.Free len alignment) ((s.allocate len alignment).map Prod.fst) := by
  have hal : alignment ≠ 0 := by
    rintro rfl
    cases hpow
  have hfloor : ∀ a, s.Free len alignment a → max s.base alignment ≤ a := fun a hfree =>
    max_le hfree.2.2.1.1 (Nat.le_of_dvd (Nat.pos_of_ne_zero hfree.1) hfree.2.1)
  rw [allocate,if_neg (by simp [hpow,hal,hpos.ne'])]
  cases hfirst : nextMultipleOf (max s.base alignment) alignment with
  | none =>
    refine absurd hfirst (nextMultipleOf_ne_none (by omega) (hends.imp ?_ fun hroom hmod => ?_))
    · rintro ⟨a,-,hfree⟩
      have := hfree.2.2.1.2
      exact ⟨a,hfloor a hfree,hfree.2.1,by omega⟩
    · obtain ⟨hroom,-⟩ := hroom
      rcases max_choice s.base alignment with hmax | hmax <;> rw [hmax] at hmod ⊢
      · omega
      · exact absurd (Nat.mod_self _) hmod
  | some first =>
    obtain ⟨hdvd,hleast⟩ := nextMultipleOf_spec (by omega) hfirst
    have hle := le_nextMultipleOf hfirst
    have hfrom : (fun a => first ≤ a ∧ s.Free len alignment a) = s.Free len alignment := by
      funext a
      exact propext ⟨And.right,fun hfree => ⟨hleast a (hfloor a hfree) hfree.2.1,hfree⟩⟩
    have hsearch := h.search_lowest hwindow (by omega) hpos
      (hends.imp_left fun hex => hex.imp fun a hfree => (congrFun hfrom a).mpr hfree.2)
      (Nat.succ_pos u64Max) (by omega) hdvd (by omega) (by omega)
    rw [hfrom] at hsearch
    dsimp only
    cases hs : s.search len alignment (u64Max + 1) first with
    | error e | ok a =>
      rw [hs] at hsearch
      exact hsearch

end

theorem Sound.insert (h : s.Sound) (hno : s.overlapsAny at' len = false) (hpos : 0 < len)
    (hfit : at' + len ≤ u64Max) (hin : s.Inside at' len) :
    Sound { s with taken := s.taken.insert at' len } := by
  refine ⟨h.tidy.insert hno hpos hfit,fun a l ha => ?_,h.aside⟩
  rw [get?_insert] at ha
  split at ha
  · next heq =>
    cases ha
    have hclear := h.tidy.clear hno hpos hfit
    rw [heq]
    exact ⟨hin,fun r hr => hclear r.base r.len (.inl (mem_append_left _ hr))⟩
  · exact h.taken a l ha

inductive Call where
  | allocate (len alignment : ℕ)
  | takeExact (at' len : ℕ)
  | release (at' : ℕ)
  | quarantine (at' : ℕ)
  deriving DecidableEq, Repr

/-- The space after a call; a call that is refused leaves it as it was. -/
def step (s : IovaSpace) : Call → Option IovaSpace
  | .allocate len alignment => some (((s.allocate len alignment).map Prod.snd).toOption.getD s)
  | .takeExact at' len => some (((s.takeExact at' len).map Prod.snd).toOption.getD s)
  | .release at' => some ((s.release at').toOption.getD s)
  | .quarantine at' => some ((s.quarantine at').toOption.getD s)

/-- The window ends within 64 bits, what is reserved is not empty, and an allocation finds a free
address or has room. -/
def Fitting (s : IovaSpace) : Call → Prop
  | .allocate len alignment =>
    s.base + s.len ≤ u64Max ∧ s.Ends len alignment 0 ∧ ∀ r ∈ s.reserved, 0 < r.len
  | _ => True

def SameWindow (s s' : IovaSpace) : Prop :=
  s'.base = s.base ∧ s'.len = s.len ∧ s'.reserved = s.reserved

theorem sound_step (h : s.Sound) (call : Call) (hok : s.Fitting call)
    (hs : s.step call = some s') : s.SameWindow s' ∧ s'.Sound := by
  have hsame : s.SameWindow s ∧ s.Sound := ⟨⟨rfl,rfl,rfl⟩,h⟩
  cases call with
  | allocate len alignment =>
    cases hs
    cases hres : s.allocate len alignment with
    | error e => exact hsame
    | ok result =>
      obtain ⟨a,s'⟩ := result
      obtain ⟨hpos,hpow,hno,rfl⟩ := allocate_ok hres
      have hlowest := h.allocate_lowest hok.1 hpos hpow hok.2.1
      rw [hres] at hlowest
      obtain ⟨⟨-,-,hin,-⟩,-⟩ := hlowest
      exact ⟨⟨rfl,rfl,rfl⟩,h.insert hno hpos (hin.2.trans hok.1) hin⟩
  | takeExact start len =>
    cases hs
    cases hres : s.takeExact start len with
    | error e => exact hsame
    | ok result =>
      obtain ⟨a,s'⟩ := result
      obtain ⟨rfl,hpos,hfit,hlo,hhi,hno,rfl⟩ := takeExact_ok hres
      exact ⟨⟨rfl,rfl,rfl⟩,h.insert hno hpos hfit ⟨hlo,hhi.trans (Nat.min_le_left _ _)⟩⟩
  | release a =>
    cases hs
    rw [release]
    split
    · exact ⟨⟨rfl,rfl,rfl⟩,h.tidy.erase a,fun b l hb => h.taken b l (get?_of_get?_erase hb),h.aside⟩
    · exact hsame
  | quarantine a =>
    cases hs
    rw [quarantine]
    split
    · next l hl =>
      exact ⟨⟨rfl,rfl,rfl⟩,h.tidy.setAside hl,fun b l hb => h.taken b l (get?_of_get?_erase hb),
        forall_mem_append.mpr ⟨h.aside,forall_mem_singleton.mpr (h.taken a l hl).1⟩⟩
    · exact hsame

/-- In every run whose allocations find a free address or have room behind what the search
passes, every range outstanding lies in the window, does not wrap and meets nothing reserved,
quarantined or outstanding, and such an allocation answers with the lowest free address, or that
there is none. Every allocation ends. -/
theorem sound_and_lowest_of_fitting_run (base len : ℕ) (reserved : List Reserved)
    (s : IovaSpace) (hrun : Reaches step Fitting (new base len reserved) s) :
    (new base len reserved).SameWindow s ∧ s.Sound ∧ ∀ n alignment,
      (0 < n → isPowerOfTwo alignment = true → s.Fitting (.allocate n alignment) →
        Lowest (s.Free n alignment) ((s.allocate n alignment).map Prod.fst)) ∧
      s.allocate n alignment ≠ .error .outOfFuel := by
  have hnew : (new base len reserved).Sound := ⟨tidy_new base len reserved,nofun,nofun⟩
  have hinv : (new base len reserved).SameWindow s ∧ s.Sound := by
    refine hrun.invariant (P := fun s => SameWindow _ s ∧ s.Sound) ⟨⟨rfl,rfl,rfl⟩,hnew⟩ ?_
    rintro s call s' ⟨⟨hbase,hlen,hreserved⟩,h⟩ hok hs
    obtain ⟨⟨hbase',hlen',hreserved'⟩,h'⟩ := sound_step h call hok hs
    exact ⟨⟨hbase'.trans hbase,hlen'.trans hlen,hreserved'.trans hreserved⟩,h'⟩
  exact ⟨hinv.1,hinv.2,fun n alignment => ⟨fun hpos hpow hok =>
    hinv.2.allocate_lowest hok.1 hpos hpow hok.2.1,allocate_ne_outOfFuel⟩⟩

/-- In the largest window a page reserved in the middle is stepped over. -/
theorem sound_and_lowest_of_fitting_run_page : ∃ s, Reaches step Fitting
    (new 0 u64Max [⟨0x2000,0x1000⟩]) s ∧ s.taken.get? 0x3000 = some 0x2000 ∧ s.Sound := by
  have hclear : (new 0 u64Max [⟨0x2000,0x1000⟩]).Clear 0x3000 0x2000 := by
    rintro b l (hres | htaken)
    · cases mem_singleton.mp hres
      exact .inr (by decide)
    · cases htaken
  have hok : (new 0 u64Max [⟨0x2000,0x1000⟩]).Fitting (.allocate 0x2000 0x1000) :=
    ⟨by decide,.inl ⟨0x3000,by decide,by decide,by decide,⟨by decide,by decide⟩,hclear⟩,
      by simp [new]⟩
  have hget : (((new 0 u64Max [⟨0x2000,0x1000⟩]).step (.allocate 0x2000 0x1000)).bind fun s =>
      s.taken.get? 0x3000) = some 0x2000 := by decide +kernel
  obtain ⟨s,hs,hget⟩ := Option.bind_eq_some_iff.mp hget
  have hrun : Reaches step Fitting (new 0 u64Max [⟨0x2000,0x1000⟩]) s :=
    Reaches.refl.tail (a := .allocate 0x2000 0x1000) hok hs
  exact ⟨s,hrun,hget,(sound_and_lowest_of_fitting_run _ _ _ s hrun).2.1⟩

/-- The end of a window up to the top of the address space saturates, and so does the end of
what does not fit into it. -/
theorem allocate_beyond_window :
    ((new (2 ^ 64 - 4096) 4096 []).allocate 8192 4096).map Prod.fst = .ok (2 ^ 64 - 4096) ∧
      ¬ (new (2 ^ 64 - 4096) 4096 []).Inside (2 ^ 64 - 4096) 8192 := by
  refine ⟨by decide +kernel,?_⟩
  simp [Inside,new]

end LiberSystem.Dma.IovaSpace
