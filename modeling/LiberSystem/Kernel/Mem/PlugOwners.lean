import LiberSystem.Kernel.Mem.PlugRegion
import LiberSystem.Lib.Custody
import LiberSystem.Lib.Ranges

/-!
# Plugged frames have one owner

`online` looks at the blocks under the lock, maps their pages without it and sets their bits under
it again.
-/

namespace LiberSystem.Hotplug

open Function Option List Hotplug.World Table Region

variable {arch : Arch} {s t u : World} {e : Event} {regions regions' : Table} {r r' : Region}
  {c : Caller} {call : Call} {i j f g phys p base size first count pages : Nat}

/-! ### The table -/

namespace Table

theorem lt_of_region (h : regions.region i = some r) : i < regions.length := by
  by_contra hge
  rw [region,getD_eq_getElem?_getD,getElem?_eq_none (Nat.le_of_not_lt hge)] at h
  cases h

theorem region_set (hi : i < regions.length) (r : Region) (j : Nat) :
    region (regions.set i (some r)) j = if j = i then some r else regions.region j := by
  rw [region,region,getD_eq_getElem?_getD,getD_eq_getElem?_getD]
  by_cases hj : j = i
  · rw [if_pos hj,hj,getElem?_set_self hi]
    rfl
  · rw [if_neg hj,getElem?_set_ne (Ne.symm hj)]

theorem take_some (h : regions.take = some (phys, regions')) :
    ∃ i r r', regions.region i = some r ∧ r.take = some (phys, r') ∧
      regions' = regions.set i (some r') := by
  induction regions generalizing regions' with
  | nil => cases h
  | cons slot rest ih =>
    rw [take] at h
    split at h
    · next r' hslot =>
      obtain ⟨r,hr,hr'⟩ := bind_eq_some_iff.mp hslot
      obtain ⟨rfl,rfl⟩ := h
      exact ⟨0,r,_,hr,hr',rfl⟩
    · obtain ⟨⟨q,rest'⟩,hrest,heq⟩ := map_eq_some_iff.mp h
      obtain ⟨rfl,rfl⟩ := heq
      obtain ⟨i,r,r',hr,hr',rfl⟩ := ih hrest
      exact ⟨i + 1,r,r',hr,hr',rfl⟩

theorem give_some (h : regions.give phys = some regions') :
    ∃ i r, regions.region i = some r ∧ r.contains phys ∧
      regions' = regions.set i (some (r.give phys)) := by
  induction regions generalizing regions' with
  | nil => cases h
  | cons slot rest ih =>
    have hlater : ∀ {rest'}, give rest phys = some rest' →
        ∃ i r, region (slot :: rest) i = some r ∧ r.contains phys ∧
          slot :: rest' = (slot :: rest).set i (some (r.give phys)) := by
      intro rest' hrest
      obtain ⟨i,r,hr,hc,rfl⟩ := ih hrest
      exact ⟨i + 1,r,hr,hc,rfl⟩
    cases slot with
    | none =>
      obtain ⟨rest',hrest,rfl⟩ := map_eq_some_iff.mp h
      exact hlater hrest
    | some r =>
      rw [give] at h
      split at h
      · next hc =>
        cases h
        exact ⟨0,r,rfl,hc,rfl⟩
      · obtain ⟨rest',hrest,rfl⟩ := map_eq_some_iff.mp h
        exact hlater hrest

theorem place_ok (h : regions.place base size r' = .ok (i, regions')) :
    i < regions.length ∧ regions.region i = none ∧ regions' = regions.set i (some r') ∧
      ∀ j r, regions.region j = some r → Apart (base, base + size) (r.base, r.base + r.pages * PAGE)
    := by
  rw [place] at h
  split at h
  · cases h
  next hover =>
  split at h
  · cases h
  next index hindex =>
  obtain ⟨rfl,rfl⟩ := h
  obtain ⟨hlt,hnone,-⟩ := findIdx?_eq_some_iff_getElem.mp hindex
  refine ⟨hlt,?_,rfl,fun j r hr => ?_⟩
  · rw [region,getD_eq_getElem?_getD,getElem?_eq_getElem hlt]
    exact isNone_iff_eq_none.mp hnone
  by_contra hap
  refine hover (any_eq_true.mpr ⟨some r,?_,?_⟩)
  · have hj := lt_of_region hr
    rw [region,getD_eq_getElem?_getD,getElem?_eq_getElem hj] at hr
    exact hr ▸ getElem_mem hj
  · simp only [Apart,not_or,Nat.not_le] at hap
    simp only [any_some,Bool.and_eq_true,decide_eq_true_eq]
    omega

theorem span_ok (h : regions.span i first count = .ok (base, pages)) :
    ∃ r, regions.region i = some r ∧ r.Spans first count base pages := by
  rw [span] at h
  split at h
  · cases h
  next r hr =>
  split at h
  · cases h
  next hin =>
  simp only [not_or,Nat.not_lt,gt_iff_lt] at hin
  simp only [Except.ok.injEq,Prod.mk.injEq] at h
  exact ⟨r,hr,h.1.symm,h.2.symm,hin.2⟩

structure Frame (regions : Table) (i f p : Nat) (r : Region) : Prop where
  region : regions.region i = some r
  online : r.frameOnline f = true
  address : p = r.base + f * PAGE

def Holds (regions : Table) (p : Nat) : Prop := ∃ i r f, regions.Frame i f p r

def Out (regions : Table) (p : Nat) : Prop := ∃ i r f, regions.Frame i f p r ∧ r.bit f = false

def Keeps (regions regions' : Table) : Prop :=
  ∀ i r, regions.region i = some r → ∃ r', regions'.region i = some r' ∧ r.SameShape r'

theorem Keeps.set (hr : regions.region i = some r) (hs : r.SameShape r') :
    Keeps regions (regions.set i (some r')) := by
  intro j q hq
  rw [region_set (lt_of_region hr)]
  by_cases hj : j = i
  · subst hj
    cases hr.symm.trans hq
    exact ⟨r',if_pos rfl,hs⟩
  · exact ⟨q,by rw [if_neg hj,hq],rfl,rfl,rfl,rfl⟩

/-- The regions are sound, and no two of them overlap. -/
structure Ok (regions : Table) : Prop where
  ok : ∀ i r, regions.region i = some r → r.Ok
  apart : ∀ i j r r', regions.region i = some r → regions.region j = some r' → i ≠ j →
    Apart (r.base, r.base + r.pages * PAGE) (r'.base, r'.base + r'.pages * PAGE)

namespace Ok

variable (h : regions.Ok)
include h

theorem set (hr : regions.region i = some r) (hok : r'.Ok)
    (hs : r.SameShape r') : Ok (regions.set i (some r')) := by
  have hold : ∀ j q, region (regions.set i (some r')) j = some q →
      q.Ok ∧ ∃ q₀, regions.region j = some q₀ ∧ q.base = q₀.base ∧ q.pages = q₀.pages := by
    intro j q hq
    rw [region_set (lt_of_region hr)] at hq
    split at hq
    · next hj =>
      cases hq
      exact ⟨hok,r,hj ▸ hr,hs.base,hs.pages⟩
    · exact ⟨h.ok j q hq,q,hq,rfl,rfl⟩
  refine ⟨fun j q hq => (hold j q hq).1,fun j k q q' hq hq' hjk => ?_⟩
  obtain ⟨-,q₀,hq₀,hb,hp⟩ := hold j q hq
  obtain ⟨-,q₀',hq₀',hb',hp'⟩ := hold k q' hq'
  rw [hb,hp,hb',hp']
  exact h.apart j k q₀ q₀' hq₀ hq₀' hjk

theorem place {region : Region} (hi : i < regions.length) (hok : region.Ok)
    (hap : ∀ j r, regions.region j = some r →
      Apart (region.base, region.base + region.pages * PAGE) (r.base, r.base + r.pages * PAGE)) :
    Ok (regions.set i (some region)) := by
  refine ⟨fun j q hq => ?_,fun j k q q' hq hq' hjk => ?_⟩
  · rw [region_set hi] at hq
    split at hq
    · cases hq
      exact hok
    · exact h.ok j q hq
  rw [region_set hi] at hq hq'
  split at hq <;> split at hq'
  · next hj hk => exact absurd (hj.trans hk.symm) hjk
  · cases hq
    exact hap k q' hq'
  · cases hq'
    exact (hap j q hq).symm
  · exact h.apart j k q q' hq hq' hjk

theorem frame_unique (hf : regions.Frame i f p r) (hg : regions.Frame j g p r') :
    i = j ∧ r = r' ∧ f = g := by
  have hlt := (h.ok i r hf.region).lt_pages hf.online
  have hlt' := (h.ok j r' hg.region).lt_pages hg.online
  have hp := hf.address
  have hp' := hg.address
  simp only [PAGE] at hp hp'
  have hij : i = j := by
    by_contra hij
    have := h.apart i j r r' hf.region hg.region hij
    simp only [Apart,PAGE] at this
    omega
  subst hij
  cases hf.region.symm.trans hg.region
  exact ⟨rfl,rfl,by omega⟩

end Ok

theorem Out.set (hout : regions.Out p) (hr : regions.region i = some r) (hs : r.SameShape r')
    (hkeep : ∀ f, p = r.base + f * PAGE → r.frameOnline f → r.bit f = false →
      r'.frameOnline f ∧ r'.bit f = false) : Table.Out (regions.set i (some r')) p := by
  obtain ⟨j,q,f,hf,hbit⟩ := hout
  have hlt := lt_of_region hr
  by_cases hj : j = i
  · subst hj
    cases hr.symm.trans hf.region
    obtain ⟨hon,hbit'⟩ := hkeep f hf.address hf.online hbit
    refine ⟨j,r',f,⟨?_,hon,hs.base ▸ hf.address⟩,hbit'⟩
    rw [region_set hlt,if_pos rfl]
  · refine ⟨j,q,f,⟨?_,hf.online,hf.address⟩,hbit⟩
    rw [region_set hlt,if_neg hj]
    exact hf.region

end Table

/-! ### Who has a page -/

namespace Call

/-- The pages that a call has mapped, or has still to unmap. -/
def Holds : Call → Nat → Prop
  | .map _ _ _ base _ done, p => ∃ i < done, p = base + i * PAGE
  | .unmap base pages done _, p => ∃ i, done ≤ i ∧ i < pages ∧ p = base + i * PAGE
  | _, _ => False

/-- The numbers that a call carries from section to section still fit the table. -/
def Fits (regions : Table) : Call → Prop
  | .place base size region =>
    region.Ok ∧ region.base = base ∧ region.pages * PAGE = size ∧
      ∀ f, region.frameOnline f = false
  | .look index first count base pages | .offline index first count base pages =>
    ∃ r, regions.region index = some r ∧ r.Spans first count base pages
  | .map index first count base pages done =>
    done ≤ pages ∧ ∃ r, regions.region index = some r ∧ r.Spans first count base pages
  | .idle _ | .unmap _ _ _ _ => True

theorem Fits.mono (h : call.Fits regions) (hk : regions.Keeps regions') : call.Fits regions' := by
  have hspan : ∀ {i first count base pages : Nat},
      (∃ r, regions.region i = some r ∧ r.Spans first count base pages) →
      ∃ r, regions'.region i = some r ∧ r.Spans first count base pages := by
    rintro i first count base pages ⟨r,hr,hsp⟩
    obtain ⟨r',hr',hs⟩ := hk i r hr
    exact ⟨r',hr',hsp.of_sameShape hs⟩
  cases call with
  | idle last | unmap base pages done answer => trivial
  | place base size region => exact h
  | look index first count base pages | offline index first count base pages => exact hspan h
  | map index first count base pages done => exact ⟨h.1,hspan h.2⟩

end Call

def Event.gives (p : Nat) : Event → Prop
  | .give _ phys => Region.In p PAGE phys
  | _ => False

namespace World

def Holds (s : World) : Option Caller → Nat → Prop
  | none => s.regions.Holds
  | some c => (s.calls c).Holds

structure Inv (s : World) : Prop where
  table : s.regions.Ok
  custody : Custody s.mapped s.Holds
  fits : ∀ c, (s.calls c).Fits s.regions

namespace Inv

theorem fits_setCall (h : s.Inv) (hk : s.regions.Keeps regions) (hf : call.Fits regions)
    (c' : Caller) : (update s.calls c call c').Fits regions := by
  by_cases hc : c' = c
  · rw [hc,update_self]
    exact hf
  · rw [update_of_ne hc]
    exact (h.fits c').mono hk

theorem keeps_refl : regions.Keeps regions := fun _ r hr => ⟨r,hr,rfl,rfl,rfl,rfl⟩

theorem holds_cases (s : World) (regions : Table) {m : Nat → Bool} {h : Option Caller}
    (hh : Holds ⟨regions,m,update s.calls c call⟩ h p) :
    h = none ∧ regions.Holds p ∨ h = some c ∧ call.Holds p ∨ h ≠ some c ∧ s.Holds h p := by
  cases h with
  | none => exact .inl ⟨rfl,hh⟩
  | some c' =>
    by_cases hc : c' = c
    · subst hc
      refine .inr (.inl ⟨rfl,?_⟩)
      simpa only [Holds,update_self] using hh
    · refine .inr (.inr ⟨fun heq => hc (some.inj heq),?_⟩)
      simpa only [Holds,update_of_ne hc] using hh

section

variable (h : s.Inv) {done : Nat} {room : Bool}

include h

theorem setCall (hf : call.Fits s.regions)
    (hless : ∀ p, call.Holds p → (s.calls c).Holds p) : Inv (s.setCall c call) where
  table := h.table
  custody := by
    refine h.custody.mono fun who p hp => ?_
    rcases holds_cases s s.regions hp with ⟨rfl,hw⟩ | ⟨rfl,hw⟩ | ⟨-,hw⟩
    · exact hw
    · exact hless p hw
    · exact hw
  fits := h.fits_setCall keeps_refl hf

theorem setRegions (hok : regions.Ok) (hk : s.regions.Keeps regions)
    (hless : ∀ p, regions.Holds p → s.regions.Holds p) {answer : Answer} :
    Inv ((s.setRegions regions).setCall c (.idle answer)) where
  table := hok
  custody := by
    refine h.custody.mono fun who p hp => ?_
    rcases holds_cases s regions hp with ⟨rfl,hw⟩ | ⟨rfl,hw⟩ | ⟨-,hw⟩
    · exact hless p hw
    · exact hw.elim
    · exact hw
  fits := h.fits_setCall hk trivial

theorem setRegion (hr : s.regions.region i = some r) (hok : r'.Ok)
    (hs : r.SameShape r') (hon : r'.frameOnline = r.frameOnline) {answer : Answer} :
    Inv ((s.setRegions (s.regions.set i (some r'))).setCall c (.idle answer)) := by
  refine h.setRegions (h.table.set hr hok hs) (.set hr hs) ?_
  rintro p ⟨j,q,f,hq,honq,rfl⟩
  rw [region_set (lt_of_region hr)] at hq
  split at hq
  · cases hq
    exact ⟨i,r,f,hr,hon ▸ honq,by rw [hs.base]⟩
  · exact ⟨j,q,f,hq,honq,rfl⟩

/-! ### The sections of the calls -/

theorem place {region : Region} (hf : (Call.place base size region).Fits s.regions)
    (heq : s.regions.place base size region = .ok (i, regions)) {answer : Answer} :
    Inv ((s.setRegions regions).setCall c (.idle answer)) := by
  obtain ⟨hok,rfl,rfl,hoff⟩ := hf
  obtain ⟨hlt,hnone,rfl,hap⟩ := place_ok heq
  refine h.setRegions (h.table.place hlt hok hap) ?_ ?_
  · intro j r hr
    have hj : j ≠ i := by
      rintro rfl
      cases hnone.symm.trans hr
    exact ⟨r,by rw [region_set hlt,if_neg hj,hr],rfl,rfl,rfl,rfl⟩
  · rintro p ⟨j,q,f,hq,honq,rfl⟩
    rw [region_set hlt] at hq
    split at hq
    · cases hq
      rw [hoff] at honq
      cases honq
    · exact ⟨j,q,f,hq,honq,rfl⟩

theorem mapPage (hcall : s.calls c = .map i first count base pages done)
    (hlt : done < pages) (hfree : s.mapped (base + done * PAGE) = false) :
    Inv ((s.setMapped (base + done * PAGE) true).setCall c
      (.map i first count base pages (done + 1))) where
  table := h.table
  custody := by
    refine h.custody.acquire (a := some c) hfree fun who p hp => ?_
    rcases holds_cases s s.regions hp with ⟨rfl,hw⟩ | ⟨rfl,k,hk,rfl⟩ | ⟨-,hw⟩
    · exact .inl hw
    · rcases Nat.lt_succ_iff_lt_or_eq.mp hk with hk | rfl
      · refine .inl ?_
        rw [Holds,hcall]
        exact ⟨k,hk,rfl⟩
      · exact .inr ⟨rfl,rfl⟩
    · exact .inl hw
  fits := by
    have hfits := h.fits c
    rw [hcall] at hfits
    exact h.fits_setCall keeps_refl ⟨hlt,hfits.2⟩

theorem unmapPage {answer : Answer}
    (hcall : s.calls c = .unmap base pages done answer) (hlt : done < pages) :
    Inv ((s.setMapped (base + done * PAGE) false).setCall c
      (.unmap base pages (done + 1) answer)) where
  table := h.table
  custody := by
    have hholds : s.Holds (some c) (base + done * PAGE) := by
      rw [Holds,hcall]
      exact ⟨done,le_rfl,hlt,rfl⟩
    refine h.custody.release hholds (fun who p hp => ?_) fun hp => ?_
    · rcases holds_cases s s.regions hp with ⟨rfl,hw⟩ | ⟨rfl,k,hk,hkp,rfl⟩ | ⟨-,hw⟩
      · exact hw
      · rw [Holds,hcall]
        exact ⟨k,Nat.le_of_succ_le hk,hkp,rfl⟩
      · exact hw
    · rcases holds_cases s s.regions hp with ⟨hne,-⟩ | ⟨-,k,hk,hkp,heq⟩ | ⟨hne,-⟩
      · cases hne
      · simp only [PAGE] at heq
        omega
      · exact hne rfl
  fits := h.fits_setCall keeps_refl trivial

section

variable (hcall : s.calls c = .map i first count base pages pages)
  (hr : s.regions.region i = some r) (hsp : r.Spans first count base pages)
include hcall hr hsp

theorem offline_of_mapped (hin : In (first * r.blockPages) pages f) : r.frameOnline f = false := by
  by_contra hon
  have haddr : r.base + f * PAGE = base + (f - first * r.blockPages) * PAGE := by
    rw [hsp.page_eq,Nat.add_sub_cancel' hin.1]
  have hcaller : s.Holds (some c) (r.base + f * PAGE) := by
    rw [Holds,hcall]
    exact ⟨f - first * r.blockPages,by omega,haddr⟩
  have htable : s.Holds none (r.base + f * PAGE) := ⟨i,r,f,hr,Bool.eq_true_of_not_eq_false hon,rfl⟩
  cases h.custody.one _ _ _ htable hcaller

theorem bringOnline :
    Inv ((s.setRegion i (r.bringOnline base pages first count)).setCall c (.idle .changed)) := by
  obtain ⟨hok,hs,-,hon⟩ := bringOnline_spec (h.table.ok i r hr) hsp
    fun f hin => h.offline_of_mapped hcall hr hsp hin
  refine ⟨h.table.set hr hok hs,?_,h.fits_setCall (.set hr hs) trivial⟩
  refine h.custody.pass (a := some c) (b := none) fun who p hp => ?_
  rcases holds_cases s (s.regions.set i _) hp with ⟨rfl,hw⟩ | ⟨rfl,hw⟩ | ⟨-,hw⟩
  · obtain ⟨j,q,f,hq,honq,rfl⟩ := hw
    rw [region_set (lt_of_region hr)] at hq
    split at hq
    · cases hq
      rw [hon] at honq
      split at honq
      · next hin =>
        refine .inr ⟨rfl,?_,fun hidle => ?_⟩
        · rw [Holds,hcall]
          refine ⟨f - first * r.blockPages,by omega,?_⟩
          rw [hsp.page_eq,Nat.add_sub_cancel' hin.1,hs.base]
        · rcases holds_cases s (s.regions.set i _) hidle with ⟨hne,-⟩ | ⟨-,hidle⟩ | ⟨hne,-⟩
          · cases hne
          · exact hidle
          · exact hne rfl
      · exact .inl ⟨i,r,f,hr,honq,by rw [hs.base]⟩
    · exact .inl ⟨j,q,f,hq,honq,rfl⟩
  · exact hw.elim
  · exact .inl hw

end

theorem takeOffline (hr : s.regions.region i = some r) (hsp : r.Spans first count base pages)
    (heq : r.takeOffline base pages first count = .ok r') :
    Inv ((s.setRegion i r').setCall c (.unmap base pages 0 .changed)) := by
  obtain ⟨hok,hs,hall,-,hon⟩ := takeOffline_spec (h.table.ok i r hr) hsp heq
  have hrok := h.table.ok i r hr
  have htable' := h.table.set hr hok hs
  refine ⟨htable',?_,h.fits_setCall (.set hr hs) trivial⟩
  refine h.custody.pass (a := none) (b := some c) fun who p hp => ?_
  -- What the table has now it had before, outside the span.
  have hless : ∀ {q}, Table.Holds (s.regions.set i (some r')) q → s.regions.Holds q := by
    rintro q ⟨j,q',f,hq,honq,rfl⟩
    rw [region_set (lt_of_region hr)] at hq
    split at hq
    · cases hq
      rw [hon] at honq
      split at honq
      · cases honq
      · exact ⟨i,r,f,hr,honq,by rw [hs.base]⟩
    · exact ⟨j,q',f,hq,honq,rfl⟩
  rcases holds_cases s (s.regions.set i (some r')) hp with ⟨rfl,hw⟩ | ⟨rfl,hw⟩ | ⟨-,hw⟩
  · exact .inl (hless hw)
  · obtain ⟨k,-,hk,rfl⟩ := hw
    have hin : In (first * r.blockPages) pages (first * r.blockPages + k) := by
      constructor <;> omega
    have hframe : s.regions.Frame i (first * r.blockPages + k) (base + k * PAGE) r :=
      ⟨hr,hrok.online_of_bit _ (hall _ hin),hsp.page_eq k⟩
    refine .inr ⟨rfl,⟨i,r,_,hframe⟩,?_⟩
    rintro ⟨j,q,f,hq,honq,haddr⟩
    rw [show regions _ = s.regions.set i (some r') from rfl,region_set (lt_of_region hr)] at hq
    split at hq
    · cases hq
      have hf : f = first * r.blockPages + k := by
        rw [hframe.address,hs.base] at haddr
        simp only [PAGE] at haddr
        omega
      rw [hon,hf,if_pos hin] at honq
      cases honq
    · next hj =>
      exact hj (h.table.frame_unique hframe ⟨hq,honq,haddr⟩).1.symm
  · exact .inl hw

theorem answer (answer : Answer) : Inv (s.setCall c (.idle answer)) :=
  h.setCall trivial fun _ hp => hp.elim

theorem advance (hst : s.advance arch c room (s.calls c) = some t) :
    Inv t ∧ ∀ p, s.regions.Out p → t.regions.Out p := by
  have hfits := h.fits c
  generalize hcall : s.calls c = call at hst hfits
  cases call with
  | idle last =>
    cases hst
  | place base size region =>
    rw [World.advance] at hst
    split at hst <;> cases hst
    · exact ⟨h.answer _,fun _ => id⟩
    next heq =>
    refine ⟨h.place hfits heq,fun p hout => ?_⟩
    obtain ⟨hlt,hnone,rfl,-⟩ := place_ok heq
    obtain ⟨j,q,f,hf,hbit⟩ := hout
    refine ⟨j,q,f,⟨?_,hf.online,hf.address⟩,hbit⟩
    refine (region_set hlt region j).trans ?_
    rw [if_neg fun hj => ?_,hf.region]
    rw [← hj,hf.region] at hnone
    cases hnone
  | look index first count base pages =>
    rw [World.advance] at hst
    split at hst <;> cases hst
    · exact ⟨h.answer _,fun _ => id⟩
    · refine ⟨h.setCall ⟨Nat.zero_le _,hfits⟩ fun p ⟨k,hk,_⟩ => ?_,fun _ => id⟩
      exact absurd hk (Nat.not_lt_zero k)
  | map index first count base pages done =>
    obtain ⟨hdone,r,hr,hsp⟩ := hfits
    rw [World.advance] at hst
    split at hst
    · cases hst
      exact ⟨h.answer _,fun _ => id⟩
    split at hst
    · next hlt =>
      split at hst <;> cases hst
      · -- The pages that were mapped are the ones to unmap.
        refine ⟨h.setCall trivial fun p hp => ?_,fun _ => id⟩
        obtain ⟨k,-,hk,rfl⟩ := hp
        rw [hcall]
        exact ⟨k,hk,rfl⟩
      · next hfree =>
        rw [Bool.or_eq_true,not_or] at hfree
        exact ⟨h.mapPage hcall hlt (Bool.eq_false_of_not_eq_true hfree.1),fun _ => id⟩
    next hge =>
    obtain rfl : done = pages := Nat.le_antisymm hdone (Nat.le_of_not_lt hge)
    rw [hr] at hst
    cases hst
    have hoff := fun f hin => h.offline_of_mapped (f := f) hcall hr hsp hin
    obtain ⟨-,hs,hbit,hon⟩ := bringOnline_spec (h.table.ok _ r hr) hsp hoff
    refine ⟨h.bringOnline hcall hr hsp,fun p hout => hout.set hr hs fun f _ hf hclear => ?_⟩
    have hin : ¬ In (first * r.blockPages) done f := by
      intro hin
      rw [hoff f hin] at hf
      cases hf
    rw [hon,hbit,if_neg hin,if_neg hin]
    exact ⟨hf,hclear⟩
  | offline index first count base pages =>
    obtain ⟨r,hr,hsp⟩ := hfits
    rw [World.advance,hr] at hst
    dsimp only at hst
    split at hst <;> cases hst
    · exact ⟨h.answer _,fun _ => id⟩
    next heq =>
    obtain ⟨-,hs,hall,hbit,hon⟩ := takeOffline_spec (h.table.ok _ r hr) hsp heq
    refine ⟨h.takeOffline hr hsp heq,fun p hout => hout.set hr hs fun f _ hf hclear => ?_⟩
    have hin : ¬ In (first * r.blockPages) pages f := by
      intro hin
      rw [hall f hin] at hclear
      cases hclear
    rw [hon,hbit,if_neg hin,if_neg hin]
    exact ⟨hf,hclear⟩
  | unmap base pages done answer =>
    rw [World.advance] at hst
    split at hst <;> cases hst
    · next hlt => exact ⟨h.unmapPage hcall hlt.2,fun _ => id⟩
    · exact ⟨h.answer _,fun _ => id⟩

theorem register {block : Nat} {taken : List (Nat × Nat)} :
    Inv (s.setCall c (register arch s.regions base size block taken room)) := by
  rw [World.register]
  split
  · exact h.answer _
  split
  · exact h.answer _
  split
  · exact h.answer _
  · exact h.answer _
  next hcheck _ =>
  split
  · obtain ⟨hok,hpages⟩ := new_ok hcheck
    exact h.setCall ⟨hok,rfl,hpages,frameOnline_new _ _ _⟩ fun _ hp => hp.elim
  · exact h.answer _

/-- A frame that is out stays out while no address of it is given back. -/
theorem step (hst : s.step arch e = some t) :
    Inv t ∧ ∀ p, s.regions.Out p → ¬ e.gives p → t.regions.Out p := by
  cases e with
  | go c room =>
    obtain ⟨hinv,hout⟩ := h.advance hst
    exact ⟨hinv,fun p hp _ => hout p hp⟩
  | register c base size block taken room =>
    rw [step] at hst
    split at hst <;> cases hst
    exact ⟨h.register,fun _ hout _ => hout⟩
  | online c index first count | offline c index first count =>
    rw [step] at hst
    split at hst
    · split at hst <;> cases hst
      · exact ⟨h.answer _,fun _ hout _ => hout⟩
      · next hspan =>
        exact ⟨h.setCall (span_ok hspan) fun _ hp => hp.elim,fun _ hout _ => hout⟩
    · cases hst
  | take c =>
    rw [step] at hst
    split at hst
    · split at hst <;> cases hst
      · exact ⟨h.answer _,fun _ hout _ => hout⟩
      next htake =>
      obtain ⟨i,r,r',hr,hr',rfl⟩ := take_some htake
      obtain ⟨f,-,-,hok,hs,hon,hbit⟩ := take_spec (h.table.ok i r hr) hr'
      refine ⟨h.setRegion hr hok hs hon,fun p hout _ => ?_⟩
      refine hout.set hr hs fun g _ hg hclear => ⟨hon ▸ hg,?_⟩
      rw [hbit,update_apply,hclear,ite_self]
    · cases hst
  | give c phys =>
    rw [step] at hst
    split at hst
    · split at hst <;> cases hst
      · exact ⟨h.answer _,fun _ hout _ => hout⟩
      next hgive =>
      obtain ⟨i,r,hr,hc,rfl⟩ := give_some hgive
      obtain ⟨hok,hs,hon,hbit⟩ := give_spec (h.table.ok i r hr) hc
      refine ⟨h.setRegion hr hok hs hon,fun p hout hgives => ?_⟩
      refine hout.set hr hs fun g haddr hg hclear => ⟨hon ▸ hg,hbit g hclear ?_⟩
      rw [← haddr]
      exact hgives
    · cases hst

end

theorem start (mapped : Nat → Bool) : Inv (start mapped) := by
  have hnone : ∀ i, (World.start mapped).regions.region i = none := by
    intro i
    change (replicate MAX_REGIONS none).getD i none = none
    rw [getD_eq_getElem?_getD,getElem?_replicate]
    split <;> rfl
  have hno : ∀ who p, ¬ (World.start mapped).Holds who p := by
    rintro (_ | c) p hp
    · obtain ⟨i,r,f,hr,-⟩ := hp
      cases (hnone i).symm.trans hr
    · exact hp.elim
  refine ⟨⟨fun i r hr => ?_,fun i j r r' hr => ?_⟩,
    ⟨fun who p hp => absurd hp (hno who p),fun who _ p hp => absurd hp (hno who p)⟩,
    fun c => trivial⟩
  · cases (hnone i).symm.trans hr
  · cases (hnone i).symm.trans hr

end Inv

/-! ### Frames that are out -/

theorem Inv.take_out (h : s.Inv) (hst : s.step arch (.take c) = some t)
    (htook : t.calls c = .idle (.took (some p))) : ¬ s.regions.Out p ∧ t.regions.Out p := by
  rw [World.step] at hst
  split at hst
  · split at hst <;> cases hst
    · simp [World.setCall] at htook
    next phys regions htake =>
    obtain rfl : phys = p := by simpa [World.setCall] using htook
    obtain ⟨i,r,r',hr,hr',rfl⟩ := take_some htake
    obtain ⟨f,hset,haddr,-,hs,hon,hbit⟩ := take_spec (h.table.ok i r hr) hr'
    have hf : s.regions.Frame i f phys r := ⟨hr,(h.table.ok i r hr).online_of_bit f hset,haddr⟩
    constructor
    · rintro ⟨j,q,g,hg,hclear⟩
      obtain ⟨-,rfl,rfl⟩ := h.table.frame_unique hf hg
      rw [hset] at hclear
      cases hclear
    · refine ⟨i,r',f,⟨?_,hon ▸ hf.online,hs.base ▸ haddr⟩,?_⟩
      · exact (region_set (lt_of_region hr) r' i).trans (if_pos rfl)
      · rw [hbit,update_self]
  · cases hst

/-- Plugged frames have one owner. In every state of every run, whatever calls are in progress, no
two regions overlap, the counts count, and a free frame is in an online block, all of whose pages
are mapped. A frame that has been handed out is not handed out again while no address of it has been
given back. -/
theorem plugged_frames_one_owner {mapped : Nat → Bool}
    (h : Reaches (step arch) (fun _ _ => True) (start mapped) s) :
    (∀ i j r r', s.regions.region i = some r → s.regions.region j = some r' → i ≠ j →
      Apart (r.base, r.base + r.pages * PAGE) (r'.base, r'.base + r'.pages * PAGE)) ∧
    (∀ i r, s.regions.region i = some r → r.freePages = (range r.pages).countP r.bit ∧
      r.onlinePages = (range r.pages).countP r.frameOnline ∧
      ∀ f, r.bit f = true → r.frameOnline f = true ∧
        ∀ g, r.blockOf g = r.blockOf f → s.mapped (r.base + g * PAGE) = true) ∧
    ∀ c t p, s.step arch (.take c) = some t → t.calls c = .idle (.took (some p)) →
      ∀ u, Reaches (step arch) (fun _ e => ¬ e.gives p) t u →
      ∀ c' v, u.step arch (.take c') = some v → v.calls c' ≠ .idle (.took (some p)) := by
  have hinv : s.Inv := h.invariant (.start mapped) fun s e t hs _ hst => (hs.step hst).1
  refine ⟨hinv.table.apart,fun i r hr => ?_,fun c t p hst htook u hrun c' v hst' htook' => ?_⟩
  · have hok := hinv.table.ok i r hr
    refine ⟨hok.freePages_eq,hok.onlinePages_eq,fun f hf => ?_⟩
    have hon := hok.online_of_bit f hf
    refine ⟨hon,fun g hg => hinv.custody.live_of none _ ⟨i,r,g,hr,?_,rfl⟩⟩
    rw [frameOnline,hg]
    exact hon
  · have hstart : t.Inv ∧ t.regions.Out p := ⟨(hinv.step hst).1,(hinv.take_out hst htook).2⟩
    have hend := hrun.invariant (P := fun u => u.Inv ∧ u.regions.Out p) hstart
      fun u e w hu hgives hstep => (hu.1.step hstep).imp id fun hout => hout p hu.2 hgives
    exact (hend.1.take_out hst' htook').1 hend.2

/-- Two blocks come online, and one of their frames is handed out while another caller is in the
middle of an `online` of the same blocks. -/
theorem plugged_frames_one_owner_two :
    ∃ s r t, Reaches (step .x86_64) (fun _ _ => True) (start fun _ => false) s ∧
      s.regions.region 0 = some r ∧ r.freePages = 2 ∧
      r.freePages = (range r.pages).countP r.bit ∧
      s.calls 1 = .map 0 0 2 0x100000000 2 0 ∧
      s.step .x86_64 (.take 0) = some t ∧ t.calls 0 = .idle (.took (some 0x100000000)) ∧
      ∀ u, Reaches (step .x86_64) (fun _ e => ¬ e.gives 0x100000000) t u →
        ∀ c' v, u.step .x86_64 (.take c') = some v →
          v.calls c' ≠ .idle (.took (some 0x100000000)) := by
  obtain ⟨s,hreach,hfree,hcall,htake⟩ : ∃ s,
      Reaches (step .x86_64) (fun _ _ => True) (start fun _ => false) s ∧
      (s.regions.region 0).map freePages = some 2 ∧
      s.calls 1 = .map 0 0 2 0x100000000 2 0 ∧
      (s.step .x86_64 (.take 0)).map (fun t => t.calls 0) =
        some (.idle (.took (some 0x100000000))) :=
    exists_reaches [.register 0 0x100000000 8192 4096 [] true,.go 0 true,.online 0 0 0 2,
      .online 1 0 0 2,.go 0 true,.go 1 true,.go 0 true,.go 0 true,.go 0 true] (by decide +kernel)
  obtain ⟨r,hr,hfree⟩ := map_eq_some_iff.mp hfree
  obtain ⟨t,ht,htook⟩ := map_eq_some_iff.mp htake
  obtain ⟨-,hcount,honce⟩ := plugged_frames_one_owner hreach
  exact ⟨s,r,t,hreach,hr,hfree,(hcount 0 r hr).1,hcall,ht,htook,honce 0 t _ ht htook⟩

end World

end LiberSystem.Hotplug
