import LiberSystem.Dma.Iommu
import Mathlib.Data.Set.BooleanAlgebra
import Mathlib.Order.CompletePartialOrder

/-!
# Completion precedes reuse

The hardware behind the backend is what a device can reach: the translations in the tables, those
cached, and which endpoint is attached to which domain.
-/

namespace LiberSystem.Dma

open List Option Bool Iommu Set OrdMap

open Proc

/-! ### The hardware -/

/-- One address of a domain resolved to one physical address. -/
structure Translation where
  domain : DomainId
  address : ℕ
  physical : ℕ

variable (domain : DomainId)

def installs (iova physical len : ℕ) : Set Translation :=
  {t | t.domain = domain ∧ ∃ i < len, t.address = iova + i ∧ t.physical = physical + i}

def under (iova len : ℕ) : Set Translation :=
  {t | t.domain = domain ∧ iova ≤ t.address ∧ t.address < iova + len}

def ofDomain : Set Translation := {t | t.domain = domain}

structure Hardware where
  table : Set Translation
  cache : Set Translation
  attached : Set (EndpointId × DomainId)
  created : Set DomainId

namespace Hardware

variable {h h' : Hardware}

def translations (h : Hardware) : Set Translation := h.table ∪ h.cache

def Resolves (h : Hardware) (endpoint : EndpointId) (t : Translation) : Prop :=
  (endpoint, t.domain) ∈ h.attached ∧ t ∈ h.translations

/-- Translations are cached, and dropped from the cache, at any time. -/
def Fills (h h' : Hardware) : Prop := ∃ cache ⊆ h.translations, h' = { h with cache := cache }

def Creates (h : Hardware) (id : DomainId) (h' : Hardware) : Prop :=
  id ∉ h.created ∧
    h' = ⟨h.table \ ofDomain id,h.cache \ ofDomain id,h.attached,insert id h.created⟩

def effect (h : Hardware) : (r : Request) → r.Answer → Hardware → Prop
  | .domainCreate, .ok id, h' => h.Creates id h'
  | .domainCreate, .error _, h' => h' = h ∨ ∃ id, h.Creates id h'
  | .domainDestroy d, .ok (), h' =>
      h' = ⟨h.table \ ofDomain d,h.cache \ ofDomain d,h.attached \ {a | a.2 = d},h.created⟩
  | .domainDestroy d, .error _, h' => ∃ table ⊆ ofDomain d, ∃ cache ⊆ ofDomain d,
      ∃ attached ⊆ {a | a.2 = d},
        h' = ⟨h.table \ table,h.cache \ cache,h.attached \ attached,h.created⟩
  | .attach d e, .ok (), h' =>
      h' = { h with attached := insert (e, d) (h.attached \ {a | a.1 = e}) }
  | .attach d e, .error _, h' =>
      ∃ attached ⊆ insert (e, d) h.attached, h' = { h with attached := attached }
  | .detach d e, .ok (), h' => h' = { h with attached := h.attached \ {(e, d)} }
  | .detach _ _, .error _, h' => ∃ attached ⊆ h.attached, h' = { h with attached := attached }
  | .map d iova physical len _, .ok (), h' =>
      h' = { h with table := h.table ∪ installs d iova physical len }
  | .map d iova physical len _, .error .unconfirmed, h' => ∃ part ⊆ installs d iova physical len,
      h' = { h with table := h.table ∪ part }
  | .map _ _ _ _ _, .error _, h' => h' = h
  | .unmap d iova len, .ok (), h' => h' = { h with table := h.table \ under d iova len }
  | .unmap d iova len, .error _, h' => ∃ part ⊆ under d iova len,
      h' = { h with table := h.table \ part }
  | .invalidate d, .ok (), h' => h' = { h with cache := h.cache \ ofDomain d }
  | .invalidate d, .error _, h' => ∃ part ⊆ ofDomain d, h' = { h with cache := h.cache \ part }
  | .drainFaults _, _, h' => h' = h
  | .transportWasEmptied, _, h' => h' = h
  | .tryReserve, _, h' => h' = h

end Hardware

/-- Any hardware for which a confirmed request has taken effect. -/
def hardware : Environment Request Request.Answer Hardware :=
  fun h r ans h' => ∃ filled, h.Fills filled ∧ filled.effect r ans h'

variable {s s' : Iommu} {h h' : Hardware} {d : DomainId} {id : MappingId} {m : Mapping}
  {r : Request} {ans : r.Answer}

/-- Nothing becomes reachable. -/
structure Shrinks (h h' : Hardware) : Prop where
  translations : h'.translations ⊆ h.translations
  created : h'.created = h.created

theorem Shrinks.refl (h : Hardware) : Shrinks h h := ⟨subset_rfl,rfl⟩

theorem Shrinks.trans {h'' : Hardware} (h₁ : Shrinks h h') (h₂ : Shrinks h' h'') : Shrinks h h'' :=
  ⟨h₂.translations.trans h₁.translations,h₂.created.trans h₁.created⟩

theorem Hardware.Fills.shrinks (hf : h.Fills h') : Shrinks h h' ∧ h'.table = h.table := by
  obtain ⟨cache,hsub,rfl⟩ := hf
  exact ⟨⟨union_subset subset_union_left hsub,rfl⟩,rfl⟩

def Request.adds : Request → Set Translation
  | .map d iova physical len _ => installs d iova physical len
  | _ => ∅

namespace Hardware

theorem effect_translations (he : h.effect r ans h') (hr : r ≠ .domainCreate) :
    h'.translations ⊆ h.translations ∪ r.adds ∧ h'.created = h.created := by
  have hless {table cache : Set Translation} {attached : Set (EndpointId × DomainId)} ht hc :
      (⟨table,cache,attached,h.created⟩ : Hardware).translations ⊆ h.translations ∪ r.adds ∧
        h.created = h.created :=
    ⟨(union_subset_union ht hc).trans subset_union_left,rfl⟩
  cases r with
  | domainCreate => exact absurd rfl hr
  | domainDestroy d =>
    rcases ans with _ | _
    · obtain ⟨table,-,cache,-,attached,-,rfl⟩ := he
      exact hless sdiff_subset sdiff_subset
    · obtain rfl := he
      exact hless sdiff_subset sdiff_subset
  | attach d e | detach d e | unmap d iova len | invalidate d =>
    rcases ans with _ | _
    · obtain ⟨part,-,rfl⟩ := he
      exact hless (by simp) (by simp)
    · obtain rfl := he
      exact hless (by simp) (by simp)
  | map d iova physical len direction =>
    have hmap part (hp : part ⊆ installs d iova physical len) :
        h.table ∪ part ∪ h.cache ⊆ h.translations ∪ installs d iova physical len := by
      rintro t ((ht | ht) | ht)
      · exact .inl (.inl ht)
      · exact .inr (hp ht)
      · exact .inl (.inr ht)
    rcases ans with reason | _
    · cases reason
      case unconfirmed =>
        obtain ⟨part,hp,rfl⟩ := he
        exact ⟨hmap part hp,rfl⟩
      all_goals
        obtain rfl := he
        exact hless subset_rfl subset_rfl
    · obtain rfl := he
      exact ⟨hmap _ subset_rfl,rfl⟩
  | drainFaults room | transportWasEmptied | tryReserve =>
    obtain rfl := he
    exact hless subset_rfl subset_rfl

end Hardware

theorem hardware_shrinks (he : hardware h r ans h')
    (hr : r ≠ .domainCreate) (hadds : r.adds = ∅) : Shrinks h h' := by
  obtain ⟨filled,hf,heff⟩ := he
  obtain ⟨ht,hc⟩ := Hardware.effect_translations heff hr
  rw [hadds,union_empty] at ht
  exact hf.shrinks.1.trans ⟨ht,hc⟩

variable {ans : Except Fault Unit} {m' : Mapping} {s'' : Iommu} {id' : MappingId}
  {domain : DomainId} {endpoint : EndpointId} {e : Halt}

theorem hardware_unmap {iova len : ℕ}
    (he : hardware h (.unmap d iova len) ans h') : Shrinks h h' ∧ h'.table ⊆ h.table ∧
      (ans.isOk → Disjoint h'.table (under d iova len)) := by
  refine ⟨hardware_shrinks he (fun h => by cases h) rfl,?_⟩
  obtain ⟨filled,hf,heff⟩ := he
  rw [← hf.shrinks.2]
  rcases ans with _ | _
  · obtain ⟨part,-,rfl⟩ := heff
    exact ⟨sdiff_subset,fun hok => by cases hok⟩
  · obtain rfl := heff
    exact ⟨sdiff_subset,fun _ => disjoint_sdiff_left⟩

theorem hardware_invalidate (he : hardware h (.invalidate d) ans h') :
    Shrinks h h' ∧ h'.table = h.table ∧ (ans.isOk → ∀ iova len,
      Disjoint h.table (under d iova len) → Disjoint h'.translations (under d iova len)) := by
  refine ⟨hardware_shrinks he (fun h => by cases h) rfl,?_,fun hok iova len htable => ?_⟩
  · obtain ⟨filled,hf,heff⟩ := he
    have htab := hf.shrinks.2
    rcases ans with _ | _
    · obtain ⟨part,-,rfl⟩ := heff
      exact htab
    · obtain rfl := heff
      exact htab
  · obtain ⟨filled,hf,heff⟩ := he
    have htab := hf.shrinks.2
    rcases ans with _ | _
    · cases hok
    obtain rfl := heff
    refine disjoint_left.mpr ?_
    rintro t (ht | ht) hunder
    · exact disjoint_left.mp htable (htab ▸ ht) hunder
    · exact ht.2 hunder.1

theorem hardware_map {iova physical len : ℕ} {direction : Direction}
    (he : hardware h (.map d iova physical len direction) ans h') :
    h'.translations ⊆ h.translations ∪ installs d iova physical len ∧ h'.created = h.created ∧
      ∀ reason, ans = .error reason → reason ≠ .unconfirmed → Shrinks h h' := by
  obtain ⟨filled,hf,heff⟩ := he
  obtain ⟨ht,hc⟩ := Hardware.effect_translations heff fun h => by cases h
  obtain ⟨hsub,hsubc⟩ := hf.shrinks.1
  refine ⟨ht.trans (union_subset_union_left _ hsub),hc.trans hsubc,?_⟩
  rintro reason rfl hne
  cases reason
  case unconfirmed => exact absurd rfl hne
  all_goals
    obtain rfl := heff
    exact ⟨hsub,hsubc⟩

theorem installs_subset_under (iova physical len : ℕ) :
    installs d iova physical len ⊆ under d iova len := by
  rintro t ⟨hd,i,hi,ha,-⟩
  exact ⟨hd,by omega,by omega⟩

/-! ### The ledger and the hardware -/

def Iommu.space (s : Iommu) (domain : DomainId) : Option IovaSpace :=
  (s.domains.get? domain).map DomainState.space

/-- The translation is, or may be, still installed. -/
def Mapping.Open (m : Mapping) : Prop := m.state = .live ∨ m.state = .closing

def Mapping.range (m : Mapping) : ℕ × ℕ := IovaSpace.range m.iova m.len

/-- The ledger accounts for every translation that a device may use. -/
structure Safe (s : Iommu) (h : Hardware) : Prop where
  rows : ∀ id m, s.mappings.get? id = some m →
    m.id = id ∧ id < s.nextMapping ∧ m.domain ∈ h.created ∧ 0 < m.len
  spaces : ∀ d space, s.space d = some space → d ∈ h.created ∧ space.Tidy
  held : ∀ id m space, s.mappings.get? id = some m → m.Open → s.space m.domain = some space →
    space.taken.get? m.iova = some m.len
  aside : ∀ id m, s.mappings.get? id = some m → m.state = .quarantined →
    ∃ space, s.space m.domain = some space ∧ ⟨m.iova,m.len⟩ ∈ space.quarantined
  apart : ∀ id m id' m', s.mappings.get? id = some m → s.mappings.get? id' = some m' → id < id' →
    m.domain = m'.domain → m.state ≠ .released → Apart m.range m'.range
  backed : ∀ t ∈ h.translations, t.domain ∈ h.created → ∃ id m, s.mappings.get? id = some m ∧
    m.state ≠ .released ∧ t ∈ installs m.domain m.iova m.physical m.len

/-- A row in its place: released and quarantined stay so. -/
structure Stays (m m' : Mapping) : Prop where
  domain : m'.domain = m.domain
  iova : m'.iova = m.iova
  physical : m'.physical = m.physical
  len : m'.len = m.len
  released : m.state = .released → m'.state = .released
  quarantined : m.state = .quarantined → m'.state = .quarantined

theorem Stays.refl (m : Mapping) : Stays m m := ⟨rfl,rfl,rfl,rfl,id,id⟩

theorem Stays.trans {m'' : Mapping} (h₁ : Stays m m') (h₂ : Stays m' m'') : Stays m m'' :=
  ⟨h₂.domain.trans h₁.domain,h₂.iova.trans h₁.iova,h₂.physical.trans h₁.physical,
    h₂.len.trans h₁.len,fun h => h₂.released (h₁.released h),
    fun h => h₂.quarantined (h₁.quarantined h)⟩

/-- How rows go from one state of the ledger to a later one. -/
structure Evolves (s s' : Iommu) : Prop where
  next : s.nextMapping ≤ s'.nextMapping
  row : ∀ id m', id < s.nextMapping → s'.mappings.get? id = some m' →
    ∃ m, s.mappings.get? id = some m ∧ Stays m m'
  keeps : ∀ id m, s.mappings.get? id = some m → m.state = .quarantined →
    ∃ m', s'.mappings.get? id = some m' ∧ Stays m m'

/-- A change that enters no row. -/
structure Settles (s s' : Iommu) : Prop extends Evolves s s' where
  same : s'.nextMapping = s.nextMapping

def Finished (s : Iommu) (id : MappingId) : Prop :=
  ∀ m, s.mappings.get? id = some m → m.state = .released

theorem Evolves.refl (s : Iommu) : Evolves s s :=
  ⟨le_rfl,fun _ m' _ h => ⟨m',h,Stays.refl m'⟩,fun _ m h _ => ⟨m,h,Stays.refl m⟩⟩

theorem Evolves.trans (h₁ : Evolves s s') (h₂ : Evolves s' s'') : Evolves s s'' := by
  refine ⟨h₁.next.trans h₂.next,fun id m'' hid hm'' => ?_,fun id m hm hq => ?_⟩
  · obtain ⟨m',hm',hstay'⟩ := h₂.row id m'' (hid.trans_le h₁.next) hm''
    obtain ⟨m,hm,hstay⟩ := h₁.row id m' hid hm'
    exact ⟨m,hm,hstay.trans hstay'⟩
  · obtain ⟨m',hm',hstay⟩ := h₁.keeps id m hm hq
    obtain ⟨m'',hm'',hstay'⟩ := h₂.keeps id m' hm' (hstay.quarantined hq)
    exact ⟨m'',hm'',hstay.trans hstay'⟩

theorem Settles.refl (s : Iommu) : Settles s s := ⟨Evolves.refl s,rfl⟩

theorem Settles.trans (h₁ : Settles s s') (h₂ : Settles s' s'') : Settles s s'' :=
  ⟨h₁.toEvolves.trans h₂.toEvolves,h₂.same.trans h₁.same⟩

theorem settles_of_rows (hrows : s'.mappings = s.mappings)
    (hnext : s'.nextMapping = s.nextMapping) : Settles s s' := by
  refine ⟨⟨hnext.ge,fun id m' _ hm' => ⟨m',hrows ▸ hm',Stays.refl m'⟩,fun id m hm _ => ?_⟩,hnext⟩
  exact ⟨m,hrows ▸ hm,Stays.refl m⟩

/-! ### Small changes to the ledger -/

namespace Iommu

variable {space : IovaSpace} {f : Mapping → Mapping}

@[simp] theorem mappings_setSpace : (s.setSpace d space).mappings = s.mappings := rfl

@[simp] theorem space_setMapping : (s.setMapping id f).space d = s.space d := rfl

@[simp] theorem row_setMapping {id' : MappingId} : (s.setMapping id f).mappings.get? id' =
      if id' = id then (s.mappings.get? id).map f else s.mappings.get? id' :=
  get?_modify

theorem row_setMapping_of (hm : s.mappings.get? id = some m) (id' : MappingId) :
    (s.setMapping id f).mappings.get? id' =
      if id' = id then some (f m) else s.mappings.get? id' := by
  rw [row_setMapping,hm,map_some]

@[simp] theorem space_setSpace {d' : DomainId} :
    (s.setSpace d space).space d' = if d' = d then (s.space d).map fun _ => space
      else s.space d' := by
  rw [Iommu.space,setSpace,setDomain,get?_modify]
  split
  · rw [Iommu.space,Option.map_map,Option.map_map]
    rfl
  · rfl

theorem space_setDomain {f : DomainState → DomainState}
    (hf : ∀ state, (f state).space = state.space) (d' : DomainId) :
    (s.setDomain d f).space d' = s.space d' := by
  rw [space,setDomain,get?_modify]
  split
  · next heq =>
    rw [space,heq,Option.map_map]
    congr 1
    funext state
    exact hf state
  · rfl

end Iommu

theorem Safe.congr (hs : Safe s h) (hrows : s'.mappings = s.mappings)
    (hnext : s'.nextMapping = s.nextMapping) (hspace : ∀ d, s'.space d = s.space d) :
    Safe s' h := by
  obtain ⟨rows,spaces,held,aside,apart,backed⟩ := hs
  constructor
  · rwa [hrows,hnext]
  · simpa only [hspace] using spaces
  · simpa only [hspace,hrows] using held
  · simpa only [hspace,hrows] using aside
  · rwa [hrows]
  · rwa [hrows]

theorem Safe.shrink (hs : Safe s h) (hsh : Shrinks h h') : Safe s h' := by
  obtain ⟨rows,spaces,held,aside,apart,backed⟩ := hs
  refine ⟨?_,?_,held,aside,apart,?_⟩
  · rwa [hsh.created]
  · rwa [hsh.created]
  · rw [hsh.created]
    exact fun t ht => backed t (hsh.translations ht)

section

variable (hs : Safe s h) (hm : s.mappings.get? id = some m) (hm' : s.mappings.get? id' = some m')
  (hne : id ≠ id')
include hs hm hm' hne

section

variable (hd : m.domain = m'.domain) (hr : m.state ≠ .released) (hr' : m'.state ≠ .released)
include hd hr hr'

theorem Safe.apart_of_ne : Apart m.range m'.range := by
  rcases Nat.lt_or_gt_of_ne hne with hlt | hlt
  · exact hs.apart id m id' m' hm hm' hlt hd hr
  · exact (hs.apart id' m' id m hm' hm hlt hd.symm hr').symm

theorem Safe.iova_ne : m.iova ≠ m'.iova := by
  have hpos := (hs.rows id m hm).2.2.2
  have hpos' := (hs.rows id' m' hm').2.2.2
  intro heq
  rcases hs.apart_of_ne hm hm' hne hd hr hr' with h | h <;>
    simp only [Mapping.range,IovaSpace.range,heq] at h <;> omega

end

end

theorem Mapping.Open.ne_released (hopen : m.Open) : m.state ≠ .released := by
  rcases hopen with h | h <;> rw [h] <;> decide

theorem Safe.setSpace (hs : Safe s h) {old space : IovaSpace} (hold : s.space d = some old)
    (htidy : space.Tidy)
    (hheld : ∀ id m, s.mappings.get? id = some m → m.domain = d → m.Open →
      space.taken.get? m.iova = some m.len)
    (haside : old.quarantined ⊆ space.quarantined) : Safe (s.setSpace d space) h := by
  have hspace : ∀ d', (s.setSpace d space).space d' =
      if d' = d then some space else s.space d' := fun d' => by
    rw [space_setSpace,hold,map_some]
  refine ⟨hs.rows,fun d' sp hsp => ?_,fun id m sp hm hopen hsp => ?_,fun id m hm hq => ?_,hs.apart,
    hs.backed⟩
  · rw [hspace] at hsp
    split at hsp
    · next heq =>
      cases hsp
      exact ⟨heq ▸ (hs.spaces d old hold).1,htidy⟩
    · exact hs.spaces d' sp hsp
  · rw [hspace] at hsp
    split at hsp
    · next heq =>
      cases hsp
      exact hheld id m hm heq hopen
    · exact hs.held id m sp hm hopen hsp
  · obtain ⟨sp,hsp,hmem⟩ := hs.aside id m hm hq
    by_cases heq : m.domain = d
    · rw [heq,hold] at hsp
      cases hsp
      exact ⟨space,by rw [hspace,if_pos heq],haside hmem⟩
    · exact ⟨sp,by rw [hspace,if_neg heq,hsp],hmem⟩

/-- A row changes in its place, together with the address spaces. What is left to show is
that ranges are held and set aside as before; a row may become released only once its
range is out of reach. -/
theorem Safe.changeRow (hs : Safe s h) (hm : s.mappings.get? id = some m)
    (hstay : Stays m m') (hid : m'.id = m.id)
    (hrows : ∀ id', s'.mappings.get? id' = if id' = id then some m' else s.mappings.get? id')
    (hnext : s'.nextMapping = s.nextMapping)
    (hspaces : ∀ d space, s'.space d = some space → d ∈ h.created ∧ space.Tidy)
    (hheld : ∀ id m space, s'.mappings.get? id = some m → m.Open → s'.space m.domain = some space →
      space.taken.get? m.iova = some m.len)
    (haside : ∀ id m, s'.mappings.get? id = some m → m.state = .quarantined →
      ∃ space, s'.space m.domain = some space ∧ ⟨m.iova,m.len⟩ ∈ space.quarantined)
    (hgone : m.state ≠ .released → m'.state = .released →
      Disjoint h.translations (under m.domain m.iova m.len)) : Safe s' h := by
  have hrow : ∀ id₁ m₁, s'.mappings.get? id₁ = some m₁ →
      s.mappings.get? id₁ = some m₁ ∨ id₁ = id ∧ m₁ = m' := by
    intro id₁ m₁ hm₁
    rw [hrows] at hm₁
    split at hm₁
    · next heq => exact .inr ⟨heq,(some.inj hm₁).symm⟩
    · exact .inl hm₁
  have hrange : m'.range = m.range := by rw [Mapping.range,Mapping.range,hstay.iova,hstay.len]
  refine ⟨fun id₁ m₁ hm₁ => ?_,hspaces,hheld,haside,fun id₁ m₁ id₂ m₂ h₁ h₂ hlt hd hr => ?_,
    fun t ht hc => ?_⟩
  · rw [hnext]
    rcases hrow id₁ m₁ hm₁ with hold | ⟨rfl,rfl⟩
    · exact hs.rows id₁ m₁ hold
    · rw [hid,hstay.domain,hstay.len]
      exact hs.rows id₁ m hm
  · rcases hrow id₁ m₁ h₁ with hold₁ | ⟨rfl,rfl⟩ <;> rcases hrow id₂ m₂ h₂ with hold₂ | ⟨rfl,rfl⟩
    · exact hs.apart id₁ m₁ id₂ m₂ hold₁ hold₂ hlt hd hr
    · rw [hrange]
      exact hs.apart id₁ m₁ id₂ m hold₁ hm hlt (hd.trans hstay.domain) hr
    · rw [hrange]
      exact hs.apart id₁ m id₂ m₂ hm hold₂ hlt (hstay.domain.symm.trans hd)
        fun h => hr (hstay.released h)
    · exact absurd hlt (lt_irrefl _)
  · obtain ⟨id₁,m₁,hm₁,hr,hin⟩ := hs.backed t ht hc
    by_cases heq : id₁ = id
    · subst heq
      obtain rfl := some.inj (hm.symm.trans hm₁)
      refine ⟨id₁,m',by rw [hrows,if_pos rfl],fun hrel => ?_,?_⟩
      · exact disjoint_left.mp (hgone hr hrel) ht (installs_subset_under _ _ _ hin)
      · rwa [hstay.domain,hstay.iova,hstay.physical,hstay.len]
    · exact ⟨id₁,m₁,by rw [hrows,if_neg heq,hm₁],hr,hin⟩

theorem settles_changeRow (hm : s.mappings.get? id = some m) (hstay : Stays m m')
    (hrows : ∀ id', s'.mappings.get? id' = if id' = id then some m' else s.mappings.get? id')
    (hnext : s'.nextMapping = s.nextMapping) : Settles s s' := by
  refine ⟨⟨hnext.ge,fun id₁ m₁ _ hm₁ => ?_,fun id₁ m₁ hm₁ hq => ?_⟩,hnext⟩
  · rw [hrows] at hm₁
    split at hm₁
    · next heq =>
      cases hm₁
      exact ⟨m,heq ▸ hm,hstay⟩
    · exact ⟨m₁,hm₁,Stays.refl m₁⟩
  · by_cases heq : id₁ = id
    · subst heq
      obtain rfl := some.inj (hm.symm.trans hm₁)
      exact ⟨m',by rw [hrows,if_pos rfl],hstay⟩
    · exact ⟨m₁,by rw [hrows,if_neg heq,hm₁],Stays.refl m₁⟩

/-! ### Calls that enter no row -/

/-- The call kept the ledger safe and entered no row. -/
def Keeps (s : Iommu) (s' : Iommu) (h' : Hardware) : Prop := Safe s' h' ∧ Settles s s'

def Fails (s : Iommu) (e : Halt) (s' : Iommu) (h' : Hardware) : Prop :=
  e = .panic ∨ Keeps s s' h'

theorem Safe.keeps (hs : Safe s h) : Keeps s s h := ⟨hs,Settles.refl s⟩

theorem Keeps.fails (hk : Keeps s s' h') : Fails s e s' h' := .inr hk

theorem Keeps.trans (h₁ : Settles s s') (h₂ : Keeps s' s'' h') : Keeps s s'' h' :=
  ⟨h₂.1,h₁.trans h₂.2⟩

theorem Fails.trans (h₁ : Settles s s') (h₂ : Fails s' e s'' h') : Fails s e s'' h' :=
  h₂.imp_right (Keeps.trans h₁)

section

variable (hs : Safe s h) (hm : s.mappings.get? id = some m)
include hs hm

/-- An open row is settled: released once its range is out of reach, or quarantined. Its
range leaves the taken ones, and the ranges of the other open rows stay. -/
theorem Safe.settle (hopen : m.Open)
    {space : IovaSpace} (hspace : s.space m.domain = some space) (confirmed : Bool)
    (hgone : confirmed → Disjoint h.translations (under m.domain m.iova m.len)) :
    ∃ space', (if confirmed then space.release m.iova else space.quarantine m.iova) = .ok space' ∧
      Keeps s ((s.setMapping id fun m => { m with
        state := if confirmed then .released else .quarantined }).setSpace m.domain space') h := by
  have htaken := hs.held id m space hm hopen hspace
  have htidy := (hs.spaces _ space hspace).2
  have hcreated := (hs.spaces _ space hspace).1
  have hnotrel := hopen.ne_released
  have hnotq : m.state ≠ .quarantined := by rcases hopen with h | h <;> rw [h] <;> decide
  -- what the space looks like afterwards, in both cases
  obtain ⟨space',heq,htaken',htidy',hquar,haside⟩ : ∃ space',
      (if confirmed then space.release m.iova else space.quarantine m.iova) = .ok space' ∧
      space'.taken = space.taken.erase m.iova ∧ space'.Tidy ∧
      space.quarantined ⊆ space'.quarantined ∧
      (confirmed = false → ⟨m.iova,m.len⟩ ∈ space'.quarantined) := by
    cases confirmed with
    | true =>
      exact ⟨_,by rw [if_pos rfl,IovaSpace.release,htaken],rfl,htidy.erase _,List.Subset.refl _,
        fun h => by cases h⟩
    | false =>
      exact ⟨_,by rw [if_neg (by decide),IovaSpace.quarantine,htaken],rfl,htidy.setAside htaken,
        subset_append_left _ _,fun _ => by simp⟩
  let s' := (s.setMapping id fun m => { m with
    state := if confirmed then .released else .quarantined }).setSpace m.domain space'
  have hrows : ∀ id', s'.mappings.get? id' = if id' = id then
      some { m with state := if confirmed then .released else .quarantined }
      else s.mappings.get? id' := row_setMapping_of hm
  have hspaces : ∀ d, s'.space d = if d = m.domain then some space' else s.space d := fun d => by
    rw [space_setSpace,space_setMapping,space_setMapping,hspace]
    rfl
  have hstay : Stays m { m with state := if confirmed then .released else .quarantined } :=
    ⟨rfl,rfl,rfl,rfl,fun h => absurd h hnotrel,fun h => absurd h hnotq⟩
  refine ⟨space',heq,hs.changeRow hm hstay rfl hrows rfl ?_ ?_ ?_ ?_,
    settles_changeRow hm hstay hrows rfl⟩
  · intro d sp hsp
    rw [hspaces] at hsp
    split at hsp
    · next hd =>
      cases hsp
      exact ⟨hd ▸ hcreated,htidy'⟩
    · exact hs.spaces d sp hsp
  · -- the other open rows of the domain start elsewhere
    intro id' m' sp hm' ho hsp
    rw [hrows] at hm'
    split at hm'
    · cases hm'
      cases confirmed <;> rcases ho with h | h <;> cases h
    next hne =>
    rw [hspaces] at hsp
    split at hsp
    · next hd =>
      cases hsp
      rw [htaken',get?_erase,if_neg (hs.iova_ne hm' hm hne hd ho.ne_released hnotrel)]
      exact hs.held id' m' space hm' ho (hd ▸ hspace)
    · exact hs.held id' m' sp hm' ho hsp
  · intro id' m' hm' hq
    rw [hrows] at hm'
    split at hm'
    · cases hm'
      refine ⟨space',by rw [hspaces,if_pos rfl],haside ?_⟩
      cases confirmed with
      | true => cases hq
      | false => rfl
    · obtain ⟨sp,hsp,hmem⟩ := hs.aside id' m' hm' hq
      by_cases hd : m'.domain = m.domain
      · rw [hd,hspace] at hsp
        cases hsp
        exact ⟨space',by rw [hspaces,if_pos hd],hquar hmem⟩
      · exact ⟨sp,by rw [hspaces,if_neg hd,hsp],hmem⟩
  · intro _ hrel
    cases confirmed with
    | true => exact hgone rfl
    | false => cases hrel

theorem Safe.restate {f : Mapping → Mapping}
    (hstay : Stays m (f m)) (hid : (f m).id = m.id) (hopen : (f m).Open → m.Open)
    (hq : (f m).state = .quarantined → m.state = .quarantined)
    (hrel : (f m).state = .released → m.state = .released) : Keeps s (s.setMapping id f) h := by
  have hrows := row_setMapping_of (f := f) hm
  refine ⟨hs.changeRow hm hstay hid hrows rfl hs.spaces (fun id' m' sp hm' ho hsp => ?_)
    (fun id' m' hm' hq' => ?_) (fun hne h => absurd (hrel h) hne),
    settles_changeRow hm hstay hrows rfl⟩
  · rw [hrows] at hm'
    split at hm'
    · cases hm'
      rw [hstay.domain] at hsp
      rw [hstay.iova,hstay.len]
      exact hs.held id m sp hm (hopen ho) hsp
    · exact hs.held id' m' sp hm' ho hsp
  · rw [hrows] at hm'
    split at hm'
    · cases hm'
      rw [hstay.domain,hstay.iova,hstay.len]
      exact hs.aside id m hm (hq hq')
    · exact hs.aside id' m' hm' hq'

end

theorem beginClose_spec (hs : Safe s h) :
    wp hardware anyway (beginClose id) (fun _ s' h' => Keeps s s' h') (Fails s) s h := by
  simp only [beginClose,wp_bind,wp_get,wp_ensure,wp_modify]
  refine wp_orThrow (fun m hm => ?_) fun _ => hs.keeps.fails
  split
  · next hlive =>
    have hstay : Stays m { m with state := .closing } := by
      refine ⟨rfl,rfl,rfl,rfl,fun h => ?_,fun h => ?_⟩ <;> rw [hlive] at h <;> cases h
    exact hs.restate hm hstay rfl (fun _ => .inl hlive) (fun h => by cases h) fun h => by cases h
  · exact hs.keeps.fails

/-- The mapping was closed, and is finished if its frames are reported as reusable. -/
def Closes (s : Iommu) (id : MappingId) (r : Release) (s' : Iommu) (h' : Hardware) : Prop :=
  Keeps s s' h' ∧ (r = .framesReusable → Finished s' id)

section

variable (hs : Safe s h)

include hs

theorem settleClose_spec (hm : s.mappings.get? id = some m) (hopen : m.Open) (confirmed : Bool)
    (hgone : confirmed → Disjoint h.translations (under m.domain m.iova m.len)) :
    wp hardware anyway (settleClose id m confirmed) (Closes s id) (Fails s) s h := by
  simp only [settleClose,wp_bind,wp_get,wp_modify,wp_pure]
  refine wp_orThrow (fun state hstate => ?_) fun _ => hs.keeps.fails
  have hspace : s.space m.domain = some state.space := by rw [space,hstate]; rfl
  obtain ⟨space',heq,hkeeps⟩ := hs.settle hm hopen hspace confirmed hgone
  rw [heq]
  refine ⟨hkeeps,fun hr m' hm' => ?_⟩
  rw [mappings_setSpace,row_setMapping_of hm,if_pos rfl] at hm'
  cases confirmed with
  | true => rw [← some.inj hm']; rfl
  | false => cases hr

theorem finishClose_spec : wp hardware anyway (finishClose id) (Closes s id) (Fails s) s h := by
  simp only [finishClose,wp_bind,wp_get,wp_ensure,wp_ite]
  refine wp_orThrow (fun m hm => ?_) fun _ => hs.keeps.fails
  split
  · next hclosing =>
    refine wp_request fun unmapped h₁ he₁ => ?_
    obtain ⟨hsh₁,-,htable⟩ := hardware_unmap he₁
    have hs₁ := hs.shrink hsh₁
    split
    · next hun =>
      refine wp_request fun invalidated h₂ he₂ => ?_
      obtain ⟨hsh₂,-,hgone⟩ := hardware_invalidate he₂
      refine settleClose_spec (hs₁.shrink hsh₂) hm (.inr hclosing) _ fun hc => ?_
      exact hgone (and_eq_true_iff.mp hc).2 _ _ (htable hun)
    · next hun =>
      refine settleClose_spec hs₁ hm (.inr hclosing) _ fun hc => ?_
      exact absurd (and_eq_true_iff.mp hc).1 hun
  · exact hs.keeps.fails

theorem close_spec : wp hardware anyway (close id) (Closes s id) (Fails s) s h := by
  simp only [close,wp_bind,wp_get]
  refine wp_orThrow (fun m hm => ?_) fun _ => hs.keeps.fails
  split
  · next hrel =>
    refine ⟨hs.keeps,fun _ m' hm' => ?_⟩
    obtain rfl := some.inj (hm.symm.trans hm')
    exact hrel
  · exact ⟨hs.keeps,fun h => by cases h⟩
  · refine wp_bind.mpr ((beginClose_spec hs).mono (fun _ s₁ h₁ hk => ?_) fun _ _ _ he => he)
    refine (finishClose_spec hk.1).mono (fun r s₂ h₂ hk₂ => ?_) fun _ _ _ he => he.trans hk.2
    exact ⟨hk₂.1.trans hk.2,hk₂.2⟩
  · exact finishClose_spec hs

theorem retainMapping_spec :
    wp hardware anyway (retainMapping id) (fun _ s' h' => Keeps s s' h') (Fails s) s h := by
  simp only [retainMapping,wp_bind,wp_get,wp_modify]
  refine wp_orThrow (fun m hm => ?_) fun _ => hs.keeps.fails
  exact hs.restate hm ⟨rfl,rfl,rfl,rfl,fun h => h,fun h => h⟩ rfl (fun h => h) (fun h => h)
    fun h => h

/-- Rows that are released, or of a domain without translations, may be dropped. -/
theorem Safe.dropRows (hnext : s'.nextMapping = s.nextMapping)
    (hrow : ∀ id m, s'.mappings.get? id = some m → s.mappings.get? id = some m)
    (hspace : ∀ d space, s'.space d = some space → s.space d = some space)
    (hkeep : ∀ id m, s.mappings.get? id = some m → m.state = .quarantined →
      s'.mappings.get? id = some m ∧ s'.space m.domain = s.space m.domain)
    (hback : ∀ id m, s.mappings.get? id = some m → m.state ≠ .released → ∀ t ∈ h.translations,
      t.domain = m.domain → s'.mappings.get? id = some m) : Keeps s s' h := by
  refine ⟨⟨fun id m hm => hnext ▸ hs.rows id m (hrow id m hm),
    fun d sp hsp => hs.spaces d sp (hspace d sp hsp),
    fun id m sp hm ho hsp => hs.held id m sp (hrow id m hm) ho (hspace _ sp hsp),
    fun id m hm hq => ?_,
    fun id m id' m' hm hm' => hs.apart id m id' m' (hrow id m hm) (hrow id' m' hm'),
    fun t ht hc => ?_⟩,⟨⟨hnext.ge,fun id m' _ hm' => ⟨m',hrow id m' hm',Stays.refl m'⟩,
      fun id m hm hq => ?_⟩,hnext⟩⟩
  · rw [(hkeep id m (hrow id m hm) hq).2]
    exact hs.aside id m (hrow id m hm) hq
  · obtain ⟨id,m,hm,hr,hin⟩ := hs.backed t ht hc
    exact ⟨id,m,hback id m hm hr t ht hin.1,hr,hin⟩
  · exact ⟨m,(hkeep id m hm hq).1,Stays.refl m⟩

theorem releaseMapping_spec :
    wp hardware anyway (releaseMapping id) (Closes s id) (Fails s) s h := by
  simp only [releaseMapping,wp_bind]
  refine (close_spec hs).mono (fun r s₁ h₁ hk => ?_) fun _ _ _ he => he
  obtain ⟨⟨hs₁,hset⟩,hfin⟩ := hk
  split
  · next hr =>
    have hfin := hfin hr
    have herase : ∀ id' m', (s₁.mappings.erase id).get? id' = some m' ↔
        id' ≠ id ∧ s₁.mappings.get? id' = some m' := fun id' m' => by
      rw [get?_erase]
      split <;> simp [*]
    have hkeeps : Keeps s₁ { s₁ with mappings := s₁.mappings.erase id } h₁ := by
      refine hs₁.dropRows rfl (fun id' m' hm' => ((herase id' m').mp hm').2) (fun _ _ h => h) ?_ ?_
      · intro id' m' hm' hq
        refine ⟨(herase id' m').mpr ⟨?_,hm'⟩,rfl⟩
        rintro rfl
        rw [hfin m' hm'] at hq
        cases hq
      · intro id' m' hm' hne t ht hd
        refine (herase id' m').mpr ⟨?_,hm'⟩
        rintro rfl
        exact hne (hfin m' hm')
    refine ⟨hkeeps.trans hset,fun _ m' hm' => ?_⟩
    exact absurd rfl ((herase id m').mp hm').1
  · exact ⟨⟨hs₁,hset⟩,hfin⟩

/-! ### Domains and endpoints -/

theorem Safe.create (hc : h.Creates d h') : Safe s h' := by
  obtain ⟨hfresh,rfl⟩ := hc
  refine ⟨fun id m hm => ?_,fun d' space hspace => ?_,hs.held,hs.aside,hs.apart,?_⟩
  · obtain ⟨hid,hlt,hc,hpos⟩ := hs.rows id m hm
    exact ⟨hid,hlt,mem_insert_of_mem d hc,hpos⟩
  · obtain ⟨hc,htidy⟩ := hs.spaces d' space hspace
    exact ⟨mem_insert_of_mem d hc,htidy⟩
  rintro t (ht | ht) (hc | hc)
  · exact absurd hc ht.2
  · exact hs.backed t (.inl ht.1) hc
  · exact absurd hc ht.2
  · exact hs.backed t (.inr ht.1) hc

theorem Safe.insertDomain (hc : d ∈ h.created)
    (hother : ∀ id m, s.mappings.get? id = some m → m.domain ≠ d) {state : DomainState}
    (htidy : state.space.Tidy) : Keeps s { s with domains := s.domains.insert d state } h := by
  have hspace : ∀ d', ({ s with domains := s.domains.insert d state } : Iommu).space d' =
      if d' = d then some state.space else s.space d' := fun d' => by
    rw [space,get?_insert]
    split <;> rfl
  refine ⟨⟨hs.rows,fun d' space hd' => ?_,fun id m space hm ho hd' => ?_,fun id m hm hq => ?_,
    hs.apart,hs.backed⟩,settles_of_rows rfl rfl⟩
  · rw [hspace] at hd'
    split at hd'
    · next heq =>
      cases hd'
      exact ⟨heq ▸ hc,htidy⟩
    · exact hs.spaces d' space hd'
  · rw [hspace,if_neg (hother id m hm)] at hd'
    exact hs.held id m space hm ho hd'
  · rw [hspace,if_neg (hother id m hm)]
    exact hs.aside id m hm hq

theorem createDomain_spec {base len : ℕ} {reserved : List Reserved} {generation : Generation} :
    wp hardware anyway (createDomain base len reserved generation) (fun _ s' h' => Keeps s s' h')
      (Fails s) s h := by
  simp only [createDomain,wp_bind]
  refine wp_request fun ans h' he => ?_
  obtain ⟨filled,hf,heff⟩ := he
  have hs₁ := hs.shrink hf.shrinks.1
  rcases ans with reason | d
  · rcases heff with rfl | ⟨d,hc⟩
    · exact hs₁.keeps.fails
    · exact (hs₁.create hc).keeps.fails
  have hs₂ := hs₁.create heff
  obtain ⟨hfresh,rfl⟩ := heff
  refine hs₂.insertDomain (mem_insert d _) ?_ (IovaSpace.tidy_new _ _ _)
  rintro id m hm rfl
  exact hfresh (hs₁.rows id m hm).2.2.1

theorem Safe.setDomain {f : DomainState → DomainState}
    (hf : ∀ state, (f state).space = state.space) : Keeps s (s.setDomain d f) h :=
  ⟨hs.congr rfl rfl (space_setDomain hf),settles_of_rows rfl rfl⟩

theorem attach_spec :
    wp hardware anyway (attach domain endpoint) (fun _ s' h' => Keeps s s' h') (Fails s) s h := by
  simp only [attach,wp_bind,wp_get,wp_ensure]
  split
  · refine wp_orThrow (fun state hstate => ?_) fun _ => hs.keeps.fails
    refine wp_request fun room h₁ he₁ => ?_
    have hs₁ := hs.shrink (hardware_shrinks he₁ (fun h => by cases h) rfl)
    split
    · refine wp_request fun ans h₂ he₂ => ?_
      have hs₂ := hs₁.shrink (hardware_shrinks he₂ (fun h => by cases h) rfl)
      rcases ans with reason | _
      · cases reason
        case unconfirmed =>
          exact .inr (hs₂.setDomain fun _ => rfl)
        all_goals exact hs₂.keeps.fails
      · exact hs₂.setDomain fun _ => rfl
    · exact hs₁.keeps.fails
  · exact hs.keeps.fails

theorem destroyDomain_spec :
    wp hardware anyway (destroyDomain domain) (fun _ s' h' => Keeps s s' h') (Fails s) s h := by
  simp only [destroyDomain,wp_bind,wp_get,wp_ensure]
  refine wp_orThrow (fun state hstate => ?_) fun _ => hs.keeps.fails
  split
  · split
    · next hnoq =>
      refine wp_request fun ans h' he => ?_
      have hs₁ := hs.shrink (hardware_shrinks he (fun h => by cases h) rfl)
      rcases ans with reason | _
      · exact hs₁.keeps.fails
      obtain ⟨filled,hf,rfl⟩ := he
      -- what is left is of other domains, and no row of this one is quarantined
      have hquar : ∀ id m, s.mappings.get? id = some m → m.state = .quarantined →
          m.domain ≠ domain := by
        intro id m hm hq hd
        have := any_eq_false.mp hnoq m (mem_values.mpr ⟨id,hm⟩)
        simp [hq,hd] at this
      have hretain : ∀ id m, (s.mappings.retain fun m => m.domain != domain ||
          m.retainOnRetire).get? id = some m ↔ s.mappings.get? id = some m ∧
            (m.domain ≠ domain ∨ m.retainOnRetire) := fun id m => by
        simp
      refine hs₁.dropRows rfl (fun id m hm => ((hretain id m).mp hm).1) (fun d sp hsp => ?_)
        (fun id m hm hq => ⟨(hretain id m).mpr ⟨hm,.inl (hquar id m hm hq)⟩,?_⟩) ?_
      · rw [space,get?_erase] at hsp
        split at hsp
        · cases hsp
        · exact hsp
      · rw [space,get?_erase,if_neg (hquar id m hm hq)]
        rfl
      · rintro id m hm - t (ht | ht) hd <;>
          exact (hretain id m).mpr ⟨hm,.inl fun heq => ht.2 (hd.trans heq)⟩
    · exact hs.keeps.fails
  · exact hs.keeps.fails

end

/-! ### Revoking an endpoint -/

def AllOpen (s : Iommu) (d : DomainId) (ids : List MappingId) : Prop :=
  ∀ id ∈ ids, ∃ m, s.mappings.get? id = some m ∧ m.domain = d ∧ m.Open

/-- The tables hold nothing in the range of a row whose unmap was confirmed. -/
def Unmapped (s : Iommu) (table : Set Translation) (us : List (MappingId × Bool)) : Prop :=
  ∀ u ∈ us, u.2 = true → ∀ m, s.mappings.get? u.1 = some m →
    Disjoint table (under m.domain m.iova m.len)

theorem unmapEach_spec {ids : List MappingId} (hopen : AllOpen s d ids) :
    wp hardware anyway (unmapEach ids) (fun us s' h' => s' = s ∧ Shrinks h h' ∧
      us.map Prod.fst = ids ∧ Unmapped s h'.table us ∧ h'.table ⊆ h.table) (fun e _ _ => e = .panic)
      s h := by
  induction ids generalizing h with
  | nil => exact ⟨rfl,Shrinks.refl h,rfl,fun u hu => absurd hu not_mem_nil,subset_rfl⟩
  | cons id rest ih =>
    simp only [unmapEach,wp_bind,wp_get,wp_pure]
    refine wp_orThrow (fun m hm => ?_) fun _ => rfl
    refine wp_request fun ans h₁ he => ?_
    obtain ⟨hsh₁,hsub₁,hgone⟩ := hardware_unmap he
    refine (ih fun id' hid' => hopen id' (mem_cons_of_mem id hid')).mono
      (fun us s' h' hus => ?_) fun _ _ _ he => he
    obtain ⟨rfl,hsh,hfst,hun,hsub⟩ := hus
    refine ⟨rfl,hsh₁.trans hsh,by rw [map_cons,hfst],fun u hu hok m' hm' => ?_,hsub.trans hsub₁⟩
    rcases mem_cons.mp hu with rfl | hu
    · obtain rfl := some.inj (hm.symm.trans hm')
      exact (hgone hok).mono_left hsub
    · exact hun u hu hok m' hm'

theorem settleEach_spec (hs : Safe s h) {gone : Bool} {us : List (MappingId × Bool)}
    (hopen : AllOpen s d (us.map Prod.fst)) (hnodup : (us.map Prod.fst).Nodup)
    (hun : gone → Unmapped s h.translations us) :
    wp hardware anyway (settleEach d gone us) (fun all s' h' => h' = h ∧ Keeps s s' h ∧
      (all → ∀ id ∈ us.map Prod.fst, Finished s' id) ∧
      ∀ id' ∉ us.map Prod.fst, s'.mappings.get? id' = s.mappings.get? id')
      (fun e _ _ => e = .panic) s h := by
  induction us generalizing s with
  | nil => exact ⟨rfl,hs.keeps,fun _ id hid => absurd hid not_mem_nil,fun _ _ => rfl⟩
  | cons u rest ih =>
    obtain ⟨id,unmapOk⟩ := u
    obtain ⟨m,hm,rfl,hm_open⟩ := hopen id mem_cons_self
    obtain ⟨hfresh,hnodup⟩ := nodup_cons.mp hnodup
    simp only [settleEach,wp_bind,wp_get,wp_modify]
    refine wp_orThrow (fun m' hm' => ?_) fun _ => rfl
    obtain rfl := some.inj (hm.symm.trans hm')
    refine wp_orThrow (fun state hstate => ?_) fun _ => rfl
    have hspace : s.space m.domain = some state.space := by rw [space,hstate]; rfl
    obtain ⟨space',heq,hkeeps⟩ := hs.settle hm hm_open hspace (unmapOk && gone) fun hc => by
      obtain ⟨hok,hgone⟩ := and_eq_true_iff.mp hc
      exact hun hgone (id, unmapOk) mem_cons_self hok m hm
    rw [heq]
    simp only [wp_bind,wp_modify,wp_pure]
    have hrow : ∀ id', ((s.setMapping id fun m => { m with
        state := if unmapOk && gone then .released else .quarantined }).setSpace m.domain
          space').mappings.get? id' =
        if id' = id then some { m with
          state := if unmapOk && gone then .released else .quarantined }
        else s.mappings.get? id' := row_setMapping_of hm
    refine (ih hkeeps.1 (fun id' hid' => ?_) hnodup fun hg u hu hok m' hm' => ?_).mono
      (fun all s₂ h₂ hr => ?_) fun _ _ _ he => he
    · have hne : id' ≠ id := fun heq => hfresh (heq ▸ hid')
      rw [hrow,if_neg hne]
      exact hopen id' (mem_cons_of_mem id hid')
    · have hmem : u.1 ∈ rest.map Prod.fst := mem_map_of_mem hu
      have hne : u.1 ≠ id := fun heq => hfresh (heq ▸ hmem)
      rw [hrow,if_neg hne] at hm'
      exact hun hg u (mem_cons_of_mem _ hu) hok m' hm'
    obtain ⟨rfl,hk₂,hall,hrest⟩ := hr
    refine ⟨rfl,hk₂.trans hkeeps.2,fun hc id' hid' => ?_,fun id' hid' => ?_⟩
    · obtain ⟨hall',hc⟩ := and_eq_true_iff.mp hc
      rcases mem_cons.mp hid' with rfl | hid'
      · intro m' hm'
        rw [hrest id' hfresh,hrow,if_pos rfl,if_pos hc] at hm'
        rw [← some.inj hm']
      · exact hall hall' id' hid'
    · have hne : id' ≠ id := fun heq => hid' (heq ▸ mem_cons_self)
      rw [hrest id' fun hmem => hid' (mem_cons_of_mem id hmem),hrow,if_neg hne]

theorem rememberDetachedTail_same (s : Iommu) (endpoint : EndpointId) (d : DomainId)
    (generation : Generation) :
    (s.rememberDetachedTail endpoint d generation).mappings = s.mappings ∧
      (s.rememberDetachedTail endpoint d generation).nextMapping = s.nextMapping ∧
      (s.rememberDetachedTail endpoint d generation).domains = s.domains := by
  rw [rememberDetachedTail]
  split
  · exact ⟨rfl,rfl,rfl⟩
  · split
    · exact ⟨rfl,rfl,rfl⟩
    · split <;> exact ⟨rfl,rfl,rfl⟩

variable (hs : Safe s h)
include hs

theorem Safe.keeps_of_same (hrows : s'.mappings = s.mappings)
    (hnext : s'.nextMapping = s.nextMapping) (hdomains : s'.domains = s.domains) : Keeps s s' h :=
  ⟨hs.congr hrows hnext fun d => by rw [space,hdomains]; rfl,settles_of_rows hrows hnext⟩

theorem liveMappings_allOpen : AllOpen s d (s.liveMappings d) := by
  intro id hid
  obtain ⟨m,hm,rfl⟩ := mem_map.mp hid
  obtain ⟨hval,hc⟩ := mem_filter.mp hm
  obtain ⟨id,hrow⟩ := mem_values.mp hval
  simp only [and_eq_true,beq_iff_eq,or_eq_true] at hc
  exact ⟨m,(hs.rows id m hrow).1.symm ▸ hrow,hc.1,hc.2⟩

theorem mem_liveMappings (hm : s.mappings.get? id = some m) (hopen : m.Open) :
    id ∈ s.liveMappings m.domain := by
  refine mem_map.mpr ⟨m,mem_filter.mpr ⟨mem_values.mpr ⟨id,hm⟩,?_⟩,(hs.rows id m hm).1⟩
  simpa [Mapping.Open] using hopen

theorem liveMappings_nodup : (s.liveMappings d).Nodup := by
  have hids : s.mappings.values.map Mapping.id = s.mappings.entries.map Prod.fst := by
    rw [values,List.map_map]
    refine List.map_congr_left fun e he => ?_
    exact (hs.rows e.1 e.2 (get?_eq_some.mpr he)).1
  have hnodup : (s.mappings.values.map Mapping.id).Nodup := by
    rw [hids,List.Nodup,List.pairwise_map]
    exact s.mappings.ascending.imp fun h => h.ne
  exact hnodup.sublist (List.filter_sublist.map Mapping.id)

theorem revokeEndpoint_spec :
    wp hardware anyway (revokeEndpoint d endpoint) (fun r s' h' => Keeps s s' h' ∧
      (r = .framesReusable → ∀ id m, s'.mappings.get? id = some m → m.domain = d →
        m.state = .released)) (Fails s) s h := by
  simp only [revokeEndpoint,wp_bind,wp_get,wp_modify,wp_pure]
  refine (unmapEach_spec (liveMappings_allOpen hs)).mono (fun us s₁ h₁ hus => ?_)
    fun _ _ _ he => .inl he
  obtain ⟨rfl,hsh₁,hfst,hun,-⟩ := hus
  refine wp_request fun invalidated h₂ he₂ => ?_
  obtain ⟨hsh₂,-,hinval⟩ := hardware_invalidate he₂
  refine wp_request fun detached h₃ he₃ => ?_
  have hsh₃ := hardware_shrinks he₃ (fun h => by cases h) rfl
  have hs₃ := ((hs.shrink hsh₁).shrink hsh₂).shrink hsh₃
  refine wp_orThrow (fun state hstate => ?_) fun _ => hs₃.keeps.fails
  have hs₄ := (hs₃.setDomain (d := d) (f := fun state =>
    { state with
      endpoints := state.endpoints.filter fun e => e != endpoint
      attachedConfirmed := !(state.endpoints.filter fun e => e != endpoint).isEmpty &&
        state.attachedConfirmed }) fun _ => rfl)
  refine (settleEach_spec hs₄.1 (fun id hid => ?_) ?_ ?_).mono (fun all s₅ h₅ hr => ?_)
    fun _ _ _ he => .inl he
  · exact liveMappings_allOpen hs id (hfst ▸ hid)
  · rw [hfst]
    exact liveMappings_nodup hs
  · -- both steps confirmed: nothing of the range is left in the tables or the cache
    intro hgone u hu hok m hm
    obtain ⟨m',hm',hd,-⟩ := liveMappings_allOpen hs u.1 (hfst ▸ mem_map_of_mem hu)
    obtain rfl := some.inj (hm.symm.trans hm')
    have htable := hun u hu hok m hm
    rw [hd] at htable ⊢
    exact (hinval (and_eq_true_iff.mp hgone).1 _ _ htable).mono_left hsh₃.translations
  obtain ⟨rfl,hk,hall,hrest⟩ := hr
  obtain ⟨hrows,hnext,hdomains⟩ := rememberDetachedTail_same s₅ endpoint d state.generation
  refine ⟨((hk.1.keeps_of_same hrows hnext hdomains).trans hk.2).trans hs₄.2,?_⟩
  intro hr id m hm hd
  rw [hrows] at hm
  split at hr
  · next hgood =>
    obtain ⟨hclean,hevery,-⟩ := hgood
    by_cases hid : id ∈ us.map Prod.fst
    · exact hall hevery id hid m hm
    rw [hrest id hid] at hm
    rw [hfst] at hid
    cases hstate : m.state with
    | released => rfl
    | live | closing =>
      exact absurd (hd ▸ mem_liveMappings hs hm (by simp [Mapping.Open,hstate])) hid
    | quarantined =>
      have hno := any_eq_false.mp ((not_eq_true' _).mp hclean) m (mem_values.mpr ⟨id,hm⟩)
      simp [hd,hstate] at hno
  · cases hr

end LiberSystem.Dma
