import LiberSystem.Dma.Completion

/-!
# Runs of the ledger over the hardware

The calls that enter a row, and what holds along every run of calls over any hardware behind the
backend.
-/

namespace LiberSystem.Dma

open Option Iommu Set OrdMap IovaSpace

open Proc

variable {s s' : Iommu} {h h' : Hardware} {d : DomainId} {id : MappingId} {m : Mapping}

/-! ### Entering a row -/

def Free (s : Iommu) (d : DomainId) (iova len : ℕ) : Prop :=
  ∀ id m, s.mappings.get? id = some m → m.domain = d → m.state ≠ .released →
    Apart m.range (IovaSpace.range iova len)

/-- What a call with the ledger `s` and the hardware `h` before it may do to the rows: a new
row is given a range that no translation is in. -/
structure Enters (s : Iommu) (h : Hardware) (s' : Iommu) (h' : Hardware) : Prop where
  safe : Safe s' h'
  evolves : Evolves s s'
  fresh : ∀ id m, s.nextMapping ≤ id → s'.mappings.get? id = some m →
    Disjoint h.translations (under m.domain m.iova m.len)

theorem Keeps.enters (hk : Keeps s s' h') : Enters s h s' h' := by
  refine ⟨hk.1,hk.2.toEvolves,fun id m hid hm => ?_⟩
  have hlt := (hk.1.rows id m hm).2.1
  rw [hk.2.same] at hlt
  exact absurd hid (not_le.mpr hlt)

theorem disjoint_of_apart {a l b k p : ℕ} (hapart : Apart (range a l) (range b k)) :
    Disjoint (installs d a p l) (under d b k) := by
  refine disjoint_left.mpr ?_
  rintro t ⟨-,i,hi,ha,-⟩ ⟨-,hle,hlt⟩
  rcases hapart with h | h <;> simp only [IovaSpace.range] at h <;> omega

variable {iova len : ℕ} {space : IovaSpace} {direction : Direction}

theorem Safe.unreached (hs : Safe s h) (hc : d ∈ h.created)
    (hfree : Free s d iova len) : Disjoint h.translations (under d iova len) := by
  refine disjoint_left.mpr fun t ht hunder => ?_
  obtain ⟨id,m,hm,hr,hin⟩ := hs.backed t ht (hunder.1 ▸ hc)
  have hd : m.domain = d := hin.1.symm.trans hunder.1
  subst hd
  exact disjoint_left.mp (disjoint_of_apart (hfree id m hm rfl hr)) hin hunder

theorem Safe.addRow (hs : Safe s h) {row : MappingId → Mapping} (hm : row s.nextMapping = m)
    (hid : m.id = s.nextMapping) (hpos : 0 < m.len) (hc : m.domain ∈ h.created)
    (hfree : Free s m.domain m.iova m.len) (hr : m.state ≠ .released)
    (hheld : m.Open → ∀ space, s.space m.domain = some space →
      space.taken.get? m.iova = some m.len)
    (haside : m.state = .quarantined → ∃ space, s.space m.domain = some space ∧
      ⟨m.iova,m.len⟩ ∈ space.quarantined) (hcreated : h'.created = h.created)
    (htrans : h'.translations ⊆ h.translations ∪ installs m.domain m.iova m.physical m.len) :
    Enters s h (s.addMapping row) h' := by
  have hrows : ∀ id', (s.addMapping row).mappings.get? id' =
      if id' = s.nextMapping then some m else s.mappings.get? id' := fun id' => by
    rw [addMapping,get?_insert,hm]
  have hold : ∀ id' m', s.mappings.get? id' = some m' →
      (s.addMapping row).mappings.get? id' = some m' := fun id' m' hm' => by
    rw [hrows,if_neg (hs.rows id' m' hm').2.1.ne,hm']
  have hcases : ∀ id' m', (s.addMapping row).mappings.get? id' = some m' →
      s.mappings.get? id' = some m' ∨ id' = s.nextMapping ∧ m' = m := by
    intro id' m' hm'
    rw [hrows] at hm'
    split at hm'
    · next heq => exact .inr ⟨heq,(some.inj hm').symm⟩
    · exact .inl hm'
  refine ⟨⟨fun id' m' hm' => ?_,?_,fun id' m' space hm' ho hsp => ?_,fun id' m' hm' hq => ?_,
    fun id₁ m₁ id₂ m₂ h₁ h₂ hlt hd hr₁ => ?_,fun t ht htc => ?_⟩,
    ⟨Nat.le_succ _,fun id' m' hid' hm' => ?_,fun id' m' hm' _ => ⟨m',hold id' m' hm',.refl m'⟩⟩,
    fun id' m' hid' hm' => ?_⟩
  · rw [hcreated]
    rcases hcases id' m' hm' with hold' | ⟨rfl,rfl⟩
    · obtain ⟨hid',hlt,hc',hpos'⟩ := hs.rows id' m' hold'
      exact ⟨hid',Nat.lt_succ_of_lt hlt,hc',hpos'⟩
    · exact ⟨hid,Nat.lt_succ_self _,hc,hpos⟩
  · rw [hcreated]
    exact hs.spaces
  · rcases hcases id' m' hm' with hold' | ⟨rfl,rfl⟩
    · exact hs.held id' m' space hold' ho hsp
    · exact hheld ho space hsp
  · rcases hcases id' m' hm' with hold' | ⟨rfl,rfl⟩
    · exact hs.aside id' m' hold' hq
    · exact haside hq
  · -- the new row is the later one of any pair it is in
    rcases hcases id₁ m₁ h₁ with hold₁ | ⟨rfl,rfl⟩
    · rcases hcases id₂ m₂ h₂ with hold₂ | ⟨rfl,rfl⟩
      · exact hs.apart id₁ m₁ id₂ m₂ hold₁ hold₂ hlt hd hr₁
      · exact hfree id₁ m₁ hold₁ hd hr₁
    · rcases hcases id₂ m₂ h₂ with hold₂ | ⟨rfl,rfl⟩
      · exact absurd (hs.rows id₂ m₂ hold₂).2.1 (Nat.lt_asymm hlt)
      · exact absurd hlt (lt_irrefl _)
  · rcases htrans ht with ht | ht
    · obtain ⟨id',m',hm',hr',hin⟩ := hs.backed t ht (hcreated ▸ htc)
      exact ⟨id',m',hold id' m' hm',hr',hin⟩
    · exact ⟨s.nextMapping,m,by rw [hrows,if_pos rfl],hr,ht⟩
  · rcases hcases id' m' hm' with hold' | ⟨rfl,-⟩
    · exact ⟨m',hold',.refl m'⟩
    · exact absurd hid' (lt_irrefl _)
  · rcases hcases id' m' hm' with hold' | ⟨rfl,rfl⟩
    · exact absurd (hs.rows id' m' hold').2.1 (not_lt.mpr hid')
    · exact hs.unreached hc hfree

theorem Enters.of_settles {s'' : Iommu} (hset : Settles s s') (he : Enters s' h s'' h') :
    Enters s h s'' h' := by
  refine ⟨he.safe,hset.toEvolves.trans he.evolves,fun id m hid hm => he.fresh id m ?_ hm⟩
  rwa [hset.same]

theorem Safe.iova_ne_of_free (hs : Safe s h) (hfree : Free s d iova len)
    (hpos : 0 < len) (hm : s.mappings.get? id = some m) (hd : m.domain = d)
    (hr : m.state ≠ .released) : m.iova ≠ iova := by
  have hlen := (hs.rows id m hm).2.2.2
  rintro rfl
  rcases hfree id m hm hd hr with h | h <;>
    simp only [Mapping.range,IovaSpace.range] at h <;> omega

theorem Safe.giveBack (hs : Safe s h) {space' : IovaSpace}
    (hspace : s.space d = some space) (hfree : Free s d iova len) (hpos : 0 < len)
    (htaken : space'.taken = space.taken.erase iova) (htidy : space'.Tidy)
    (hquar : space.quarantined ⊆ space'.quarantined) : Keeps s (s.setSpace d space') h := by
  refine ⟨hs.setSpace hspace htidy (fun id m hm hd ho => ?_) hquar,settles_of_rows rfl rfl⟩
  have hne := hs.iova_ne_of_free hfree hpos hm hd ho.ne_released
  rw [htaken,get?_erase,if_neg hne]
  exact hs.held id m space hm ho (hd ▸ hspace)

def FailsEntering (s : Iommu) (h : Hardware) (e : Halt) (s' : Iommu) (h' : Hardware) : Prop :=
  e = .panic ∨ Enters s h s' h'

theorem Keeps.failsEntering {e : Halt} (hk : Keeps s s' h') : FailsEntering s h e s' h' :=
  .inr hk.enters

section Taken

/- A free range of a domain's space that was handed out, not yet mapped. -/
variable {space : IovaSpace} {iova physical len : ℕ} {direction : Direction}
  {generation : Generation}

section

variable (hs : Safe s h) (hspace : s.space d = some space)
  (htaken : space.taken.get? iova = some len) (hfree : Free s d iova len)
include hs hspace htaken hfree

theorem mapFailed_spec {reason : Fault}
    (htrans : h'.translations ⊆ h.translations ∪ installs d iova physical len)
    (hcreated : h'.created = h.created) (hnothing : reason ≠ .unconfirmed → Shrinks h h') :
    wp hardware anyway (mapFailed d iova physical len direction generation reason)
      (fun _ s' h' => Enters s h s' h') (FailsEntering s h) s h' := by
  obtain ⟨hc,htidy⟩ := hs.spaces d space hspace
  have hpos := (htidy.fits iova len htaken).1
  obtain ⟨state,hstate,rfl⟩ := map_eq_some_iff.mp hspace
  simp only [mapFailed,wp_bind,wp_get,hstate,wp_ite]
  refine wp_orThrow (fun state' heq => ?_) fun h => by cases h
  cases heq
  split
  · -- it may be installed: the range is set aside
    rw [quarantine,htaken]
    obtain ⟨hs₁,hset⟩ := hs.giveBack hspace hfree hpos rfl (htidy.setAside htaken)
      (List.subset_append_left _ _)
    refine Enters.of_settles hset ?_
    refine hs₁.addRow rfl rfl hpos hc hfree (fun h => by cases h) ?_ ?_ hcreated htrans
    · rintro (h | h) <;> cases h
    · intro _
      refine ⟨_,by rw [space_setSpace,if_pos rfl,hspace,map_some],?_⟩
      exact List.mem_append_right _ List.mem_cons_self
  · next hreason =>
    have hs₁ := hs.shrink (hnothing hreason)
    rw [release,htaken]
    exact (hs₁.giveBack hspace hfree hpos rfl (htidy.erase iova) (List.Subset.refl _)).enters

theorem mapTaken_spec :
    wp hardware anyway (mapTaken d iova physical len direction generation)
      (fun _ s' h' => Enters s h s' h') (FailsEntering s h) s h := by
  obtain ⟨hc,htidy⟩ := hs.spaces d space hspace
  have hpos := (htidy.fits iova len htaken).1
  simp only [mapTaken,wp_bind]
  refine wp_request fun ans h₁ he => ?_
  obtain ⟨htrans,hcreated,hnothing⟩ := hardware_map he
  rcases ans with reason | _
  · simp only [wp_bind,wp_throw]
    refine (mapFailed_spec hs hspace htaken hfree htrans hcreated (hnothing reason rfl)).mono
      (fun _ s' h' hr => .inr hr) fun _ _ _ hr => hr
  refine hs.addRow rfl rfl hpos hc hfree (fun h => by cases h) (fun _ space' hspace' => ?_)
    (fun h => by cases h) hcreated htrans
  obtain rfl := some.inj (hspace.symm.trans hspace')
  exact htaken

end

end Taken

section

variable (hs : Safe s h) (hspace : s.space d = some space)
  (hno : space.overlapsAny iova len = false)
include hs hspace hno

theorem Safe.free (hfit : iova + len ≤ u64Max) : Free s d iova len := by
  obtain ⟨htaken,hquar⟩ := (hs.spaces d space hspace).2.apart_of_overlapsAny hno hfit
  intro id m hm hd hr
  subst hd
  cases hstate : m.state with
  | live | closing =>
    exact htaken _ _ (hs.held id m space hm (by simp [Mapping.Open,hstate]) hspace)
  | released => exact absurd hstate hr
  | quarantined =>
    obtain ⟨space',hspace',hmem⟩ := hs.aside id m hm hstate
    obtain rfl := some.inj (hspace.symm.trans hspace')
    exact (hquar _ hmem).symm

theorem Safe.takeAndMap (hpos : 0 < len) (hfit : iova + len ≤ u64Max) {physical : ℕ}
    {generation : Generation} :
    wp hardware anyway (mapTaken d iova physical len direction generation)
      (fun _ s' h' => Enters s h s' h') (FailsEntering s h)
      (s.setSpace d { space with taken := space.taken.insert iova len }) h := by
  have hfree := hs.free hspace hno hfit
  obtain ⟨hs₁,hset⟩ : Keeps s (s.setSpace d { space with taken := space.taken.insert iova len })
      h := by
    refine ⟨hs.setSpace hspace ((hs.spaces d space hspace).2.insert hno hpos hfit) ?_
      (List.Subset.refl _),settles_of_rows rfl rfl⟩
    intro id m hm hd ho
    have hne := hs.iova_ne_of_free hfree hpos hm hd ho.ne_released
    rw [get?_insert,if_neg hne]
    exact hs.held id m space hm ho (hd ▸ hspace)
  refine (mapTaken_spec hs₁ (by rw [space_setSpace,if_pos rfl,hspace,map_some])
    (by rw [get?_insert,if_pos rfl]) hfree).mono (fun _ s' h' hr => hr.of_settles hset)
    fun _ s' h' hr => hr.imp_right fun h => h.of_settles hset

end

theorem mapIdentity_spec (hs : Safe s h) {address : ℕ} :
    wp hardware anyway (mapIdentity d address len direction)
      (fun _ s' h' => Enters s h s' h') (FailsEntering s h) s h := by
  simp only [mapIdentity,wp_bind,wp_get,wp_ensure,wp_modify]
  split
  · refine wp_orThrow (fun state hstate => ?_) fun _ => hs.keeps.failsEntering
    have hspace : s.space d = some state.space := by rw [space,hstate]; rfl
    refine wp_fromExcept (fun r hr => ?_) fun e _ => hs.keeps.failsEntering
    obtain ⟨iova,space⟩ := r
    obtain ⟨rfl,hpos,hfit,-,-,hno,rfl⟩ := takeExact_ok hr
    exact hs.takeAndMap hspace hno hpos hfit
  · exact hs.keeps.failsEntering

theorem Safe.takeAndRelease (hs : Safe s h)
    (space' : IovaSpace) (hspace : s.space d = some space) (hnone : space.taken.get? iova = none)
    (htaken : space'.taken = (space.taken.insert iova len).erase iova)
    (hquar : space'.quarantined = space.quarantined) {between : IovaSpace} :
    Keeps s ((s.setSpace d between).setSpace d space') h := by
  have hget : ∀ a, space'.taken.get? a = space.taken.get? a := fun a => by
    rw [htaken,get?_erase,get?_insert]
    split
    · next heq => rw [heq,hnone]
    · rfl
  have hs₁ : Safe (s.setSpace d space') h := by
    refine hs.setSpace hspace ((hs.spaces d space hspace).2.congr hget hquar) ?_
      (hquar ▸ List.Subset.refl _)
    intro id m hm hd ho
    rw [hget]
    exact hs.held id m space hm ho (hd ▸ hspace)
  refine ⟨hs₁.congr rfl rfl fun d' => ?_,settles_of_rows rfl rfl⟩
  simp only [space_setSpace,↓reduceIte,hspace,map_some]
  split <;> rfl

theorem map_spec (hs : Safe s h) {physical : ℕ} {requirements : Requirements} :
    wp hardware anyway (map d physical len direction requirements)
      (fun _ s' h' => Enters s h s' h') (FailsEntering s h) s h := by
  simp only [map,wp_bind,wp_get,wp_ensure,wp_modify,wp_ite]
  split
  · refine wp_orThrow (fun state hstate => ?_) fun _ => hs.keeps.failsEntering
    have hspace : s.space d = some state.space := by rw [space,hstate]; rfl
    refine wp_fromExcept (fun r hr => ?_) fun e _ => hs.keeps.failsEntering
    obtain ⟨iova,space⟩ := r
    obtain ⟨hpos,-,hno,rfl⟩ := allocate_ok hr
    split
    · -- the range may wrap here, so that it is never looked at
      rw [release,get?_insert,if_pos rfl]
      have hnone := (hs.spaces d _ hspace).2.get?_of_overlapsAny hno hpos
      exact Keeps.failsEntering (hs.takeAndRelease
        { state.space with taken := (state.space.taken.insert iova len).erase iova }
        hspace hnone rfl rfl)
    · next hpermits =>
      have hfit := Requirements.le_of_permits (Bool.not_eq_false _ ▸ hpermits)
      exact hs.takeAndMap hspace hno hpos hfit
  · exact hs.keeps.failsEntering

/-! ### Faults -/

section

variable (hs : Safe s h) (teardown : Teardown)
include hs teardown

theorem Safe.attribute (event : FaultEvent) : Keeps s (s.attribute teardown event).2 h := by
  rw [Iommu.attribute]
  split
  · exact hs.keeps_of_same rfl rfl rfl
  · refine ⟨hs.congr rfl rfl ?_,settles_of_rows rfl rfl⟩
    exact Iommu.space_setDomain fun _ => rfl

theorem Safe.attributeAll
    (events : List FaultEvent) : Keeps s (s.attributeAll teardown events).2 h := by
  induction events generalizing s with
  | nil => exact hs.keeps
  | cons event rest ih =>
    have hk := hs.attribute teardown event
    exact (ih hk.1).trans hk.2

end

theorem drainFaultsDuring_spec (hs : Safe s h) {room : ℕ}
    {teardown : Teardown} :
    wp hardware anyway (drainFaultsDuring room teardown) (fun _ s' h' => Keeps s s' h')
      (Fails s) s h := by
  simp only [drainFaultsDuring,wp_bind,wp_get,wp_set]
  refine wp_request fun events h₁ he₁ => ?_
  have hs₁ := hs.shrink (hardware_shrinks he₁ (fun h => by cases h) rfl)
  obtain ⟨hs₂,hset⟩ := hs₁.attributeAll teardown events
  refine wp_request fun emptied h₂ he₂ => ?_
  have hs₃ := hs₂.shrink (hardware_shrinks he₂ (fun h => by cases h) rfl)
  cases emptied with
  | false => exact ⟨hs₃,hset⟩
  | true =>
    refine Keeps.trans hset ?_
    exact hs₃.keeps_of_same rfl rfl rfl

/-! ### Runs -/

inductive Call where
  | createDomain (base len : ℕ) (reserved : List Reserved) (generation : Generation)
  | attach (domain : DomainId) (endpoint : EndpointId)
  | map (domain : DomainId) (physical len : ℕ) (direction : Direction)
      (requirements : Requirements)
  | mapIdentity (domain : DomainId) (address len : ℕ) (direction : Direction)
  | beginClose (id : MappingId)
  | finishClose (id : MappingId)
  | close (id : MappingId)
  | retainMapping (id : MappingId)
  | releaseMapping (id : MappingId)
  | revokeEndpoint (domain : DomainId) (endpoint : EndpointId)
  | destroyDomain (domain : DomainId)
  | drainFaultsDuring (room : ℕ) (teardown : Teardown)

namespace Call

def run : Call → IommuM (Option Release)
  | createDomain base len reserved generation => do
    let _ ← Dma.createDomain base len reserved generation
    pure none
  | attach domain endpoint => do
    Dma.attach domain endpoint
    pure none
  | map domain physical len direction requirements => do
    let _ ← Dma.map domain physical len direction requirements
    pure none
  | mapIdentity domain address len direction => do
    let _ ← Dma.mapIdentity domain address len direction
    pure none
  | beginClose id => do
    Dma.beginClose id
    pure none
  | finishClose id => do return some (← Dma.finishClose id)
  | close id => do return some (← Dma.close id)
  | retainMapping id => do
    Dma.retainMapping id
    pure none
  | releaseMapping id => do return some (← Dma.releaseMapping id)
  | revokeEndpoint domain endpoint => do return some (← Dma.revokeEndpoint domain endpoint)
  | destroyDomain domain => do
    Dma.destroyDomain domain
    pure none
  | drainFaultsDuring room teardown => do
    let _ ← Dma.drainFaultsDuring room teardown
    pure none

def Covers : Call → Mapping → Prop
  | finishClose id, m | close id, m | releaseMapping id, m => m.id = id
  | revokeEndpoint domain _, m => m.domain = domain
  | _, _ => False

/-- What every call keeps, and what it has done when it reports frames as reusable. -/
theorem run_spec (c : Call) (hs : Safe s h) :
    wp hardware anyway c.run (fun r s' h' => Enters s h s' h' ∧ (r = some .framesReusable →
      Settles s s' ∧ ∀ id m, s.mappings.get? id = some m → c.Covers m → Finished s' id))
      (FailsEntering s h) s h := by
  have hfail : ∀ e s' h', Fails s e s' h' → FailsEntering s h e s' h' :=
    fun e s' h' hf => hf.imp_right Keeps.enters
  -- one mapping: the row it is about is the one of that id
  have hone : ∀ (id : MappingId) (r : Release) s' h',
      Keeps s s' h' ∧ (r = .framesReusable → Finished s' id) →
      Enters s h s' h' ∧ (some r = some .framesReusable →
        Settles s s' ∧ ∀ id' m, s.mappings.get? id' = some m → m.id = id → Finished s' id') := by
    rintro id r s' h' ⟨hk,hfin⟩
    refine ⟨hk.enters,fun hr => ⟨hk.2,fun id' m hm hid => ?_⟩⟩
    rw [← (hs.rows id' m hm).1,hid]
    exact hfin (some.inj hr)
  have hno {P : Prop} : none = some Release.framesReusable → P := fun h => by cases h
  have hplain {α : Type} {P : Iommu → Prop} (_ : α) s' h' (hk : Keeps s s' h') :
      Enters s h s' h' ∧ (none = some Release.framesReusable → P s') := ⟨hk.enters,hno⟩
  cases c with
  | createDomain => exact wp_bind.mpr ((createDomain_spec hs).mono hplain hfail)
  | attach => exact wp_bind.mpr ((attach_spec hs).mono hplain hfail)
  | map => exact wp_bind.mpr ((map_spec hs).mono (fun _ _ _ he => ⟨he,hno⟩) fun _ _ _ he => he)
  | mapIdentity => exact wp_bind.mpr ((mapIdentity_spec hs).mono
      (fun _ _ _ he => ⟨he,hno⟩) fun _ _ _ he => he)
  | beginClose => exact wp_bind.mpr ((beginClose_spec hs).mono hplain hfail)
  | finishClose id => exact wp_bind.mpr ((finishClose_spec hs).mono (hone id) hfail)
  | close id => exact wp_bind.mpr ((close_spec hs).mono (hone id) hfail)
  | retainMapping => exact wp_bind.mpr ((retainMapping_spec hs).mono hplain hfail)
  | releaseMapping id => exact wp_bind.mpr ((releaseMapping_spec hs).mono (hone id) hfail)
  | revokeEndpoint d e =>
    refine wp_bind.mpr ((revokeEndpoint_spec hs).mono (fun r s' h' hr => ?_) hfail)
    obtain ⟨hk,hfin⟩ := hr
    refine ⟨hk.enters,fun hr => ⟨hk.2,fun id m hm hd m' hm' => ?_⟩⟩
    obtain ⟨m₀,hm₀,hstay⟩ := hk.2.row id m' (hs.rows id m hm).2.1 hm'
    obtain rfl := some.inj (hm.symm.trans hm₀)
    exact hfin (some.inj hr) id m' hm' (hstay.domain.trans hd)
  | destroyDomain => exact wp_bind.mpr ((destroyDomain_spec hs).mono hplain hfail)
  | drainFaultsDuring => exact wp_bind.mpr ((drainFaultsDuring_spec hs).mono hplain hfail)

end Call

structure World where
  iommu : Iommu
  hardware : Hardware

namespace World

variable {w w' w₀ w₁ w₂ : World} {c : Call} {r : Request}

/-- The call runs to its end: it returns, or fails with an error of its own. A panic halts
the kernel. -/
def Does (w : World) (c : Call) (r : Except Fault (Option Release)) (w' : World) : Prop :=
  Interact.Leads Dma.hardware (exec c.run w.iommu) w.hardware
    (r.mapError Halt.fault, w'.iommu) w'.hardware

inductive Step : World → World → Prop where
  | call {w w' : World} (c : Call) (r : Except Fault (Option Release)) :
      w.Does c r w' → Step w w'
  | idle {w : World} {h : Hardware} : w.hardware.Fills h → Step w ⟨w.iommu,h⟩

abbrev Runs : World → World → Prop := Relation.ReflTransGen Step

def Start (w : World) : Prop := ∃ capacity, w.iommu = Iommu.new capacity ∧ w.hardware.created = ∅

theorem Does.enters {r : Except Fault (Option Release)} (hd : w.Does c r w')
    (hs : Safe w.iommu w.hardware) :
    Enters w.iommu w.hardware w'.iommu w'.hardware ∧ (r = .ok (some .framesReusable) →
      Settles w.iommu w'.iommu ∧ ∀ id m, w.iommu.mappings.get? id = some m → c.Covers m →
        Finished w'.iommu id) := by
  have hend := (c.run_spec hs).leads hd
  cases r with
  | error reason =>
    refine ⟨hend.resolve_left fun h => (by cases h),fun h => by cases h⟩
  | ok released => exact ⟨hend.1,fun h => hend.2 (Except.ok.inj h)⟩

theorem created_subset {ans : r.Answer} (he : Dma.hardware h r ans h') :
    h.created ⊆ h'.created := by
  obtain ⟨filled,hf,heff⟩ := he
  rw [← hf.shrinks.1.created]
  by_cases hr : r = .domainCreate
  · subst hr
    rcases ans with reason | d
    · rcases heff with rfl | ⟨d,-,rfl⟩
      · exact subset_rfl
      · exact subset_insert d _
    · obtain ⟨-,rfl⟩ := heff
      exact subset_insert d _
  · exact (Hardware.effect_translations heff hr).2.ge

theorem Step.keeps (hstep : Step w w') (hs : Safe w.iommu w.hardware) :
    Safe w'.iommu w'.hardware ∧ Evolves w.iommu w'.iommu ∧
      w.hardware.created ⊆ w'.hardware.created := by
  cases hstep with
  | call c r hd =>
    have he := (hd.enters hs).1
    refine ⟨he.safe,he.evolves,?_⟩
    exact Interact.Leads.related (R := fun h h' => h.created ⊆ h'.created) (fun _ => subset_rfl)
      Set.Subset.trans created_subset hd
  | idle hf => exact ⟨hs.shrink hf.shrinks.1,Evolves.refl _,hf.shrinks.1.created.ge⟩

theorem Runs.keeps (hr : Runs w w') (hs : Safe w.iommu w.hardware) :
    Safe w'.iommu w'.hardware ∧ Evolves w.iommu w'.iommu ∧
      w.hardware.created ⊆ w'.hardware.created := by
  induction hr with
  | refl => exact ⟨hs,Evolves.refl _,subset_rfl⟩
  | tail _ hstep ih =>
    obtain ⟨hs',hev,hc⟩ := hstep.keeps ih.1
    exact ⟨hs',ih.2.1.trans hev,ih.2.2.trans hc⟩

theorem Start.safe (hstart : w.Start) : Safe w.iommu w.hardware := by
  obtain ⟨capacity,hnew,hcreated⟩ := hstart
  rw [hnew]
  constructor
  · intro id m hm
    cases hm
  · intro d space hspace
    cases hspace
  · intro id m space hm
    cases hm
  · intro id m hm
    cases hm
  · intro id m id' m' hm
    cases hm
  · intro t _ hc
    rw [hcreated] at hc
    exact absurd hc (notMem_empty _)

/-- Completion precedes reuse. Take a run to `w₁` and on to `w₂`.
* A mapping of `w₁` that is released in `w₂`, or whose row is gone there, is out of the reach of
  every endpoint: an address of its range is resolved to its frames only by a later mapping.
* A call that reports frames as reusable has finished the mappings that the report is
  about; their ranges are then out of reach altogether, unless a mapping was finished before
  the call.
* A call gives a new mapping only a range of which no translation was left.
* A quarantined row stays so in its place, and its range set aside. -/
theorem completion_precedes_reuse (hstart : w₀.Start) (h₁ : Runs w₀ w₁) (h₂ : Runs w₁ w₂) :
    (∀ id m, w₁.iommu.mappings.get? id = some m → Finished w₂.iommu id →
      ∀ e t, w₂.hardware.Resolves e t → t ∈ installs m.domain m.iova m.physical m.len →
        ∃ id' m', id < id' ∧ w₂.iommu.mappings.get? id' = some m' ∧ m'.state ≠ .released ∧
          t ∈ installs m'.domain m'.iova m'.physical m'.len) ∧
    (∀ c, w₁.Does c (.ok (some .framesReusable)) w₂ → ∀ id m,
      w₁.iommu.mappings.get? id = some m → c.Covers m → Finished w₂.iommu id ∧
        (m.state ≠ .released → ∀ e t, w₂.hardware.Resolves e t → t ∉ under m.domain m.iova m.len)) ∧
    (∀ c r, w₁.Does c r w₂ → ∀ id m, w₁.iommu.mappings.get? id = none →
      w₂.iommu.mappings.get? id = some m →
        Disjoint w₁.hardware.translations (under m.domain m.iova m.len)) ∧
    (∀ id m, w₁.iommu.mappings.get? id = some m → m.state = .quarantined →
      ∃ m' space, w₂.iommu.mappings.get? id = some m' ∧ Stays m m' ∧
        w₂.iommu.space m.domain = some space ∧ ⟨m.iova,m.len⟩ ∈ space.quarantined) := by
  obtain ⟨hs₁,-⟩ := h₁.keeps hstart.safe
  obtain ⟨hs₂,hev,hsub⟩ := h₂.keeps hs₁
  refine ⟨fun id m hm hfin e t ht hin => ?_,fun c hdoes id m hm hcov => ?_,
    fun c r hdoes id m hnone hm => ?_,fun id m hm hq => ?_⟩
  · obtain ⟨-,hlt,hc,-⟩ := hs₁.rows id m hm
    obtain ⟨id',m',hm',hr',hin'⟩ := hs₂.backed t ht.2 (hin.1 ▸ hsub hc)
    refine ⟨id',m',lt_of_not_ge fun hle => ?_,hm',hr',hin'⟩
    -- an older mapping that is not released was so in `w₁` already, with a range apart
    rcases hle.lt_or_eq with hlt' | rfl
    · obtain ⟨m₀,hm₀,hstay⟩ := hev.row id' m' (hlt'.trans hlt) hm'
      have hr₀ : m₀.state ≠ .released := fun h => hr' (hstay.released h)
      rw [hstay.domain,hstay.iova,hstay.physical,hstay.len] at hin'
      have hd : m₀.domain = m.domain := hin'.1.symm.trans hin.1
      have hapart := hs₁.apart id' m₀ id m hm₀ hm hlt' hd hr₀
      exact disjoint_left.mp (disjoint_of_apart hapart) hin' (hd ▸ installs_subset_under _ _ _ hin)
    · exact hr' (hfin m' hm')
  · obtain ⟨hset,hfin⟩ := (hdoes.enters hs₁).2 rfl
    have hfin := hfin id m hm hcov
    refine ⟨hfin,fun hr e t ht hunder => ?_⟩
    obtain ⟨-,hlt,hc,-⟩ := hs₁.rows id m hm
    obtain ⟨id',m',hm',hr',hin'⟩ := hs₂.backed t ht.2 (hunder.1 ▸ hsub hc)
    have hlt' : id' < w₁.iommu.nextMapping := hset.same ▸ (hs₂.rows id' m' hm').2.1
    obtain ⟨m₀,hm₀,hstay⟩ := hev.row id' m' hlt' hm'
    have hr₀ : m₀.state ≠ .released := fun h => hr' (hstay.released h)
    rw [hstay.domain,hstay.iova,hstay.physical,hstay.len] at hin'
    have hd : m₀.domain = m.domain := hin'.1.symm.trans hunder.1
    have hne : id' ≠ id := by
      rintro rfl
      exact hr' (hfin m' hm')
    have hapart := hs₁.apart_of_ne hm₀ hm hne hd hr₀ hr
    exact disjoint_left.mp (disjoint_of_apart hapart) hin' (hd ▸ hunder)
  · refine (hdoes.enters hs₁).1.fresh id m (not_lt.mp fun hlt => ?_) hm
    obtain ⟨m₀,hm₀,-⟩ := hev.row id m hlt hm
    rw [hnone] at hm₀
    cases hm₀
  · obtain ⟨m',hm',hstay⟩ := hev.keeps id m hm hq
    obtain ⟨space,hspace,hmem⟩ := hs₂.aside id m' hm' (hstay.quarantined hq)
    rw [hstay.domain] at hspace
    rw [hstay.iova,hstay.len] at hmem
    exact ⟨m',space,hm',hstay,hspace,hmem⟩

theorem confirmed {α : Type} {h'' : Hardware} {a : α}
    {next : r.Answer → Interact Request Request.Answer α} (ans : r.Answer) (h' : Hardware)
    (he : h.effect r ans h') (hl : Interact.Leads Dma.hardware (next ans) h' a h'') :
    Interact.Leads Dma.hardware (.ask r next) h a h'' :=
  .ask ⟨h,⟨h.cache,subset_union_right,rfl⟩,he⟩ hl

theorem Runs.call {s' : Iommu} (hr : Runs w w₁) (c : Call) (r : Except Fault (Option Release))
    (hd : w₁.Does c r ⟨s',h'⟩) : w₁.Does c r ⟨s',h'⟩ ∧ Runs w ⟨s',h'⟩ :=
  ⟨hd,hr.tail (.call c r hd)⟩

/-- A domain with an endpoint and one mapping, which the endpoint resolves until the mapping
is closed. -/
theorem completion_precedes_reuse_closed : ∃ w₀ w₁ w₂ : World, w₀.Start ∧ Runs w₀ w₁ ∧
    w₁.Does (.close 1) (.ok (some .framesReusable)) w₂ ∧
    w₁.hardware.Resolves 9 ⟨1,3,3⟩ ∧ ∀ e t, w₂.hardware.Resolves e t → t ∉ under 1 2 3 := by
  let h₀ : Hardware := ⟨∅,∅,∅,∅⟩
  let h₁ : Hardware := ⟨∅ \ ofDomain 1,∅ \ ofDomain 1,∅,insert 1 ∅⟩
  let h₂ : Hardware := { h₁ with attached := insert (9, 1) (h₁.attached \ {a | a.1 = 9}) }
  let h₃ : Hardware := { h₂ with table := h₂.table ∪ installs 1 2 2 3 }
  let h₄ : Hardware := { h₃ with table := h₃.table \ under 1 2 3 }
  let h₅ : Hardware := { h₄ with cache := h₄.cache \ ofDomain 1 }
  have hstart : Runs ⟨new 4,h₀⟩ ⟨new 4,h₀⟩ := .refl
  have hcreate := hstart.call (.createDomain 2 6 [] 7) (.ok none)
    (confirmed (.ok 1) h₁ ⟨notMem_empty 1,rfl⟩ (.done _ _))
  have hattach := hcreate.2.call (.attach 1 9) (.ok none)
    (confirmed true h₁ rfl (confirmed (.ok ()) h₂ rfl (.done _ _)))
  have hmap := hattach.2.call (.mapIdentity 1 2 3 .toDevice) (.ok none)
    (confirmed (.ok ()) h₃ rfl (.done _ _))
  have hclose := hmap.2.call (.close 1) (.ok (some .framesReusable))
    (confirmed (.ok ()) h₄ rfl (confirmed (.ok ()) h₅ rfl (.done _ _)))
  have hfinal := (completion_precedes_reuse ⟨4,rfl,rfl⟩ hmap.2
    (.single (.call _ _ hclose.1))).2.1 _ hclose.1 1 ⟨1,1,2,2,3,.toDevice,7,.live,false⟩ (by decide)
      rfl
  refine ⟨_,_,_,⟨4,rfl,rfl⟩,hmap.2,hclose.1,
    ⟨?_,.inl (.inr ⟨rfl,1,by decide,rfl,rfl⟩)⟩,hfinal.2 (by decide)⟩
  exact mem_insert _ _

end World

end LiberSystem.Dma
