import LiberSystem.Net.Accounting

/-!
# Accounting over whole runs

Which events keep the counters exact, and the run lemma for them. What the events of
the stack are by their origin, apart from the state of the pool, is `Genuine`.
-/

namespace LiberSystem.Net

open List Net.Block BindTable

namespace Pool

/-- What holds of an event because of where it comes from. -/
def Genuine (p : Pool) : Event → Prop
  | .establish ci => ci < p.blocks.length ∧ (p.block ci).inUse = true ∧
      (p.block ci).state = .synSent
  | .complete ci => ci < p.blocks.length ∧ (p.block ci).halfOpen = true
  | .passiveOpen listener addr port =>
    ∃ binding, p.listeners.lookup addr port = some (listener, binding)
  | _ => True

/-- The counters are exact, and every claim has its slots. -/
structure Inv (gone : List Nat) (p : Pool) : Prop where
  exact : Exact gone p.listeners.nextId p.blocks p.admission.halfOpen
    p.admission.controlBlocks p.admission.receiveBytes p.admission.listeners
  claims : ∀ e ∈ p.listeners.entries, ∃ l ∈ p.admission.listeners, l.id = e.1

/-- An event that releases what it should, once. -/
def Orderly (p : Pool) : Event → Prop
  -- the open of a block nobody charged
  | .alloc => False
  -- only the holder of a block opens, resets or closes it, and no holder has a half-open one
  | .connect ci _ _ | .reset ci | .closeHalf ci =>
    (p.block ci).inUse = true ∧ (p.block ci).halfOpen = false
  -- a reset by the peer of a half-open block releases nothing
  | .close ci => (p.block ci).halfOpen = false
  -- the release of a half-open block takes its block and bytes twice
  | .free ci => (p.block ci).halfOpen = true → p.blocks.countP (·.inUse) = 1
  -- half-open blocks survive their listener, and a queue may count what is not waiting
  | .unlisten id => (∃ e ∈ p.listeners.entries, e.1 = id) → ∀ l ∈ p.admission.listeners, l.id = id →
      l.reserved = 0 ∧ l.queued = p.blocks.countP (Block.pendingFor id)
  -- a retired attempt is released with its listener or not at all
  | .invalidate address =>
    (∀ l ∈ p.admission.listeners, l.id ∈ p.boundTo (.v6 address) →
      l.queued = p.blocks.countP (Block.pendingFor l.id)) ∧
    ∀ b ∈ p.blocks,
      (b.inUse = true ∧ b.addr = .v6 address ∧ (b.state = .synSent ∨ b.state = .synRcvd)) ↔
        (b.halfOpen = true ∧ b.listener ∈ p.boundTo (.v6 address))
  | _ => True

/-! ## Blocks of the pool -/

variable {p : Pool} {ci : Nat} {gone : List Nat}

theorem update_of_le (h : p.blocks.length ≤ ci) (f : Block → Block) : p.update ci f = p := by
  have : p.blocks.modify ci f = p.blocks := by
    refine ext_getElem? fun j => ?_
    rw [getElem?_modify]
    split
    · next heq =>
      subst heq
      simp [h]
    · simp
  rw [update,this]

theorem exists_rest (h : ci < p.blocks.length) : ∃ rest, p.blocks ~ p.block ci :: rest ∧
    ∀ f, (p.update ci f).blocks ~ f (p.block ci) :: rest := by
  have hget : p.blocks[ci]? = some (p.block ci) := by
    simp [block,getD_eq_getElem?_getD,h]
  refine ⟨p.blocks.eraseIdx ci,perm_cons_eraseIdx hget,fun f => ?_⟩
  have hset : p.blocks.modify ci f = p.blocks.set ci (f (p.block ci)) := by
    rw [modify_eq_set_getElem?,hget]
    rfl
  rw [update,hset]
  exact set_perm_eraseIdx hget _

theorem alloc_spec (p : Pool) : ∃ b rest, b.inUse = false ∧
    (p.blocks ~ b :: rest ∨ p.blocks = rest) ∧
    ∀ f, (p.alloc.2.update p.alloc.1 f).blocks ~ f b.taken :: rest := by
  unfold alloc
  split
  · next i hi =>
    obtain ⟨hlt,hfree,-⟩ := findIdx?_eq_some_iff_getElem.mp hi
    obtain ⟨rest,hrest,hupd⟩ := exists_rest hlt
    have hget : p.block i = p.blocks[i] := by simp [block,getD_eq_getElem?_getD,hlt]
    refine ⟨p.block i,rest,?_,.inl hrest,fun f => ?_⟩
    · rw [hget]
      simpa using hfree
    · have := hupd (fun b => f b.taken)
      simp only [update,modify_modify_eq] at this ⊢
      exact this
  · refine ⟨closed,p.blocks,rfl,.inr rfl,fun f => ?_⟩
    have happ : (p.blocks ++ [closed.taken]).modify p.blocks.length f
        = p.blocks ++ [f closed.taken] := by
      rw [modify_eq_set_getElem?]
      simp
    simp only [update,happ]
    exact perm_append_singleton _ _

@[simp] theorem alloc_listeners (p : Pool) : p.alloc.2.listeners = p.listeners := by
  unfold alloc
  split <;> rfl

@[simp] theorem alloc_admission (p : Pool) : p.alloc.2.admission = p.admission := by
  unfold alloc
  split <;> rfl

variable {f : Block → Block} {slots : List ListenerSlots} {id index : Nat} {l : ListenerSlots}

theorem Inv.opening {a : Admission} (hp : Inv [] p)
    (hclaims : ∀ l ∈ p.admission.listeners, ∃ l' ∈ a.listeners, l'.id = l.id)
    (hopen : ∀ b rest, b.inUse = false →
      Exact [] p.listeners.nextId (b :: rest) p.admission.halfOpen p.admission.controlBlocks
        p.admission.receiveBytes p.admission.listeners →
      Exact [] p.listeners.nextId (f b.taken :: rest) a.halfOpen a.controlBlocks
        a.receiveBytes a.listeners) :
    Inv [] (({ p with admission := a } : Pool).alloc.2.update
      ({ p with admission := a } : Pool).alloc.1 f) := by
  obtain ⟨b,rest,hfree,hbefore,hafter⟩ := alloc_spec { p with admission := a }
  have hstart : Exact [] p.listeners.nextId (b :: rest) p.admission.halfOpen
      p.admission.controlBlocks p.admission.receiveBytes p.admission.listeners := by
    rcases hbefore with hperm | heq
    · exact hp.exact.perm hperm (.refl _)
    · have hblocks : p.blocks = rest := heq
      exact (hblocks ▸ hp.exact).addFree hfree
  refine ⟨?_,?_⟩
  · simp only [update,alloc_listeners,alloc_admission]
    exact (hopen b rest hfree hstart).perm (hafter f).symm (.refl _)
  simp only [update,alloc_listeners,alloc_admission]
  intro e he
  obtain ⟨l,hl,hid⟩ := hp.claims e he
  obtain ⟨l',hl',hid'⟩ := hclaims l hl
  exact ⟨l',hl',hid'.trans hid⟩

/-! ## Each event -/

theorem Inv.replace (hp : Inv gone p) (huse : (f (p.block ci)).inUse = (p.block ci).inUse)
    (hhalf : (f (p.block ci)).halfOpen = (p.block ci).halfOpen)
    (hlis : (p.block ci).halfOpen → (f (p.block ci)).listener = (p.block ci).listener)
    (hsize : (f (p.block ci)).rxSize = (p.block ci).rxSize)
    (hpend : (p.block ci).halfOpen → (f (p.block ci)).pendingAccept = (p.block ci).pendingAccept) :
    Inv gone (p.update ci f) := by
  by_cases hci : ci < p.blocks.length
  · obtain ⟨rest,hrest,hupd⟩ := exists_rest hci
    exact ⟨((hp.exact.perm hrest (.refl _)).replace huse hhalf hlis hsize hpend).perm
      (hupd f).symm (.refl _),hp.claims⟩
  · rw [update_of_le (by omega)]
    exact hp

theorem Inv.replaceIdle (hp : Inv gone p) (hhalf : (p.block ci).halfOpen = false)
    (huse : (f (p.block ci)).inUse = (p.block ci).inUse)
    (hhalf' : (f (p.block ci)).halfOpen = false)
    (hsize : (f (p.block ci)).rxSize = (p.block ci).rxSize) : Inv gone (p.update ci f) :=
  hp.replace huse (hhalf'.trans hhalf.symm) (by simp [hhalf]) hsize (by simp [hhalf])

theorem inv_openOutbound (hp : Inv [] p) : Inv [] p.openOutbound := by
  unfold openOutbound
  rcases p.admission.openOutbound_cases with ⟨_,refusals,heq⟩ | heq
  · rw [heq]
    exact ⟨hp.exact,hp.claims⟩
  · rw [heq]
    refine hp.opening (fun l hl => ⟨l,hl,rfl⟩) fun b rest hfree hx => ?_
    exact hx.charge hfree rfl rfl rfl

theorem slots_perm (hfind : findAt (·.id == id) slots = some (index, l)) :
    l.id = id ∧ slots ~ l :: slots.eraseIdx index ∧
      ∀ l', slots.set index l' ~ l' :: slots.eraseIdx index := by
  obtain ⟨hget,hid⟩ := findAt_eq_some hfind
  exact ⟨by simpa using hid,perm_cons_eraseIdx hget,fun l' => set_perm_eraseIdx hget l'⟩

theorem exists_findAt (hl : l ∈ slots) (hid : l.id = id) :
    ∃ index l, findAt (·.id == id) slots = some (index, l) := by
  cases hfind : findAt (·.id == id) slots with
  | none =>
    have := findAt_eq_none_iff.mp hfind l hl
    simp [hid] at this
  | some found => exact ⟨found.1,found.2,rfl⟩

/-- A half-open block names a listener that is registered. -/
theorem Inv.exists_slots {b : Block} (hp : Inv [] p) (hmem : b ∈ p.blocks) (hhalf : b.halfOpen) :
    ∃ index l, findAt (·.id == b.listener) p.admission.listeners = some (index, l) := by
  rcases hp.exact.known b hmem hhalf with hg | ⟨l,hl,hid⟩
  · cases hg
  · exact exists_findAt hl hid

theorem exists_slots_set {l' : ListenerSlots}
    (hfind : findAt (·.id == id) slots = some (index, l)) (hid : l'.id = l.id) :
    ∀ m ∈ slots, ∃ m' ∈ slots.set index l', m'.id = m.id := by
  obtain ⟨-,hperm,hset⟩ := slots_perm hfind
  intro m hm
  rcases mem_cons.mp (hperm.mem_iff.mp hm) with rfl | hmem
  · exact ⟨l',(hset l').mem_iff.mpr mem_cons_self,hid⟩
  · exact ⟨m,(hset l').mem_iff.mpr (mem_cons_of_mem _ hmem),rfl⟩

theorem Inv.claims_set (hp : Inv gone p)
    (hfind : findAt (·.id == id) p.admission.listeners = some (index, l)) (l' : ListenerSlots)
    (hid : l'.id = l.id) :
    ∀ e ∈ p.listeners.entries, ∃ m ∈ p.admission.listeners.set index l', m.id = e.1 := by
  intro e he
  obtain ⟨m,hm,hmid⟩ := hp.claims e he
  obtain ⟨m',hm',hmid'⟩ := exists_slots_set hfind hid m hm
  exact ⟨m',hm',hmid'.trans hmid⟩

section

variable (hp : Inv [] p)
include hp

theorem inv_passiveOpen (listener : Nat) (addr : Local) (port : Nat) :
    Inv [] (p.passiveOpen listener addr port) := by
  unfold passiveOpen
  rcases p.admission.admitSyn_cases listener with ⟨_,refusals,heq⟩ | ⟨index,l,hfind,hroom,heq⟩
  · rw [heq]
    exact ⟨hp.exact,hp.claims⟩
  rw [heq]
  obtain ⟨hid,hperm,hset⟩ := slots_perm hfind
  refine hp.opening (exists_slots_set hfind rfl) fun b rest hfree hx => ?_
  exact ((hx.perm (.refl _) hperm).admitted hfree rfl rfl hid.symm rfl rfl hroom).perm (.refl _)
    (hset _).symm

theorem inv_complete (hci : ci < p.blocks.length)
    (hhalf : (p.block ci).halfOpen) : Inv [] (p.complete ci) := by
  obtain ⟨rest,hrest,hupd⟩ := exists_rest hci
  have hmem : p.block ci ∈ p.blocks := hrest.mem_iff.mpr mem_cons_self
  obtain ⟨index,l,hfind⟩ := hp.exists_slots hmem hhalf
  obtain ⟨hid,hperm,hset⟩ := slots_perm hfind
  have hx := hp.exact.perm hrest hperm
  have hpos := (hx.reserved_pos hhalf hid.symm).1
  have huse := inUse_of_halfOpen hhalf
  simp only [complete,Admission.handshakeComplete,hfind]
  rw [if_neg (by omega)]
  refine ⟨?_,hp.claims_set hfind { l with reserved := l.reserved - 1, queued := l.queued + 1 } rfl⟩
  refine Exact.perm ?_
    (hupd fun b => { b with state := .established, pendingAccept := true }).symm (hset _).symm
  exact hx.complete hhalf hid.symm huse (by simp [halfOpen]) rfl

theorem inv_free (hsole : (p.block ci).halfOpen → p.blocks.countP (·.inUse) = 1) :
    Inv [] (p.free ci) := by
  unfold free
  dsimp only
  split
  · exact hp
  next huse =>
  have huse : (p.block ci).inUse := by simpa using huse
  by_cases hci : ci < p.blocks.length
  swap
  · simp [block,getD_eq_getElem?_getD,Nat.not_lt.mp hci] at huse
    cases huse
  obtain ⟨rest,hrest,hupd⟩ := exists_rest hci
  have hmem : p.block ci ∈ p.blocks := hrest.mem_iff.mpr mem_cons_self
  have hsize := hp.exact.size _ hmem huse
  rw [hsize]
  by_cases hst : (p.block ci).state = .synRcvd
  · have hhalf : (p.block ci).halfOpen := by simp [halfOpen,huse,hst]
    obtain ⟨index,l,hfind⟩ := hp.exists_slots hmem hhalf
    obtain ⟨hid,hperm,hset⟩ := slots_perm hfind
    have hx := hp.exact.perm hrest hperm
    have hpos := (hx.reserved_pos hhalf hid.symm).1
    rw [if_pos hst]
    simp only [Admission.releaseHalfOpen,Admission.close,hfind]
    rw [if_neg (by omega)]
    have hrest' : ∀ x ∈ rest, x.inUse = false := by
      have hone := hsole hhalf
      rw [hrest.countP_eq,countP_cons_of_pos (by exact huse)] at hone
      intro x hx
      have := countP_eq_zero.mp (by omega : rest.countP (·.inUse) = 0) x hx
      simpa using this
    refine ⟨?_,hp.claims_set hfind { l with reserved := l.reserved - 1 } rfl⟩
    have hfreed : (p.block ci).freed.inUse = false := rfl
    exact (hx.releaseSole hhalf hid.symm hrest' hfreed).perm (hupd _).symm (hset _).symm
  · have hhalf : (p.block ci).halfOpen = false := by simp [halfOpen,hst]
    rw [if_neg hst]
    have hfreed : (p.block ci).freed.inUse = false := rfl
    exact ⟨((hp.exact.perm hrest (.refl _)).release huse hhalf hfreed).perm
      (hupd _).symm (.refl _),hp.claims⟩

theorem inv_listen (binding : Binding) (effective : Nat) : Inv [] (p.listen binding effective) := by
  unfold listen BindTable.bind
  split
  · exact hp
  next id listeners hbind =>
  split at hbind
  · cases hbind
  split at hbind
  · cases hbind
  cases hbind
  have hnew : p.admission.listeners.any (·.id == p.listeners.nextId + 1) = false := by
    simp only [any_eq_false,beq_iff_eq]
    intro l hl
    have := (hp.exact.registered l hl).2
    omega
  unfold Admission.registerListener
  rw [hnew]
  refine ⟨(hp.exact.register effective).perm (.refl _) (perm_append_singleton _ _).symm,?_⟩
  refine forall_mem_append.mpr ⟨fun e he => ?_,forall_mem_singleton.mpr ?_⟩
  · obtain ⟨l,hl,hid⟩ := hp.claims e he
    exact ⟨l,mem_append_left _ hl,hid⟩
  · exact ⟨_,mem_append_right _ (mem_singleton.mpr rfl),rfl⟩

theorem inv_accepted : Inv [] (p.accepted ci) := by
  unfold accepted Admission.accepted
  split
  · exact hp
  next index l hfind =>
  split
  · exact hp
  · obtain ⟨-,hperm,hset⟩ := slots_perm hfind
    exact ⟨(hp.exact.perm (.refl _) hperm).accept.perm (.refl _) (hset _).symm,
      hp.claims_set hfind { l with queued := l.queued - 1 } rfl⟩

end

/-! ## Withdrawing listeners -/

theorem inv_unlisten (hp : Inv gone p) (hbound : ∃ e ∈ p.listeners.entries, e.1 = id)
    (hqueued : ∀ l ∈ p.admission.listeners, l.id = id →
      l.queued = p.blocks.countP (pendingFor id)) :
    Inv (id :: gone) (p.unlisten id) ∧ (p.unlisten id).blocks = p.blocks.map (withdrawn id) ∧
      (p.unlisten id).listeners.entries = p.listeners.entries.filter (·.1 != id) ∧
      (∀ l ∈ (p.unlisten id).admission.listeners, l ∈ p.admission.listeners ∧ l.id ≠ id) := by
  obtain ⟨e,he,hid⟩ := hbound
  have hunbind : p.listeners.unbind id
      = (true, { p.listeners with entries := p.listeners.entries.filter (·.1 != id) }) := by
    have hlt : (p.listeners.entries.filter (·.1 != id)).length < p.listeners.entries.length :=
      length_filter_lt_length_iff_exists.mpr ⟨e,he,by simp [hid]⟩
    simp only [unbind,Prod.mk.injEq,and_true,bne_iff_ne]
    omega
  obtain ⟨l₀,hl₀,hid₀⟩ := hp.claims e he
  obtain ⟨index,l,hfind⟩ := exists_findAt hl₀ (hid₀.trans hid)
  obtain ⟨hlid,hperm,-⟩ := slots_perm hfind
  have hwithdraw : p.admission.withdrawListener id = { p.admission with
      listeners := p.admission.listeners.eraseIdx index
      halfOpen := p.admission.halfOpen - l.reserved
      controlBlocks := p.admission.controlBlocks - l.occupied
      receiveBytes := p.admission.receiveBytes - l.occupied * receiveBaseBytes } := by
    simp [Admission.withdrawListener,hfind]
  have hx := (hp.exact.perm (.refl _) hperm).withdraw
    (by rw [hlid]; exact hqueued l (hperm.mem_iff.mpr mem_cons_self) hlid)
  rw [hlid] at hx
  have hother : ∀ m ∈ p.admission.listeners.eraseIdx index,
      m ∈ p.admission.listeners ∧ m.id ≠ id := by
    intro m hm
    refine ⟨hperm.mem_iff.mpr (mem_cons_of_mem _ hm),fun heq => ?_⟩
    have hids := (hperm.map ListenerSlots.id).nodup_iff.mp hp.exact.ids
    rw [map_cons,nodup_cons,hlid,← heq] at hids
    exact hids.1 (mem_map_of_mem hm)
  unfold unlisten
  rw [hunbind,hwithdraw]
  refine ⟨⟨hx,?_⟩,rfl,rfl,hother⟩
  intro e' he'
  obtain ⟨hmem,hne⟩ := mem_filter.mp he'
  obtain ⟨m,hm,hmid⟩ := hp.claims e' hmem
  rcases mem_cons.mp (hperm.mem_iff.mp hm) with rfl | hrest
  · simp [← hmid,hlid] at hne
  · exact ⟨m,hrest,hmid⟩

theorem unlisten_of_not_bound (h : ∀ e ∈ p.listeners.entries, e.1 ≠ id) : p.unlisten id = p := by
  have hunbind : p.listeners.unbind id = (false, p.listeners) := by
    have : p.listeners.entries.filter (·.1 != id) = p.listeners.entries :=
      filter_eq_self.mpr fun e he => by simpa using h e he
    simp [unbind,this]
  unfold unlisten
  rw [hunbind]

theorem countP_pendingFor_withdrawn {id' : Nat} (h : id' ≠ id) (blocks : List Block) :
    (blocks.map (withdrawn id)).countP (pendingFor id') = blocks.countP (pendingFor id') := by
  rw [countP_map]
  refine countP_congr fun b _ => ?_
  simp only [Function.comp,withdrawn,pendingFor,pending]
  split
  · next hw =>
    simp only [Bool.and_eq_true,beq_iff_eq] at hw
    simp [hw.1.2,h.symm]
  · rfl

theorem inv_unlistenAll (ids : List Nat) (hp : Inv gone p)
    (hbound : ∀ id ∈ ids, id ∈ gone ∨ ∃ e ∈ p.listeners.entries, e.1 = id)
    (hqueued : ∀ l ∈ p.admission.listeners, l.id ∈ ids →
      l.queued = p.blocks.countP (pendingFor l.id)) :
    ∃ gone', (∀ id, id ∈ gone' ↔ id ∈ ids ∨ id ∈ gone) ∧ Inv gone' (ids.foldl unlisten p) ∧
      ∀ b ∈ (ids.foldl unlisten p).blocks, b.inUse → b ∈ p.blocks := by
  induction ids generalizing p gone with
  | nil => exact ⟨gone,by simp,hp,fun b hb _ => hb⟩
  | cons id rest ih =>
    rw [foldl_cons]
    by_cases hid : ∃ e ∈ p.listeners.entries, e.1 = id
    · obtain ⟨hnext,hblocks,hentries,hslots⟩ := inv_unlisten hp hid
        fun l hl heq => heq ▸ hqueued l hl (heq ▸ mem_cons_self)
      obtain ⟨gone',hgone,hinv,hfrom⟩ := ih hnext (fun k hk => by
          rcases hbound k (mem_cons_of_mem _ hk) with hg | ⟨e,he,heq⟩
          · exact .inl (mem_cons_of_mem _ hg)
          by_cases hkid : k = id
          · exact .inl (hkid ▸ mem_cons_self)
          · refine .inr ⟨e,?_,heq⟩
            rw [hentries]
            exact mem_filter.mpr ⟨he,by simpa [heq] using hkid⟩)
        (fun l hl hk => by
          obtain ⟨hlmem,hne⟩ := hslots l hl
          rw [hblocks,countP_pendingFor_withdrawn hne]
          exact hqueued l hlmem (mem_cons_of_mem _ hk))
      refine ⟨gone',fun k => ?_,hinv,fun b hb huse => ?_⟩
      · rw [hgone]
        simp only [mem_cons]
        tauto
      have hmem := hfrom b hb huse
      rw [hblocks] at hmem
      obtain ⟨b₀,hb₀,rfl⟩ := mem_map.mp hmem
      rw [withdrawn_eq huse]
      exact hb₀
    · rw [unlisten_of_not_bound fun e he heq => hid ⟨e,he,heq⟩]
      have hgone₀ : id ∈ gone := (hbound id mem_cons_self).resolve_right hid
      obtain ⟨gone',hgone,hinv,hfrom⟩ := ih hp (fun k hk => hbound k (mem_cons_of_mem _ hk))
        (fun l hl hk => hqueued l hl (mem_cons_of_mem _ hk))
      refine ⟨gone',fun k => ?_,hinv,hfrom⟩
      rw [hgone]
      simp only [mem_cons]
      constructor
      · tauto
      rintro ((rfl | hk) | hk)
      · exact .inr hgone₀
      · exact .inl hk
      · exact .inr hk

theorem inv_unlisten_orderly (hp : Inv [] p) (hok : p.Orderly (.unlisten id)) :
    Inv [] (p.unlisten id) := by
  by_cases hid : ∃ e ∈ p.listeners.entries, e.1 = id
  · obtain ⟨hnext,hblocks,-,-⟩ := inv_unlisten hp hid fun l hl heq => (hok hid l hl heq).2
    obtain ⟨e,he,heid⟩ := hid
    obtain ⟨l,hl,hlid⟩ := hp.claims e he
    -- nothing half-open is left behind
    have hnone : ∀ b ∈ p.blocks, b.reservedFor id = false := by
      have hzero := hp.exact.reserved l hl
      rw [(hok ⟨e,he,heid⟩ l hl (hlid.trans heid)).1,hlid,heid] at hzero
      intro b hb
      have := countP_eq_zero.mp hzero.symm b hb
      simpa using this
    have hbare : ∀ b ∈ (p.unlisten id).blocks, b.halfOpen → b.listener ≠ id := by
      intro b hb hhalf heq
      rw [hblocks] at hb
      obtain ⟨b₀,hb₀,rfl⟩ := mem_map.mp hb
      have hsame := withdrawn_eq (inUse_of_halfOpen hhalf)
      rw [hsame] at hhalf heq
      have := hnone b₀ hb₀
      simp [reservedFor,hhalf,heq] at this
    have hsettled := hnext.exact.settle (fun b hb => by
        cases hh : b.halfOpen with
        | false =>
          simp only [halfOpen,Bool.and_eq_false_iff] at hh
          rcases hh with hu | hs
          · simp [charged,hu]
          · simp [charged,hs]
        | true => simp [charged,hbare b hb hh])
      (fun b hb => by
        cases hh : b.halfOpen with
        | false => simp [counted,hh]
        | true => simp [counted,hh,hbare b hb hh])
      (fun b _ _ => rfl)
    rw [map_id'] at hsettled
    exact ⟨hsettled,hnext.claims⟩
  · rw [unlisten_of_not_bound fun e he heq => hid ⟨e,he,heq⟩]
    exact hp

theorem inv_invalidate (hp : Inv [] p) {address : BitVec 128}
    (hok : p.Orderly (.invalidate address)) : Inv [] (p.invalidate address) := by
  obtain ⟨hqueued,hretired⟩ := hok
  obtain ⟨gone,hgone,hinv,hfrom⟩ := inv_unlistenAll (p.boundTo (.v6 address)) hp (fun id hid => by
      obtain ⟨e,he,rfl⟩ := mem_map.mp hid
      exact .inr ⟨e,(mem_filter.mp he).1,rfl⟩)
    hqueued
  simp only [not_mem_nil,or_false] at hgone
  -- of the blocks left, the attempts at the address are those that are not charged
  have hcase : ∀ b ∈ ((p.boundTo (.v6 address)).foldl unlisten p).blocks,
      ((b.invalidated (.v6 address)).inUse = false ∧ b.charged gone = false ∧
        b.counted gone = false) ∨
      (b.invalidated (.v6 address) = b ∧ b.charged gone = b.inUse ∧
        b.counted gone = b.halfOpen) := by
    intro b hb
    by_cases hretire : b.inUse ∧ b.addr = .v6 address ∧ (b.state = .synSent ∨ b.state = .synRcvd)
    · obtain ⟨hhalf,hmem⟩ := (hretired b (hfrom b hb hretire.1)).mp hretire
      have hin := (hgone b.listener).mpr hmem
      have hst : b.state = .synRcvd := by
        simp only [halfOpen,Bool.and_eq_true,beq_iff_eq] at hhalf
        exact hhalf.2
      exact .inl ⟨by simp [invalidated,hretire.1,hretire.2.1,hst],
        by simp [charged,hst,hin],by simp [counted,hin]⟩
    refine .inr ⟨invalidated_of_not hretire,?_⟩
    cases huse : b.inUse with
    | false => simp [charged,counted,halfOpen,huse]
    | true =>
      have hout : b.halfOpen → b.listener ∉ gone := fun hhalf hmem =>
        hretire ((hretired b (hfrom b hb huse)).mpr ⟨hhalf,(hgone _).mp hmem⟩)
      by_cases hst : b.state = .synRcvd
      · have := hout (by simp [halfOpen,huse,hst])
        simp [charged,counted,huse,this]
      · have hst' : (b.state == .synRcvd) = false := beq_eq_false_iff_ne.mpr hst
        simp [charged,counted,halfOpen,huse,hst']
  refine ⟨hinv.exact.settle ?_ ?_ ?_,hinv.claims⟩
  · intro b hb
    rcases hcase b hb with ⟨huse,hcharged,-⟩ | ⟨heq,hcharged,-⟩
    · rw [hcharged]; simp [charged,huse]
    · rw [heq,hcharged]; simp [charged]
  · intro b hb
    rcases hcase b hb with ⟨huse,-,hcounted⟩ | ⟨heq,-,hcounted⟩
    · rw [hcounted]; simp [halfOpen,huse]
    · rw [heq,hcounted]
  · intro b hb hin
    rcases hcase b hb with ⟨huse,-⟩ | ⟨heq,-⟩
    · rw [huse] at hin; cases hin
    · exact heq

theorem inv_apply (hp : Inv [] p) (ev : Event) (hgen : p.Genuine ev) (hok : p.Orderly ev) :
    Inv [] (p.apply ev) := by
  cases ev with
  | idle => exact hp
  | alloc => exact hok.elim
  | openOutbound => exact inv_openOutbound hp
  | passiveOpen listener addr port => exact inv_passiveOpen hp listener addr port
  | connect ci addr port =>
    exact hp.replaceIdle hok.2 hok.1.symm rfl rfl
  | establish ci =>
    have hhalf : (p.block ci).halfOpen = false := by simp [halfOpen,hgen.2.2]
    exact hp.replaceIdle hhalf rfl (by simp [halfOpen]) rfl
  | complete ci => exact inv_complete hp hgen.1 hgen.2
  | close ci =>
    exact hp.replaceIdle hok rfl (by simp [halfOpen]) rfl
  | reset ci => exact hp.replaceIdle hok.2 rfl (by simp [halfOpen,reset]) rfl
  | closeHalf ci => exact hp.replaceIdle hok.2 rfl (by simp [halfOpen]) rfl
  | free ci => exact inv_free hp hok
  | listen binding effective => exact inv_listen hp binding effective
  | unlisten id => exact inv_unlisten_orderly hp hok
  | take port =>
    show Inv [] (p.take port)
    unfold take
    split
    · next i hi =>
      obtain ⟨hlt,hp',-⟩ := findIdx?_eq_some_iff_getElem.mp hi
      have hst : (p.block i).state = .established := by
        simp only [Bool.and_eq_true,beq_iff_eq] at hp'
        simpa [block,getD_eq_getElem?_getD,hlt] using hp'.2
      have hhalf : (p.block i).halfOpen = false := by simp [halfOpen,hst]
      exact hp.replaceIdle hhalf rfl hhalf rfl
    · exact hp
  | accepted ci => exact inv_accepted hp
  | invalidate address => exact inv_invalidate hp hok

instance (p : Pool) (ev : Event) : Decidable (p.Orderly ev) := by
  cases ev <;> unfold Orderly <;> infer_instance

end Pool

/-! ## The stack -/

namespace Stack

/-- The event of a call comes from a connection in the state it is about, or from the
listener that the lookup found. -/
theorem event_genuine (s : Stack) (op : Op) : s.pool.Genuine (s.event op) := by
  have hlen : s.pool.blocks.length = s.conns.length := by simp [pool]
  have hconn : ∀ (remote addr : Local) (tcp : List UInt8) (ci : Nat),
      s.findConn remote (be16 tcp 0) addr (be16 tcp 2) = some ci →
        s.pool.Genuine (s.connEvent ci tcp) := by
    intro remote addr tcp ci hfind
    have hci := findConn_lt hfind
    obtain ⟨_,hfor,-⟩ := findIdx?_eq_some_iff_getElem.mp hfind
    rw [← conn_of_lt hci] at hfor
    have huse : (s.pool.block ci).inUse := by
      rw [pool_block hci]
      simp only [TcpConn.isFor,Bool.and_eq_true] at hfor
      exact hfor.1.1.1.1.1
    have hstate : (s.pool.block ci).state = (s.conn ci).state := by rw [pool_block hci]; rfl
    unfold connEvent
    dsimp only
    split
    · trivial
    split
    · trivial
    split
    · next hst =>
      split
      · exact ⟨hlen ▸ hci,huse,hstate.trans hst⟩
      · trivial
    · next hst =>
      split
      · exact ⟨hlen ▸ hci,by simp [halfOpen,huse,hstate,hst]⟩
      · trivial
    · trivial
  cases op with
  | segment remote addr tcp below =>
    show s.pool.Genuine (s.segmentEvent remote addr tcp)
    unfold segmentEvent
    split
    · trivial
    split
    · next ci hfind => exact hconn remote addr tcp ci hfind
    dsimp only
    split
    · split
      · trivial
      · next listener hlis =>
        obtain ⟨⟨id,binding⟩,hlookup,rfl⟩ := Option.map_eq_some_iff.mp hlis
        exact ⟨binding,hlookup⟩
    · trivial
  | open6 ci peer port localPort iss selected => cases selected <;> trivial
  | closeHalf ci =>
    show s.pool.Genuine (if (s.conn ci).tx.finQueued then .idle else .closeHalf ci)
    split <;> trivial
  | onTimer ci =>
    show s.pool.Genuine (s.timerEvent ci)
    unfold timerEvent
    dsimp only
    split
    · trivial
    split
    · trivial
    split
    · trivial
    split
    · trivial
    split
    · split <;> trivial
    · split <;> trivial
  | _ => trivial

def step (s : Stack) (op : Op) : Option Stack := (s.exec op).map (·.2)

/-- The admission counters say what the pool holds. -/
def Accounted (s : Stack) : Prop :=
  s.admission.controlBlocks = s.conns.countP (·.inUse) ∧
  s.admission.receiveBytes = ((s.conns.filter (·.inUse)).map (·.rx.size)).sum ∧
  s.admission.halfOpen = s.conns.countP (fun c => c.inUse && c.state == .synRcvd) ∧
  ∀ l ∈ s.admission.listeners,
    l.reserved = s.conns.countP (fun c => c.inUse && c.state == .synRcvd && c.listener == l.id) ∧
      l.reserved + l.queued ≤ l.effective

instance (s : Stack) : Decidable s.Accounted := by unfold Accounted; infer_instance

theorem inv_new (raw : Bool) (ip : BitVec 32) (mtu : Nat) : Pool.Inv [] (new raw ip mtu).pool := by
  refine ⟨⟨rfl,rfl,?_,rfl,?_,?_,?_,?_,?_,?_⟩,?_⟩ <;>
    simp [pool,new,TcpConn.block,TcpConn.closed,halfOpen,Admission.new,BindTable.new]

theorem inv_step (s : Stack) (op : Op) (s' : Stack) (h : Pool.Inv [] s.pool)
    (hok : s.pool.Orderly (s.event op)) (hs : s.step op = some s') : Pool.Inv [] s'.pool := by
  obtain ⟨⟨out,t⟩,hexec,rfl⟩ := Option.map_eq_some_iff.mp hs
  rw [(works_exec hexec).1]
  exact Pool.inv_apply h _ (s.event_genuine op) hok

theorem accounted_of_inv {s : Stack} (h : Pool.Inv [] s.pool) : s.Accounted := by
  have hcharged : ∀ b : Block, b.charged [] = b.inUse := fun b => by simp [charged]
  have hcounted : ∀ b : Block, b.counted [] = b.halfOpen := fun b => by simp [counted]
  have hblocks : s.pool.blocks.countP (charged []) = s.conns.countP (·.inUse) := by
    simp only [funext hcharged,pool,countP_map]
    rfl
  have hsum : ((s.conns.filter (·.inUse)).map (·.rx.size)).sum
      = tcpRxBase * s.conns.countP (·.inUse) := by
    have hsame : (s.conns.filter (·.inUse)).map (·.rx.size)
        = (s.conns.filter (·.inUse)).map fun _ => tcpRxBase := by
      refine map_congr_left fun c hc => ?_
      obtain ⟨hmem,huse⟩ := mem_filter.mp hc
      exact h.exact.size c.block (mem_map_of_mem hmem) huse
    rw [hsame,countP_eq_length_filter,map_const',sum_replicate_nat,Nat.mul_comm]
  refine ⟨?_,?_,?_,?_⟩
  · rw [← hblocks]; exact h.exact.controlBlocks
  · rw [hsum,← hblocks]; exact h.exact.receiveBytes
  · refine h.exact.halfOpen.trans ?_
    simp only [funext hcounted,pool,countP_map]
    rfl
  · intro l hl
    refine ⟨(h.exact.reserved l hl).trans ?_,h.exact.bound l hl⟩
    simp only [pool,countP_map]
    rfl

/-- In every run whose calls are all orderly, the inbound accounting is exact in every
state reached. -/
theorem accounted_of_orderly_run (raw : Bool) (ip : BitVec 32) (mtu : Nat) (s : Stack)
    (hrun : Reaches step (fun s op => s.pool.Orderly (s.event op)) (new raw ip mtu) s) :
    s.Accounted :=
  accounted_of_inv (hrun.invariant (inv_new raw ip mtu) inv_step)

/-! ## Runs -/

def fromPeer (seq ack : Seq) (flags : UInt8) : Op :=
  .segment (.v4 0x0a000001) (.v4 0x0a000002) (rawSegment 5000 80 seq ack flags 4096 [])
    ⟨1514,.refused⟩

def orderlyCalls : List Op :=
  [.listen ⟨.ipv4Only,.v4 0,80⟩ 4,fromPeer 100 0 tcpSyn,.openOutbound,
    .open4 1 0x0a000003 443 4000 7,fromPeer 101 0x10000001 tcpAck,.takeAccepted 80,.accepted 0,
    .free 1,fromPeer 101 0x10000001 tcpRst,.unlisten 1]

theorem accounted_of_orderly_run_served : ∃ s,
    Reaches step (fun s op => s.pool.Orderly (s.event op)) (new false 0x0a000002 1500) s ∧
      s.admission.controlBlocks = 1 ∧ s.Accounted := by
  refine exists_reaches_imp (P := fun s => s.admission.controlBlocks = 1) orderlyCalls
    (by decide +kernel) fun s hreach hone => ?_
  exact ⟨hone,accounted_of_orderly_run false 0x0a000002 1500 s hreach⟩

/-- The peer resets a half-open connection: nothing is released. -/
def resetHalfOpen : List Op :=
  [.listen ⟨.ipv4Only,.v4 0,80⟩ 4,fromPeer 100 0 tcpSyn,fromPeer 101 0 tcpRst]

/-- A half-open connection expires beside an outbound one: its block is released twice. -/
def expireHalfOpen : List Op :=
  [.listen ⟨.ipv4Only,.v4 0,80⟩ 4,.openOutbound,fromPeer 100 0 tcpSyn] ++
    (List.range 7).flatMap fun k => [.setClock (100000 * (k + 1)),.onTimer 1]

/-- A listener goes while a handshake is under way: the block stays in use. -/
def unlistenHalfOpen : List Op :=
  [.listen ⟨.ipv4Only,.v4 0,80⟩ 4,fromPeer 100 0 tcpSyn,.unlisten 1]

/-- The source address of an outbound attempt is lost: the block stays charged. -/
def invalidateAttempt : List Op :=
  [.openOutbound,.open6 0 1 443 4000 7 (some 2),.invalidate 2]

theorem accounting_not_exact :
    [resetHalfOpen,expireHalfOpen,unlistenHalfOpen,invalidateAttempt].Forall fun calls =>
      ∃ s, runList step (new false 0x0a000002 1500) calls = some s ∧ ¬ s.Accounted := by
  have hruns : ∀ calls ∈ [resetHalfOpen,expireHalfOpen,unlistenHalfOpen,invalidateAttempt],
      (runList step (new false 0x0a000002 1500) calls).any fun s => ¬ s.Accounted := by
    decide +kernel
  exact forall_iff_forall_mem.mpr fun calls hcalls => exists_of_any (hruns calls hcalls)

end Stack

end LiberSystem.Net
