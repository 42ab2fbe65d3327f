import LiberSystem.Net.Blocks

/-!
# Inbound accounting against the pool

The counters and the pool are compared as multisets of blocks and of listeners.
-/

namespace LiberSystem.Net

open List Net.Block

/-- In use, and not a half-open block of a listener that was withdrawn. -/
def Block.charged (gone : List Nat) (b : Block) : Bool :=
  b.inUse && !(b.state == .synRcvd && gone.contains b.listener)

def Block.counted (gone : List Nat) (b : Block) : Bool :=
  b.halfOpen && !gone.contains b.listener

def Block.reservedFor (id : Nat) (b : Block) : Bool := b.halfOpen && b.listener == id

def Block.pendingFor (id : Nat) (b : Block) : Bool := b.pending && b.listener == id

theorem Block.invalidated_of_not {b : Block} {gone : Local}
    (h : ¬(b.inUse ∧ b.addr = gone ∧ (b.state = .synSent ∨ b.state = .synRcvd))) :
    b.invalidated gone = b := by
  unfold invalidated
  split
  · rfl
  next hno =>
  simp only [Bool.or_eq_true,Bool.not_eq_true',bne_iff_ne,not_or,Bool.not_eq_false,not_not] at hno
  split
  · next hst => exact absurd ⟨hno.1,hno.2,.inl hst⟩ h
  · next hst => exact absurd ⟨hno.1,hno.2,.inr hst⟩ h
  · rfl
  · rfl
  · rfl

theorem Block.inUse_of_halfOpen {b : Block} (h : b.halfOpen) : b.inUse := by
  simp only [halfOpen,Bool.and_eq_true] at h
  exact h.1

theorem Block.withdrawn_eq {b : Block} {id : Nat} (h : (b.withdrawn id).inUse = true) :
    b.withdrawn id = b := by
  unfold withdrawn at h ⊢
  split at h
  · cases h
  · next hno => rw [if_neg hno]

theorem Block.halfOpen_of_free {b : Block} (h : b.inUse = false) : b.halfOpen = false := by
  simp [halfOpen,h]

/-- The counters say what the blocks are. -/
structure Exact (gone : List Nat) (lastId : Nat) (blocks : List Block)
    (halfOpen controlBlocks receiveBytes : Nat) (slots : List ListenerSlots) : Prop where
  controlBlocks : controlBlocks = blocks.countP (Block.charged gone)
  receiveBytes : receiveBytes = tcpRxBase * blocks.countP (Block.charged gone)
  size : ∀ b ∈ blocks, b.inUse = true → b.rxSize = tcpRxBase
  halfOpen : halfOpen = blocks.countP (Block.counted gone)
  idle : ∀ b ∈ blocks, b.halfOpen = true → b.pendingAccept = false
  reserved : ∀ l ∈ slots, l.reserved = blocks.countP (Block.reservedFor l.id)
  bound : ∀ l ∈ slots, l.reserved + l.queued ≤ l.effective
  ids : (slots.map ListenerSlots.id).Nodup
  known : ∀ b ∈ blocks, b.halfOpen = true → b.listener ∈ gone ∨ ∃ l ∈ slots, l.id = b.listener
  registered : ∀ l ∈ slots, l.id ∉ gone ∧ l.id ≤ lastId

theorem countP_cons_toNat (p : Block → Bool) (b : Block) (blocks : List Block) :
    (b :: blocks).countP p = blocks.countP p + (p b).toNat := by
  rw [countP_cons]
  cases p b <;> simp

namespace Exact

variable {gone : List Nat} {lastId h' c' r' : Nat} {blocks blocks' : List Block} {b b' : Block}
  {h c r : Nat} {slots slots' : List ListenerSlots}

section

variable (hx : Exact gone lastId blocks h c r slots)
include hx

theorem perm (hb : blocks ~ blocks') (hs : slots ~ slots') :
    Exact gone lastId blocks' h c r slots' where
  controlBlocks := by rw [← hb.countP_eq]; exact hx.controlBlocks
  receiveBytes := by rw [← hb.countP_eq]; exact hx.receiveBytes
  size b hmem := hx.size b (hb.mem_iff.mpr hmem)
  halfOpen := by rw [← hb.countP_eq]; exact hx.halfOpen
  idle b hmem := hx.idle b (hb.mem_iff.mpr hmem)
  reserved l hl := by rw [← hb.countP_eq]; exact hx.reserved l (hs.mem_iff.mpr hl)
  bound l hl := hx.bound l (hs.mem_iff.mpr hl)
  ids := (hs.map _).nodup_iff.mp hx.ids
  known b hmem hh := by
    rcases hx.known b (hb.mem_iff.mpr hmem) hh with hg | ⟨l,hl,hid⟩
    · exact .inl hg
    · exact .inr ⟨l,hs.mem_iff.mp hl,hid⟩
  registered l hl := hx.registered l (hs.mem_iff.mpr hl)

theorem addFree (hfree : b.inUse = false) : Exact gone lastId (b :: blocks) h c r slots := by
  have hhalf := halfOpen_of_free hfree
  have hnot : ∀ p : Block → Bool, p b = false → (b :: blocks).countP p = blocks.countP p :=
    fun p hp => countP_cons_of_neg (by simp [hp])
  have hcharged := hnot (charged gone) (by simp [charged,hfree])
  refine ⟨?_,?_,?_,?_,?_,?_,hx.bound,hx.ids,?_,hx.registered⟩
  · rw [hcharged]; exact hx.controlBlocks
  · rw [hcharged]; exact hx.receiveBytes
  · exact forall_mem_cons.mpr ⟨by simp [hfree],hx.size⟩
  · rw [hnot _ (by simp [counted,hhalf])]; exact hx.halfOpen
  · exact forall_mem_cons.mpr ⟨by simp [hhalf],hx.idle⟩
  · intro l hl
    rw [hnot _ (by simp [reservedFor,hhalf])]
    exact hx.reserved l hl
  · exact forall_mem_cons.mpr ⟨by simp [hhalf],hx.known⟩

theorem known_ids (hmem : b ∈ blocks) (hhalf : b.halfOpen) :
    b.listener ∈ gone ∨ b.listener ∈ slots.map ListenerSlots.id := by
  rw [mem_map]
  exact hx.known b hmem hhalf

end

section

variable (hx : Exact gone lastId (b :: blocks) h c r slots)

include hx

theorem exchange (hc : c' + (b.charged gone).toNat = c + (b'.charged gone).toNat)
    (hr : r' + tcpRxBase * (b.charged gone).toNat = r + tcpRxBase * (b'.charged gone).toNat)
    (hsize : b'.inUse → b'.rxSize = tcpRxBase)
    (hh : h' + (b.counted gone).toNat = h + (b'.counted gone).toNat)
    (hidle : b'.halfOpen → b'.pendingAccept = false)
    (hids : slots'.map ListenerSlots.id = slots.map ListenerSlots.id)
    (hres : ∀ l' ∈ slots', ∃ l ∈ slots, l.id = l'.id ∧
      l'.reserved + (b.reservedFor l.id).toNat = l.reserved + (b'.reservedFor l.id).toNat)
    (hbound : ∀ l' ∈ slots', l'.reserved + l'.queued ≤ l'.effective)
    (hknown : b'.halfOpen → b'.listener ∈ gone ∨ b'.listener ∈ slots.map ListenerSlots.id) :
    Exact gone lastId (b' :: blocks) h' c' r' slots' := by
  have hc₀ := hx.controlBlocks
  have hr₀ := hx.receiveBytes
  have hh₀ := hx.halfOpen
  simp only [countP_cons_toNat] at hc₀ hr₀ hh₀
  refine ⟨?_,?_,?_,?_,?_,?_,hbound,?_,?_,?_⟩
  · rw [countP_cons_toNat]; omega
  · rw [countP_cons_toNat,Nat.mul_add] at *; omega
  · exact forall_mem_cons.mpr ⟨hsize,(forall_mem_cons.mp hx.size).2⟩
  · rw [countP_cons_toNat]; omega
  · exact forall_mem_cons.mpr ⟨hidle,(forall_mem_cons.mp hx.idle).2⟩
  · intro l' hl'
    obtain ⟨l,hl,hid,hres⟩ := hres l' hl'
    have := hx.reserved l hl
    rw [← hid]
    rw [countP_cons_toNat] at this ⊢
    omega
  · rw [hids]
    exact hx.ids
  · simp only [← mem_map,hids]
    exact forall_mem_cons.mpr ⟨hknown,fun x hmem => hx.known_ids (mem_cons_of_mem _ hmem)⟩
  · intro l' hl'
    obtain ⟨l,hl,hid,-⟩ := hres l' hl'
    rw [← hid]
    exact hx.registered l hl

theorem replace (huse : b'.inUse = b.inUse) (hhalf : b'.halfOpen = b.halfOpen)
    (hlis : b.halfOpen → b'.listener = b.listener) (hsize : b'.rxSize = b.rxSize)
    (hpend : b.halfOpen → b'.pendingAccept = b.pendingAccept) :
    Exact gone lastId (b' :: blocks) h c r slots := by
  have hstate : ∀ x : Block, x.charged gone = (x.inUse && !x.halfOpen || x.counted gone) := by
    intro x
    simp only [Block.charged,Block.counted,Block.halfOpen]
    cases x.inUse <;> cases x.state == .synRcvd <;> simp
  have hcounted : b'.counted gone = b.counted gone := by
    simp only [Block.counted,hhalf]
    cases hb : b.halfOpen with
    | false => rfl
    | true => rw [hlis hb]
  have hresv : ∀ id, b'.reservedFor id = b.reservedFor id := by
    intro id
    simp only [Block.reservedFor,hhalf]
    cases hb : b.halfOpen with
    | false => rfl
    | true => rw [hlis hb]
  have hcharged : b'.charged gone = b.charged gone := by
    rw [hstate,hstate,huse,hhalf,hcounted]
  refine hx.exchange (by rw [hcharged]) (by rw [hcharged]) ?_ (by rw [hcounted]) ?_ rfl ?_
    hx.bound ?_
  · intro hb'
    rw [hsize]
    exact hx.size b mem_cons_self (huse ▸ hb')
  · intro hb'
    rw [hhalf] at hb'
    rw [hpend hb']
    exact hx.idle b mem_cons_self hb'
  · exact fun l hl => ⟨l,hl,rfl,by rw [hresv]⟩
  · intro hb'
    rw [hhalf] at hb'
    rw [hlis hb']
    exact hx.known_ids mem_cons_self hb'

theorem charge (hfree : b.inUse = false)
    (huse : b'.inUse) (hhalf : b'.halfOpen = false) (hsize : b'.rxSize = tcpRxBase) :
    Exact gone lastId (b' :: blocks) h (c + 1) (r + tcpRxBase) slots := by
  have hb := halfOpen_of_free hfree
  have hst : (b'.state == .synRcvd) = false := by simpa [Block.halfOpen,huse] using hhalf
  refine hx.exchange ?_ ?_ (fun _ => hsize) ?_ ?_ rfl ?_ hx.bound ?_
  · simp [charged,hfree,huse,hst]
  · simp [charged,hfree,huse,hst]
  · simp [counted,hb,hhalf]
  · simp [hhalf]
  · exact fun l hl => ⟨l,hl,rfl,by simp [reservedFor,hb,hhalf]⟩
  · simp [hhalf]

theorem release (huse : b.inUse) (hhalf : b.halfOpen = false) (hfree : b'.inUse = false) :
    Exact gone lastId (b' :: blocks) h (c - 1) (r - tcpRxBase) slots := by
  have hb' := halfOpen_of_free hfree
  have hst : (b.state == .synRcvd) = false := by simpa [Block.halfOpen,huse] using hhalf
  have hcharged : b.charged gone := by simp [charged,huse,hst]
  have hc := hx.controlBlocks
  have hr := hx.receiveBytes
  rw [countP_cons_of_pos hcharged] at hc hr
  rw [Nat.mul_add] at hr
  refine hx.exchange ?_ ?_ ?_ ?_ ?_ rfl ?_ hx.bound ?_
  · simp [charged,hfree,huse,hst]
    omega
  · simp [charged,hfree,huse,hst]
    omega
  · simp [hfree]
  · simp [counted,hhalf,hb']
  · simp [hb']
  · exact fun l hl => ⟨l,hl,rfl,by simp [reservedFor,hhalf,hb']⟩
  · simp [hb']

end

section Listener

variable {l : ListenerSlots}

section

variable (hx : Exact gone lastId (b :: blocks) h c r (l :: slots))

include hx

theorem exchangeFor {l' : ListenerSlots}
    (hc : c' + (b.charged gone).toNat = c + (b'.charged gone).toNat)
    (hr : r' + tcpRxBase * (b.charged gone).toNat = r + tcpRxBase * (b'.charged gone).toNat)
    (hsize : b'.inUse → b'.rxSize = tcpRxBase)
    (hh : h' + (b.counted gone).toNat = h + (b'.counted gone).toNat)
    (hidle : b'.halfOpen → b'.pendingAccept = false) (hid : l'.id = l.id)
    (hres : l'.reserved + (b.reservedFor l.id).toNat = l.reserved + (b'.reservedFor l.id).toNat)
    (hbound : l'.reserved + l'.queued ≤ l'.effective) (hfor : b.halfOpen → b.listener = l.id)
    (hfor' : b'.halfOpen → b'.listener = l.id) :
    Exact gone lastId (b' :: blocks) h' c' r' (l' :: slots) := by
  have hother : ∀ (x : Block) (m : ListenerSlots), m ∈ slots →
      (x.halfOpen → x.listener = l.id) → x.reservedFor m.id = false := by
    intro x m hm hx'
    have hne : l.id ≠ m.id := by
      have hids := hx.ids
      rw [map_cons,nodup_cons] at hids
      exact fun heq => hids.1 (heq ▸ mem_map_of_mem hm)
    simp only [reservedFor]
    cases hxh : x.halfOpen with
    | false => rfl
    | true => simp [hx' hxh,hne]
  refine hx.exchange hc hr hsize hh hidle ?_ ?_ ?_ ?_
  · rw [map_cons,map_cons,hid]
  · refine forall_mem_cons.mpr ⟨⟨l,mem_cons_self,hid.symm,hres⟩,fun m hmem => ?_⟩
    exact ⟨m,mem_cons_of_mem _ hmem,rfl,by rw [hother b m hmem hfor,hother b' m hmem hfor']⟩
  · exact forall_mem_cons.mpr ⟨hbound,(forall_mem_cons.mp hx.bound).2⟩
  · exact fun hb' => .inr (by rw [hfor' hb']; simp)

theorem admitted (hfree : b.inUse = false) (huse : b'.inUse) (hst : b'.state = .synRcvd)
    (hlis : b'.listener = l.id) (hpend : b'.pendingAccept = false) (hsize : b'.rxSize = tcpRxBase)
    (hroom : l.occupied < l.effective) :
    Exact gone lastId (b' :: blocks) (h + 1) (c + 1) (r + tcpRxBase)
      ({ l with reserved := l.reserved + 1 } :: slots) := by
  have hb := halfOpen_of_free hfree
  have hb' : b'.halfOpen := by simp [Block.halfOpen,huse,hst]
  have hin : l.id ∉ gone := (hx.registered l mem_cons_self).1
  unfold ListenerSlots.occupied at hroom
  refine hx.exchangeFor ?_ ?_ (fun _ => hsize) ?_ (fun _ => hpend) rfl ?_ ?_ ?_ (fun _ => hlis)
  · simp [charged,hfree,huse,hlis,hin]
  · simp [charged,hfree,huse,hlis,hin]
  · simp [counted,hb,hb',hlis,hin]
  · simp [reservedFor,hb,hb',hlis]
  · show l.reserved + 1 + l.queued ≤ l.effective
    omega
  · simp [hb]

section

variable (hhalf : b.halfOpen) (hlis : b.listener = l.id)
include hhalf hlis

theorem reserved_pos : 0 < l.reserved ∧ 0 < h := by
  have hin : l.id ∉ gone := (hx.registered l mem_cons_self).1
  have hres := hx.reserved l mem_cons_self
  have hh := hx.halfOpen
  rw [countP_cons_of_pos (by simp [reservedFor,hhalf,hlis])] at hres
  rw [countP_cons_of_pos (by simp [counted,hhalf,hlis,hin])] at hh
  omega

theorem complete (huse : b'.inUse) (hhalf' : b'.halfOpen = false) (hsize : b'.rxSize = b.rxSize) :
    Exact gone lastId (b' :: blocks) (h - 1) c r
      ({ l with reserved := l.reserved - 1, queued := l.queued + 1 } :: slots) := by
  have hin : l.id ∉ gone := (hx.registered l mem_cons_self).1
  obtain ⟨hres,hh⟩ := hx.reserved_pos hhalf hlis
  have huse₀ := inUse_of_halfOpen hhalf
  have hst' : (b'.state == .synRcvd) = false := by simpa [Block.halfOpen,huse] using hhalf'
  have hbound := hx.bound l mem_cons_self
  refine hx.exchangeFor ?_ ?_ ?_ ?_ ?_ rfl ?_ ?_ (fun _ => hlis) ?_
  · simp [charged,huse,huse₀,hst',hlis,hin]
  · simp [charged,huse,huse₀,hst',hlis,hin]
  · exact fun _ => hsize.trans (hx.size b mem_cons_self huse₀)
  · simp [counted,hhalf,hhalf',hlis,hin]
    omega
  · simp [hhalf']
  · simp [reservedFor,hhalf,hhalf',hlis]
    omega
  · show l.reserved - 1 + (l.queued + 1) ≤ l.effective
    omega
  · simp [hhalf']

theorem releaseSole (hsole : ∀ x ∈ blocks, x.inUse = false) (hfree : b'.inUse = false) :
    Exact gone lastId (b' :: blocks) (h - 1) (c - 1 - 1) (r - tcpRxBase - tcpRxBase)
      ({ l with reserved := l.reserved - 1 } :: slots) := by
  have hin : l.id ∉ gone := (hx.registered l mem_cons_self).1
  obtain ⟨hres,hh⟩ := hx.reserved_pos hhalf hlis
  have huse := inUse_of_halfOpen hhalf
  have hb' := halfOpen_of_free hfree
  have hcharged : b.charged gone := by simp [charged,huse,hlis,hin]
  have hcharged' : b'.charged gone = false := by simp [charged,hfree]
  have hnone : blocks.countP (charged gone) = 0 :=
    countP_eq_zero.mpr fun x hx' => by simp [charged,hsole x hx']
  have hc := hx.controlBlocks
  have hr := hx.receiveBytes
  rw [countP_cons_of_pos hcharged,hnone] at hc hr
  have hbound := hx.bound l mem_cons_self
  refine hx.exchangeFor ?_ ?_ ?_ ?_ ?_ rfl ?_ ?_ (fun _ => hlis) ?_
  · rw [hcharged,hcharged',Bool.toNat_true,Bool.toNat_false]
    omega
  · rw [hcharged,hcharged',Bool.toNat_true,Bool.toNat_false]
    omega
  · simp [hfree]
  · simp [counted,hhalf,hb',hlis,hin]
    omega
  · simp [hb']
  · simp [reservedFor,hhalf,hb',hlis]
    omega
  · show l.reserved - 1 + l.queued ≤ l.effective
    omega
  · simp [hb']

end

end

theorem accept (hx : Exact gone lastId blocks h c r (l :: slots)) :
    Exact gone lastId blocks h c r ({ l with queued := l.queued - 1 } :: slots) := by
  have hbound := hx.bound l mem_cons_self
  refine ⟨hx.controlBlocks,hx.receiveBytes,hx.size,hx.halfOpen,hx.idle,?_,?_,?_,?_,?_⟩
  · exact forall_mem_cons.mpr (forall_mem_cons.mp hx.reserved)
  · refine forall_mem_cons.mpr ⟨?_,(forall_mem_cons.mp hx.bound).2⟩
    show l.reserved + (l.queued - 1) ≤ l.effective
    omega
  · exact hx.ids
  · intro x hmem hhalf
    simpa using hx.known x hmem hhalf
  · exact forall_mem_cons.mpr (forall_mem_cons.mp hx.registered)

theorem register (hx : Exact [] lastId blocks h c r slots) (effective : Nat) :
    Exact [] (lastId + 1) blocks h c r (⟨lastId + 1,effective,0,0⟩ :: slots) := by
  have hnew : ∀ m ∈ slots, m.id ≠ lastId + 1 := fun m hm => by
    have := (hx.registered m hm).2
    omega
  refine ⟨hx.controlBlocks,hx.receiveBytes,hx.size,hx.halfOpen,hx.idle,?_,?_,?_,?_,?_⟩
  · refine forall_mem_cons.mpr ⟨(countP_eq_zero.mpr fun x hx' => ?_).symm,hx.reserved⟩
    simp only [reservedFor,Bool.and_eq_true,beq_iff_eq,not_and]
    intro hhalf heq
    rcases hx.known x hx' hhalf with hg | ⟨k,hk,hid⟩
    · cases hg
    · exact hnew k hk (hid.trans heq)
  · exact forall_mem_cons.mpr ⟨Nat.zero_le _,hx.bound⟩
  · rw [map_cons,nodup_cons]
    refine ⟨fun hmem => ?_,hx.ids⟩
    obtain ⟨m,hm,hid⟩ := mem_map.mp hmem
    exact hnew m hm hid
  · intro x hx' hhalf
    rcases hx.known x hx' hhalf with hg | ⟨k,hk,hid⟩
    · cases hg
    · exact .inr ⟨k,mem_cons_of_mem _ hk,hid⟩
  · refine forall_mem_cons.mpr ⟨⟨by simp,Nat.le_refl _⟩,fun m hmem => ⟨by simp,?_⟩⟩
    exact Nat.le_succ_of_le (hx.registered m hmem).2

/-- A withdrawal takes a block that waits for the accept, and a half-open one is no
longer charged. -/
theorem withdrawn_counts {id : Nat} (hin : id ∉ gone)
    (hidle : b.halfOpen → b.pendingAccept = false) :
    ((b.withdrawn id).charged (id :: gone)).toNat + (b.reservedFor id).toNat
        + (b.pendingFor id).toNat = (b.charged gone).toNat ∧
    ((b.withdrawn id).counted (id :: gone)).toNat + (b.reservedFor id).toNat
      = (b.counted gone).toNat ∧
    ∀ id', (b.withdrawn id).reservedFor id' = b.reservedFor id' := by
  simp only [Block.halfOpen,Bool.and_eq_true,beq_iff_eq] at hidle
  unfold withdrawn charged counted reservedFor pendingFor Block.halfOpen Block.pending
  by_cases huse : b.inUse
  · by_cases hid : b.listener = id
    · by_cases hst : b.state = .synRcvd
      · simp [huse,hid,hst,hidle ⟨huse,hst⟩,hin]
      · have hst' : (b.state == .synRcvd) = false := beq_eq_false_iff_ne.mpr hst
        cases hp : b.pendingAccept <;> simp [huse,hid,hst']
    · have hid' : (b.listener == id) = false := beq_eq_false_iff_ne.mpr hid
      simp [huse,hid,hid']
  · simp [huse]

theorem countP_withdrawn {id : Nat} (hin : id ∉ gone)
    (hidle : ∀ b ∈ blocks, b.halfOpen → b.pendingAccept = false) :
    (blocks.map (withdrawn id)).countP (charged (id :: gone))
        + blocks.countP (reservedFor id) + blocks.countP (pendingFor id)
      = blocks.countP (charged gone) ∧
    (blocks.map (withdrawn id)).countP (counted (id :: gone)) + blocks.countP (reservedFor id)
      = blocks.countP (counted gone) ∧
    ∀ id', (blocks.map (withdrawn id)).countP (reservedFor id')
      = blocks.countP (reservedFor id') := by
  induction blocks with
  | nil => simp
  | cons b rest ih =>
    obtain ⟨hcharged,hcounted,hreserved⟩ := ih fun x hx => hidle x (mem_cons_of_mem _ hx)
    obtain ⟨hb₁,hb₂,hb₃⟩ := withdrawn_counts hin (hidle b mem_cons_self)
    simp only [map_cons,countP_cons_toNat]
    exact ⟨by omega,by omega,fun id' => by rw [hreserved,hb₃]⟩

theorem withdraw (hx : Exact gone lastId blocks h c r (l :: slots))
    (hqueued : l.queued = blocks.countP (pendingFor l.id)) :
    Exact (l.id :: gone) lastId (blocks.map (withdrawn l.id)) (h - l.reserved)
      (c - l.occupied) (r - l.occupied * tcpRxBase) slots := by
  have hin : l.id ∉ gone := (hx.registered l mem_cons_self).1
  obtain ⟨hcharged,hcounted,hreserved⟩ := countP_withdrawn hin hx.idle
  have hres := hx.reserved l mem_cons_self
  have hc := hx.controlBlocks
  have hr := hx.receiveBytes
  have hh := hx.halfOpen
  have hids := hx.ids
  rw [map_cons,nodup_cons] at hids
  -- blocks in use stay as they are
  have hfrom : ∀ b' ∈ blocks.map (withdrawn l.id), b'.inUse → b' ∈ blocks := by
    intro b' hb' huse
    obtain ⟨b,hb,rfl⟩ := mem_map.mp hb'
    rw [withdrawn_eq huse]
    exact hb
  have hocc : l.occupied = l.reserved + l.queued := rfl
  refine ⟨by omega,?_,?_,by omega,?_,?_,?_,hids.2,?_,?_⟩
  · rw [hr,← hcharged,hocc,hres,hqueued,Nat.mul_comm _ tcpRxBase,← Nat.mul_sub]
    congr 1
    omega
  · exact fun b' hb' huse => hx.size b' (hfrom b' hb' huse) huse
  · exact fun b' hb' hhalf => hx.idle b' (hfrom b' hb' (inUse_of_halfOpen hhalf)) hhalf
  · exact fun m hm => (hx.reserved m (mem_cons_of_mem _ hm)).trans (hreserved m.id).symm
  · exact fun m hm => hx.bound m (mem_cons_of_mem _ hm)
  · intro b' hb' hhalf
    rcases hx.known b' (hfrom b' hb' (inUse_of_halfOpen hhalf)) hhalf with hg | ⟨m,hm,hid⟩
    · exact .inl (mem_cons_of_mem _ hg)
    · rcases mem_cons.mp hm with rfl | hmem
      · exact .inl (hid ▸ mem_cons_self)
      · exact .inr ⟨m,hmem,hid⟩
  · intro m hm
    obtain ⟨hg,hle⟩ := hx.registered m (mem_cons_of_mem _ hm)
    refine ⟨fun hmem => ?_,hle⟩
    rcases mem_cons.mp hmem with heq | hmem
    · exact hids.1 (heq ▸ mem_map_of_mem hm)
    · exact hg hmem

end Listener

theorem settle (hx : Exact gone lastId blocks h c r slots) {f : Block → Block}
    (hcharged : ∀ b ∈ blocks, (f b).charged [] = b.charged gone)
    (hhalf : ∀ b ∈ blocks, (f b).halfOpen = b.counted gone)
    (hsame : ∀ b ∈ blocks, (f b).inUse → f b = b) : Exact [] lastId (blocks.map f) h c r slots := by
  have hcount : (blocks.map f).countP (charged []) = blocks.countP (charged gone) := by
    rw [countP_map]
    exact countP_congr fun b hb => by rw [Function.comp,hcharged b hb]
  have hfrom : ∀ b' ∈ blocks.map f, b'.inUse → b' ∈ blocks ∧ f b' = b' := by
    intro b' hb' huse
    obtain ⟨b,hb,rfl⟩ := mem_map.mp hb'
    rw [hsame b hb huse]
    exact ⟨hb,hsame b hb huse⟩
  refine ⟨?_,?_,?_,?_,?_,?_,hx.bound,hx.ids,?_,?_⟩
  · rw [hcount]; exact hx.controlBlocks
  · rw [hcount]; exact hx.receiveBytes
  · exact fun b' hb' huse => hx.size b' (hfrom b' hb' huse).1 huse
  · rw [countP_map,hx.halfOpen]
    refine countP_congr fun b hb => ?_
    rw [← hhalf b hb]
    simp [counted]
  · exact fun b' hb' hh => hx.idle b' (hfrom b' hb' (inUse_of_halfOpen hh)).1 hh
  · intro l hl
    rw [hx.reserved l hl,countP_map]
    refine countP_congr fun b hb => ?_
    have hout := (hx.registered l hl).1
    simp only [Function.comp,reservedFor,Bool.and_eq_true,beq_iff_eq]
    constructor
    · rintro ⟨hh,hid⟩
      have hfh : (f b).halfOpen := by
        rw [hhalf b hb]
        simp [counted,hh,hid,hout]
      exact ⟨hfh,by rw [hsame b hb (inUse_of_halfOpen hfh)]; exact hid⟩
    · rintro ⟨hh,hid⟩
      have heq := hsame b hb (inUse_of_halfOpen hh)
      rw [heq] at hh hid
      exact ⟨hh,hid⟩
  · intro b' hb' hh
    obtain ⟨hb,heq⟩ := hfrom b' hb' (inUse_of_halfOpen hh)
    have hcnt := hhalf b' hb
    rw [heq,hh] at hcnt
    rcases hx.known b' hb hh with hg | hm
    · simp [counted,hg] at hcnt
    · exact .inr hm
  · exact fun l hl => ⟨by simp,(hx.registered l hl).2⟩

end Exact

end LiberSystem.Net
