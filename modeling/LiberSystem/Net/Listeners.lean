import LiberSystem.Net.AccountingRun

/-!
# Whose connections a listener is handed

A listener accepts by its port, while a connection belongs to the listener that the lookup found for
its SYN.
-/

namespace LiberSystem.Net

open List Net.Block

open Stack

def Block.waits (b : Block) : Bool := b.halfOpen || b.pending

theorem Block.inUse_of_waits {b : Block} (h : b.waits = true) : b.inUse = true := by
  simp only [waits,halfOpen,pending,Bool.or_eq_true,Bool.and_eq_true] at h
  rcases h with h | h <;> exact h.1

inductive Call where
  | listen (binding : Binding) (effective : Nat)
  | unlisten (id : Nat)
  | segment (remote addr : Local) (tcp : List UInt8) (below : Below)
  /-- The listener `id` asks for the next connection on its port. -/
  | take (id : Nat)
  /-- The listener that was handed block `ci` has passed it on. -/
  | accepted (ci id : Nat)
deriving DecidableEq, Repr

/-- The stack, and the history of its passive opens. -/
structure Served where
  stack : Stack
  /-- The listener the lookup found for the SYN of each passive open. -/
  opened : List Nat
  /-- Which passive open a control block is for. -/
  serial : Nat → Nat
  /-- Who was handed which passive open. -/
  yields : List (Nat × Nat)
  /-- Control blocks handed over and not yet accepted, and to whom. -/
  handed : List (Nat × Nat)

namespace Served

variable (w : Served)

def step : Call → Option Served
  | .listen binding effective => some { w with stack := (w.stack.listen binding effective).2 }
  | .unlisten id => some { w with stack := w.stack.unlisten id }
  | .segment remote addr tcp below =>
    let next := (w.stack.onTcpSegment remote addr tcp below).2
    match opens w.stack remote addr tcp with
    | none => some { w with stack := next }
    | some (ci, id) => some { w with
        stack := next
        opened := w.opened ++ [id]
        serial := fun cj => if cj = ci then w.opened.length else w.serial cj }
  | .take id =>
    match w.stack.listeners.entries.find? (·.1 == id) with
    | none => none
    | some (_, binding) =>
      match w.stack.takeAccepted binding.port with
      | (none, next) => some { w with stack := next }
      | (some ci, next) => some { w with
          stack := next
          yields := w.yields ++ [(id, w.serial ci)]
          handed := w.handed ++ [(ci, id)] }
  | .accepted ci id =>
    if (ci, id) ∈ w.handed then
      some { w with stack := w.stack.accepted ci, handed := w.handed.erase (ci, id) }
    else none

def start (raw : Bool) (ip : BitVec 32) (mtu : Nat) : Served :=
  ⟨Stack.new raw ip mtu,[],fun _ => 0,[],[]⟩

/-- A listener is admitted only on a port that no other listener has and on which no
connection of an earlier listener is still on its way to an accept. -/
def AlonePort : Call → Prop
  | .listen binding _ =>
    (w.stack.listeners.bind binding).toOption.isSome →
      (∀ e ∈ w.stack.listeners.entries, e.2.port ≠ binding.port) ∧
      ∀ c ∈ w.stack.conns, c.block.waits = true → c.localPort ≠ binding.port
  | _ => True

/-- What was handed over is the listener's own: each connection handed over was opened
by a SYN the lookup found that listener for, none was handed over twice, and the slot
an accept releases is that listener's. -/
def Own : Prop :=
  (∀ y ∈ w.yields, w.opened[y.2]? = some y.1) ∧
  (w.yields.map Prod.snd).Nodup ∧
  ∀ h ∈ w.handed, w.stack.accepted h.1
    = { w.stack with admission := (w.stack.admission.accepted h.2).2 }

end Served

namespace Pool

variable {p : Pool} {ci cj : Nat}

theorem block_update_self (h : ci < p.blocks.length) (f : Block → Block) :
    (p.update ci f).block ci = f (p.block ci) := by
  simp [block,update,getD_eq_getElem?_getD,h]

theorem block_update_ne (h : cj ≠ ci) (f : Block → Block) :
    (p.update ci f).block cj = p.block cj := by
  simp [block,update,getD_eq_getElem?_getD,h.symm]

/-- Nothing new waits and nothing new is claimed, and what is in use and does not wait
stays so. -/
structure Shrinks (p p' : Pool) : Prop where
  waits : ∀ ci, (p'.block ci).waits = true → (p.block ci).waits = true ∧
    (p'.block ci).listener = (p.block ci).listener ∧ (p'.block ci).port = (p.block ci).port
  entries : ∀ e ∈ p'.listeners.entries, e ∈ p.listeners.entries
  keeps : ∀ ci, (p.block ci).inUse = true → (p.block ci).waits = false →
    (p'.block ci).inUse = true ∧ (p'.block ci).listener = (p.block ci).listener ∧
      (p'.block ci).waits = false

theorem Shrinks.refl (p : Pool) : Shrinks p p :=
  ⟨fun _ h => ⟨h,rfl,rfl⟩,fun _ h => h,fun _ hu hw => ⟨hu,rfl,hw⟩⟩

theorem Shrinks.account {p' : Pool} (h : Shrinks p p') (a : Admission) :
    Shrinks p { p' with admission := a } :=
  ⟨h.waits,h.entries,h.keeps⟩

theorem shrinks_update {f : Block → Block}
    (hlis : (f (p.block ci)).listener = (p.block ci).listener)
    (hport : (f (p.block ci)).port = (p.block ci).port)
    (huse : (f (p.block ci)).inUse = (p.block ci).inUse)
    (hwaits : (f (p.block ci)).waits → (p.block ci).waits) :
    Shrinks p (p.update ci f) := by
  by_cases hci : ci < p.blocks.length
  · refine ⟨fun cj hw => ?_,fun e he => he,fun cj hu hw => ?_⟩
    · by_cases hne : cj = ci
      · subst hne
        rw [block_update_self hci] at hw ⊢
        exact ⟨hwaits hw,hlis,hport⟩
      · rw [block_update_ne hne] at hw ⊢
        exact ⟨hw,rfl,rfl⟩
    · by_cases hne : cj = ci
      · subst hne
        rw [block_update_self hci]
        refine ⟨huse.trans hu,hlis,?_⟩
        rw [← Bool.not_eq_true]
        exact fun h => by rw [hwaits h] at hw; cases hw
      · rw [block_update_ne hne]
        exact ⟨hu,rfl,hw⟩
  · rw [update_of_le (by omega)]
    exact Shrinks.refl p

theorem shrinks_unlisten (p : Pool) (id : Nat) : Shrinks p (p.unlisten id) := by
  unfold unlisten BindTable.unbind
  split
  · exact Shrinks.refl p
  next listeners hunbind =>
  obtain ⟨-,rfl⟩ := Prod.mk.inj hunbind
  have hblock : ∀ listeners a ci, Pool.block ⟨p.blocks.map (withdrawn id),listeners,a⟩ ci =
        (p.block ci).withdrawn id := by
    intro listeners a ci
    simp only [block,getD_eq_getElem?_getD,getElem?_map]
    cases p.blocks[ci]? <;> rfl
  refine ⟨fun ci hw => ?_,fun e he => (mem_filter.mp he).1,fun ci hu hw => ?_⟩
  · rw [hblock] at hw ⊢
    have hsame := withdrawn_eq (inUse_of_waits hw)
    rw [hsame] at hw ⊢
    exact ⟨hw,rfl,rfl⟩
  · rw [hblock]
    have hnot : (p.block ci).pendingAccept = false := by
      simp only [waits,pending,Bool.or_eq_false_iff,Bool.and_eq_false_iff] at hw
      exact hw.2.resolve_left (by simp [hu])
    simp [withdrawn,hnot,hu,hw]

theorem block_alloc (p : Pool) (f : Block → Block) : (p.block p.alloc.1).inUse = false ∧
      (p.alloc.2.update p.alloc.1 f).block p.alloc.1 = f (p.block p.alloc.1).taken ∧
      ∀ cj, cj ≠ p.alloc.1 → (p.alloc.2.update p.alloc.1 f).block cj = p.block cj := by
  unfold alloc
  split
  · next i hi =>
    obtain ⟨hlt,hfree,-⟩ := findIdx?_eq_some_iff_getElem.mp hi
    refine ⟨?_,?_,fun cj hne => ?_⟩
    · simpa [block,getD_eq_getElem?_getD,hlt] using hfree
    · rw [block_update_self (by simpa [update] using hlt),block_update_self hlt]
    · rw [block_update_ne hne,block_update_ne hne]
  have hnone : p.block p.blocks.length = closed := by
    simp [block,getD_eq_getElem?_getD]
  refine ⟨by rw [hnone]; rfl,?_,fun cj hne => ?_⟩
  · rw [block_update_self (by simp),hnone]
    simp [block,getD_eq_getElem?_getD]
  rw [block_update_ne hne]
  simp only [block,getD_eq_getElem?_getD]
  by_cases hlt : cj < p.blocks.length
  · rw [getElem?_append_left hlt]
  · rw [getElem?_eq_none (by simp; omega),getElem?_eq_none (by omega)]

end Pool

namespace Served

/-- What waits belongs to the listener of its passive open, which was not yet handed
over, and is on a port where no other listener accepts. -/
structure Inv (w : Served) : Prop where
  yielded : ∀ y ∈ w.yields, w.opened[y.2]? = some y.1
  once : (w.yields.map Prod.snd).Nodup
  waiting : ∀ ci, (w.stack.pool.block ci).waits = true →
    w.opened[w.serial ci]? = some (w.stack.pool.block ci).listener ∧
      w.serial ci ∉ w.yields.map Prod.snd
  apart : ∀ ci cj, (w.stack.pool.block ci).waits = true → (w.stack.pool.block cj).waits = true →
    w.serial ci = w.serial cj → ci = cj
  alone : ∀ ci, (w.stack.pool.block ci).waits = true → ∀ e ∈ w.stack.listeners.entries,
    e.2.port = (w.stack.pool.block ci).port → e.1 = (w.stack.pool.block ci).listener
  ports : ∀ e ∈ w.stack.listeners.entries, ∀ e' ∈ w.stack.listeners.entries,
    e.2.port = e'.2.port → e.1 = e'.1
  held : ∀ h ∈ w.handed, (w.stack.pool.block h.1).inUse = true ∧
    (w.stack.pool.block h.1).listener = h.2 ∧ (w.stack.pool.block h.1).waits = false

variable {w : Served}

variable {s : Stack} {tcp : List UInt8} {w' : Served} {addr remote : Local} {id : Nat}

theorem Inv.shrink (hw : Inv w) (hs : Pool.Shrinks w.stack.pool s.pool) :
    Inv { w with stack := s } where
  yielded := hw.yielded
  once := hw.once
  waiting ci h := by
    obtain ⟨hwait,hlis,-⟩ := hs.waits ci h
    rw [hlis]
    exact hw.waiting ci hwait
  apart ci cj hi hj := hw.apart ci cj (hs.waits ci hi).1 (hs.waits cj hj).1
  alone ci h e he hport := by
    obtain ⟨hwait,hlis,hp⟩ := hs.waits ci h
    rw [hlis]
    exact hw.alone ci hwait e (hs.entries e he) (hport.trans hp)
  ports e he e' he' := hw.ports e (hs.entries e he) e' (hs.entries e' he')
  held h hh := by
    obtain ⟨huse,hlis,hnot⟩ := hw.held h hh
    obtain ⟨huse',hlis',hnot'⟩ := hs.keeps h.1 huse hnot
    exact ⟨huse',hlis'.trans hlis,hnot'⟩

theorem lookup_mem {t : BindTable} {port : Nat} {found : Nat × Binding}
    (h : t.lookup addr port = some found) : found ∈ t.entries ∧ found.2.port = port := by
  have hmem : found ∈ t.entries.filter fun e => e.2.accepts addr port := by
    rcases Option.or_eq_some_iff.mp h with hfind | ⟨-,hhead⟩
    · exact mem_of_find?_eq_some hfind
    · exact mem_of_head? hhead
  obtain ⟨hentry,haccepts⟩ := mem_filter.mp hmem
  refine ⟨hentry,?_⟩
  by_contra hne
  simp [Binding.accepts,hne] at haccepts

theorem inv_listen (hw : Inv w) (binding : Binding) (effective : Nat)
    (hok : AlonePort w (.listen binding effective)) :
    Inv { w with stack := (w.stack.listen binding effective).2 } := by
  unfold Stack.listen
  cases hbind : w.stack.listeners.bind binding with
  | error refusal => exact hw
  | ok claimed =>
    obtain ⟨id,listeners⟩ := claimed
    obtain ⟨hentries,hconns⟩ := hok (by rw [hbind]; rfl)
    have hnew : ∃ id, listeners.entries = w.stack.listeners.entries ++ [(id, binding)] := by
      unfold BindTable.bind at hbind
      split at hbind
      · cases hbind
      split at hbind
      · cases hbind
      cases hbind
      exact ⟨_,rfl⟩
    obtain ⟨id',hnew⟩ := hnew
    have hfree : ∀ ci, (w.stack.pool.block ci).waits →
        binding.port ≠ (w.stack.pool.block ci).port := by
      intro ci hwait hport
      by_cases hci : ci < w.stack.conns.length
      · rw [pool_block hci] at hwait hport
        exact hconns _ (conn_of_lt hci ▸ getElem_mem hci) hwait hport.symm
      · simp [pool,Pool.block,getD_eq_getElem?_getD,Nat.not_lt.mp hci] at hwait
        cases hwait
    have hcases : ∀ e ∈ listeners.entries, e ∈ w.stack.listeners.entries ∨ e = (id', binding) := by
      intro e he
      rw [hnew] at he
      simpa using he
    refine ⟨hw.yielded,hw.once,hw.waiting,hw.apart,?_,?_,hw.held⟩
    · intro ci hwait e he hport
      rcases hcases e he with hold | rfl
      · exact hw.alone ci hwait e hold hport
      · exact absurd hport (hfree ci hwait)
    intro e he e' he' hport
    rcases hcases e he with hold | rfl
    · rcases hcases e' he' with hold' | rfl
      · exact hw.ports e hold e' hold' hport
      · exact absurd hport (hentries e hold)
    · rcases hcases e' he' with hold' | rfl
      · exact absurd hport.symm (hentries e' hold')
      · rfl

theorem shrinks_segment (s : Stack) (remote addr : Local) (tcp : List UInt8)
    (hopens : opens s remote addr tcp = none) :
    Pool.Shrinks s.pool (s.pool.apply (s.segmentEvent remote addr tcp)) := by
  have hgen : s.pool.Genuine (s.segmentEvent remote addr tcp) :=
    s.event_genuine (.segment remote addr tcp ⟨0,.refused⟩)
  have honly := s.segmentEvent_cases remote addr tcp
  unfold opens at hopens
  cases hev : s.segmentEvent remote addr tcp with
  | idle => exact Pool.Shrinks.refl _
  | passiveOpen id a port =>
    rw [hev] at hopens
    dsimp only at hopens
    show Pool.Shrinks s.pool (s.pool.passiveOpen id a port)
    unfold Pool.passiveOpen
    rcases s.admission.admitSyn_cases id with ⟨_,refusals,heq⟩ | ⟨_,_,_,_,heq⟩
    · rw [show s.pool.admission = s.admission from rfl,heq]
      exact (Pool.Shrinks.refl _).account _
    · rw [heq] at hopens
      cases hopens
  | establish ci | close ci =>
    exact Pool.shrinks_update rfl rfl rfl (by simp [waits,halfOpen,pending]; tauto)
  | complete ci =>
    rw [hev] at hgen
    have hshrinks : Pool.Shrinks s.pool (s.pool.update ci fun b =>
        { b with state := .established, pendingAccept := true }) :=
      Pool.shrinks_update rfl rfl rfl fun _ => by simp [waits,hgen.2]
    exact hshrinks.account _
  | _ => simp [hev] at honly

/-- A passive open takes a block nobody holds, for the listener the lookup found, and
leaves the other blocks alone. -/
theorem opens_eq_some {ci : Nat} (h : opens s remote addr tcp = some (ci, id)) :
    (∃ binding, s.listeners.lookup addr (be16 tcp 2) = some (id, binding)) ∧
      (s.pool.block ci).inUse = false ∧
      (s.pool.apply (s.segmentEvent remote addr tcp)).listeners = s.listeners ∧
      (∃ b : Block, b.inUse ∧ b.pendingAccept = false ∧
        (s.pool.apply (s.segmentEvent remote addr tcp)).block ci
          = b.admitted id addr (be16 tcp 2)) ∧
      ∀ cj, cj ≠ ci →
        (s.pool.apply (s.segmentEvent remote addr tcp)).block cj = s.pool.block cj := by
  have hgen : s.pool.Genuine (s.segmentEvent remote addr tcp) :=
    s.event_genuine (.segment remote addr tcp ⟨0,.refused⟩)
  unfold opens at h
  rcases s.segmentEvent_cases remote addr tcp with hev | ⟨_,hev⟩ | ⟨_,hev⟩ | ⟨_,hev⟩ | ⟨l,hev⟩
  · rw [hev] at h; cases h
  · rw [hev] at h; cases h
  · rw [hev] at h; cases h
  · rw [hev] at h; cases h
  rw [hev] at h hgen ⊢
  dsimp only at h
  rcases s.admission.admitSyn_cases l with ⟨_,_,heq⟩ | ⟨_,_,_,_,heq⟩
  · rw [heq] at h; cases h
  obtain ⟨a,heq⟩ : ∃ a, s.admission.admitSyn l = (.ok (), a) := ⟨_,heq⟩
  rw [heq] at h
  obtain ⟨rfl,rfl⟩ := Prod.mk.inj (Option.some.inj h)
  obtain ⟨binding,hlookup⟩ := hgen
  refine ⟨⟨binding,hlookup⟩,?_⟩
  show _ ∧ (s.pool.passiveOpen l addr (be16 tcp 2)).listeners = _ ∧
    (∃ b : Block, b.inUse ∧ b.pendingAccept = false ∧
      (s.pool.passiveOpen l addr (be16 tcp 2)).block s.tcpAlloc.1 = _) ∧
    ∀ cj, cj ≠ s.tcpAlloc.1 → (s.pool.passiveOpen l addr (be16 tcp 2)).block cj = _
  unfold Pool.passiveOpen
  rw [show s.pool.admission = s.admission from rfl,heq,(pool_tcpAlloc s).1]
  -- which block is taken does not depend on the counters
  have halloc : ({ s.pool with admission := a } : Pool).alloc.1 = s.pool.alloc.1 := by
    unfold Pool.alloc
    dsimp only
    split <;> rfl
  obtain ⟨hfree,hnew,hold⟩ := Pool.block_alloc { s.pool with admission := a }
    (admitted l addr (be16 tcp 2))
  rw [halloc] at hfree hnew hold
  refine ⟨hfree,?_,⟨(s.pool.block s.pool.alloc.1).taken,rfl,rfl,?_⟩,fun cj hne => ?_⟩
  · simp [Pool.update,pool]
  · dsimp only
    rw [halloc]
    exact hnew
  · dsimp only
    rw [halloc]
    exact hold cj hne

theorem inv_segment (hw : Inv w) {below : Below}
    (hs : w.step (.segment remote addr tcp below) = some w') : Inv w' := by
  have hpool := pool_onTcpSegment w.stack remote addr tcp below
  unfold step at hs
  dsimp only at hs
  split at hs
  · next hopens =>
    cases hs
    exact hw.shrink (hpool ▸ shrinks_segment w.stack remote addr tcp hopens)
  next ci id hopens =>
  cases hs
  obtain ⟨⟨binding,hlookup⟩,hfree,hentries,⟨b,huse,hpend,hnew⟩,hold⟩ := opens_eq_some hopens
  rw [← hpool] at hnew hold hentries
  have hentries : (w.stack.onTcpSegment remote addr tcp below).2.listeners
      = w.stack.listeners := hentries
  obtain ⟨hentry,hport⟩ := lookup_mem hlookup
  have hin : ∀ n x, w.opened[n]? = some x →
      n < w.opened.length ∧ (w.opened ++ [id])[n]? = some x := by
    intro n x hx
    obtain ⟨hlt,-⟩ := List.getElem?_eq_some_iff.mp hx
    exact ⟨hlt,by rw [List.getElem?_append_left hlt]; exact hx⟩
  refine ⟨fun y hy => (hin _ _ (hw.yielded y hy)).2,hw.once,?_,?_,?_,?_,?_⟩
  · intro cj hwait
    by_cases hne : cj = ci
    · subst hne
      simp only [↓reduceIte,hnew,admitted]
      refine ⟨by simp,fun hmem => ?_⟩
      obtain ⟨y,hy,heq⟩ := mem_map.mp hmem
      have := (hin _ _ (hw.yielded y hy)).1
      omega
    · simp only [if_neg hne]
      simp only [hold cj hne] at hwait ⊢
      obtain ⟨hopen,hnot⟩ := hw.waiting cj hwait
      exact ⟨(hin _ _ hopen).2,hnot⟩
  · intro c₁ c₂ hw₁ hw₂ heq
    dsimp only at heq hw₁ hw₂
    -- a serial of an earlier open is below the new one
    have hbelow : ∀ cj, cj ≠ ci →
        ((w.stack.onTcpSegment remote addr tcp below).2.pool.block cj).waits →
        w.serial cj < w.opened.length := by
      intro cj hne hwait
      rw [hold cj hne] at hwait
      exact (hin _ _ (hw.waiting cj hwait).1).1
    by_cases h₁ : c₁ = ci
    · by_cases h₂ : c₂ = ci
      · rw [h₁,h₂]
      · rw [if_pos h₁,if_neg h₂] at heq
        have := hbelow c₂ h₂ hw₂
        omega
    by_cases h₂ : c₂ = ci
    · rw [if_neg h₁,if_pos h₂] at heq
      have := hbelow c₁ h₁ hw₁
      omega
    · rw [if_neg h₁,if_neg h₂] at heq
      rw [hold c₁ h₁] at hw₁
      rw [hold c₂ h₂] at hw₂
      exact hw.apart c₁ c₂ hw₁ hw₂ heq
  · intro cj hwait e he hp
    rw [hentries] at he
    by_cases hne : cj = ci
    · subst hne
      rw [hnew] at hp ⊢
      exact hw.ports e he _ hentry (hp.trans hport.symm)
    · rw [hold cj hne] at hwait hp ⊢
      exact hw.alone cj hwait e he hp
  · intro e he e' he'
    rw [hentries] at he he'
    exact hw.ports e he e' he'
  · intro h hh
    obtain ⟨hu,hl,hn⟩ := hw.held h hh
    have hne : h.1 ≠ ci := fun heq => by
      rw [heq,hfree] at hu
      cases hu
    rw [hold h.1 hne]
    exact ⟨hu,hl,hn⟩

theorem inv_take (hw : Inv w) (hs : w.step (.take id) = some w') : Inv w' := by
  unfold step at hs
  dsimp only at hs
  split at hs
  · cases hs
  next id' binding hfind =>
  have hentry := mem_of_find?_eq_some hfind
  have hid : id' = id := by simpa using find?_some hfind
  subst hid
  obtain ⟨hnext,hpool,-⟩ := works_takeAccepted w.stack binding.port
  split at hs
  · next next htake =>
    cases hs
    rw [htake] at hnext hpool
    refine hw.shrink ?_
    rw [hpool,Pool.apply,Pool.take,← hnext]
    exact Pool.Shrinks.refl _
  next ci next htake =>
  cases hs
  rw [htake] at hnext hpool
  obtain ⟨hci,hready,-⟩ := findIdx?_eq_some_iff_getElem.mp hnext.symm
  have hget : w.stack.pool.block ci = w.stack.pool.blocks[ci] := by
    simp [Pool.block,getD_eq_getElem?_getD,hci]
  rw [← hget] at hready
  simp only [Bool.and_eq_true,beq_iff_eq] at hready
  obtain ⟨⟨⟨huse,hpend⟩,hport⟩,hst⟩ := hready
  have hwait : (w.stack.pool.block ci).waits := by
    simp [waits,pending,huse,hpend]
  obtain ⟨hopen,hfresh⟩ := hw.waiting ci hwait
  have hown := hw.alone ci hwait _ hentry hport.symm
  have htaken : next.pool = w.stack.pool.update ci fun b => { b with pendingAccept := false } := by
    rw [hpool,Pool.apply,Pool.take,← hnext]
  have hshrinks : Pool.Shrinks w.stack.pool next.pool := by
    rw [htaken]
    exact Pool.shrinks_update rfl rfl rfl fun _ => hwait
  have hdone : (next.pool.block ci).waits = false := by
    rw [htaken,Pool.block_update_self hci]
    simp [waits,halfOpen,pending,hst]
  have hbase := hw.shrink hshrinks
  refine ⟨?_,?_,?_,hbase.apart,hbase.alone,hbase.ports,?_⟩
  · exact forall_mem_append.mpr ⟨hw.yielded,forall_mem_singleton.mpr
      (hopen.trans (congrArg some hown.symm))⟩
  · simp only [map_append,map_cons,map_nil]
    exact nodup_append.mpr ⟨hw.once,by simp,by
      intro a ha b hb hab
      rw [mem_singleton.mp hb] at hab
      exact hfresh (hab ▸ ha)⟩
  · intro cj hj
    obtain ⟨hopenj,hfreshj⟩ := hbase.waiting cj hj
    refine ⟨hopenj,fun hmem => ?_⟩
    simp only [map_append,map_cons,map_nil,mem_append,mem_singleton] at hmem
    rcases hmem with hold | heq
    · exact hfreshj hold
    have hne : cj ≠ ci := fun h => by
      rw [h] at hj
      exact Bool.false_ne_true (hdone.symm.trans hj)
    exact hne (hw.apart cj ci (hshrinks.waits cj hj).1 hwait heq)
  · refine forall_mem_append.mpr ⟨hbase.held,forall_mem_singleton.mpr ⟨?_,?_,hdone⟩⟩
    · show (next.pool.block ci).inUse
      rw [htaken,Pool.block_update_self hci]
      exact huse
    · show (next.pool.block ci).listener = _
      rw [htaken,Pool.block_update_self hci]
      exact hown.symm

theorem inv_accepted (hw : Inv w) {ci : Nat}
    (hs : w.step (.accepted ci id) = some w') : Inv w' := by
  unfold step at hs
  dsimp only at hs
  split at hs
  swap
  · cases hs
  cases hs
  have hbase : Inv { w with stack := w.stack.accepted ci } :=
    hw.shrink ((Pool.Shrinks.refl _).account _)
  exact ⟨hbase.yielded,hbase.once,hbase.waiting,hbase.apart,hbase.alone,hbase.ports,
    fun h hh => hbase.held h (mem_of_mem_erase hh)⟩

theorem inv_step (w : Served) (call : Call) (w' : Served) (hw : Inv w)
    (hok : AlonePort w call) (hs : w.step call = some w') : Inv w' := by
  cases call with
  | listen binding effective =>
    cases hs
    exact inv_listen hw binding effective hok
  | unlisten id =>
    cases hs
    exact hw.shrink ((works_unlisten w.stack id).1 ▸ Pool.shrinks_unlisten _ _)
  | segment remote addr tcp below => exact inv_segment hw hs
  | take id => exact inv_take hw hs
  | accepted ci id => exact inv_accepted hw hs

theorem inv_start (raw : Bool) (ip : BitVec 32) (mtu : Nat) : Inv (start raw ip mtu) := by
  have hidle : ∀ ci, ((Stack.new raw ip mtu).pool.block ci).waits = false := by
    intro ci
    simp only [pool,Stack.new,Pool.block,getD_eq_getElem?_getD,map_replicate,getElem?_replicate]
    split <;> rfl
  have hnone : ∀ ci, ((Stack.new raw ip mtu).pool.block ci).waits ≠ true := fun ci h =>
    Bool.false_ne_true ((hidle ci).symm.trans h)
  refine ⟨fun y hy => absurd hy not_mem_nil,nodup_nil,?_,?_,?_,fun e he => absurd he not_mem_nil,
    fun h hh => absurd hh not_mem_nil⟩
  · exact fun ci h => absurd h (hnone ci)
  · exact fun ci _ h => absurd h (hnone ci)
  · exact fun ci h => absurd h (hnone ci)

/-- In every run in which each listener has its port alone, with no connection of an
earlier listener under way on it, every listener is handed its own connections, each at
most once, and the slot released is its own. -/
theorem own_of_alonePort_run (raw : Bool) (ip : BitVec 32) (mtu : Nat) (w : Served)
    (hrun : Reaches step AlonePort (start raw ip mtu) w) : w.Own := by
  have hw := hrun.invariant (inv_start raw ip mtu) inv_step
  refine ⟨hw.yielded,hw.once,fun h hh => ?_⟩
  obtain ⟨huse,hlis,-⟩ := hw.held h hh
  have hci : h.1 < w.stack.conns.length := by
    by_contra hge
    simp [pool,Pool.block,getD_eq_getElem?_getD,Nat.not_lt.mp hge] at huse
    cases huse
  rw [pool_block hci] at hlis
  unfold accepted
  rw [show (w.stack.conn h.1).listener = h.2 from hlis]

def toPort80 (seq ack : Seq) (flags : UInt8) : Call :=
  .segment (.v4 0x0a000001) (.v4 0x0a000002) (rawSegment 5000 80 seq ack flags 4096 [])
    ⟨1514,.refused⟩

instance (w : Served) (call : Call) : Decidable (AlonePort w call) := by
  cases call <;> unfold AlonePort <;> infer_instance

theorem own_of_alonePort_run_accepted : ∃ w,
    Reaches step AlonePort (start false 0x0a000002 1500) w ∧ w.yields = [(1, 0)] ∧ w.Own := by
  refine exists_reaches_imp (P := fun w => w.yields = [(1, 0)])
    [.listen ⟨.ipv4Only,.v4 0,80⟩ 4,.listen ⟨.ipv6Only,.v6 0,81⟩ 4,toPort80 100 0 tcpSyn,
      toPort80 101 0x10000001 tcpAck,.take 2,.take 1,.accepted 0 1] (by decide +kernel)
    fun w hreach hyields => ?_
  exact ⟨hyields,own_of_alonePort_run false 0x0a000002 1500 w hreach⟩

/-- An IPv4-only and an IPv6-only listener share port 80, and the IPv6 one accepts the
connection that was opened to the IPv4 one. -/
def sharedPort : List Call :=
  [.listen ⟨.ipv4Only,.v4 0,80⟩ 4,.listen ⟨.ipv6Only,.v6 0,80⟩ 4,toPort80 100 0 tcpSyn,
    toPort80 101 0x10000001 tcpAck,.take 2]

theorem take_crosses_listeners : ∃ w,
    runList step (start false 0x0a000002 1500) sharedPort = some w ∧
      w.yields = [(2, 0)] ∧ w.opened = [1] ∧ ¬ w.Own := by
  obtain ⟨w,hw,hyields,hopened⟩ := exists_of_any
    (P := fun w => w.yields = [(2, 0)] ∧ w.opened = [1])
    (o := runList step (start false 0x0a000002 1500) sharedPort) (by decide +kernel)
  refine ⟨w,hw,hyields,hopened,fun hown => ?_⟩
  have := hown.1 (2, 0) (by rw [hyields]; simp)
  rw [hopened] at this
  cases this

end Served

end LiberSystem.Net
