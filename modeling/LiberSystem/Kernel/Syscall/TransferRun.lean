import LiberSystem.Kernel.Syscall.TransferStep

/-!
# The steps of the system

`World.step_cases` sorts the steps by what they touch: a thread with its table and an endpoint, a
table alone, the objects, or an endpoint.
-/

namespace LiberSystem

def Act.Bounded {π τ κ : Type} : Act π τ κ → Prop
  | .advance _ env => RoomBounded env.room
  | .mint _ _ _ _ room | .duplicate _ _ _ room => RoomBounded room
  | _ => True

namespace World

variable {D π τ κ : Type}

def new (domains : D) (objs : Objects) (owner : π → Option DomainId) (depth : κ → Nat) :
    World D π τ κ where
  domains := domains
  objs := objs
  tables p := HandleTable.new (owner p)
  channels k := Channel.new (depth k)
  alive _ := true
  threads _ := ⟨.idle,[],[]⟩
  nextId := 1
  mints := []

/-- The capabilities that a step may put into the table of `p`, and the log after it. -/
inductive Grants (s : World D π τ κ) (p : π) :
    Act π τ κ → Multiset Capability → List (Koid × Rights) → Prop where
  | mint {object rights limited room} :
      Grants s p (.mint p object rights limited room) {Capability.new s.objs object rights}
        ((object, rights) :: s.mints)
  | duplicate {h rights room cap} (hcap : (s.tables p).capOf h = .ok cap)
      (hle : rights ≤ cap.rights) :
      Grants s p (.duplicate p h rights room) {Capability.derived s.objs cap rights} s.mints
  | nothing {a} : Grants s p a 0 s.mints

variable {M : Wiring π τ κ} {Q : Quota D} {s s' : World D π τ κ} [DecidableEq π]

def Tabled (s s' : World D π τ κ) (a : Act π τ κ) : Prop :=
  ∃ p t ds put mints, s' = { s with
      domains := ds, tables := Function.update s.tables p t, mints := mints } ∧
    s.Grants p a put mints ∧ t.caps ≤ (s.tables p).caps + put ∧
    (a.Bounded → ∀ {taken : Multiset Handle}, TableInv (s.tables p) taken → TableInv t taken)

variable {a : Act π τ κ} {p : π} {h : Handle} {rights : Rights} {room : Nat → Bool}

theorem tabled_of_gains {r : HandleTable × D}
    (h : HandleTable.Gains (fun _ => false) 0 (s.tables p) r.1) : s.Tabled (s.setTable p r) a :=
  ⟨p,r.1,r.2,0,s.mints,rfl,.nothing,h.1,fun _ => h.2 fun _ _ => rfl⟩

theorem tabled_duplicate :
    s.Tabled (s.setTable p ((s.tables p).duplicate Q s.objs room h rights s.domains).2)
      (.duplicate p h rights room) := by
  rcases (s.tables p).duplicate_gains Q s.objs room s.domains h rights with
    hg | ⟨cap,hcap,hle,hg⟩
  · exact ⟨p,_,_,0,s.mints,rfl,.nothing,hg⟩
  · exact ⟨p,_,_,_,s.mints,rfl,.duplicate hcap hle,hg⟩

variable [DecidableEq τ] [DecidableEq κ] {i : τ}

theorem stepped_started {args : SendArgs} (hph : (s.threads i).phase = .idle) :
    Stepped M (fun _ => false) i s (s.start i args) := by
  refine ⟨s.domains,s.nextId,s.tables (M.process i),
    { s.threads i with phase := .send args, asked := args.named },M.endpoint 0,
    s.channels (M.endpoint 0),?_,.of_started (by rw [hph]; rfl) rfl rfl⟩
  simp only [become,start,Function.update_eq_self]

variable [Fintype τ]

theorem stepped_held (hstep : s.step M Q (.take i h rights) = some s') :
    Stepped M (fun _ => false) i s s' ∨ s.Tabled s' (.take i h rights) := by
  have hg := (s.tables (M.process i)).take_gains Q s.objs (fun _ => false) s.domains h rights
  simp only [step] at hstep
  split at hstep
  · next hph =>
    split at hstep
    · next cap r htake =>
      cases hstep
      rw [htake] at hg
      refine .inl (stepped_table fun ch => .of_receive_table hph rfl rfl ?_ hg.2.2)
      exact hg.1.trans (add_zero _).ge
    · next err r htake =>
      cases hstep
      rw [htake] at hg
      exact .inr (tabled_of_gains (hg ▸ .refl))
  · cases hstep

theorem tabled_mint {object : Koid} {limited : Bool}
    (h : s.step M Q (.mint p object rights limited room) = some s') :
    s.Tabled s' (.mint p object rights limited room) := by
  cases h
  refine ⟨p,_,_,_,_,rfl,.mint,?_⟩
  split
  · exact (s.tables p).tryInsert_gains Q room s.domains _
  · exact (s.tables p).insert_gains Q room s.domains _

theorem step_cases (h : s.step M Q a = some s') :
    (∃ i room, (a.Bounded → RoomBounded room) ∧ Stepped M room i s s') ∨ s.Tabled s' a ∨
    (∃ objs, s' = { s with objs := objs }) ∨
    ∃ k ds ch alive, s' = { s with
        domains := ds, channels := Function.update s.channels k ch, alive := alive } ∧
      ch.queued = 0 := by
  have hnone : RoomBounded fun _ => false := fun _ _ => rfl
  cases a with
  | send i args =>
    simp only [step] at h
    split at h
    · next hph =>
      cases h
      exact .inl ⟨i,_,fun _ => hnone,stepped_started hph⟩
    · cases h
  | recv i call | retire i =>
    simp only [step] at h
    split at h
    · next hph =>
      cases h
      exact .inl ⟨i,_,fun _ => hnone,stepped_quiet hph rfl rfl (List.nil_sublist _)⟩
    · cases h
  | advance i env => exact .inl ⟨i,env.room,id,stepped_advance h⟩
  | take i handle rights =>
    rcases stepped_held h with hs | hs
    · exact .inl ⟨i,_,fun _ => hnone,hs⟩
    · exact .inr (.inl hs)
  | mint p object rights limited room => exact .inr (.inl (tabled_mint h))
  | duplicate p handle rights room =>
    cases h
    exact .inr (.inl tabled_duplicate)
  | close p handle =>
    cases h
    exact .inr (.inl (tabled_of_gains ((s.tables p).close_gains Q s.objs _ s.domains handle)))
  | closeAll p =>
    cases h
    exact .inr (.inl (tabled_of_gains ((s.tables p).closeAll_gains Q _ s.domains)))
  | revoke object =>
    cases h
    exact .inr (.inr (.inl ⟨_,rfl⟩))
  | closeEndpoint k =>
    simp only [step] at h
    split at h
    · cases h
      exact .inr (.inr (.inr ⟨k,_,_,_,rfl,rfl⟩))
    · cases h

theorem wf_step (hwf : ∀ i, (s.threads i).Wf) (h : s.step M Q a = some s') :
    ∀ i, (s'.threads i).Wf := by
  rcases step_cases h with ⟨i,room,-,hs⟩ | ⟨p,t,ds,put,mints,rfl,-⟩ | ⟨objs,rfl⟩ |
    ⟨k,ds,ch,alive,rfl,-⟩
  · obtain ⟨ds,id,t,th,k,ch,rfl,hadv⟩ := hs
    intro j
    by_cases hj : j = i
    · subst hj
      simpa [become] using hadv.wf (hwf j)
    · simpa [become,Function.update_of_ne hj] using hwf j
  · exact hwf
  · exact hwf
  · exact hwf

/-- Two processes with one thread each, and a channel between them: the endpoint of an
object is the object's parity. -/
def pair : Wiring Bool Bool Bool where
  process := id
  domain _ := 0
  endpoint o := o % 2 == 1
  peer := not

def small : World Unit Bool Bool Bool :=
  new () (fun o => ⟨if o < 2 then .channel else .event,0⟩) (fun _ => none) (fun _ => 0)

def within (fault : Option SysError) : Env := ⟨fault,true,fun n => n < 8,true⟩

theorem within_bounded (fault : Option SysError) : RoomBounded (within fault).room := by
  intro n hn
  simp only [within,decide_eq_false_iff_not]
  omega

end World

end LiberSystem
