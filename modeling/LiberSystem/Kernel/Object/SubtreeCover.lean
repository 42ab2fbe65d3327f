import LiberSystem.Kernel.Object.Subtree
import Mathlib.Data.List.Basic

/-!
# What a walk covers

What is marked stays so: a Domain that is marked marks what is added to it, or refuses it.
-/

namespace LiberSystem.Subtree

open List Option

/-! ### A batch -/

section Batch

variable {α : Type*} {live : α → Bool}

variable {l : List α} {room i : Nat}

theorem mem_batchFrom {j : Nat} {x : α} (hlo : i ≤ j)
    (hhi : j < (batchFrom live room l i).2) (hx : l[j - i]? = some x) (hlive : live x) :
    x ∈ (batchFrom live room l i).1 := by
  induction l generalizing room i with
  | nil => simp at hx
  | cons y rest ih =>
    cases room with
    | zero =>
      simp only [batchFrom] at hhi
      omega
    | succ room =>
      unfold batchFrom at hhi ⊢
      by_cases hij : j = i
      · subst hij
        simp only [Nat.sub_self,getElem?_cons_zero,some.injEq] at hx
        subst hx
        rw [if_pos hlive]
        exact mem_cons_self
      have hx' : rest[j - (i + 1)]? = some x := by
        rwa [show j - i = (j - (i + 1)) + 1 by omega,getElem?_cons_succ] at hx
      split at hhi
      · next hy =>
        rw [if_pos hy]
        exact mem_cons_of_mem y (ih (by omega) hhi hx')
      · next hy =>
        rw [if_neg hy]
        exact ih (by omega) hhi hx'

theorem mem_of_mem_batchFrom {x : α} (hx : x ∈ (batchFrom live room l i).1) : x ∈ l := by
  induction l generalizing room i with
  | nil => cases hx
  | cons y rest ih =>
    cases room with
    | zero => cases hx
    | succ room =>
      unfold batchFrom at hx
      split at hx
      · rcases mem_cons.mp hx with rfl | hx
        · exact mem_cons_self
        · exact mem_cons_of_mem y (ih hx)
      · exact mem_cons_of_mem y (ih hx)

theorem le_batchFrom (room : Nat) (l : List α) (i : Nat) : i ≤ (batchFrom live room l i).2 := by
  induction l generalizing room i with
  | nil => exact Nat.le_refl i
  | cons y rest ih =>
    cases room with
    | zero => exact Nat.le_refl i
    | succ room =>
      unfold batchFrom
      split
      · exact Nat.le_of_succ_le (ih room (i + 1))
      · exact Nat.le_of_succ_le (ih (room + 1) (i + 1))

theorem eq_nil_of_batchFrom (h : (batchFrom live (room + 1) l i).2 = i) : l = [] := by
  cases l with
  | nil => rfl
  | cons y rest =>
    unfold batchFrom at h
    have hle : ∀ room, i + 1 ≤ (batchFrom live room rest (i + 1)).2 :=
      fun room => le_batchFrom room rest (i + 1)
    split at h
    · exact absurd h (by have := hle room; dsimp only; omega)
    · exact absurd h (by have := hle (room + 1); omega)

end Batch

namespace World

variable (s : World) (mode : Mode)

def Below : DomainId → DomainId → Prop :=
  Relation.ReflTransGen fun d c => c ∈ (s.domains d).children

/-- The Domain `d` and the live processes registered with it are marked. -/
def Holds (d : DomainId) : Prop :=
  (s.domains d).marked mode = true ∧
    ∀ p, (s.processes p).domain = some d → (s.processes p).alive = true →
      (s.processes p).marked mode = true

def Covered (x : DomainId) : Prop := ∀ y, s.Below x y → s.Holds mode y

/-- The lists name what there is. -/
structure WellFormed (s : World) : Prop where
  children : ∀ d, ∀ c ∈ (s.domains d).children, (s.domains c).created = true
  listed : ∀ p d, (s.processes p).domain = some d → (s.processes p).alive = true →
    p ∈ (s.domains d).processes
  registered : ∀ p d, (s.processes p).domain = some d → (s.domains d).created = true

def PlaceDone (above : Option DomainId) (d : DomainId) : Place → Prop
  | .enter => True
  | .processes i => (s.domains d).marked mode = true ∧
      ∀ j < i, ∀ p, (s.domains d).processes[j]? = some p → (s.processes p).alive = true →
        (s.processes p).marked mode = true
  | .process batch next => (s.domains d).marked mode = true ∧
      ∀ j < next, ∀ p, (s.domains d).processes[j]? = some p → (s.processes p).alive = true →
        (s.processes p).marked mode = true ∨ p ∈ batch
  | .children i => s.Holds mode d ∧
      ∀ j < i, ∀ c, (s.domains d).children[j]? = some c → s.Covered mode c ∨ above = some c
  | .child batch next => s.Holds mode d ∧ (∀ c ∈ batch, (s.domains c).created = true) ∧
      ∀ j < next, ∀ c, (s.domains d).children[j]? = some c →
        s.Covered mode c ∨ above = some c ∨ c ∈ batch

def Doing (s : World) (mode : Mode) : Option DomainId → List Call → Prop
  | _, [] => True
  | above, ⟨d,place⟩ :: outer =>
    (s.domains d).created = true ∧ s.PlaceDone mode above d place ∧ Doing s mode (some d) outer

/-! ### What every step leaves -/

/-- The Domain `c` is new: it has no children, and it is marked with what it has. -/
def Leaf (c : DomainId) : Prop :=
  (s.domains c).children = [] ∧ s.Holds mode c

/-- What is marked stays marked, and marks what is added to it. -/
structure Extends (mode : Mode) (s s' : World) : Prop where
  created : ∀ d, (s.domains d).created = true → (s'.domains d).created = true
  marked : ∀ d, (s.domains d).created = true → (s.domains d).marked mode = true →
    (s'.domains d).marked mode = true
  processes : ∀ p, (s.processes p).marked mode = true → (s'.processes p).marked mode = true
  alive : ∀ p, (s'.processes p).alive = true → (s.processes p).alive = true
  children : ∀ d, (s.domains d).created = true → ∃ new,
    (s'.domains d).children = (s.domains d).children ++ new ∧
      ∀ c ∈ new, (s.domains d).marked mode = true → s'.Leaf mode c
  registered : ∀ p d, (s'.processes p).domain = some d → (s.processes p).domain = some d ∨
    ((s.domains d).marked mode = true → (s'.processes p).marked mode = true)

variable {s mode} {s' : World} {D : DomainId}

/-- None but marked processes come to be among the first `n` entries of the list of `d`. -/
def Steady (mode : Mode) (s s' : World) (d : DomainId) (n : Nat) : Prop :=
  ∀ p ∈ (s'.domains d).processes.take n,
    p ∈ (s.domains d).processes.take n ∨ (s'.processes p).marked mode = true

theorem Steady.getElem? {n j : Nat} {p : ProcessId} (h : Steady mode s s' D n) (hj : j < n)
    (hp : (s'.domains D).processes[j]? = some p) :
    (∃ i < n, (s.domains D).processes[i]? = some p) ∨ (s'.processes p).marked mode := by
  have hmem : p ∈ (s'.domains D).processes.take n :=
    mem_iff_getElem?.mpr ⟨j,by rw [getElem?_take_of_lt hj,hp]⟩
  refine (h p hmem).imp_left fun hwas => ?_
  obtain ⟨i,hi⟩ := mem_iff_getElem?.mp hwas
  rw [getElem?_take,ite_none_right_eq_some] at hi
  exact ⟨i,hi⟩

namespace Extends

theorem holds (h : Extends mode s s') {d : DomainId} (hd : (s.domains d).created)
    (hholds : s.Holds mode d) : s'.Holds mode d := by
  refine ⟨h.marked d hd hholds.1,fun p hp halive => ?_⟩
  rcases h.registered p d hp with hold | hnew
  · exact h.processes p (hholds.2 p hold (h.alive p halive))
  · exact hnew hholds.1

theorem covered (h : Extends mode s s') (hwf : s.WellFormed) {x : DomainId}
    (hx : (s.domains x).created) (hcov : s.Covered mode x) : s'.Covered mode x := by
  -- A way down in the new tree is one in the old, or it ends with a step to a new Domain.
  have hway : ∀ y, s'.Below x y → s'.Leaf mode y ∨ (s.domains y).created ∧ s.Below x y := by
    intro y hy
    induction hy with
    | refl => exact .inr ⟨hx,.refl⟩
    | @tail y z _ hz ih =>
      rcases ih with ⟨hnone,-⟩ | ⟨hcreated,hbelow⟩
      · rw [hnone] at hz
        cases hz
      obtain ⟨new,hchildren,hnew⟩ := h.children y hcreated
      rw [hchildren,mem_append] at hz
      rcases hz with hz | hz
      · exact .inr ⟨hwf.children y z hz,hbelow.tail hz⟩
      · exact .inl (hnew z hz (hcov y hbelow).1)
  intro y hy
  rcases hway y hy with hleaf | ⟨hcreated,hbelow⟩
  · exact hleaf.2
  · exact h.holds hcreated (hcov y hbelow)

end Extends

variable {c d : DomainId} {above : Option DomainId} {place : Place} {outer calls : List Call}
  {i : Nat} {α : Type*} {l : List α}

theorem Leaf.covered (h : s.Leaf mode c) : s.Covered mode c := by
  intro y hy
  rcases Relation.ReflTransGen.cases_head hy with rfl | ⟨z,hz,-⟩
  · exact h.2
  · rw [h.1] at hz
    cases hz

theorem Extends.children_getElem (h : Extends mode s s') (hd : (s.domains d).created)
    (hmarked : (s.domains d).marked mode) {j : Nat} (hc : (s'.domains d).children[j]? = some c) :
    (s.domains d).children[j]? = some c ∨ s'.Covered mode c := by
  obtain ⟨new,hchildren,hnew⟩ := h.children d hd
  rw [hchildren,getElem?_append] at hc
  split at hc
  · exact .inl hc
  · exact .inr (hnew c (mem_of_getElem? hc) hmarked).covered

theorem PlaceDone.extends (hdone : s.PlaceDone mode above d place) (h : Extends mode s s')
    (hwf : s.WellFormed) (hd : (s.domains d).created)
    (hsteady : (s.domains d).marked mode → Steady mode s s' d place.passed) :
    s'.PlaceDone mode above d place := by
  cases place with
  | enter => trivial
  | processes i =>
    refine ⟨h.marked d hd hdone.1,fun j hj p hp halive => ?_⟩
    rcases (hsteady hdone.1).getElem? hj hp with ⟨i',hi,hold⟩ | hnew
    · exact h.processes p (hdone.2 i' hi p hold (h.alive p halive))
    · exact hnew
  | process batch next =>
    refine ⟨h.marked d hd hdone.1,fun j hj p hp halive => ?_⟩
    rcases (hsteady hdone.1).getElem? hj hp with ⟨i,hi,hold⟩ | hnew
    · exact (hdone.2 i hi p hold (h.alive p halive)).imp_left (h.processes p)
    · exact .inl hnew
  | children i =>
    refine ⟨h.holds hd hdone.1,fun j hj c hc => ?_⟩
    rcases h.children_getElem hd hdone.1.1 hc with hold | hcov
    · refine (hdone.2 j hj c hold).imp_left fun hcov => h.covered hwf ?_ hcov
      exact hwf.children d c (mem_of_getElem? hold)
    · exact .inl hcov
  | child batch next =>
    refine ⟨h.holds hd hdone.1,fun c hc => h.created c (hdone.2.1 c hc),fun j hj c hc => ?_⟩
    rcases h.children_getElem hd hdone.1.1 hc with hold | hcov
    · refine (hdone.2.2 j hj c hold).imp_left fun hcov => h.covered hwf ?_ hcov
      exact hwf.children d c (mem_of_getElem? hold)
    · exact .inl hcov

theorem Doing.extends
    (hdoing : s.Doing mode above calls) (h : Extends mode s s') (hwf : s.WellFormed)
    (hsteady : ∀ call ∈ calls, (s.domains call.domain).created →
      (s.domains call.domain).marked mode → Steady mode s s' call.domain call.place.passed) :
    s'.Doing mode above calls := by
  induction calls generalizing above with
  | nil => trivial
  | cons call outer ih =>
    obtain ⟨hd,hdone,houter⟩ := hdoing
    refine ⟨h.created _ hd,hdone.extends h hwf hd (hsteady call mem_cons_self hd),?_⟩
    exact ih houter fun call' hmem => hsteady call' (mem_cons_of_mem call hmem)

theorem Doing.return (hdoing : s.Doing mode (some d) outer)
    (hcov : s.Covered mode d) : s.Doing mode none outer := by
  cases outer with
  | nil => trivial
  | cons call outer =>
    obtain ⟨hd,hdone,houter⟩ := hdoing
    refine ⟨hd,?_,houter⟩
    generalize call.place = place at hdone ⊢
    cases place with
    | enter => trivial
    | processes i | process batch next => exact hdone
    | children i =>
      refine ⟨hdone.1,fun j hj c hc => .inl ?_⟩
      rcases hdone.2 j hj c hc with hold | habove
      · exact hold
      · cases habove
        exact hcov
    | child batch next =>
      refine ⟨hdone.1,hdone.2.1,fun j hj c hc => ?_⟩
      rcases hdone.2.2 j hj c hc with hold | habove | hbatch
      · exact .inl hold
      · cases habove
        exact .inl hcov
      · exact .inr (.inr hbatch)

/-! ### The steps of the others -/

theorem Extends.refl (mode : Mode) (s : World) : Extends mode s s where
  created _ h := h
  marked _ _ h := h
  processes _ h := h
  alive _ h := h
  children _ _ := ⟨[],(append_nil _).symm,fun _ hc => absurd hc not_mem_nil⟩
  registered _ _ h := .inl h

theorem Steady.of_eq {n : Nat} (h : (s'.domains d).processes = (s.domains d).processes) :
    Steady mode s s' d n := by
  intro p hp
  rw [h] at hp
  exact .inl hp

section Set

variable (s) (d e : DomainId) (p q : ProcessId) (E : Domain) (P : Process)

@[grind =]
theorem setDomain_domains : (s.setDomain d E).domains e = if e = d then E else s.domains e :=
  Function.update_apply s.domains d E e

@[grind =]
theorem setDomain_processes : (s.setDomain d E).processes q = s.processes q := rfl

@[grind =]
theorem setProcess_processes :
    (s.setProcess p P).processes q = if q = p then P else s.processes q :=
  Function.update_apply s.processes p P q

@[grind =]
theorem setProcess_domains : (s.setProcess p P).domains e = s.domains e := rfl

end Set

/-! A killed Domain refuses what is added to it. -/

theorem registerProcess_of_killed (h : (s.domains d).killed)
    (p : ProcessId) (room : Bool) : s.registerProcess d p room = (false, s) := by
  unfold registerProcess
  simp only [h,if_true]

theorem newChild_of_killed (h : (s.domains d).killed) (c : DomainId)
    (room : Bool) : s.newChild d c room = (false, s) := by
  unfold newChild
  simp only [h,if_true]

section Register

variable {d : DomainId} {p : ProcessId} {list : List ProcessId} {P : Process}

theorem extends_register (hkilled : (s.domains d).killed = false)
    (hflag : (s.domains d).frozen → P.frozen)
    (hmarks : (s.processes p).marked mode → P.marked mode)
    (halive : P.alive = (s.processes p).alive)
    (hdomain : P.domain = (s.processes p).domain ∨ P.domain = some d) :
    Extends mode s ((s.setDomain d { s.domains d with processes := list }).setProcess p P) where
  created := by grind
  marked := by cases mode <;> grind [Domain.marked]
  processes := by grind
  alive := by grind
  children e _ := ⟨[],by grind,fun _ hc => absurd hc not_mem_nil⟩
  registered := by
    intro q e hq
    by_cases hqp : q = p
    · subst hqp
      rw [setProcess_processes,if_pos rfl] at hq ⊢
      rcases hdomain with hsame | hnew
      · exact .inl (hsame ▸ hq)
      obtain rfl : d = e := some.inj (hnew.symm.trans hq)
      cases mode with
      | freeze => exact .inr hflag
      | kill => exact .inr fun hmarked => absurd (hkilled.symm.trans hmarked) (by decide)
    · rw [setProcess_processes,if_neg hqp] at hq
      exact .inl hq

theorem wellFormed_register (hwf : s.WellFormed) (hcreated : (s.domains d).created)
    (hlist : ∀ q ∈ (s.domains d).processes, (s.processes q).alive → q ∈ list)
    (halive : P.alive = (s.processes p).alive)
    (hdomain : P.domain = (s.processes p).domain ∨ P.domain = some d ∧ p ∈ list) :
    ((s.setDomain d { s.domains d with processes := list }).setProcess p P).WellFormed where
  children := by grind [WellFormed]
  listed := by grind [WellFormed]
  registered := by grind [WellFormed]

theorem steady_register {n : Nat} {kept : List ProcessId} (hfrozen : P.frozen)
    (hlist : list = kept ∨ list = kept ++ [p]) (hkept : ∀ q ∈ kept.take n,
      q ∈ (s.domains d).processes.take n ∨ (s.processes q).frozen) :
    Steady .freeze s
      ((s.setDomain d { s.domains d with processes := list }).setProcess p P) d n := by
  intro q hq
  simp only [setProcess_domains,setDomain_domains,if_true] at hq
  have hq : q ∈ kept.take n ∨ q = p := by
    rcases hlist with rfl | rfl
    · exact .inl hq
    · rw [take_append,mem_append] at hq
      exact hq.imp_right fun hin => mem_singleton.mp (mem_of_mem_take hin)
  by_cases hqp : q = p
  · rw [setProcess_processes,if_pos hqp]
    exact .inr hfrozen
  · rw [setProcess_processes,if_neg hqp]
    exact hkept q (hq.resolve_right hqp)

theorem registerProcess_eq (hkilled : (s.domains d).killed = false) (room : Bool) :
    ∃ list P, (s.registerProcess d p room).2
        = (s.setDomain d { s.domains d with processes := list }).setProcess p P ∧
      ((s.domains d).frozen → P.frozen) ∧
      (∀ mode, (s.processes p).marked mode → P.marked mode) ∧
      P.alive = (s.processes p).alive ∧
      ((list = (s.domains d).processes.filter fun q => (s.processes q).alive) ∧
          P.domain = (s.processes p).domain ∨
        list = ((s.domains d).processes.filter fun q => (s.processes q).alive) ++ [p] ∧
          P.domain = some d) := by
  have hP : ∀ P, P = (if (s.domains d).frozen then { s.processes p with frozen := true }
      else s.processes p) → ((s.domains d).frozen → P.frozen) ∧
        (∀ mode, (s.processes p).marked mode → P.marked mode) ∧
        P.alive = (s.processes p).alive ∧ P.domain = (s.processes p).domain := by
    intro P hP
    refine ⟨?_,fun mode => ?_,?_,?_⟩
    · grind
    · cases mode <;> grind [Process.marked]
    · grind
    · grind
  obtain ⟨hflag,hmarks,halive,hdomain⟩ := hP _ rfl
  unfold registerProcess
  simp only [hkilled,Bool.false_eq_true,if_false]
  cases room with
  | false => exact ⟨_,_,rfl,hflag,hmarks,halive,.inl ⟨rfl,hdomain⟩⟩
  | true =>
    refine ⟨_,_,rfl,hflag,fun mode => ?_,halive,.inr ⟨rfl,rfl⟩⟩
    have hmark := hmarks mode
    cases mode <;> exact hmark

/-- `register_process` keeps what is marked, and moves no entry of a marked Domain's list to the
first `n` unless it drops some of these. -/
theorem registerProcess_extends (mode : Mode) (hwf : s.WellFormed)
    (hcreated : (s.domains d).created) (room : Bool) :
    Extends mode s (s.registerProcess d p room).2 ∧ (s.registerProcess d p room).2.WellFormed ∧
      (s.registerProcess d p room).2.calls = s.calls ∧
      ∀ e n, (s.domains e).marked mode → (mode = .kill ∨ e ≠ d ∨
        ∀ q ∈ ((s.domains d).processes.filter fun q => (s.processes q).alive).take n,
          q ∈ (s.domains d).processes.take n ∨ (s.processes q).frozen) →
        Steady mode s (s.registerProcess d p room).2 e n := by
  cases hkilled : (s.domains d).killed with
  | true =>
    rw [registerProcess_of_killed hkilled]
    exact ⟨.refl mode s,hwf,rfl,fun _ _ _ _ => .of_eq rfl⟩
  | false =>
    obtain ⟨list,P,heq,hflag,hmarks,halive,hlist⟩ := registerProcess_eq hkilled room
    rw [heq]
    refine ⟨?_,?_,rfl,fun e n hmarked hcond => ?_⟩
    · exact extends_register hkilled hflag (hmarks mode) halive (hlist.imp And.right And.right)
    · refine wellFormed_register hwf hcreated ?_ halive ?_
      · rcases hlist with ⟨rfl,-⟩ | ⟨rfl,-⟩ <;> grind
      · rcases hlist with ⟨rfl,hdomain⟩ | ⟨rfl,hdomain⟩
        · exact .inl hdomain
        · exact .inr ⟨hdomain,by simp⟩
    by_cases hed : e = d
    · subst hed
      cases mode with
      | kill => exact absurd (hkilled.symm.trans hmarked) (by decide)
      | freeze =>
        have hkept := (hcond.resolve_left (by simp)).resolve_left (by simp)
        exact steady_register (hflag hmarked) (hlist.imp And.left And.left) hkept
    · refine .of_eq ?_
      rw [setProcess_domains,setDomain_domains,if_neg hed]

end Register

theorem newChild_extends (mode : Mode) (hwf : s.WellFormed)
    (hd : (s.domains d).created) (hc : (s.domains c).created = false) (room : Bool) :
    Extends mode s (s.newChild d c room).2 ∧ (s.newChild d c room).2.WellFormed ∧
      (s.newChild d c room).2.calls = s.calls ∧
      ∀ e n, (s.domains e).created → Steady mode s (s.newChild d c room).2 e n := by
  cases hkilled : (s.domains d).killed with
  | true =>
    rw [newChild_of_killed hkilled]
    exact ⟨.refl mode s,hwf,rfl,fun _ _ _ => .of_eq rfl⟩
  | false =>
    unfold newChild
    simp only [hkilled,Bool.false_eq_true,if_false]
    cases room with
    | false => exact ⟨.refl mode s,hwf,rfl,fun _ _ _ => .of_eq rfl⟩
    | true =>
      refine ⟨?_,?_,rfl,fun e n he => .of_eq ?_⟩
      · refine ⟨by grind,?_,by grind,by grind,fun e he => ?_,by grind⟩
        · cases mode <;> grind [Domain.marked]
        by_cases hed : e = d
        · refine ⟨[c],by grind,fun c' hc' hmarked => ?_⟩
          refine ⟨by grind,?_,fun p hp _ => ?_⟩
          · cases mode <;> grind [Domain.marked]
          · have := hwf.registered p c' hp
            grind
        · refine ⟨[],by grind,fun _ hc' => absurd hc' not_mem_nil⟩
      · refine ⟨?_,?_,?_⟩
        · grind [WellFormed]
        · grind [WellFormed]
        · grind [WellFormed]
      · grind

theorem setProcess_extends (mode : Mode) (hwf : s.WellFormed) {p : ProcessId} {P : Process}
    (hdomain : P.domain = (s.processes p).domain) (halive : P.alive → (s.processes p).alive)
    (hmarks : (s.processes p).marked mode → P.marked mode) :
    Extends mode s (s.setProcess p P) ∧ (s.setProcess p P).WellFormed :=
  ⟨⟨by grind,by grind,by grind,by grind,fun d _ => ⟨[],by grind,by grind⟩,by grind⟩,
    by grind [WellFormed],by grind [WellFormed],by grind [WellFormed]⟩

/-! ### The steps of the walk -/

theorem mark_extends (s : World) (mode : Mode) (hwf : s.WellFormed) (d : DomainId) :
    Extends mode s (s.setDomain d ((s.domains d).mark mode)) ∧
      (s.setDomain d ((s.domains d).mark mode)).WellFormed := by
  have hsame : ((s.domains d).mark mode).created = (s.domains d).created ∧
      ((s.domains d).mark mode).children = (s.domains d).children ∧
      ((s.domains d).mark mode).processes = (s.domains d).processes ∧
      ((s.domains d).mark mode).marked mode := by
    cases mode <;> exact ⟨rfl,rfl,rfl,rfl⟩
  exact ⟨⟨by grind,by grind,by grind,by grind,fun d _ => ⟨[],by grind,by grind⟩,by grind⟩,
    by grind [WellFormed],by grind [WellFormed],by grind [WellFormed]⟩

def Ends (s : World) (mode : Mode) (D : DomainId) : Prop :=
  (s.calls.map Call.domain).getLast? = some D ∨ s.calls = [] ∧ s.Covered mode D

structure Walking (s : World) (mode : Mode) (D : DomainId) : Prop where
  wf : s.WellFormed
  created : (s.domains D).created = true
  doing : s.Doing mode none s.calls
  ends : s.Ends mode D

theorem Walking.extends (h : s.Walking mode D) (hex : Extends mode s s')
    (hwf : s'.WellFormed) (hcalls : s'.calls = s.calls)
    (hsteady : ∀ call ∈ s.calls, (s.domains call.domain).created →
      (s.domains call.domain).marked mode → Steady mode s s' call.domain call.place.passed) :
    s'.Walking mode D := by
  refine ⟨hwf,hex.created D h.created,hcalls ▸ h.doing.extends hex h.wf hsteady,?_⟩
  rcases h.ends with hlast | ⟨heq,hcov⟩
  · exact .inl (hcalls ▸ hlast)
  · exact .inr ⟨hcalls.trans heq,hex.covered h.wf h.created hcov⟩

theorem lt_of_drop_eq_nil {j : Nat} {x : α} (hend : l.drop i = []) (hx : l[j]? = some x) : j < i :=
  Nat.lt_of_lt_of_le (List.getElem?_eq_some_iff.mp hx).1 (drop_eq_nil_iff.mp hend)

theorem holds_of_listed (hwf : s.WellFormed) (hmarked : (s.domains d).marked mode)
    (hall : ∀ j < i, ∀ p, (s.domains d).processes[j]? = some p → (s.processes p).alive →
      (s.processes p).marked mode)
    (hend : (s.domains d).processes.drop i = []) : s.Holds mode d := by
  refine ⟨hmarked,fun p hp halive => ?_⟩
  obtain ⟨j,hj⟩ := getElem?_of_mem (hwf.listed p d hp halive)
  exact hall j (lt_of_drop_eq_nil hend hj) p hj halive

theorem covered_of_listed (hholds : s.Holds mode d)
    (hall : ∀ j < i, ∀ c, (s.domains d).children[j]? = some c → s.Covered mode c)
    (hend : (s.domains d).children.drop i = []) : s.Covered mode d := by
  intro y hy
  rcases Relation.ReflTransGen.cases_head hy with rfl | ⟨c,hc,hbelow⟩
  · exact hholds
  · obtain ⟨j,hj⟩ := getElem?_of_mem hc
    exact hall j (lt_of_drop_eq_nil hend hj) c hj y hbelow

theorem mem_batch {live : α → Bool} {j : Nat} {x : α}
    (hj : j < (batchFrom live BATCH (l.drop i) i).2) (hx : l[j]? = some x) (hlive : live x) :
    j < i ∨ x ∈ (batchFrom live BATCH (l.drop i) i).1 := by
  by_cases hlt : j < i
  · exact .inl hlt
  · refine .inr (mem_batchFrom (by omega) hj ?_ hlive)
    rw [getElem?_drop,show i + (j - i) = j by omega]
    exact hx

theorem extends_calls (mode : Mode) (s : World) (calls : List Call) :
    Extends mode s { s with calls := calls } :=
  have h := Extends.refl mode s
  ⟨h.created,h.marked,h.processes,h.alive,h.children,h.registered⟩

section

variable (h : s.Walking mode D)

include h

theorem Walking.move (hdoing : s.Doing mode none calls)
    (hends : ({ s with calls := calls }).Ends mode D) :
    ({ s with calls := calls }).Walking mode D :=
  ⟨⟨h.wf.1,h.wf.2,h.wf.3⟩,h.created,
    hdoing.extends (extends_calls mode s _) h.wf fun _ _ _ _ => .of_eq rfl,hends⟩

section

variable (hcalls : s.calls = ⟨d,place⟩ :: outer)
include hcalls

theorem Walking.getLast : (d :: outer.map Call.domain).getLast? = some D := by
  rcases h.ends with hlast | ⟨hnil,-⟩
  · rw [hcalls] at hlast
    exact hlast
  · rw [hcalls] at hnil
    cases hnil

theorem Walking.goto {place' : Place} (hdone : s.PlaceDone mode none d place') :
    ({ s with calls := ⟨d,place'⟩ :: outer }).Walking mode D := by
  have hdoing := h.doing
  rw [hcalls] at hdoing
  exact h.move ⟨hdoing.1,hdone,hdoing.2.2⟩ (.inl (h.getLast hcalls))

theorem Walking.return (hcov : s.Covered mode d) : ({ s with calls := outer }).Walking mode D := by
  have hdoing := h.doing
  have hlast := h.getLast hcalls
  rw [hcalls] at hdoing
  refine h.move (hdoing.2.2.return hcov) ?_
  cases outer with
  | nil =>
    obtain rfl : d = D := some.inj hlast
    exact .inr ⟨rfl,(extends_calls mode s []).covered h.wf h.created hcov⟩
  | cons call outer => exact .inl (by simpa using hlast)

end

theorem Walking.descend {batch : List DomainId}
    {next : Nat} (hcalls : s.calls = ⟨d,.child (c :: batch) next⟩ :: outer) :
    ({ s with calls := ⟨c,.enter⟩ :: ⟨d,.child batch next⟩ :: outer }).Walking mode D := by
  have hdoing := h.doing
  rw [hcalls] at hdoing
  obtain ⟨hd,⟨hholds,hbatch,hall⟩,houter⟩ := hdoing
  refine h.move ⟨hbatch c mem_cons_self,trivial,hd,⟨hholds,?_,fun j hj x hx => ?_⟩,houter⟩
    (.inl (by simpa using h.getLast hcalls))
  · exact fun x hx => hbatch x (mem_cons_of_mem c hx)
  rcases hall j hj x hx with hcov | habove | hmem
  · exact .inl hcov
  · cases habove
  · rcases mem_cons.mp hmem with rfl | hmem
    · exact .inr (.inl rfl)
    · exact .inr (.inr hmem)

theorem Walking.walk (hstep : s.walk mode = some s') : s'.Walking mode D := by
  have hdoing := h.doing
  unfold World.walk at hstep
  split at hstep
  case h_1 => cases hstep
  case h_2 d outer hcalls =>
    -- The flag goes up.
    cases hstep
    obtain ⟨hex,hwf⟩ := mark_extends s mode h.wf d
    have hmarked := h.extends hex hwf rfl fun call _ _ _ => .of_eq (by
      rw [setDomain_domains]
      split
      · next heq => cases mode <;> rw [heq] <;> rfl
      · rfl)
    refine hmarked.goto hcalls ⟨?_,fun j hj => absurd hj (Nat.not_lt_zero j)⟩
    rw [setDomain_domains,if_pos rfl]
    cases mode <;> rfl
  case h_3 d i outer hcalls =>
    rw [hcalls] at hdoing
    obtain ⟨-,⟨hmarked,hall⟩,-⟩ := hdoing
    dsimp only at hstep
    split at hstep <;> cases hstep
    · next hend =>
      have hnil := eq_nil_of_batchFrom hend.2
      exact h.goto hcalls ⟨holds_of_listed h.wf hmarked hall hnil,
        fun j hj => absurd hj (Nat.not_lt_zero j)⟩
    · refine h.goto hcalls ⟨hmarked,fun j hj p hp halive => ?_⟩
      rcases mem_batch hj hp halive with hlt | hmem
      · exact .inl (hall j hlt p hp halive)
      · exact .inr hmem
  case h_4 d next outer hcalls =>
    cases hstep
    rw [hcalls] at hdoing
    obtain ⟨-,⟨hmarked,hall⟩,-⟩ := hdoing
    refine h.goto hcalls ⟨hmarked,fun j hj p hp halive => ?_⟩
    exact (hall j hj p hp halive).resolve_right not_mem_nil
  case h_5 d p batch next outer hcalls =>
    -- The next process of the batch.
    cases hstep
    obtain ⟨hex,hwf⟩ := setProcess_extends mode (P := (s.processes p).mark mode) h.wf
      (by cases mode <;> rfl) (by cases mode <;> exact id) (by cases mode <;> exact fun _ => rfl)
    have hmarked := h.extends hex hwf rfl fun call _ _ _ => .of_eq rfl
    have hdoing' := hmarked.doing
    rw [show (s.setProcess p ((s.processes p).mark mode)).calls = _ from hcalls] at hdoing'
    obtain ⟨-,⟨hd,hall⟩,-⟩ := hdoing'
    refine hmarked.goto hcalls ⟨hd,fun j hj q hq halive => ?_⟩
    rcases hall j hj q hq halive with hq' | hmem
    · exact .inl hq'
    rcases mem_cons.mp hmem with rfl | hmem
    · refine .inl ?_
      rw [setProcess_processes,if_pos rfl]
      cases mode <;> rfl
    · exact .inr hmem
  case h_6 d i outer hcalls =>
    rw [hcalls] at hdoing
    obtain ⟨-,⟨hholds,hall⟩,-⟩ := hdoing
    have hall' : ∀ j < i, ∀ c, (s.domains d).children[j]? = some c → s.Covered mode c :=
      fun j hj c hc => (hall j hj c hc).resolve_right (by simp)
    dsimp only at hstep
    split at hstep <;> cases hstep
    · next hend =>
      exact h.return hcalls (covered_of_listed hholds hall' (eq_nil_of_batchFrom hend.2))
    refine h.goto hcalls ⟨hholds,fun c hc => ?_,fun j hj c hc => ?_⟩
    · exact h.wf.children d c (mem_of_mem_drop (mem_of_mem_batchFrom hc))
    · rcases mem_batch hj hc rfl with hlt | hmem
      · exact .inl (hall' j hlt c hc)
      · exact .inr (.inr hmem)
  case h_7 d next outer hcalls =>
    cases hstep
    rw [hcalls] at hdoing
    obtain ⟨-,⟨hholds,-,hall⟩,-⟩ := hdoing
    refine h.goto hcalls ⟨hholds,fun j hj c hc => ?_⟩
    rcases hall j hj c hc with hcov | habove | hmem
    · exact .inl hcov
    · exact .inr habove
    · cases hmem
  case h_8 d c batch next outer hcalls =>
    cases hstep
    exact h.descend hcalls

end

/-! ### Whole walks -/

/-- The entries that a registration drops let no process that is not frozen move to a place which
the walk has passed. -/
def orderly (s : World) : Event → Bool
  | .register d _ _ => s.calls.all fun call =>
    let list := (s.domains d).processes
    call.domain ≠ d || ((list.filter fun q => (s.processes q).alive).take call.place.passed).all
      fun q => q ∈ list.take call.place.passed || (s.processes q).frozen
  | _ => true

theorem Walking.step {e : Event} (h : s.Walking mode D) (hok : mode = .kill ∨ s.orderly e)
    (hstep : World.step mode s e = some s') : s'.Walking mode D := by
  cases e with
  | walk => exact h.walk hstep
  | register d p room =>
    simp only [World.step,ite_none_right_eq_some,some.injEq] at hstep
    obtain ⟨⟨hcreated,-⟩,rfl⟩ := hstep
    obtain ⟨hex,hwf,hcalls,hsteady⟩ := registerProcess_extends mode h.wf hcreated room
    refine h.extends hex hwf hcalls fun call hcall _ hmarked => hsteady _ _ hmarked ?_
    refine hok.imp_right fun hok => ?_
    have hcall := List.all_eq_true.mp hok call hcall
    simpa only [Bool.or_eq_true,List.all_eq_true,decide_eq_true_eq] using hcall
  | newChild d c room =>
    simp only [World.step,ite_none_right_eq_some,some.injEq] at hstep
    obtain ⟨⟨hd,hc⟩,rfl⟩ := hstep
    obtain ⟨hex,hwf,hcalls,hsteady⟩ := newChild_extends mode h.wf hd hc room
    exact h.extends hex hwf hcalls fun call _ hcreated _ => hsteady _ _ hcreated
  | ends p =>
    simp only [World.step,ite_none_right_eq_some,some.injEq] at hstep
    obtain ⟨-,rfl⟩ := hstep
    obtain ⟨hex,hwf⟩ := setProcess_extends mode
      (P := { s.processes p with alive := false }) h.wf rfl (fun h => by cases h)
      (by cases mode <;> exact id)
    exact h.extends hex hwf rfl fun call _ _ _ => .of_eq rfl

theorem Walking.begin (hwf : s.WellFormed) (hcreated : (s.domains D).created)
    (hcalls : s.calls = [⟨D,.enter⟩]) : s.Walking mode D := by
  refine ⟨hwf,hcreated,?_,.inl ?_⟩
  · rw [hcalls]
    exact ⟨hcreated,trivial,trivial⟩
  · rw [hcalls]
    rfl

theorem Walking.covered (h : s.Walking mode D) (hcalls : s.calls = []) : s.Covered mode D := by
  rcases h.ends with hlast | ⟨-,hcov⟩
  · rw [hcalls] at hlast
    cases hlast
  · exact hcov

/-- Once `set_frozen(true)` on `D` has returned, every Domain of the subtree is frozen and so is
every live process registered with one, those registered later included, if no registration moved a
process that was not frozen to where the walk had passed. And once `kill` on `D` has returned, every
live process of the subtree is terminated and nothing can be added to it. -/
theorem subtree_covered (D : DomainId) (s₀ s : World) (hwf : s₀.WellFormed)
    (hcreated : (s₀.domains D).created = true) (hcalls : s₀.calls = [⟨D,.enter⟩])
    (hdone : s.calls = []) :
    (Reaches (step .freeze) (fun s e => s.orderly e = true) s₀ s → ∀ x, s.Below D x →
      (s.domains x).frozen = true ∧
        ∀ p, (s.processes p).domain = some x → (s.processes p).alive = true →
          (s.processes p).frozen = true) ∧
    (Reaches (step .kill) (fun _ _ => True) s₀ s → ∀ x, s.Below D x →
      (∀ p, (s.processes p).domain = some x → (s.processes p).alive = true →
        (s.processes p).killed = true) ∧
      (∀ p room, s.registerProcess x p room = (false, s)) ∧
      ∀ c room, s.newChild x c room = (false, s)) := by
  refine ⟨fun h => ?_,fun h x hx => ?_⟩
  · have hwalk : s.Walking .freeze D := h.invariant (P := fun s => s.Walking .freeze D)
      (.begin hwf hcreated hcalls)
      fun _ _ _ hs hok hstep => hs.step (.inr hok) hstep
    exact hwalk.covered hdone
  · have hwalk : s.Walking .kill D := h.invariant (P := fun s => s.Walking .kill D)
      (.begin hwf hcreated hcalls)
      fun _ _ _ hs _ hstep => hs.step (.inl rfl) hstep
    obtain ⟨hkilled,hprocesses⟩ := hwalk.covered hdone x hx
    exact ⟨hprocesses,registerProcess_of_killed hkilled,newChild_of_killed hkilled⟩

/-- The Domain `0` with the child `1` and nine processes, at the start of a walk. -/
def nine : World where
  domains d :=
    if d = 0 then ⟨true,[1],List.range 9,false,false⟩
    else ⟨decide (d = 1),[],[],false,false⟩
  processes p := ⟨if p < 9 then some 0 else none,true,false,false⟩
  calls := [⟨0,.enter⟩]

theorem nine_wellFormed : nine.WellFormed where
  children d c hc := by
    unfold nine at hc ⊢
    by_cases hd : d = 0
    · simp only [hd,if_true,mem_singleton] at hc
      simp [hc]
    · simp [hd] at hc
  listed p d hp _ := by
    simp only [nine,ite_none_right_eq_some,some.injEq] at hp ⊢
    obtain ⟨hp,rfl⟩ := hp
    simpa using hp
  registered p d hp := by
    simp only [nine,ite_none_right_eq_some,some.injEq] at hp ⊢
    obtain ⟨-,rfl⟩ := hp
    rfl

/-- A process is registered with the child while the walk is in the parent's list, and one that
had been passed ends. -/
theorem subtree_covered_nine :
    ∃ s, Reaches (step .freeze) (fun s e => s.orderly e = true) nine s ∧ s.calls = [] ∧
      s.Below 0 1 ∧ (s.processes 9).domain = some 1 ∧ (s.processes 9).alive = true ∧
      (s.processes 9).frozen = true := by
  refine exists_reaches_imp (P := fun s => s.calls = [] ∧ (s.domains 0).children = [1] ∧
      (s.processes 9).domain = some 1 ∧ (s.processes 9).alive = true)
    (List.replicate 11 .walk ++ [.ends 0,.register 1 9 true] ++ List.replicate 14 .walk)
    (by decide +kernel) fun s hrun ⟨hcalls,hchildren,hdomain,halive⟩ => ?_
  have hbelow : s.Below 0 1 := .single (by rw [hchildren]; exact List.mem_singleton_self 1)
  have hcov := (subtree_covered 0 nine s nine_wellFormed rfl rfl hcalls).1 hrun 1 hbelow
  exact ⟨hcalls,hbelow,hdomain,halive,hcov.2 9 hdomain halive⟩

/-- Eight processes have been frozen when the first of them ends. A registration drops its entry,
the ninth process moves to a place that the walk has passed, and it is never frozen. -/
theorem process_escapes_freeze :
    ∃ s, Reaches (step .freeze) (fun _ _ => True) nine s ∧ s.calls = [] ∧
      (s.processes 8).domain = some 0 ∧ (s.processes 8).alive = true ∧
      (s.processes 8).frozen = false := by
  exact exists_reaches (List.replicate 11 .walk ++ [.ends 0,.register 0 9 true] ++
    List.replicate 11 .walk) (by decide +kernel)

end World

end LiberSystem.Subtree
