import LiberSystem.Kernel.Object.Handle
import LiberSystem.Lib.Forest

/-!
# Domains and their resource counters

`ResourceCounter` and the three walkers of `object/domain/mod.rs`. The tree of Domains is a
`Forest`: a parent exists before its children.
-/

namespace LiberSystem

open List

def u64Max : Nat := 2 ^ 64 - 1

def UNLIMITED : Nat := u64Max

def saturatingAdd (a b : Nat) : Nat := min (a + b) u64Max

theorem saturatingAdd_of_le {a b : Nat} (h : a + b ≤ u64Max) : saturatingAdd a b = a + b :=
  Nat.min_eq_left h

structure ResourceCounter where
  used : Nat
  peak : Nat
  limit : Nat
  deriving DecidableEq, Repr

namespace ResourceCounter

def new (limit : Nat) : ResourceCounter := ⟨0,0,limit⟩

variable (c : ResourceCounter)

def tryCharge (amount : Nat) : Option ResourceCounter :=
  let next := saturatingAdd c.used amount
  if c.limit ≠ UNLIMITED ∧ next > c.limit then none else some { c with used := next }

def charge (amount : Nat) : ResourceCounter :=
  let next := saturatingAdd c.used amount
  { c with used := next, peak := max c.peak next }

def observePeak : ResourceCounter :=
  { c with peak := max c.peak c.used }

def uncharge (amount : Nat) : ResourceCounter :=
  { c with used := c.used - amount }

end ResourceCounter

inductive Resource where
  | memory
  | handles
  | threads
  | dma
  | ipcQueue
  | waitRegistrations
  | stack
  deriving DecidableEq, Repr

abbrev Accounts := DomainId → Resource → ResourceCounter

namespace Accounts

def used (a : Accounts) (res : Resource) (d : DomainId) : Nat := (a d res).used

def modify (a : Accounts) (d : DomainId) (res : Resource)
    (f : ResourceCounter → ResourceCounter) : Accounts :=
  Function.update a d (Function.update (a d) res (f (a d res)))

def setLimit (a : Accounts) (d : DomainId) (res : Resource) (limit : Nat) : Accounts :=
  a.modify d res fun c => { c with limit := limit }

def tryChargeHier (res : Resource) (amount : Nat) : List DomainId → Accounts → Bool × Accounts
  | [], a => (true, a)
  | d :: up, a =>
    match (a d res).tryCharge amount with
    | none => (false, a)
    | some c =>
      match tryChargeHier res amount up (a.modify d res fun _ => c) with
      | (false, a') => (false, a'.modify d res fun c => c.uncharge amount)
      | (true, a') => (true, a'.modify d res fun c => c.observePeak)

def chargeHier (res : Resource) (amount : Nat) : List DomainId → Accounts → Accounts
  | [], a => a
  | d :: up, a => chargeHier res amount up (a.modify d res fun c => c.charge amount)

def unchargeHier (res : Resource) (amount : Nat) : List DomainId → Accounts → Accounts
  | [], a => a
  | d :: up, a => unchargeHier res amount up (a.modify d res fun c => c.uncharge amount)

end Accounts

def domainQuota (F : Forest) : Quota Accounts where
  tryChargeHandle d := Accounts.tryChargeHier .handles 1 (F.path d)
  chargeHandle d := Accounts.chargeHier .handles 1 (F.path d)
  unchargeHandles d count := Accounts.unchargeHier .handles count (F.path d)
  tryChargeIpcQueue d bytes := Accounts.tryChargeHier .ipcQueue bytes (F.path d)
  unchargeIpcQueue d bytes := Accounts.unchargeHier .ipcQueue bytes (F.path d)

namespace Accounts

variable {res : Resource} {amount : Nat} {a : Accounts} {path : List DomainId} {d : DomainId}

section

variable (a : Accounts) (d : DomainId) (res : Resource)

theorem modify_apply (f : ResourceCounter → ResourceCounter) (x : DomainId) (r : Resource) :
    a.modify d res f x r = if x = d ∧ r = res then f (a d res) else a x r := by
  unfold modify
  by_cases hx : x = d
  · subst hx
    by_cases hr : r = res
    · subst hr
      simp
    · simp [hr]
  · simp [hx]

theorem modify_modify (f g : ResourceCounter → ResourceCounter) :
    (a.modify d res f).modify d res g = a.modify d res fun c => g (f c) := by
  funext x r
  simp only [modify_apply,and_self,if_true]
  split <;> rfl

theorem used_modify (f : ResourceCounter → ResourceCounter) (x : DomainId) :
    (a.modify d res f).used res x = if x = d then (f (a d res)).used else a.used res x := by
  unfold used
  rw [modify_apply]
  by_cases hx : x = d <;> simp [hx]

end

theorem used_setLimit (a : Accounts) (d : DomainId) (res r : Resource) (limit : Nat)
    (x : DomainId) : (a.setLimit d res limit).used r x = a.used r x := by
  unfold used setLimit
  rw [modify_apply]
  split
  · next h => rw [h.1,h.2]
  · rfl

/-- Along `path` the use of `res` has changed by `δ`, and elsewhere it has not. -/
def Shifted (res : Resource) (path : List DomainId) (δ : ℤ) (a a' : Accounts) : Prop :=
  ∀ x, (a'.used res x : ℤ) = a.used res x + if x ∈ path then δ else 0

namespace Shifted

variable {a' a'' : Accounts} {δ ε : ℤ}

theorem refl (res : Resource) (path : List DomainId) (a : Accounts) : Shifted res path 0 a a := by
  intro x
  simp

theorem trans (h : Shifted res path δ a a') (h' : Shifted res path ε a' a'') :
    Shifted res path (δ + ε) a a'' := by
  intro x
  rw [h' x,h x]
  split <;> omega

theorem of_eq (h : Shifted res path δ a a') (he : δ = ε) : Shifted res path ε a a' := he ▸ h

theorem cons {f : ResourceCounter → ResourceCounter} (hd : d ∉ path)
    (hf : ((f (a d res)).used : ℤ) = (a d res).used + δ)
    (h : Shifted res path δ (a.modify d res f) a') : Shifted res (d :: path) δ a a' := by
  intro x
  rw [h x,used_modify]
  by_cases hx : x = d
  · subst hx
    simp only [if_pos,mem_cons_self,if_neg hd]
    unfold used
    omega
  · rw [if_neg hx]
    simp only [mem_cons,hx,false_or]

end Shifted

def Fits (res : Resource) (amount : Nat) (path : List DomainId) (a : Accounts) : Prop :=
  ∀ x ∈ path, a.used res x + amount ≤ u64Max

theorem Fits.tail (h : Fits res amount (d :: path) a) (hd : d ∉ path)
    (f : ResourceCounter → ResourceCounter) : Fits res amount path (a.modify d res f) := by
  intro x hx
  rw [used_modify,if_neg (by rintro rfl; exact hd hx)]
  exact h x (mem_cons_of_mem d hx)

theorem chargeHier_shifted (hnd : path.Nodup) (hfit : Fits res amount path a) :
    Shifted res path amount a (chargeHier res amount path a) := by
  induction path generalizing a with
  | nil => exact fun x => by simp [chargeHier]
  | cons d up ih =>
    obtain ⟨hd,hnd⟩ := nodup_cons.mp hnd
    refine Shifted.cons hd ?_ (ih hnd (hfit.tail hd fun c => c.charge amount))
    have hroom : (a d res).used + amount ≤ u64Max := hfit d mem_cons_self
    simp only [ResourceCounter.charge,saturatingAdd_of_le hroom]
    omega

theorem unchargeHier_shifted (hnd : path.Nodup) (hused : ∀ x ∈ path, amount ≤ a.used res x) :
    Shifted res path (-amount) a (unchargeHier res amount path a) := by
  induction path generalizing a with
  | nil => exact fun x => by simp [unchargeHier]
  | cons d up ih =>
    obtain ⟨hd,hnd⟩ := nodup_cons.mp hnd
    refine Shifted.cons hd ?_ (ih hnd ?_)
    · have hle : amount ≤ (a d res).used := hused d mem_cons_self
      simp only [ResourceCounter.uncharge]
      omega
    · intro x hx
      rw [used_modify,if_neg (by rintro rfl; exact hd hx)]
      exact hused x (mem_cons_of_mem d hx)

theorem tryCharge_of_le {c c' : ResourceCounter} (hroom : c.used + amount ≤ u64Max)
    (h : c.tryCharge amount = some c') : c' = { c with used := c.used + amount } := by
  unfold ResourceCounter.tryCharge at h
  rw [saturatingAdd_of_le hroom] at h
  grind

theorem tryChargeHier_spec (hnd : path.Nodup) (hfit : Fits res amount path a) :
    ((tryChargeHier res amount path a).1 →
      Shifted res path amount a (tryChargeHier res amount path a).2) ∧
    ((tryChargeHier res amount path a).1 = false → (tryChargeHier res amount path a).2 = a) := by
  induction path generalizing a with
  | nil => exact ⟨fun _ x => (by simp [tryChargeHier]),fun h => by cases h⟩
  | cons d up ih =>
    obtain ⟨hd,hnd⟩ := nodup_cons.mp hnd
    have hroom : (a d res).used + amount ≤ u64Max := hfit d mem_cons_self
    unfold tryChargeHier
    cases hc : (a d res).tryCharge amount with
    | none => exact ⟨fun h => (by cases h),fun _ => rfl⟩
    | some c =>
      have hcharged := tryCharge_of_le hroom hc
      have hup := ih hnd (hfit.tail hd fun _ => c)
      dsimp only
      generalize tryChargeHier res amount up (a.modify d res fun _ => c) = r at hup ⊢
      obtain ⟨granted,a'⟩ := r
      cases granted with
      | true =>
        have hshift : Shifted res (d :: up) amount a a' := by
          refine Shifted.cons hd ?_ (hup.1 rfl)
          rw [hcharged]
          simp
        refine ⟨fun _ x => ?_,fun h => by cases h⟩
        rw [← hshift x,used_modify]
        split
        · next hx =>
          rw [hx]
          rfl
        · rfl
      | false =>
        refine ⟨fun h => (by cases h),fun _ => ?_⟩
        rw [show a' = a.modify d res fun _ => c from hup.2 rfl]
        funext x r
        dsimp only
        rw [modify_apply,modify_apply,modify_apply,hcharged]
        by_cases hx : x = d ∧ r = res
        · obtain ⟨rfl,rfl⟩ := hx
          simp [ResourceCounter.uncharge]
        · rw [if_neg hx,if_neg hx]

end Accounts

/-- Two Domains below one. -/
def Forest.siblings : Forest where
  parent d := if d = 1 ∨ d = 2 then some 0 else none
  parent_lt {d p} h := by
    split at h
    · cases h
      omega
    · cases h

end LiberSystem
