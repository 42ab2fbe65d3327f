import Mathlib.Data.List.Nodup
import Mathlib.Order.Lattice
import LiberSystem.Lib.Search

/-!
# Ascending lists of records as finite maps

`upsert`, `without` and `lookup` are given by what they keep, so that they act on one part of a list
that is cut by the key; the last section says which list operations they are once the position is
known.
-/

namespace LiberSystem

open List

variable {R K : Type*} [LinearOrder K] (key : R → K)

def Ascending (l : List R) : Prop := l.Pairwise fun a b => key a < key b

def upsert (r : R) (l : List R) : List R :=
  l.filter (fun a => key a < key r) ++ r :: l.filter (fun a => key r < key a)

def without (k : K) (l : List R) : List R := l.filter fun a => key a ≠ k

def lookup (k : K) (l : List R) : Option R := l.find? fun a => key a = k

variable {key} {l l₁ l₂ : List R} {r a : R} {k : K}

theorem mem_upsert : a ∈ upsert key r l ↔ a = r ∨ (a ∈ l ∧ key a ≠ key r) := by
  simp only [upsert,mem_append,mem_cons,mem_filter,decide_eq_true_eq,ne_iff_lt_or_gt]
  tauto

theorem mem_without : a ∈ without key k l ↔ a ∈ l ∧ key a ≠ k := by
  simp [without]

theorem lookup_eq_none : lookup key k l = none ↔ ∀ a ∈ l, key a ≠ k := by
  simp [lookup]

section

variable (h : Ascending key l)
include h

theorem Ascending.upsert : Ascending key (upsert key r l) := by
  refine pairwise_append.mpr ⟨h.filter _,pairwise_cons.mpr ⟨?_,h.filter _⟩,?_⟩
  · intro b hb
    exact of_decide_eq_true (mem_filter.mp hb).2
  intro a ha b hb
  have har : key a < key r := of_decide_eq_true (mem_filter.mp ha).2
  rcases mem_cons.mp hb with rfl | hb
  · exact har
  · exact har.trans (of_decide_eq_true (mem_filter.mp hb).2)

theorem Ascending.without : Ascending key (without key k l) := h.filter _

theorem Ascending.eq_of_key (ha : a ∈ l) (hr : r ∈ l) (heq : key a = key r) : a = r := by
  have hnodup : (l.map key).Nodup := (pairwise_map.mpr h).imp fun hlt => hlt.ne
  exact inj_on_of_nodup_map hnodup ha hr heq

theorem lookup_eq_some : lookup key k l = some r ↔ r ∈ l ∧ key r = k := by
  constructor
  · intro hl
    have hkey := find?_some hl
    exact ⟨mem_of_find?_eq_some hl,of_decide_eq_true hkey⟩
  rintro ⟨hr,rfl⟩
  cases hl : lookup key (key r) l with
  | none =>
    have := find?_eq_none.mp hl r hr
    simp at this
  | some a =>
    have ha := mem_of_find?_eq_some hl
    have hkey := find?_some hl
    rw [h.eq_of_key ha hr (of_decide_eq_true hkey)]

theorem lookup_upsert :
    lookup key k (upsert key r l) = if k = key r then some r else lookup key k l := by
  split
  · next heq =>
    rw [lookup_eq_some h.upsert,mem_upsert]
    exact ⟨.inl rfl,heq.symm⟩
  next hne =>
  apply Option.ext
  intro a
  rw [lookup_eq_some h.upsert,lookup_eq_some h,mem_upsert]
  constructor
  · rintro ⟨rfl | ⟨ha,-⟩,hk⟩
    · exact absurd hk.symm hne
    · exact ⟨ha,hk⟩
  · rintro ⟨ha,rfl⟩
    exact ⟨.inr ⟨ha,hne⟩,rfl⟩

theorem lookup_without {j : K} :
    lookup key k (without key j l) = if k = j then none else lookup key k l := by
  split
  · next heq =>
    subst heq
    exact lookup_eq_none.mpr fun a ha => (mem_without.mp ha).2
  next hne =>
  apply Option.ext
  intro a
  rw [lookup_eq_some h.without,lookup_eq_some h,mem_without]
  constructor
  · rintro ⟨⟨ha,-⟩,hk⟩
    exact ⟨ha,hk⟩
  · rintro ⟨ha,rfl⟩
    exact ⟨⟨ha,hne⟩,rfl⟩

end

theorem upsert_append (hlo : ∀ a ∈ l₁, key a < key r) (hhi : ∀ a ∈ l₂, key r < key a) :
    upsert key r (l₁ ++ l ++ l₂) = l₁ ++ upsert key r l ++ l₂ := by
  have h₁ : l₁.filter (fun a => key a < key r) = l₁ := filter_eq_self.mpr (by simpa using hlo)
  have h₁' : l₁.filter (fun a => key r < key a) = [] :=
    filter_eq_nil_iff.mpr fun a ha => by simpa using (hlo a ha).le
  have h₂ : l₂.filter (fun a => key r < key a) = l₂ := filter_eq_self.mpr (by simpa using hhi)
  have h₂' : l₂.filter (fun a => key a < key r) = [] :=
    filter_eq_nil_iff.mpr fun a ha => by simpa using (hhi a ha).le
  simp only [upsert,filter_append,h₁,h₁',h₂,h₂',append_nil,nil_append,append_assoc,cons_append]

section

variable (hlo : ∀ a ∈ l₁, key a ≠ k) (hhi : ∀ a ∈ l₂, key a ≠ k)
include hlo hhi

theorem without_append : without key k (l₁ ++ l ++ l₂) = l₁ ++ without key k l ++ l₂ := by
  have h₁ : l₁.filter (fun a => key a ≠ k) = l₁ := filter_eq_self.mpr (by simpa using hlo)
  have h₂ : l₂.filter (fun a => key a ≠ k) = l₂ := filter_eq_self.mpr (by simpa using hhi)
  simp only [without,filter_append,h₁,h₂]

theorem lookup_append : lookup key k (l₁ ++ l ++ l₂) = lookup key k l := by
  have h₁ : lookup key k l₁ = none := lookup_eq_none.mpr hlo
  have h₂ : lookup key k l₂ = none := lookup_eq_none.mpr hhi
  unfold lookup at h₁ h₂ ⊢
  rw [find?_append,find?_append,h₁,h₂,Option.none_or,Option.or_none]

end

variable {p : ℕ}

theorem take_append_getElem_drop (hp : p < l.length) :
    l = l.take p ++ [l[p]] ++ l.drop (p + 1) := by
  rw [append_assoc,singleton_append,← drop_eq_getElem_cons hp,take_append_drop]

theorem insertIdx_eq_append (hp : p ≤ l.length) : l.insertIdx p r = l.take p ++ r :: l.drop p := by
  induction p generalizing l with
  | zero => rfl
  | succ p ih =>
    cases l with
    | nil => exact absurd hp (Nat.not_succ_le_zero p)
    | cons a l =>
      rw [insertIdx_succ_cons,ih (Nat.le_of_succ_le_succ hp)]
      rfl

theorem upsert_eq_insertIdx (hp : p ≤ l.length) (hlo : ∀ a ∈ l.take p, key a < key r)
    (hhi : ∀ a ∈ l.drop p, key r < key a) : upsert key r l = l.insertIdx p r := by
  have hcut : upsert key r l = l.take p ++ upsert key r [] ++ l.drop p := by
    conv_lhs => rw [← take_append_drop p l,← append_nil (l.take p)]
    exact upsert_append hlo hhi
  rw [hcut,insertIdx_eq_append hp]
  simp [upsert]

section

variable (h : Ascending key l) (hp : p < l.length)
include h hp

theorem Ascending.lt_getElem :
    ∀ a ∈ l.take p, key a < key l[p] := by
  intro a ha
  obtain ⟨i,hi,rfl⟩ := mem_take_iff_getElem.mp ha
  exact pairwise_iff_getElem.mp h i p (by omega) hp (by omega)

theorem Ascending.getElem_lt :
    ∀ a ∈ l.drop (p + 1), key l[p] < key a := by
  intro a ha
  obtain ⟨i,hi,rfl⟩ := mem_drop_iff_getElem.mp ha
  exact pairwise_iff_getElem.mp h p _ hp (by omega) (by omega)

theorem upsert_eq_set (heq : key l[p] = key r) :
    upsert key r l = l.set p r := by
  have hcut : upsert key r l = l.take p ++ upsert key r [l[p]] ++ l.drop (p + 1) := by
    conv_lhs => rw [take_append_getElem_drop hp]
    exact upsert_append (heq ▸ h.lt_getElem hp) (heq ▸ h.getElem_lt hp)
  rw [hcut,set_eq_take_append_cons_drop,if_pos hp]
  simp [upsert,heq]

theorem without_eq_eraseIdx (heq : key l[p] = k) :
    without key k l = l.eraseIdx p := by
  have hcut : without key k l = l.take p ++ without key k [l[p]] ++ l.drop (p + 1) := by
    conv_lhs => rw [take_append_getElem_drop hp]
    exact without_append (fun a ha => (heq ▸ h.lt_getElem hp a ha).ne)
      (fun a ha => (heq ▸ h.getElem_lt hp a ha).ne')
  rw [hcut,eraseIdx_eq_take_drop_succ]
  simp [without,heq]

end

theorem without_eq_self (h : ∀ a ∈ l, key a ≠ k) : without key k l = l :=
  filter_eq_self.mpr (by simpa using h)

variable (key) in
/-- What a search for `k` has to answer: the position of the record with that key, or the
place that has the lower keys before it and the higher ones from it on. -/
def Found (k : K) (l : List R) : Except ℕ ℕ → Prop
  | .ok p => ∃ hp : p < l.length, key l[p] = k
  | .error p => p ≤ l.length ∧ (∀ r ∈ l.take p, key r < k) ∧ ∀ r ∈ l.drop p, k < key r

theorem found_search (h : Ascending key l) {c : ℕ → Ordering}
    (hc : ∀ i (hi : i < l.length), c i = cmp (key l[i]) k) : Found key k l (search l.length c) := by
  have horder : SearchOrder l.length c := fun i j hij hj => by
    rw [hc i (by omega),hc j hj,cmp_eq_lt_iff,cmp_eq_gt_iff]
    have hlt : key l[i] < key l[j] := pairwise_iff_getElem.mp h i j (by omega) hj hij
    rcases lt_or_ge (key l[i]) k with hi | hi
    · exact .inl hi
    · exact .inr (hi.trans_lt hlt)
  have hloc := located_search horder
  cases hs : search l.length c with
  | ok p =>
    rw [hs] at hloc
    obtain ⟨hp,heq⟩ := hloc
    rw [hc p hp,cmp_eq_eq_iff] at heq
    exact ⟨hp,heq⟩
  | error p =>
    rw [hs] at hloc
    obtain ⟨hp,hbelow,habove⟩ := hloc
    refine ⟨hp,fun r hr => ?_,fun r hr => ?_⟩
    · obtain ⟨i,hi,rfl⟩ := mem_take_iff_getElem.mp hr
      have := hbelow i (by omega)
      rwa [hc i (by omega),cmp_eq_lt_iff] at this
    · obtain ⟨i,hi,rfl⟩ := mem_drop_iff_getElem.mp hr
      have := habove (p + i) (by omega) (by omega)
      rwa [hc (p + i) (by omega),cmp_eq_gt_iff] at this

theorem Found.ne (h : Found key k l (.error p)) : ∀ a ∈ l, key a ≠ k := fun a ha => by
  rw [← take_append_drop p l] at ha
  rcases mem_append.mp ha with ha | ha
  · exact (h.2.1 a ha).ne
  · exact (h.2.2 a ha).ne'

theorem Found.lookup_ok (h : Ascending key l) (hf : Found key k l (.ok p)) :
    l[p]? = lookup key k l := by
  obtain ⟨hp,heq⟩ := hf
  rw [getElem?_eq_getElem hp]
  exact ((lookup_eq_some h).mpr ⟨getElem_mem hp,heq⟩).symm

end LiberSystem
