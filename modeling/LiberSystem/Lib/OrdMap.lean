import LiberSystem.Lib.SortedList

/-!
# Finite maps in key order

A finite map is the list of its entries with ascending keys, which is a field of the
map. `get?` after each operation is an equation, and `mem_values` says what an iteration
over the values sees.
-/

namespace LiberSystem

open List

/-- A finite map: entries with ascending keys. -/
structure OrdMap (K V : Type) [LinearOrder K] where
  entries : List (K × V)
  ascending : Ascending Prod.fst entries

namespace OrdMap

variable {K V : Type} [LinearOrder K] (m : OrdMap K V) (k : K)

def empty : OrdMap K V := ⟨[],List.Pairwise.nil⟩

def get? : Option V := (lookup Prod.fst k m.entries).map Prod.snd

def insert (v : V) : OrdMap K V :=
  ⟨upsert Prod.fst (k, v) m.entries,m.ascending.upsert⟩

def erase : OrdMap K V :=
  ⟨without Prod.fst k m.entries,m.ascending.without⟩

def retain (p : V → Bool) : OrdMap K V :=
  ⟨m.entries.filter fun e => p e.2,m.ascending.filter _⟩

def modify (f : V → V) : OrdMap K V :=
  match m.get? k with
  | some v => m.insert k (f v)
  | none => m

def values : List V := m.entries.map Prod.snd

def lastBelow : Option (K × V) :=
  (m.entries.filter fun e => e.1 < k).getLast?

variable {m k} {k' : K} {v v' : V}

theorem get?_eq_some : m.get? k = some v ↔ (k, v) ∈ m.entries := by
  rw [get?,Option.map_eq_some_iff]
  constructor
  · rintro ⟨⟨k',v'⟩,hl,rfl⟩
    obtain ⟨hmem,rfl⟩ := (lookup_eq_some m.ascending).mp hl
    exact hmem
  · intro hmem
    exact ⟨(k, v),(lookup_eq_some m.ascending).mpr ⟨hmem,rfl⟩,rfl⟩

@[simp] theorem get?_insert : (m.insert k v).get? k' = if k' = k then some v else m.get? k' := by
  rw [get?,insert,lookup_upsert m.ascending]
  split <;> rfl

@[simp] theorem get?_erase : (m.erase k).get? k' = if k' = k then none else m.get? k' := by
  rw [get?,erase,lookup_without m.ascending]
  split <;> rfl

theorem get?_of_get?_erase (h : (m.erase k).get? k' = some v) : m.get? k' = some v := by
  rw [get?_erase] at h
  split at h
  · cases h
  · exact h

@[simp] theorem get?_modify {f : V → V} :
    (m.modify k f).get? k' = if k' = k then (m.get? k).map f else m.get? k' := by
  rw [modify]
  split
  · next v hv => rw [get?_insert,hv,Option.map_some]
  next hv =>
  split
  · next heq => rw [heq,hv,Option.map_none]
  · rfl

@[simp] theorem get?_retain {p : V → Bool} : (m.retain p).get? k = (m.get? k).filter p := by
  apply Option.ext
  intro v
  rw [get?_eq_some,Option.filter_eq_some_iff,get?_eq_some,retain,mem_filter]

theorem mem_values : v ∈ m.values ↔ ∃ k, m.get? k = some v := by
  simp only [values,mem_map,get?_eq_some,Prod.exists]
  constructor
  · rintro ⟨k,v',hmem,rfl⟩
    exact ⟨k,hmem⟩
  · rintro ⟨k,hmem⟩
    exact ⟨k,v,hmem,rfl⟩

theorem lastBelow_eq_some (h : m.lastBelow k = some (k', v)) :
    m.get? k' = some v ∧ k' < k ∧ ∀ j w, j < k → m.get? j = some w → j ≤ k' := by
  obtain ⟨xs,hxs⟩ := getLast?_eq_some_iff.mp h
  have hmem : (k', v) ∈ m.entries.filter fun e => e.1 < k := by rw [hxs]; simp
  obtain ⟨hin,hlt⟩ := mem_filter.mp hmem
  refine ⟨get?_eq_some.mpr hin,of_decide_eq_true hlt,fun j w hj hw => ?_⟩
  have hjw : (j, w) ∈ xs ++ [(k', v)] := by
    rw [← hxs]
    exact mem_filter.mpr ⟨get?_eq_some.mp hw,decide_eq_true hj⟩
  have hasc : Ascending Prod.fst (xs ++ [(k', v)]) := hxs ▸ m.ascending.filter _
  rcases mem_append.mp hjw with hold | hlast
  · exact ((pairwise_append.mp hasc).2.2 _ hold _ (mem_singleton.mpr rfl)).le
  · rw [(Prod.mk.inj (mem_singleton.mp hlast)).1]

theorem lastBelow_eq_none (h : m.lastBelow k = none) (hv : m.get? k' = some v) : k ≤ k' := by
  by_contra hlt
  have hmem : (k', v) ∈ m.entries.filter fun e => e.1 < k :=
    mem_filter.mpr ⟨get?_eq_some.mp hv,decide_eq_true (not_le.mp hlt)⟩
  rw [getLast?_eq_none_iff.mp h] at hmem
  cases hmem

end OrdMap

end LiberSystem
