import Mathlib.Algebra.GroupWithZero.Nat
import LiberSystem.Lib.OrdMap
import LiberSystem.Lib.Ranges

/-!
# The device addresses of a domain

A range is taken while a mapping holds it, and quarantined for good when its release could not be
confirmed. The search is first fit. Sums saturate or are checked at 64 bits as in the source.
-/

namespace LiberSystem.Dma

open OrdMap

abbrev DmaAddress := ℕ
abbrev EndpointId := ℕ
abbrev DomainId := ℕ
abbrev Generation := ℕ
abbrev MappingId := ℕ

inductive Fault where
  | unknownEndpoint
  | staleGeneration
  | notMapped
  | permission
  | outOfRange
  | noSpace
  /-- The state of the hardware is not known. -/
  | unconfirmed
  | malformed
  | overlaps
  deriving DecidableEq, Repr

/-- How a call ends without a value: an error of its own, or a panic. -/
inductive Halt where
  | fault (reason : Fault)
  | panic
  /-- The call is still in a loop. -/
  | outOfFuel
  deriving DecidableEq, Repr

def u64Max : ℕ := 2 ^ 64 - 1

def saturatingAdd (a b : ℕ) : ℕ := min (a + b) u64Max

def checkedAdd (a b : ℕ) : Option ℕ := if a + b ≤ u64Max then some (a + b) else none

def nextMultipleOf (a m : ℕ) : Option ℕ :=
  if a % m = 0 then some a else checkedAdd a (m - a % m)

def isPowerOfTwo (n : ℕ) : Bool := n ≠ 0 && n &&& (n - 1) = 0

/-- What a device can do. Only descriptions that can be true of one exist. -/
structure Requirements where
  addressBits : ℕ
  alignment : ℕ
  maxSegments : ℕ
  coherent : Bool
  bits : addressBits ≠ 0 ∧ addressBits ≤ 64
  power : alignment ≠ 0 ∧ isPowerOfTwo alignment = true ∧ alignment ≤ u64Max
  segments : maxSegments ≠ 0

namespace Requirements

def new (addressBits alignment maxSegments : ℕ) (coherent : Bool) :
    Except Fault Requirements :=
  if hb : addressBits ≠ 0 ∧ addressBits ≤ 64 then
    if hp : alignment ≠ 0 ∧ isPowerOfTwo alignment = true ∧ alignment ≤ u64Max then
      if hs : maxSegments ≠ 0 then .ok ⟨addressBits,alignment,maxSegments,coherent,hb,hp,hs⟩
      else .error .malformed
    else .error .malformed
  else .error .malformed

def ceiling (r : Requirements) : ℕ :=
  if r.addressBits ≥ 64 then u64Max else 2 ^ r.addressBits - 1

def permits (r : Requirements) (address len : ℕ) : Bool :=
  if len = 0 then false
  else match checkedAdd address len with
    | some last => address % r.alignment == 0 && last - 1 ≤ r.ceiling
    | none => false

theorem le_of_permits {r : Requirements} {address len : ℕ} (h : r.permits address len = true) :
    address + len ≤ u64Max := by
  rw [permits] at h
  split at h
  · cases h
  rw [checkedAdd] at h
  split at h
  · next heq =>
    split at heq
    · assumption
    · cases heq
  · cases h

end Requirements

/-- A range of addresses that is not handed out. -/
structure Reserved where
  base : ℕ
  len : ℕ
  deriving DecidableEq, Repr

structure IovaSpace where
  base : ℕ
  len : ℕ
  /-- In use by a live mapping, or held after a close that has not completed. -/
  taken : OrdMap ℕ ℕ
  reserved : List Reserved
  /-- Ranges whose release could not be confirmed. -/
  quarantined : List Reserved

namespace IovaSpace

def new (base len : ℕ) (reserved : List Reserved) : IovaSpace :=
  ⟨base,len,.empty,reserved,[]⟩

variable (s : IovaSpace)

def endAt : ℕ := saturatingAdd s.base s.len

def touches (regions : List Reserved) (at' stop : ℕ) : Bool :=
  regions.any fun r => at' < saturatingAdd r.base r.len && r.base < stop

def overlapsAny (at' len : ℕ) : Bool :=
  let stop := saturatingAdd at' len
  touches s.reserved at' stop || touches s.quarantined at' stop ||
    -- the last taken range that starts before the end of the request
    (s.taken.lastBelow stop).any fun e => saturatingAdd e.1 e.2 > at'

def nextFreeAfter (at' : ℕ) : ℕ :=
  let past := (s.reserved ++ s.quarantined).foldl (fun past r =>
    if at' ≥ r.base ∧ at' < saturatingAdd r.base r.len then
      max past (saturatingAdd r.base r.len) else past) (saturatingAdd at' 1)
  match s.taken.lastBelow (at' + 1) with
  | some (start, len) =>
    if at' < saturatingAdd start len then max past (saturatingAdd start len) else past
  | none => past

def search (s : IovaSpace) (len alignment : ℕ) : ℕ → ℕ → Except Halt ℕ
  | 0, _ => .error .outOfFuel
  | fuel + 1, at' =>
    if saturatingAdd at' len ≤ s.endAt then
      if s.overlapsAny at' len = false then .ok at'
      else match nextMultipleOf (s.nextFreeAfter at') alignment with
        | none => .error .panic
        | some next =>
          if next ≥ s.endAt then .error (.fault .noSpace) else s.search len alignment fuel next
    else .error (.fault .noSpace)

def allocate (len alignment : ℕ) : Except Halt (DmaAddress × IovaSpace) :=
  if len = 0 ∨ alignment = 0 ∨ isPowerOfTwo alignment = false then .error (.fault .malformed)
  else match nextMultipleOf (max s.base alignment) alignment with
    | none => .error .panic
    | some first => match s.search len alignment (u64Max + 1) first with
      | .error e => .error e
      | .ok at' => .ok (at', { s with taken := s.taken.insert at' len })

def takeExact (at' len : ℕ) : Except Halt (DmaAddress × IovaSpace) :=
  if len = 0 then .error (.fault .malformed)
  else match checkedAdd at' len with
    | none => .error (.fault .malformed)
    | some stop =>
      if at' < s.base ∨ stop > s.endAt then .error (.fault .outOfRange)
      else if s.overlapsAny at' len then .error (.fault .overlaps)
      else .ok (at', { s with taken := s.taken.insert at' len })

def release (at' : DmaAddress) : Except Fault IovaSpace :=
  match s.taken.get? at' with
  | some _ => .ok { s with taken := s.taken.erase at' }
  | none => .error .notMapped

def quarantine (at' : DmaAddress) : Except Fault IovaSpace :=
  match s.taken.get? at' with
  | some len => .ok { s with
      taken := s.taken.erase at', quarantined := s.quarantined ++ [⟨at',len⟩] }
  | none => .error .notMapped

variable {s : IovaSpace} {at' a fuel : ℕ}

theorem le_nextFreeAfter : saturatingAdd at' 1 ≤ s.nextFreeAfter at' := by
  have hfold (regions : List Reserved) (past : ℕ) : past ≤ regions.foldl (fun past r =>
      if at' ≥ r.base ∧ at' < saturatingAdd r.base r.len then
        max past (saturatingAdd r.base r.len) else past) past := by
    induction regions generalizing past with
    | nil => exact le_rfl
    | cons r rest ih =>
      refine le_trans ?_ (ih _)
      dsimp only
      split <;> omega
  rw [nextFreeAfter]
  split
  · split
    · exact le_trans (hfold _ _) (le_max_left _ _)
    · exact hfold _ _
  · exact hfold _ _

theorem le_nextMultipleOf {m n : ℕ} (h : nextMultipleOf a m = some n) : a ≤ n := by
  rw [nextMultipleOf] at h
  split at h
  · exact (Option.some.inj h).le
  rw [checkedAdd] at h
  split at h
  · have := Option.some.inj h
    omega
  · cases h

/-- Candidates ascend. -/
theorem lt_next {alignment next : ℕ}
    (h : nextMultipleOf (s.nextFreeAfter at') alignment = some next) (hend : next < s.endAt) :
    at' < next := by
  have hle := le_trans le_nextFreeAfter (le_nextMultipleOf h)
  have hmax : s.endAt ≤ u64Max := Nat.min_le_right _ _
  rw [saturatingAdd] at hle
  omega

/-- A step of the search for each address up to the end of the window is enough. -/
theorem search_ne_outOfFuel {len alignment : ℕ} (hfuel : 0 < fuel) (h : s.endAt ≤ fuel + at') :
    s.search len alignment fuel at' ≠ .error .outOfFuel := by
  induction fuel generalizing at' with
  | zero => omega
  | succ fuel ih =>
    rw [search]
    split
    · split
      · nofun
      cases hnext : nextMultipleOf (s.nextFreeAfter at') alignment with
      | none => nofun
      | some next =>
        dsimp only
        split
        · nofun
        · next hend =>
          have hlt := lt_next hnext (not_le.mp hend)
          exact ih (by omega) (by omega)
    · nofun

theorem allocate_ne_outOfFuel {len alignment : ℕ} :
    s.allocate len alignment ≠ .error .outOfFuel := by
  rw [allocate]
  split
  · nofun
  split
  · nofun
  next first _ =>
  have hmax : s.endAt ≤ u64Max := Nat.min_le_right _ _
  have hsearch : s.search len alignment (u64Max + 1) first ≠ .error .outOfFuel :=
    search_ne_outOfFuel (Nat.succ_pos u64Max) (by omega)
  split
  · next hs =>
    rw [hs] at hsearch
    exact fun h => hsearch (congrArg Except.error (Except.error.inj h))
  · nofun

def range (at' len : ℕ) : ℕ × ℕ := (at', at' + len)

/-- Every range taken or quarantined fits and none overlaps another. -/
structure Tidy (s : IovaSpace) : Prop where
  fits : ∀ a l, s.taken.get? a = some l → 0 < l ∧ a + l ≤ u64Max
  fitsAside : ∀ r ∈ s.quarantined, r.base + r.len ≤ u64Max
  apart : ∀ a l b k, s.taken.get? a = some l → s.taken.get? b = some k → a ≠ b →
    Apart (range a l) (range b k)
  aside : ∀ a l, s.taken.get? a = some l → ∀ r ∈ s.quarantined,
    Apart (range a l) (range r.base r.len)

variable {s s' : IovaSpace} {at' len alignment : ℕ}

theorem tidy_new (base len : ℕ) (reserved : List Reserved) : (new base len reserved).Tidy where
  fits _ _ h := by cases h
  fitsAside _ h := (by cases h)
  apart _ _ _ _ h := by cases h
  aside _ _ h := by cases h

section

variable (h : s.Tidy) (hno : s.overlapsAny at' len = false)
include h hno

/-- The one look at the last range below decides for all of them. -/
theorem Tidy.apart_of_overlapsAny
    (hfit : at' + len ≤ u64Max) :
    (∀ a l, s.taken.get? a = some l → Apart (range a l) (range at' len)) ∧
      ∀ r ∈ s.quarantined, Apart (range at' len) (range r.base r.len) := by
  have hstop : saturatingAdd at' len = at' + len := Nat.min_eq_left hfit
  simp only [overlapsAny,hstop,Bool.or_eq_false_iff] at hno
  obtain ⟨⟨-,hquar⟩,hlast⟩ := hno
  constructor
  · intro a l ha
    by_contra hover
    simp only [Apart,range,not_or,not_le] at hover
    cases hb : s.taken.lastBelow (at' + len) with
    | none => exact absurd (lastBelow_eq_none hb ha) (by omega)
    | some e =>
      obtain ⟨b,k⟩ := e
      obtain ⟨hbk,hblt,hafter⟩ := lastBelow_eq_some hb
      obtain ⟨-,hbfit⟩ := h.fits b k hbk
      have hbend : b + k ≤ at' := by
        rw [hb,Option.any_some] at hlast
        simp only [saturatingAdd,Nat.min_eq_left hbfit,decide_eq_false_iff_not,not_lt] at hlast
        exact hlast
      have hab : a ≤ b := hafter a l (by omega) ha
      rcases Nat.eq_or_lt_of_le hab with rfl | hlt
      · obtain rfl := Option.some.inj (hbk.symm.trans ha)
        omega
      · rcases h.apart a l b k ha hbk hlt.ne with hapart | hapart <;> simp only [range] at hapart
        · omega
        · omega
  · intro r hr
    have hfits := h.fitsAside r hr
    have := List.any_eq_false.mp hquar r hr
    simp only [saturatingAdd,Nat.min_eq_left hfits,Bool.and_eq_true,decide_eq_true_eq] at this
    simp only [Apart,range]
    omega

theorem Tidy.insert (hpos : 0 < len)
    (hfit : at' + len ≤ u64Max) : { s with taken := s.taken.insert at' len }.Tidy := by
  obtain ⟨htaken,hquar⟩ := h.apart_of_overlapsAny hno hfit
  constructor
  · intro a l ha
    rw [get?_insert] at ha
    split at ha
    · next heq =>
      cases ha
      exact heq ▸ ⟨hpos,hfit⟩
    · exact h.fits a l ha
  · exact h.fitsAside
  · intro a l b k ha hb hne
    rw [get?_insert] at ha hb
    split at ha
    · next heq =>
      cases ha
      rw [if_neg (by rintro rfl; exact hne heq)] at hb
      exact heq ▸ (htaken b k hb).symm
    · split at hb
      · next heq =>
        cases hb
        exact heq ▸ htaken a l ha
      · exact h.apart a l b k ha hb hne
  · intro a l ha r hr
    rw [get?_insert] at ha
    split at ha
    · next heq =>
      cases ha
      exact heq ▸ hquar r hr
    · exact h.aside a l ha r hr

end

theorem search_ok {first : ℕ} (h : s.search len alignment fuel first = .ok at') :
    s.overlapsAny at' len = false := by
  induction fuel generalizing first with
  | zero => cases h
  | succ fuel ih =>
    rw [search] at h
    split at h
    · split at h
      · next hno =>
        cases h
        exact hno
      split at h
      · cases h
      · split at h
        · cases h
        · exact ih h
    · cases h

theorem allocate_ok (h : s.allocate len alignment = .ok (at', s')) :
    0 < len ∧ isPowerOfTwo alignment = true ∧ s.overlapsAny at' len = false ∧
      s' = { s with taken := s.taken.insert at' len } := by
  rw [allocate] at h
  split at h
  · cases h
  next hargs =>
  split at h
  · cases h
  next first hfirst =>
  split at h
  · cases h
  next found hfound =>
  cases h
  simp only [not_or,Bool.not_eq_false] at hargs
  exact ⟨Nat.pos_of_ne_zero hargs.1,hargs.2.2,search_ok hfound,rfl⟩

theorem takeExact_ok {start : ℕ} (h : s.takeExact start len = .ok (at', s')) :
    at' = start ∧ 0 < len ∧ start + len ≤ u64Max ∧ s.base ≤ start ∧ start + len ≤ s.endAt ∧
      s.overlapsAny start len = false ∧ s' = { s with taken := s.taken.insert start len } := by
  rw [takeExact] at h
  split at h
  · cases h
  next hlen =>
  split at h
  · cases h
  next stop hstop =>
  obtain ⟨hfit,rfl⟩ : start + len ≤ u64Max ∧ start + len = stop := by
    rw [checkedAdd] at hstop
    split at hstop
    · next hfit => exact ⟨hfit,Option.some.inj hstop⟩
    · cases hstop
  split at h
  · cases h
  next hwindow =>
  split at h
  · cases h
  next hno =>
  cases h
  exact ⟨rfl,Nat.pos_of_ne_zero hlen,hfit,by omega,by omega,Bool.eq_false_iff.mpr hno,rfl⟩

variable (h : s.Tidy)
include h

theorem Tidy.get?_of_overlapsAny (hno : s.overlapsAny at' len = false)
    (hpos : 0 < len) : s.taken.get? at' = none := by
  by_contra hsome
  obtain ⟨l,hl⟩ := Option.ne_none_iff_exists'.mp hsome
  obtain ⟨hlpos,hlfit⟩ := h.fits at' l hl
  have hstop : at' < saturatingAdd at' len := by rw [saturatingAdd]; omega
  simp only [overlapsAny,Bool.or_eq_false_iff] at hno
  cases hb : s.taken.lastBelow (saturatingAdd at' len) with
  | none => exact absurd (lastBelow_eq_none hb hl) (not_le.mpr hstop)
  | some e =>
    obtain ⟨b,k⟩ := e
    obtain ⟨hbk,-,hafter⟩ := lastBelow_eq_some hb
    obtain ⟨hkpos,hbfit⟩ := h.fits b k hbk
    have hle := hafter at' l hstop hl
    have hlast := hno.2
    rw [hb,Option.any_some] at hlast
    simp only [saturatingAdd,Nat.min_eq_left hbfit,decide_eq_false_iff_not,not_lt] at hlast
    omega

theorem Tidy.erase (a : ℕ) : { s with taken := s.taken.erase a }.Tidy := by
  exact ⟨fun b l hb => h.fits b l (get?_of_get?_erase hb),h.fitsAside,
    fun b l c k hb hc => h.apart b l c k (get?_of_get?_erase hb) (get?_of_get?_erase hc),
    fun b l hb => h.aside b l (get?_of_get?_erase hb)⟩

theorem Tidy.congr (htaken : ∀ a, s'.taken.get? a = s.taken.get? a)
    (hquar : s'.quarantined = s.quarantined) : s'.Tidy := by
  obtain ⟨hfits,hfitsAside,hapart,haside⟩ := h
  constructor
  · simpa only [htaken] using hfits
  · rwa [hquar]
  · simpa only [htaken] using hapart
  · simpa only [htaken,hquar] using haside

theorem Tidy.setAside {l : ℕ} (ha : s.taken.get? a = some l) :
    { s with
      taken := s.taken.erase a
      quarantined := s.quarantined ++ [Reserved.mk a l] }.Tidy := by
  obtain ⟨hfits,-,hapart,haside⟩ := h.erase a
  refine ⟨hfits,fun r hr => ?_,hapart,fun b k hb r hr => ?_⟩
  · rcases List.mem_append.mp hr with hold | hnew
    · exact h.fitsAside r hold
    · rw [List.mem_singleton.mp hnew]
      exact (h.fits a l ha).2
  rcases List.mem_append.mp hr with hold | hnew
  · exact haside b k hb r hold
  rw [List.mem_singleton.mp hnew]
  rw [get?_erase] at hb
  split at hb
  · cases hb
  · next hne => exact h.apart b k a l hb ha hne

end IovaSpace

end LiberSystem.Dma
