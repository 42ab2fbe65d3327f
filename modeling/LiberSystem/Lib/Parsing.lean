import Mathlib.Data.List.Basic

/-!
# Readers of two streams

A reader moves through a list of symbols and a list of tokens that travel beside them. What a value
looks like in the streams is a `Spelling`, a relation.
-/

namespace LiberSystem

open List

/-- Why a reader does not answer with a value. -/
inductive Stop where
  /-- The streams are not what they should be. -/
  | refused
  | fault
  | spent
  deriving DecidableEq

abbrev Parser (σ : Type) := StateT σ (Except Stop)

abbrev Spelling (α β τ : Type) := τ → List α → List β → Prop

variable {σ ι α β τ υ : Type} {is : List ι}

namespace Parser

variable {p : Parser σ τ} {q : τ → Parser σ υ} {s s' : σ} {a : τ} {e : Stop}

theorem bind_ok (h : p s = .ok (a, s')) : (p >>= q) s = q a s' := by
  change (p s >>= fun x => q x.1 x.2) = _
  rw [h]
  rfl

theorem bind_error (h : p s = .error e) : (p >>= q) s = .error e := by
  change (p s >>= fun x => q x.1 x.2) = _
  rw [h]
  rfl

def each (p : ι → Parser σ τ) : List ι → Parser σ (List τ)
  | [] => Pure.pure []
  | i :: is => do
    let a ← p i
    let as ← each p is
    return a :: as

end Parser

namespace Spelling

variable {S : Spelling α β τ} {T : τ → Spelling α β υ}

def pure (a : τ) : Spelling α β τ := fun a' bs hs => a' = a ∧ bs = [] ∧ hs = []

def bind (S : Spelling α β τ) (T : τ → Spelling α β υ) : Spelling α β υ := fun b bs hs =>
  ∃ a bs₁ hs₁ bs₂ hs₂, S a bs₁ hs₁ ∧ T a b bs₂ hs₂ ∧ bs = bs₁ ++ bs₂ ∧ hs = hs₁ ++ hs₂

def each (S : ι → Spelling α β τ) : List ι → Spelling α β (List τ)
  | [] => pure []
  | i :: is => fun as bs hs => ∃ a as' bs₁ hs₁ bs₂ hs₂, as = a :: as' ∧ S i a bs₁ hs₁ ∧
      each S is as' bs₂ hs₂ ∧ bs = bs₁ ++ bs₂ ∧ hs = hs₁ ++ hs₂

variable {bs : List α} {hs : List β}

@[simp] theorem bind_pure {f : τ → υ} {b : υ} :
    bind S (fun a => pure (f a)) b bs hs ↔ ∃ a, b = f a ∧ S a bs hs := by
  constructor
  · rintro ⟨a,bs₁,hs₁,bs₂,hs₂,hS,⟨rfl,rfl,rfl⟩,rfl,rfl⟩
    rw [append_nil,append_nil]
    exact ⟨a,rfl,hS⟩
  · rintro ⟨a,rfl,hS⟩
    exact ⟨a,bs,hs,[],[],hS,⟨rfl,rfl,rfl⟩,by simp,by simp⟩

theorem each_map {κ : Type} (S : ι → Spelling α β τ) (f : κ → ι) (ks : List κ) :
    each S (ks.map f) = each (fun k => S (f k)) ks := by
  induction ks with
  | nil => rfl
  | cons k ks ih => rw [map_cons,each,each,ih]

theorem length_of_each {S : ι → Spelling α β τ} {as : List τ}
    (h : each S is as bs hs) : as.length = is.length := by
  induction is generalizing as bs hs with
  | nil =>
    obtain ⟨rfl,-⟩ := h
    rfl
  | cons i is ih =>
    obtain ⟨a,as',bs₁,hs₁,bs₂,hs₂,rfl,-,hrest,-⟩ := h
    rw [length_cons,length_cons,ih hrest]

end Spelling

/-- A state with two streams left. -/
structure Streams (σ α β : Type) where
  symbols : σ → List α
  tokens : σ → List β

/-- From a state with `P`, the reader answers with what is spelled at the front of the streams and
then has `Q`, or refuses; and it does not refuse what is spelled. -/
structure Parses (v : Streams σ α β) (P Q : σ → Prop) (p : Parser σ τ) (S : Spelling α β τ) :
    Prop where
  sound : ∀ {s a s'}, P s → p s = .ok (a, s') → Q s' ∧ ∃ bs hs, S a bs hs ∧
    v.symbols s = bs ++ v.symbols s' ∧ v.tokens s = hs ++ v.tokens s'
  total : ∀ {s}, P s → (∃ a s', p s = .ok (a, s')) ∨ p s = .error .refused
  complete : ∀ {s a bs hs bs' hs'}, P s → S a bs hs → v.symbols s = bs ++ bs' →
    v.tokens s = hs ++ hs' → ∃ s', p s = .ok (a, s') ∧ v.symbols s' = bs' ∧ v.tokens s' = hs'

namespace Parses

variable {v : Streams σ α β} {P Q R : σ → Prop} {p : Parser σ τ} {q : τ → Parser σ υ}
  {S S' : Spelling α β τ} {T : τ → Spelling α β υ}

theorem congr (h : Parses v P Q p S) (heq : ∀ a bs hs, S a bs hs ↔ S' a bs hs) :
    Parses v P Q p S' where
  sound hP hp := by
    obtain ⟨hQ,bs,hs,hS,hrest⟩ := h.sound hP hp
    exact ⟨hQ,bs,hs,(heq _ _ _).mp hS,hrest⟩
  total := h.total
  complete hP hS := h.complete hP ((heq _ _ _).mpr hS)

theorem weaken {P' Q' : σ → Prop} (h : Parses v P Q p S) (hP : ∀ s, P' s → P s)
    (hQ : ∀ s, Q s → Q' s) : Parses v P' Q' p S where
  sound hs hp := ⟨hQ _ (h.sound (hP _ hs) hp).1,(h.sound (hP _ hs) hp).2⟩
  total hs := h.total (hP _ hs)
  complete hs := h.complete (hP _ hs)

theorem pure (a : τ) : Parses v P P (Pure.pure a) (Spelling.pure a) where
  sound hP hp := by
    cases hp
    exact ⟨hP,[],[],⟨rfl,rfl,rfl⟩,rfl,rfl⟩
  total _ := Or.inl ⟨a,_,rfl⟩
  complete _ := by
    rintro ⟨rfl,rfl,rfl⟩ hb hh
    exact ⟨_,rfl,hb,hh⟩

theorem refuse : Parses v P Q (throw .refused : Parser σ τ) fun _ _ _ => False where
  sound _ hp := by cases hp
  total _ := Or.inr rfl
  complete _ hS := hS.elim

theorem bind (hp : Parses v P Q p S) (hq : ∀ a bs hs, S a bs hs → Parses v Q R (q a) (T a)) :
    Parses v P R (p >>= q) (S.bind T) where
  sound {s b s''} hP hrun := by
    rcases hp.total hP with ⟨a,s',hok⟩ | hrefused
    · rw [Parser.bind_ok hok] at hrun
      obtain ⟨hQ,bs₁,hs₁,hS,hb,hh⟩ := hp.sound hP hok
      obtain ⟨hR,bs₂,hs₂,hT,hb',hh'⟩ := (hq a bs₁ hs₁ hS).sound hQ hrun
      refine ⟨hR,bs₁ ++ bs₂,hs₁ ++ hs₂,⟨a,bs₁,hs₁,bs₂,hs₂,hS,hT,rfl,rfl⟩,?_,?_⟩
      · rw [hb,hb',append_assoc]
      · rw [hh,hh',append_assoc]
    · rw [Parser.bind_error hrefused] at hrun
      cases hrun
  total {s} hP := by
    rcases hp.total hP with ⟨a,s',hok⟩ | hrefused
    · rw [Parser.bind_ok hok]
      obtain ⟨hQ,bs,hs,hS,-⟩ := hp.sound hP hok
      exact (hq a bs hs hS).total hQ
    · exact Or.inr (Parser.bind_error hrefused)
  complete {s b bs hs bs' hs'} hP := by
    rintro ⟨a,bs₁,hs₁,bs₂,hs₂,hS,hT,rfl,rfl⟩ hb hh
    rw [append_assoc] at hb hh
    obtain ⟨s',hok,hb',hh'⟩ := hp.complete hP hS hb hh
    rw [Parser.bind_ok hok]
    exact (hq a bs₁ hs₁ hS).complete (hp.sound hP hok).1 hT hb' hh'

theorem map (hp : Parses v P Q p S) (f : τ → υ) :
    Parses v P Q (p >>= fun a => Pure.pure (f a)) fun b bs hs => ∃ a, b = f a ∧ S a bs hs :=
  (hp.bind fun a _ _ _ => .pure (f a)).congr fun _ _ _ => Spelling.bind_pure

theorem ite {c : Prop} [Decidable c] {p' : Parser σ τ} (hp : c → Parses v P Q p S)
    (hp' : ¬ c → Parses v P Q p' S') :
    Parses v P Q (if c then p else p') fun a bs hs => if c then S a bs hs else S' a bs hs := by
  by_cases hc : c
  · simp only [if_pos hc]
    exact hp hc
  · simp only [if_neg hc]
    exact hp' hc

theorem filter (hp : Parses v P Q p S) (c : τ → Bool) (f : τ → υ) :
    Parses v P Q (p >>= fun a => if c a then Pure.pure (f a) else throw .refused)
      fun b bs hs => ∃ a, b = f a ∧ c a = true ∧ S a bs hs := by
  refine (hp.bind fun a _ _ _ => Parses.ite (fun _ => .pure (f a)) fun _ => .refuse).congr
    fun b bs hs => ?_
  constructor
  · rintro ⟨a,bs₁,hs₁,bs₂,hs₂,hS,hc,rfl,rfl⟩
    split at hc
    · next hca =>
      obtain ⟨rfl,rfl,rfl⟩ := hc
      rw [append_nil,append_nil]
      exact ⟨a,rfl,hca,hS⟩
    · exact hc.elim
  · rintro ⟨a,rfl,hca,hS⟩
    refine ⟨a,bs,hs,[],[],hS,?_,by simp,by simp⟩
    simp only [hca,if_true]
    exact ⟨rfl,rfl,rfl⟩

end Parses

theorem Parses.each {v : Streams σ α β} {P : σ → Prop} {p : ι → Parser σ τ}
    {S : ι → Spelling α β τ} (hp : ∀ i ∈ is, Parses v P P (p i) (S i)) :
    Parses v P P (Parser.each p is) (Spelling.each S is) := by
  induction is with
  | nil => exact .pure []
  | cons i is ih =>
    have hi := hp i mem_cons_self
    have his := ih fun j hj => hp j (mem_cons_of_mem i hj)
    refine (hi.bind fun a _ _ _ => his.map fun as => a :: as).congr fun as bs hs => ?_
    constructor
    · rintro ⟨a,bs₁,hs₁,bs₂,hs₂,hS,⟨as',rfl,hS'⟩,rfl,rfl⟩
      exact ⟨a,as',bs₁,hs₁,bs₂,hs₂,rfl,hS,hS',rfl,rfl⟩
    · rintro ⟨a,as',bs₁,hs₁,bs₂,hs₂,rfl,hS,hS',rfl,rfl⟩
      exact ⟨a,bs₁,hs₁,bs₂,hs₂,hS,⟨as',rfl,hS'⟩,rfl,rfl⟩

end LiberSystem
