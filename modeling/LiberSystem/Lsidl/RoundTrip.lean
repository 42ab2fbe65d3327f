import LiberSystem.Lsidl.Reading

/-!
# Generated codecs round-trip

What is written of a value whose strings and lists respect their bounds is one of the spellings that
a reader reads, and a reader of a whole message answers with the value that its bytes and handles
spell.
-/

namespace LiberSystem.Lsidl

open Wire Reader List

section Respects

variable (σ : Schema)

mutual

def Respects : Val → Ty → Option Nat → Bool
  | .string s, _, bound => withinBound bound (utf8 s).length
  | .some v, t, bound =>
    match σ.resolve t with
    | .option inner => Respects v inner bound
    | _ => true
  | .list vs, t, bound =>
    withinBound bound vs.length &&
      match σ.resolve t with
      | .list inner => RespectsEach vs (List.replicate vs.length ⟨inner,none⟩)
      | _ => true
  | .tuple vs, t, _ =>
    match σ.resolve t with
    | .tuple elems => RespectsEach vs (elems.map fun t => ⟨t,none⟩)
    | _ => true
  | .ok v, t, bound =>
    match σ.resolve t with
    | .result ok _ => Respects v ok bound
    | _ => true
  | .err v, t, _ =>
    match σ.resolve t with
    | .result _ err => Respects v err none
    | _ => true
  | .record vs, t, _ =>
    match σ.resolve t with
    | .record fs => RespectsEach vs fs
    | _ => true
  | .carrying i v, t, _ =>
    match σ.resolve t with
    | .variant cs =>
      match cs[i]? with
      | some (some payload) => Respects v payload none
      | _ => true
    | _ => true
  | _, _, _ => true

def RespectsEach : List Val → List Field → Bool
  | v :: vs, f :: fs => Respects v f.ty f.bound && RespectsEach vs fs
  | _, _ => true

end

end Respects

mutual

/-- The bytes of a message of the value, with those marked that stand for a handle. -/
def Val.marks : Val → List Bool
  | .handle _ => replicate 4 true
  | .bool _ | .none | .case _ => [false]
  | .scalar s _ | .flags s _ => replicate s.size false
  | .string s => replicate (2 + (utf8 s).length) false
  | .unit => []
  | .buffer _ _ => replicate 8 false
  | .some v | .ok v | .err v | .carrying _ v => false :: v.marks
  | .list vs => false :: false :: Val.marksEach vs
  | .tuple vs | .record vs => Val.marksEach vs

def Val.marksEach : List Val → List Bool
  | [] => []
  | v :: vs => v.marks ++ Val.marksEach vs

end

/-- The bytes with the marked ones set to zero. -/
def cleared (marks : List Bool) (bs : List UInt8) : List UInt8 :=
  zipWith (fun mark b => if mark then 0 else b) marks bs

variable {σ : Schema} {t : Ty} {bound : Option Nat} {v : Val} {bs : List UInt8}
  {hs : List UInt64}

theorem cleared_replicate_false : cleared (replicate bs.length false) bs = bs := by
  refine ext_getElem (by simp [cleared]) fun i _ _ => ?_
  simp [cleared]

/-! ### From one grammar to the other -/

/-- With the marked bytes at zero `S` holds, and they are at zero if `same` does. -/
structure Respelled (S : List UInt8 → Prop) (same : Prop) (marks : List Bool) (bs : List UInt8) :
    Prop where
  length : bs.length = marks.length
  cleared : S (cleared marks bs)
  eq : same → Lsidl.cleared marks bs = bs

section Respelled

variable {g g' : Grammar} {same : Prop} {S S₁ S₂ : List UInt8 → Prop}
  {marks marks₁ marks₂ : List Bool} {bs₁ bs₂ : List UInt8}

theorem Respelled.of_false (hmarks : marks = replicate bs.length false) (hS : S bs) :
    Respelled S same marks bs := by
  subst hmarks
  refine ⟨length_replicate.symm,?_,fun _ => cleared_replicate_false⟩
  rwa [cleared_replicate_false]

theorem Respelled.append (h₁ : Respelled S₁ same marks₁ bs₁) (h₂ : Respelled S₂ same marks₂ bs₂)
    (hS : ∀ bs₁ bs₂, S₁ bs₁ → S₂ bs₂ → S (bs₁ ++ bs₂)) :
    Respelled S same (marks₁ ++ marks₂) (bs₁ ++ bs₂) := by
  have happend : Lsidl.cleared (marks₁ ++ marks₂) (bs₁ ++ bs₂)
      = Lsidl.cleared marks₁ bs₁ ++ Lsidl.cleared marks₂ bs₂ := zipWith_append h₁.length.symm
  refine ⟨by rw [length_append,length_append,h₁.length,h₂.length],?_,fun hsame => ?_⟩
  · rw [happend]
    exact hS _ _ h₁.cleared h₂.cleared
  · rw [happend,h₁.eq hsame,h₂.eq hsame]

/-- Bytes before that are the same in every grammar. -/
theorem Respelled.after (h : Respelled S₁ same marks bs) (front : List UInt8)
    (hS : ∀ bs, S₁ bs → S (front ++ bs)) :
    Respelled S same (replicate front.length false ++ marks) (front ++ bs) :=
  (Respelled.of_false (S := (· = front)) rfl rfl).append h fun _ bs heq hbs => heq ▸ hS bs hbs

theorem SpellsEach.respelled {vs : List Val} {fs : List Field}
    (ih : ∀ v ∈ vs, ∀ {t bound bs hs}, Spells g σ v t bound bs hs →
      (g'.bounded → Respects σ v t bound) →
      Respelled (fun bs => Spells g' σ v t bound bs hs) same v.marks bs)
    (h : SpellsEach g σ vs fs bs hs) (hresp : g'.bounded → RespectsEach σ vs fs) :
    Respelled (fun bs => SpellsEach g' σ vs fs bs hs) same (Val.marksEach vs) bs := by
  induction vs generalizing fs bs hs with
  | nil =>
    cases fs with
    | nil => exact .of_false (by rw [h.1]; rfl) h
    | cons f fs => exact h.elim
  | cons v vs ihvs =>
    cases fs with
    | nil => exact h.elim
    | cons f fs =>
      simp only [RespectsEach,Bool.and_eq_true] at hresp
      obtain ⟨bs₁,hs₁,bs₂,hs₂,hv,hvs,rfl,rfl⟩ := h
      exact (ih v mem_cons_self hv fun hb => (hresp hb).1).append
        (ihvs (fun v' hv' => ih v' (mem_cons_of_mem v hv')) hvs fun hb => (hresp hb).2)
        fun bs₁ bs₂ hv hvs => ⟨bs₁,hs₁,bs₂,hs₂,hv,hvs,rfl,rfl⟩

variable (hold : ∀ bs, g.placeholder bs → bs.length = 4 ∧ (same → bs = toLe 4 0))
  (hzero : g'.placeholder (toLe 4 0))
include hold hzero

/-- What is spelled in one grammar is spelled in the other, but for what stands for a handle. -/
theorem Spells.respelled (h : Spells g σ v t bound bs hs)
    (hresp : g'.bounded → Respects σ v t bound) :
    Respelled (fun bs => Spells g' σ v t bound bs hs) same v.marks bs := by
  induction v using Val.induct generalizing t bound bs hs with
  | h v ih =>
    cases v with
    | bool | scalar | unit | buffer =>
      obtain ⟨hf,rfl,hh⟩ := h
      exact .of_false (by simp [Val.marks]) ⟨hf,rfl,hh⟩
    | string s =>
      obtain ⟨hf,-,hle,rfl,hh⟩ := h
      exact .of_false (by rw [length_append,length_toLe]; rfl) ⟨hf,hresp,hle,rfl,hh⟩
    | none =>
      obtain ⟨inner,hf,rfl,hh⟩ := h
      exact .of_false rfl ⟨inner,hf,rfl,hh⟩
    | some v =>
      obtain ⟨inner,bs',hf,rfl,hv⟩ := h
      simp only [Respects,hf] at hresp
      exact (ih v (mem_singleton.mpr rfl) hv hresp).after [1]
        fun bs hv => ⟨inner,bs,hf,rfl,hv⟩
    | list vs =>
      obtain ⟨inner,bs',hf,-,hle,rfl,hvs⟩ := h
      simp only [Respects,hf,Bool.and_eq_true] at hresp
      exact (hvs.respelled ih fun hb => (hresp hb).2).after (toLe 2 vs.length)
        fun bs hvs => ⟨inner,bs,hf,fun hb => (hresp hb).1,hle,rfl,hvs⟩
    | tuple vs =>
      obtain ⟨elems,hf,hvs⟩ := h
      simp only [Respects,hf] at hresp
      obtain ⟨hlen,hclear,heq⟩ := hvs.respelled ih hresp
      exact ⟨hlen,⟨elems,hf,hclear⟩,heq⟩
    | ok v =>
      obtain ⟨ok,err,bs',hf,rfl,hv⟩ := h
      simp only [Respects,hf] at hresp
      exact (ih v (mem_singleton.mpr rfl) hv hresp).after [1]
        fun bs hv => ⟨ok,err,bs,hf,rfl,hv⟩
    | err v =>
      obtain ⟨ok,err,bs',hf,rfl,hv⟩ := h
      simp only [Respects,hf] at hresp
      exact (ih v (mem_singleton.mpr rfl) hv hresp).after [0]
        fun bs hv => ⟨ok,err,bs,hf,rfl,hv⟩
    | handle handle =>
      obtain ⟨hf,hplace,hh⟩ := h
      obtain ⟨hlen,heq⟩ := hold bs hplace
      obtain ⟨a,b,c,d,rfl⟩ := length_eq_four.mp hlen
      exact ⟨rfl,⟨hf,hzero,hh⟩,fun hsame => (heq hsame).symm⟩
    | record vs =>
      obtain ⟨fs,hf,hvs⟩ := h
      simp only [Respects,hf] at hresp
      obtain ⟨hlen,hclear,heq⟩ := hvs.respelled ih hresp
      exact ⟨hlen,⟨fs,hf,hclear⟩,heq⟩
    | case i =>
      rcases id h with ⟨cs,ord,hf,hord,rfl,hh⟩ | ⟨cs,hf,hcase,rfl,hh⟩ <;> exact .of_false rfl h
    | carrying i v =>
      obtain ⟨cs,payload,bs',hf,hcase,rfl,hv⟩ := h
      simp only [Respects,hf,hcase] at hresp
      exact (ih v (mem_singleton.mpr rfl) hv hresp).after [UInt8.ofNat i]
        fun bs hv => ⟨cs,payload,bs,hf,hcase,rfl,hv⟩
    | flags s bits =>
      obtain ⟨count,hf,hwidth,rfl,hh⟩ := h
      exact .of_false (by rw [length_toLe]; rfl) ⟨count,hf,hwidth,rfl,hh⟩

end Respelled

variable {bytes : List UInt8} {handles : Handles}

theorem encodeMessage_eq_some_iff : encodeMessage σ t v = some (bytes, handles) ↔
      Spells .written σ v t none bytes handles.list := by
  rw [encodeMessage,Option.map_eq_some_iff]
  constructor
  · rintro ⟨w,hw,heq⟩
    obtain ⟨bs,hs,hv,hadd⟩ := (write_writes v t none _ w).mp hw
    rw [VecWriter.add] at hadd
    split at hadd
    · cases hadd
      cases heq
      exact hv
    · cases hadd
  · intro hv
    refine ⟨⟨bytes,handles⟩,(write_writes v t none _ _).mpr ⟨bytes,handles.list,hv,?_⟩,rfl⟩
    exact dif_pos handles.le

theorem decodeMessage_eq_some_iff {left : Handles} :
    decodeMessage σ t bytes handles = .ok (some v, left) ↔
      Spells .read σ v t none bytes handles.list ∧ left = .new := by
  have hwithin : (withHandles bytes handles).Within (bytes.length + 1) :=
    ⟨ok_withHandles bytes handles,Nat.lt_succ_self _⟩
  have hparses := read_parses σ (bytes.length + 1) t none
  constructor
  · intro hrun
    rw [decodeMessage] at hrun
    split at hrun
    · next v' r hread =>
      obtain ⟨hr,bs,hs,hv,hb,hh⟩ := hparses.sound hwithin hread
      split at hrun
      · next hfinish =>
        cases hrun
        obtain ⟨hb',hh'⟩ := (finish_iff hr.1).mp hfinish
        rw [symbols_withHandles,hb',append_nil] at hb
        rw [tokens_withHandles,hh',append_nil] at hh
        rw [hb,hh]
        exact ⟨hv,rfl⟩
      · cases hrun
    · cases hrun
    · cases hrun
  · rintro ⟨hv,rfl⟩
    have hb : streams.symbols (withHandles bytes handles) = bytes ++ [] := by simp
    have hh : streams.tokens (withHandles bytes handles) = handles.list ++ [] := by simp
    obtain ⟨r,hread,hb',hh'⟩ := hparses.complete hwithin hv hb hh
    have hr := (hparses.sound hwithin hread).1
    rw [decodeMessage,hread]
    exact if_pos ((finish_iff hr.1).mpr ⟨hb',hh'⟩)

theorem decodeMessage_total (σ : Schema) (t : Ty) (bytes : List UInt8) (handles : Handles) :
    ∃ answer left, decodeMessage σ t bytes handles = .ok (answer, left) ∧
      (answer = none → left = handles) := by
  have hwithin : (withHandles bytes handles).Within (bytes.length + 1) :=
    ⟨ok_withHandles bytes handles,Nat.lt_succ_self _⟩
  rw [decodeMessage]
  rcases (read_parses σ (bytes.length + 1) t none).total hwithin with ⟨v,r,hread⟩ | hread
  · rw [hread]
    dsimp only
    split
    · exact ⟨some v,_,rfl,fun h => by cases h⟩
    · exact ⟨none,handles,rfl,fun _ => rfl⟩
  · rw [hread]
    exact ⟨none,handles,rfl,fun _ => rfl⟩

/-- What a codec encodes it decodes, with every handle in its place, and decoding anything else is
in range and leaves the handles to the caller when it refuses. -/
theorem codecs_round_trip (σ : Schema) (t : Ty) :
    (∀ v bytes handles, Respects σ v t none = true → encodeMessage σ t v = some (bytes, handles) →
      decodeMessage σ t bytes handles = .ok (some v, .new)) ∧
    ∀ bytes handles, ∃ answer left, decodeMessage σ t bytes handles = .ok (answer, left) ∧
      (answer = none → left = handles) := by
  refine ⟨fun v bytes handles hresp hencode => ?_,decodeMessage_total σ t⟩
  have hold : ∀ bs, Grammar.written.placeholder bs → bs.length = 4 ∧ (True → bs = toLe 4 0) := by
    rintro bs rfl
    exact ⟨rfl,fun _ => rfl⟩
  have hzero : Grammar.read.placeholder (toLe 4 0) := rfl
  obtain ⟨-,hread,heq⟩ := (encodeMessage_eq_some_iff.mp hencode).respelled hold hzero
    fun _ => hresp
  rw [heq trivial] at hread
  exact decodeMessage_eq_some_iff.mpr ⟨hread,rfl⟩

def dirSchema : Schema where
  decls
    | "node" => some (.aliasOf (.handle "file"))
    | "entry" => some (.record [⟨.string,some 8⟩,⟨.list (.named "entry"),some 3⟩])
    | "dir" => some (.record
      [⟨.named "node",none⟩,⟨.option (.named "node"),none⟩,⟨.named "entry",none⟩])
    | _ => none
  valid h := by split at h <;> cases h <;> trivial
  rank
    | "node" => 1
    | "entry" => 2
    | "dir" => 4
    | _ => 0
  rank_lt h := by split at h <;> cases h <;> decide

theorem capsFit_dirSchema : dirSchema.CapsFit := by
  refine ⟨fun | "node" => some 1 | "dir" => some 2 | _ => some 0,fun name d h => ?_⟩
  simp only [dirSchema] at h
  split at h <;> cases h
  · exact ⟨rfl,1,by decide,rfl⟩
  · exact ⟨rfl,0,by decide,rfl⟩
  · exact ⟨rfl,2,by decide,rfl⟩

theorem codecs_round_trip_dir : dirSchema.CapsFit ∧
    ∃ v bytes handles, encodeMessage dirSchema (.named "dir") v = some (bytes, handles) ∧
      bytes.length = 15 ∧ handles.list = [7] ∧
      decodeMessage dirSchema (.named "dir") bytes handles = .ok (some v, .new) := by
  have hencode : encodeMessage dirSchema (.named "dir") (.record [.handle 7,.none,
      .record [.string "a",.list [.record [.string "b",.list []]]]])
      = some ([0,0,0,0,0,1,0,97,1,0,1,0,98,0,0], ⟨[7],by decide⟩) := by
    rfl
  exact ⟨capsFit_dirSchema,_,_,_,hencode,rfl,rfl,
    (codecs_round_trip dirSchema (.named "dir")).1 _ _ _ (by rfl) hencode⟩

end LiberSystem.Lsidl
