import LiberSystem.Shell.Language

/-!
# Quoting

The lexer takes what is quoted as it is, and the word that it becomes part of is expanded all the
same. A line is trimmed before it is read, also where its last byte is escaped.
-/

namespace LiberSystem.Shell

open List

variable {vars : Vars} {w s tail raw : Bytes} {l : Lexing} {b : UInt8}

/-- A byte that the lexer only adds to the word. -/
def isPlain (b : UInt8) : Bool :=
  !(isAsciiWhitespace b ||
    [QUOTE,DOUBLE_QUOTE,BACKSLASH,PIPE,LESS,GREAT,AMPERSAND].contains b)

def escape (s : Bytes) : Bytes := s.flatMap fun b => [BACKSLASH,b]

def namesHere (byte : UInt8) (rest : Bytes) : Bool :=
  byte == DOLLAR && if rest.head? == some OPEN_BRACE then rest.tail.any (· == CLOSE_BRACE)
    else rest.head?.any fun b => isAsciiAlphabetic b || b == UNDERSCORE

/-- Somewhere a variable is named: there is a dollar sign before a name, or before braces. -/
def namesVar : Bytes → Bool
  | [] => false
  | byte :: rest => namesHere byte rest || namesVar rest

theorem expandFrom_cons (vars : Vars) (byte : UInt8) (rest : Bytes) :
    if namesHere byte rest then
      ∃ name skip,
        expandFrom vars 0 (byte :: rest) = varValue name vars ++ expandFrom vars skip rest
    else expandFrom vars 0 (byte :: rest) = byte :: expandFrom vars 0 rest := by
  by_cases hdollar : byte = DOLLAR
  · subst hdollar
    rw [namesHere,expandFrom,beq_self_eq_true,Bool.true_and,bne_self_eq_false,
      if_neg Bool.false_ne_true]
    by_cases hbrace : rest.head? == some OPEN_BRACE
    · rw [if_pos hbrace,if_pos hbrace,← findIdx?_isSome]
      cases rest.tail.findIdx? (· == CLOSE_BRACE) with
      | none => rfl
      | some relative => exact ⟨_,_,rfl⟩
    · rw [if_neg hbrace,if_neg hbrace]
      split
      · exact ⟨_,_,rfl⟩
      · rfl
  · simp [namesHere,expandFrom,hdollar]

theorem expandVars_of_not_namesVar (h : namesVar s = false) : expandVars s vars = s := by
  induction s with
  | nil => rfl
  | cons byte rest ih =>
    obtain ⟨hhere,hrest⟩ := Bool.or_eq_false_iff.mp h
    have hcons := expandFrom_cons vars byte rest
    rw [hhere,if_neg Bool.false_ne_true] at hcons
    rw [expandVars,hcons]
    exact congrArg _ (ih hrest)

theorem expandFrom_nil (skip : Nat) (s : Bytes) : expandFrom [] skip s <+ s ∧
    (skip = 0 → namesVar s → (expandFrom [] skip s).length < s.length) := by
  induction s generalizing skip with
  | nil => cases skip <;> exact ⟨.slnil,fun _ h => (by cases h)⟩
  | cons byte rest ih =>
    cases skip with
    | succ skip => exact ⟨(ih skip).1.cons byte,nofun⟩
    | zero =>
      have hcons := expandFrom_cons [] byte rest
      split at hcons
      · obtain ⟨name,skip,heq⟩ := hcons
        have hsub := (ih skip).1
        rw [heq]
        exact ⟨hsub.cons byte,fun _ _ => Nat.lt_succ_of_le hsub.length_le⟩
      · next hhere =>
        obtain ⟨hsub,hlt⟩ := ih 0
        rw [hcons]
        exact ⟨hsub.cons_cons byte,fun _ h =>
          Nat.succ_lt_succ (hlt rfl ((Bool.or_eq_true_iff.mp h).resolve_left hhere))⟩

theorem lexFrom_skip (skip : Nat) (raw : Bytes) :
    lexFrom vars skip raw l = lexFrom vars 0 (raw.drop skip) l := by
  induction raw generalizing skip with
  | nil => cases skip <;> rfl
  | cons byte rest ih =>
    cases skip with
    | zero => rfl
    | succ skip => exact ih skip

theorem extend_extend (bytes : Bytes) : (l.extend s).extend bytes = l.extend (s ++ bytes) := by
  rw [Lexing.extend,Lexing.extend,Lexing.extend,append_assoc]

/-- Bytes that each stand for one byte of the word. -/
theorem lexFrom_each (vars : Vars) {f : UInt8 → Bytes} (rest : Bytes)
    (hf : ∀ a ∈ b :: w, ∀ l rest, rest.head? ≠ some GREAT →
      lexFrom vars 0 (f a ++ rest) l = lexFrom vars 0 rest (l.extend [a]))
    (hhead : ∀ a ∈ w, ∀ rest, (f a ++ rest).head? ≠ some GREAT) (hrest : rest.head? ≠ some GREAT) :
    lexFrom vars 0 ((b :: w).flatMap f ++ rest) l = lexFrom vars 0 rest (l.extend (b :: w)) := by
  induction w generalizing b l with
  | nil =>
    rw [flatMap_singleton]
    exact hf b mem_cons_self l rest hrest
  | cons a w ih =>
    rw [flatMap_cons,append_assoc,hf b mem_cons_self,ih]
    · rw [extend_extend]
      rfl
    · exact fun a' ha' => hf a' (mem_cons_of_mem b ha')
    · exact fun a' ha' => hhead a' (mem_cons_of_mem a ha')
    · rw [flatMap_cons,append_assoc]
      exact hhead a mem_cons_self _

theorem lexFrom_plain {rest : Bytes} (hb : isPlain b) (hrest : rest.head? ≠ some GREAT) :
    lexFrom vars 0 (b :: rest) l = lexFrom vars 0 rest (l.extend [b]) := by
  simp only [isPlain,isAsciiWhitespace,Bool.not_eq_true',Bool.or_eq_false_iff,contains_cons] at hb
  obtain ⟨⟨⟨⟨⟨hspace,htab⟩,-⟩,-⟩,-⟩,hquote,hdouble,hback,hpipe,hless,hgreat,hamp,-⟩ := hb
  rw [lexFrom]
  simp [hspace,htab,hquote,hdouble,hback,hpipe,hless,hgreat,hamp,hrest]

theorem lexFrom_escape (rest : Bytes) (hs : s ≠ []) (hrest : rest.head? ≠ some GREAT) :
    lexFrom vars 0 (escape s ++ rest) l = lexFrom vars 0 rest (l.extend s) := by
  obtain ⟨b,s,rfl⟩ := exists_cons_of_ne_nil hs
  exact lexFrom_each vars rest (fun _ _ _ _ _ => rfl) (fun _ _ _ h => by cases h) hrest

theorem lexFrom_quoted (hs : QUOTE ∉ s) :
    lexFrom vars 0 (QUOTE :: (s ++ [QUOTE])) l = .ok ((l.extend s).flush vars).tokens := by
  have hbody : (s ++ [QUOTE]).takeWhile (· != QUOTE) = s := by
    rw [takeWhile_append_of_pos]
    · simp
    · intro b hb
      exact bne_iff_ne.mpr fun h => hs (h ▸ hb)
  rw [lexFrom]
  simp only [hbody]
  rw [if_neg (by decide),if_pos (by decide),if_neg (by simp),lexFrom_skip,
    drop_eq_nil_of_le (by simp)]
  rfl

section

variable (hw : w ≠ []) (hplain : ∀ b ∈ w, isPlain b)
include hw hplain

theorem trim_eq (line : Bytes) : trim (w ++ line) = (w ++ line).rdropWhile isAsciiWhitespace := by
  obtain ⟨b,w,rfl⟩ := exists_cons_of_ne_nil hw
  have hb : ¬isAsciiWhitespace b := by
    intro hblank
    have hnot := hplain b mem_cons_self
    rw [isPlain,hblank] at hnot
    cases hnot
  rw [trim,cons_append,dropWhile_cons_of_neg hb]

theorem trim_concat {c : UInt8} (line : Bytes) (hc : isAsciiWhitespace c = false) :
    trim (w ++ (line ++ [c])) = w ++ (line ++ [c]) := by
  rw [trim_eq hw hplain,← append_assoc,rdropWhile_concat_neg _ _ _ (by rw [hc]; decide)]

/-- A command word and one argument. -/
theorem parsePipeline_one (hname : namesVar w = false) (vars : Vars)
    (htrim : trim raw = w ++ SPACE :: tail)
    (hlex : ∀ l : Lexing, lexFrom vars 0 tail l = .ok ((l.extend s).flush vars).tokens) :
    parsePipeline raw vars = if w.length + tail.length + 1 > MAX_LINE_BYTES then .error .tooLarge
      else .ok ⟨[⟨[w,expandVars s vars],[]⟩],false⟩ := by
  obtain ⟨b,w,rfl⟩ := exists_cons_of_ne_nil hw
  have hline : lexFrom vars 0 (b :: w ++ SPACE :: tail) ⟨[],[],false⟩ =
      .ok [.word (b :: w),.word (expandVars s vars)] := by
    have hword := lexFrom_each vars (l := ⟨[],[],false⟩) (f := fun b => [b])
      (SPACE :: tail) (fun a ha _ _ => lexFrom_plain (hplain a ha))
      (fun a ha _ hgreat => ?_) fun h => by cases h
    · rw [flatMap_singleton'] at hword
      rw [hword]
      change lexFrom vars 0 tail ⟨[.word (expandVars (b :: w) vars)],[],false⟩ = _
      rw [hlex,expandVars_of_not_namesVar hname]
      rfl
    · cases hgreat
      cases hplain GREAT (mem_cons_of_mem b ha)
  have hlen : (b :: w ++ SPACE :: tail).length = (b :: w).length + tail.length + 1 := length_append
  rw [parsePipeline,htrim,lex,hlen]
  split
  · rfl
  · rw [hline]
    rfl

end

theorem literal_iff {x : Bytes} {n : Nat}
    (h : ∀ vars, parsePipeline raw vars = if n > MAX_LINE_BYTES then .error .tooLarge
      else .ok ⟨[⟨[w,expandVars x vars],[]⟩],false⟩) :
    (∀ vars, parsePipeline raw vars = .ok ⟨[⟨[w,s],[]⟩],false⟩) ↔
      n ≤ MAX_LINE_BYTES ∧ ∀ vars, expandVars x vars = s := by
  simp only [h]
  split
  · next hlong => simp [not_le.mpr hlong]
  · next hfits => simp [not_lt.mp hfits]

theorem expandVars_eq_iff : (∀ vars, expandVars s vars = s) ↔ namesVar s = false := by
  refine ⟨fun h => ?_,fun h vars => expandVars_of_not_namesVar h⟩
  refine Bool.eq_false_iff.mpr fun hnames => ?_
  have hlt := (expandFrom_nil 0 s).2 rfl hnames
  rw [← expandVars,h []] at hlt
  exact lt_irrefl _ hlt

/-- Quoting is literal for what names no variable, in a line that is not too long; behind
backslashes the last byte may be no blank either. -/
theorem quoted_is_literal (hw : w ≠ []) (hplain : ∀ b ∈ w, isPlain b) (hname : namesVar w = false)
    (hs : s ≠ []) (hquote : QUOTE ∉ s) :
    ((∀ vars, parsePipeline (w ++ SPACE :: QUOTE :: (s ++ [QUOTE])) vars =
        .ok ⟨[⟨[w,s],[]⟩],false⟩) ↔
      w.length + s.length + 3 ≤ MAX_LINE_BYTES ∧ namesVar s = false) ∧
    ((∀ vars, parsePipeline (w ++ SPACE :: escape s) vars = .ok ⟨[⟨[w,s],[]⟩],false⟩) ↔
      w.length + 2 * s.length + 1 ≤ MAX_LINE_BYTES ∧ namesVar s = false ∧
        s.getLast?.any isAsciiWhitespace = false) := by
  constructor
  · have htrim := trim_concat hw hplain (c := QUOTE) (SPACE :: QUOTE :: s) rfl
    refine (literal_iff fun vars => parsePipeline_one hw hplain hname vars htrim fun l =>
      lexFrom_quoted hquote).trans ?_
    rw [expandVars_eq_iff,append_eq,cons_append,length_cons,length_append]
    rfl
  obtain ⟨init,c,rfl⟩ := (eq_nil_or_concat' s).resolve_left hs
  have hescape : escape (init ++ [c]) = escape init ++ [BACKSLASH] ++ [c] := by
    simp [escape]
  rw [getLast?_concat,Option.any_some]
  cases hblank : isAsciiWhitespace c with
  | false =>
    have htrim := trim_concat hw hplain (SPACE :: (escape init ++ [BACKSLASH])) hblank
    rw [cons_append,← hescape] at htrim
    have hlength : (escape (init ++ [c])).length = 2 * (init ++ [c]).length := by
      simp [escape]
      omega
    rw [literal_iff fun vars => parsePipeline_one hw hplain hname vars htrim fun l => ?_,
      expandVars_eq_iff,hlength]
    · simp
    · have hlex : lexFrom vars 0 _ l = _ := lexFrom_escape [] hs fun h => by cases h
      rwa [append_nil] at hlex
  | true =>
    -- the blank is gone, and the backslash before it stands for itself
    refine iff_of_false (fun h => ?_) fun h => by cases h.2.2
    have htrim : trim (w ++ SPACE :: escape (init ++ [c])) =
        w ++ SPACE :: (escape init ++ [BACKSLASH]) := by
      have hline : w ++ SPACE :: escape (init ++ [c]) =
          w ++ (SPACE :: escape init ++ [BACKSLASH]) ++ [c] := by simp [hescape]
      rw [trim_eq hw hplain,hline,rdropWhile_concat_pos _ _ _ hblank,← trim_eq hw hplain]
      exact trim_concat hw hplain _ rfl
    have hlex : ∀ vars l, lexFrom vars 0 (escape init ++ [BACKSLASH]) l =
        .ok ((l.extend (init ++ [BACKSLASH])).flush vars).tokens := by
      intro vars l
      by_cases hinit : init = []
      · subst hinit
        rfl
      · rw [lexFrom_escape _ hinit fun h => by cases h]
        rw [← extend_extend]
        rfl
    have hline := ((literal_iff fun vars =>
      parsePipeline_one hw hplain hname vars htrim (hlex vars)).mp h).2 []
    have heq := (expandFrom_nil 0 (init ++ [BACKSLASH])).1.eq_of_length (by
      rw [← expandVars,hline,length_append,length_append,length_singleton,length_singleton])
    rw [← expandVars,hline] at heq
    cases append_cancel_left heq
    cases hblank

theorem quoted_is_literal_pipe :
    parsePipeline (ascii "echo 'a | $'") [] = .ok ⟨[⟨[ascii "echo",ascii "a | $"],[]⟩],false⟩ :=
  (quoted_is_literal (w := ascii "echo") (s := ascii "a | $") (by decide)
    (all_eq_true.mp (by decide)) (by decide) (by decide) (by decide)).1.mpr (by decide) []

/-- What is quoted is expanded, and an escaped blank at the end is lost. -/
theorem quoted_is_expanded : parsePipeline (ascii "echo '$x'") [(ascii "x", ascii "y")] =
      .ok ⟨[⟨[ascii "echo",ascii "y"],[]⟩],false⟩ ∧
    parsePipeline (ascii "echo " ++ escape (ascii "a ")) [] =
      .ok ⟨[⟨[ascii "echo",ascii "a\\"],[]⟩],false⟩ := by
  decide +kernel

end LiberSystem.Shell
