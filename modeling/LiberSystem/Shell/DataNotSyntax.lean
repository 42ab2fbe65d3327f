import LiberSystem.Shell.Language
import LiberSystem.Lib.TwoRuns
import Mathlib.Data.List.Forall2

/-!
# Data never becomes syntax

One line, read under two sets of variables. Where a token ends is settled by the line alone.
-/

namespace LiberSystem.Shell

open List ParseError

variable {vars vars' : Vars}

def Token.Alike : Token → Token → Prop
  | .word _, .word _ => True
  | t, t' => t = t'

theorem Token.Alike.refl (t : Token) : t.Alike t := by
  cases t <;> trivial

/-- Two lexers at one place of the line. -/
structure Lexing.Alike (l l' : Lexing) : Prop where
  tokens : List.Forall₂ Token.Alike l.tokens l'.tokens
  word : l'.word = l.word
  hasWord : l'.hasWord = l.hasWord

namespace Lexing.Alike

variable {l l' : Lexing}

variable (h : l.Alike l')
include h

theorem token (t : Token) : (l.token t).Alike (l'.token t) :=
  ⟨rel_append h.tokens (.cons (.refl t) .nil),h.word,h.hasWord⟩

theorem extend (bytes : Bytes) : (l.extend bytes).Alike (l'.extend bytes) :=
  ⟨h.tokens,congrArg (· ++ bytes) h.word,rfl⟩

theorem flush : (l.flush vars).Alike (l'.flush vars') := by
  rw [Lexing.flush,Lexing.flush,h.hasWord]
  split
  · exact ⟨rel_append h.tokens (.cons trivial .nil),rfl,rfl⟩
  · exact h

end Lexing.Alike

theorem lexFrom_alike {l l' : Lexing} (h : l.Alike l') (skip : Nat) (raw : Bytes) :
    Agree (List.Forall₂ Token.Alike) (fun _ => False)
      (lexFrom vars skip raw l) (lexFrom vars' skip raw l') := by
  induction raw generalizing skip l l' with
  | nil =>
    cases skip <;> exact h.flush.tokens
  | cons byte rest ih =>
    cases skip with
    | succ skip => exact ih h skip
    | zero =>
      have hflush : (l.flush vars).Alike (l'.flush vars') := h.flush
      rw [lexFrom,lexFrom,h.hasWord]
      refine .ite .rfl (ih hflush 0) ?_
      refine .ite .rfl (.ite .rfl (.fail _) (ih (h.extend _) _)) ?_
      refine .ite .rfl (ih (h.extend _) 1) ?_
      refine .ite .rfl (ih (hflush.token _) 0) ?_
      refine .ite .rfl (ih (hflush.token _) 0) ?_
      refine .ite .rfl (.ite .rfl (ih (hflush.token _) 1) (ih (hflush.token _) 0)) ?_
      refine .ite .rfl (ih (hflush.token _) 0) ?_
      refine .ite .rfl ?_ (ih (h.extend _) 0)
      cases descriptor byte rest with
      | none => exact .fail _
      | some found => exact ih (h.token _) _

theorem lex_alike (raw : Bytes) (vars vars' : Vars) :
    Agree (List.Forall₂ Token.Alike) (fun _ => False) (lex raw vars) (lex raw vars') :=
  .ite .rfl (.fail _) (lexFrom_alike ⟨.nil,rfl,rfl⟩ 0 raw)

def Redirect.Alike : Redirect → Redirect → Prop
  | .input _, .input _ => True
  | .output _ append stderr, .output _ append' stderr' => append = append' ∧ stderr = stderr'
  | .errToOut, .errToOut => True
  | _, _ => False

structure Stage.Alike (s s' : Stage) : Prop where
  words : s.words.length = s'.words.length
  redirects : List.Forall₂ Redirect.Alike s.redirects s'.redirects

structure Pipeline.Alike (p q : Pipeline) : Prop where
  stages : List.Forall₂ Stage.Alike p.stages q.stages
  background : p.background = q.background

structure Parsing.Alike (p p' : Parsing) : Prop where
  stages : List.Forall₂ Stage.Alike p.stages p'.stages
  current : p.current.Alike p'.current
  background : p.background = p'.background

theorem isEmpty_iff_of_length {α β : Type*} {l : List α} {l' : List β}
    (h : l.length = l'.length) : l.isEmpty ↔ l'.isEmpty := by
  rw [isEmpty_iff_length_eq_zero,isEmpty_iff_length_eq_zero,h]

namespace Parsing.Alike

variable {p p' : Parsing}

variable (h : p.Alike p')
include h

theorem addWord (w w' : Bytes) : (p.addWord w).Alike (p'.addWord w') := by
  refine ⟨h.stages,⟨?_,h.current.redirects⟩,h.background⟩
  simp only [Parsing.addWord,length_append,h.current.words,length_cons]

theorem addRedirect {r r' : Redirect} (hr : r.Alike r') :
    (p.addRedirect r).Alike (p'.addRedirect r') :=
  ⟨h.stages,⟨h.current.words,rel_append h.current.redirects (.cons hr .nil)⟩,h.background⟩

theorem endStage : p.endStage.Alike p'.endStage :=
  ⟨rel_append h.stages (.cons h.current .nil),⟨rfl,.nil⟩,h.background⟩

end Parsing.Alike

/-- The errors that a variable may decide. -/
def ParseError.OfData (e : ParseError) : Prop := e = .emptyRedirectTarget ∨ e = .builtinNotAStage

variable {t : Token} {make : Bytes → Redirect}

theorem Token.redirect_alike (h : t.redirect = some make)
    (path path' : Bytes) : (make path).Alike (make path') := by
  cases t <;> cases h <;> trivial

theorem parseFrom_redirect (ht : t.redirect = some make) (rest : List Token) (p : Parsing) :
    parseFrom (t :: rest) p =
      match rest with
      | .word w :: rest =>
        if w.isEmpty then .error .emptyRedirectTarget
        else parseFrom rest (p.addRedirect (make w))
      | _ => .error .danglingOperator := by
  cases rest with
  | nil => cases t <;> cases ht <;> rfl
  | cons a rest => cases t <;> cases ht <;> cases a <;> rfl

theorem redirect_alike (ht : t.redirect = some make)
    {rest rest' : List Token} (hrest : List.Forall₂ Token.Alike rest rest') {p p' : Parsing}
    (h : p.Alike p')
    (ih : ∀ {us us' : List Token} {p p' : Parsing}, us.length < rest.length →
      List.Forall₂ Token.Alike us us' → p.Alike p' →
      Agree Parsing.Alike OfData (parseFrom us p) (parseFrom us' p')) :
    Agree Parsing.Alike OfData (parseFrom (t :: rest) p) (parseFrom (t :: rest') p') := by
  rw [parseFrom_redirect ht,parseFrom_redirect ht]
  cases hrest with
  | nil => exact .fail _
  | cons ha hus =>
    rename_i a b us us'
    cases a with
    | word w =>
      cases b with
      | word w' =>
        refine .ite_allowed (.inl rfl) (ih (Nat.lt_succ_self _) hus (h.addRedirect ?_))
        exact Token.redirect_alike ht w w'
      | _ => cases ha
    | _ =>
      cases b with
      | word w' => cases ha
      | _ => exact .fail _

theorem parseFrom_alike {tokens tokens' : List Token}
    (htokens : List.Forall₂ Token.Alike tokens tokens') {p p' : Parsing} (h : p.Alike p') :
    Agree Parsing.Alike OfData (parseFrom tokens p) (parseFrom tokens' p') := by
  induction hn : tokens.length using Nat.strong_induction_on generalizing tokens tokens' p p' with
  | _ n ih =>
  cases htokens with
  | nil => exact h
  | cons ha hrest =>
    rename_i a b rest rest'
    have hnext : ∀ {p p' : Parsing}, p.Alike p' →
        Agree Parsing.Alike OfData (parseFrom rest p) (parseFrom rest' p') :=
      fun h => ih rest.length (hn ▸ Nat.lt_succ_self _) hrest h rfl
    have hlater : ∀ {us us' : List Token} {p p' : Parsing}, us.length < rest.length →
        List.Forall₂ Token.Alike us us' → p.Alike p' →
        Agree Parsing.Alike OfData (parseFrom us p) (parseFrom us' p') :=
      fun hlt hus h => ih _ (hn ▸ hlt.trans (Nat.lt_succ_self _)) hus h rfl
    have hempty := isEmpty_iff_of_length h.current.words
    cases a with
    | word w =>
      cases b with
      | word w' =>
        rw [parseFrom,parseFrom,h.current.words]
        exact .ite .rfl (.fail _) (hnext (h.addWord w w'))
      | _ => cases ha
    | pipe =>
      obtain rfl : Token.pipe = b := by cases b <;> exact ha
      rw [parseFrom,parseFrom,h.stages.length_eq]
      exact .ite hempty (.fail _) (.ite .rfl (.fail _) (hnext h.endStage))
    | errToOut =>
      obtain rfl : Token.errToOut = b := by cases b <;> exact ha
      exact hnext (h.addRedirect trivial)
    | amp =>
      obtain rfl : Token.amp = b := by cases b <;> exact ha
      refine .ite ?_ (.fail _) (hnext ⟨h.stages,h.current,rfl⟩)
      rw [Bool.not_eq_true',Bool.not_eq_true',← Bool.not_eq_true,← Bool.not_eq_true,
        isEmpty_iff_of_length hrest.length_eq]
    | less | great | greatGreat | errGreat | errGreatGreat =>
      obtain rfl : _ = b := by cases b <;> exact ha
      exact redirect_alike rfl hrest h hlater

theorem finish_alike {p p' : Parsing} (h : p.Alike p') :
    Agree Pipeline.Alike OfData (finish p) (finish p') := by
  have hstages := rel_append h.stages (.cons h.current .nil)
  refine .ite (isEmpty_iff_of_length h.current.words) ?_ ?_
  · have hsame := isEmpty_iff_of_length h.stages.length_eq
    by_cases hempty : p.stages.isEmpty
    · rw [if_pos hempty,if_pos (hsame.mp hempty)]
      exact .fail _
    · rw [if_neg hempty,if_neg fun h' => hempty (hsame.mpr h')]
      exact .fail _
  · exact .ite_allowed (.inr rfl) ⟨hstages,h.background⟩

theorem parsePipeline_alike (raw : Bytes) (vars vars' : Vars) :
    Agree Pipeline.Alike OfData (parsePipeline raw vars) (parsePipeline raw vars') := by
  refine (lex_alike (trim raw) vars vars').bind (fun _ h => h.elim) fun tokens tokens' h => ?_
  have hempty := isEmpty_iff_of_length h.length_eq
  have hparse : Agree Pipeline.Alike OfData (parseFrom tokens ⟨[],⟨[],[]⟩,false⟩ >>= finish)
      (parseFrom tokens' ⟨[],⟨[],[]⟩,false⟩ >>= finish) :=
    (parseFrom_alike h ⟨.nil,⟨rfl,.nil⟩,rfl⟩).bind (fun _ h => h) fun p p' => finish_alike
  by_cases hcase : tokens.isEmpty
  · rw [if_pos hcase,if_pos (hempty.mp hcase)]
    exact .fail _
  · rw [if_neg hcase,if_neg fun h' => hcase (hempty.mpr h')]
    exact hparse

/-- Data never becomes syntax. Under any two sets of variables a line has the same tokens but for
the bytes of words, or the same lexical error, and the same pipeline but for the bytes of words and
paths. When one run of the parser succeeds and the other does not, the error is that of an empty
target or of a builtin in the wrong place. -/
theorem shell_data_not_syntax (raw : Bytes) (vars vars' : Vars) :
    ((∃ e, lex raw vars = .error e ∧ lex raw vars' = .error e) ∨
      ∃ tokens tokens', lex raw vars = .ok tokens ∧ lex raw vars' = .ok tokens' ∧
        List.Forall₂ Token.Alike tokens tokens') ∧
    (∀ p q, parsePipeline raw vars = .ok p → parsePipeline raw vars' = .ok q → p.Alike q) ∧
    (∀ p e, parsePipeline raw vars = .ok p → parsePipeline raw vars' = .error e →
      e = .emptyRedirectTarget ∨ e = .builtinNotAStage) ∧
    ∀ p e, parsePipeline raw vars' = .ok p → parsePipeline raw vars = .error e →
      e = .emptyRedirectTarget ∨ e = .builtinNotAStage := by
  have hlex := lex_alike raw vars vars'
  have hparse := parsePipeline_alike raw vars vars'
  refine ⟨?_,fun p q hp hq => ?_,fun p e hp he => ?_,fun p e hp he => ?_⟩
  · cases hl : lex raw vars with
    | ok tokens =>
      cases hl' : lex raw vars' with
      | ok tokens' =>
        rw [hl,hl'] at hlex
        exact .inr ⟨tokens,tokens',rfl,rfl,hlex⟩
      | error e =>
        rw [hl,hl'] at hlex
        exact hlex.elim
    | error e =>
      cases hl' : lex raw vars' with
      | ok tokens' =>
        rw [hl,hl'] at hlex
        exact hlex.elim
      | error e' =>
        rw [hl,hl'] at hlex
        obtain rfl : e = e' := hlex.resolve_right fun h => h.elim id id
        exact .inl ⟨e,rfl,rfl⟩
  · rw [hp,hq] at hparse
    exact hparse
  · rw [hp,he] at hparse
    exact hparse
  · rw [hp,he] at hparse
    exact hparse

/-- A value that reads like a pipeline of its own is one word of the first stage, and a target that
is not set is refused. -/
theorem shell_data_not_syntax_echo :
    let line := ascii "echo $x | cat > $f"
    let target := (ascii "f", ascii "log")
    ∃ p q, parsePipeline line [(ascii "x", ascii "| rm y &"),target] = .ok p ∧
      parsePipeline line [target] = .ok q ∧ p.Alike q ∧
      parsePipeline line [] = .error .emptyRedirectTarget ∧
      (emptyRedirectTarget = .emptyRedirectTarget ∨ emptyRedirectTarget = .builtinNotAStage) := by
  intro line target
  have hp : parsePipeline line [(ascii "x", ascii "| rm y &"),target]
      = .ok ⟨[⟨[ascii "echo",ascii "| rm y &"],[]⟩,
          ⟨[ascii "cat"],[.output (ascii "log") false false]⟩],false⟩ := by decide +kernel
  have hq : parsePipeline line [target] = .ok ⟨[⟨[ascii "echo",[]],[]⟩,
          ⟨[ascii "cat"],[.output (ascii "log") false false]⟩],false⟩ := by decide +kernel
  have he : parsePipeline line [] = .error .emptyRedirectTarget := by decide +kernel
  obtain ⟨-,halike,-⟩ :=
    shell_data_not_syntax line [(ascii "x", ascii "| rm y &"),target] [target]
  obtain ⟨-,-,hrefused,-⟩ := shell_data_not_syntax line [(ascii "x", ascii "| rm y &"),target] []
  exact ⟨_,_,hp,hq,halike _ _ hp hq,he,hrefused _ _ hp he⟩

end LiberSystem.Shell
