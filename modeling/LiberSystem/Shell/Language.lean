import Mathlib.Data.List.DropRight

/-!
# The line language of the shell

The lexer and the parser of `services/logic/src/shell_language.rs`. A line is a list of bytes; where
the source's index moves by several bytes, the loop passes over as many first.
-/

namespace LiberSystem.Shell

abbrev Bytes := List UInt8

def SPACE : UInt8 := 0x20
def TAB : UInt8 := 0x09
def DOUBLE_QUOTE : UInt8 := 0x22
def DOLLAR : UInt8 := 0x24
def AMPERSAND : UInt8 := 0x26
def QUOTE : UInt8 := 0x27
def ZERO : UInt8 := 0x30
def ONE : UInt8 := 0x31
def TWO : UInt8 := 0x32
def NINE : UInt8 := 0x39
def LESS : UInt8 := 0x3c
def EQUALS : UInt8 := 0x3d
def GREAT : UInt8 := 0x3e
def BACKSLASH : UInt8 := 0x5c
def UNDERSCORE : UInt8 := 0x5f
def OPEN_BRACE : UInt8 := 0x7b
def PIPE : UInt8 := 0x7c
def CLOSE_BRACE : UInt8 := 0x7d

def ascii (text : String) : Bytes := text.toList.map fun c => c.toNat.toUInt8

variable (b : UInt8)

def isAsciiWhitespace : Bool :=
  b == SPACE || b == TAB || b == 0x0a || b == 0x0c || b == 0x0d

def isAsciiDigit : Bool := ZERO ≤ b && b ≤ NINE

def isAsciiAlphabetic : Bool := 0x41 ≤ b && b ≤ 0x5a || 0x61 ≤ b && b ≤ 0x7a

def isAsciiAlphanumeric : Bool := isAsciiAlphabetic b || isAsciiDigit b

def trim (value : Bytes) : Bytes := (value.dropWhile isAsciiWhitespace).rdropWhile isAsciiWhitespace

abbrev Vars := List (Bytes × Bytes)

def varValue (name : Bytes) (vars : Vars) : Bytes :=
  ((vars.find? fun v => v.1 == name).map Prod.snd).getD []

def expandFrom (vars : Vars) : Nat → Bytes → Bytes
  | _, [] => []
  | skip + 1, _ :: rest => expandFrom vars skip rest
  | 0, byte :: rest =>
    if byte != DOLLAR then byte :: expandFrom vars 0 rest
    else if rest.head? == some OPEN_BRACE then
      match rest.tail.findIdx? (· == CLOSE_BRACE) with
      | some relative =>
        varValue (rest.tail.take relative) vars ++ expandFrom vars (relative + 2) rest
      | none => DOLLAR :: expandFrom vars 0 rest
    else if rest.head?.any fun b => isAsciiAlphabetic b || b == UNDERSCORE then
      let name := rest.takeWhile fun b => isAsciiAlphanumeric b || b == UNDERSCORE
      varValue name vars ++ expandFrom vars name.length rest
    else DOLLAR :: expandFrom vars 0 rest

def expandVars (line : Bytes) (vars : Vars) : Bytes := expandFrom vars 0 line

def MAX_STAGES : Nat := 8
def MAX_WORDS_PER_STAGE : Nat := 64
def MAX_LINE_BYTES : Nat := 4096

inductive ParseError where
  | empty
  | emptyStage
  | danglingOperator
  | unterminatedQuote
  | tooLarge
  | unsupportedDescriptor
  | emptyRedirectTarget
  | builtinNotAStage
  deriving DecidableEq

inductive Token where
  | word (bytes : Bytes)
  | pipe
  | less
  | great
  | greatGreat
  | errGreat
  | errGreatGreat
  | errToOut
  | amp
  deriving DecidableEq

structure Lexing where
  tokens : List Token
  word : Bytes
  hasWord : Bool

namespace Lexing

def flush (vars : Vars) (l : Lexing) : Lexing :=
  if l.hasWord then ⟨l.tokens ++ [.word (expandVars l.word vars)],[],false⟩ else l

def token (l : Lexing) (t : Token) : Lexing := { l with tokens := l.tokens ++ [t] }

def extend (l : Lexing) (bytes : Bytes) : Lexing :=
  { l with word := l.word ++ bytes, hasWord := true }

end Lexing

/-- The token of a descriptor and its width. `rest` are the bytes after the digit. -/
def descriptor (digit : UInt8) (rest : Bytes) : Option (Token × Nat) :=
  if digit == TWO then
    if rest[1]? == some AMPERSAND && rest[2]? == some ONE then some (.errToOut, 4)
    else if rest[1]? == some GREAT then some (.errGreatGreat, 3)
    else some (.errGreat, 2)
  else if digit == ONE then
    if rest[1]? == some GREAT then some (.greatGreat, 3) else some (.great, 2)
  else none

def lexFrom (vars : Vars) : Nat → Bytes → Lexing → Except ParseError (List Token)
  | _, [], l => .ok (l.flush vars).tokens
  | skip + 1, _ :: rest, l => lexFrom vars skip rest l
  | 0, byte :: rest, l =>
    if byte == SPACE || byte == TAB then lexFrom vars 0 rest (l.flush vars)
    else if byte == QUOTE || byte == DOUBLE_QUOTE then
      -- Everything to the matching quote is literal.
      let body := rest.takeWhile (· != byte)
      if body.length ≥ rest.length then .error .unterminatedQuote
      else lexFrom vars (body.length + 1) rest (l.extend body)
    else if byte == BACKSLASH && !rest.isEmpty then lexFrom vars 1 rest (l.extend (rest.take 1))
    else if byte == PIPE then lexFrom vars 0 rest ((l.flush vars).token .pipe)
    else if byte == LESS then lexFrom vars 0 rest ((l.flush vars).token .less)
    else if byte == GREAT then
      if rest.head? == some GREAT then lexFrom vars 1 rest ((l.flush vars).token .greatGreat)
      else lexFrom vars 0 rest ((l.flush vars).token .great)
    else if byte == AMPERSAND then lexFrom vars 0 rest ((l.flush vars).token .amp)
    else if isAsciiDigit byte && !l.hasWord && rest.head? == some GREAT then
      match descriptor byte rest with
      | some (token, width) => lexFrom vars (width - 1) rest (l.token token)
      | none => .error .unsupportedDescriptor
    else lexFrom vars 0 rest (l.extend [byte])

def lex (raw : Bytes) (vars : Vars) : Except ParseError (List Token) :=
  if raw.length > MAX_LINE_BYTES then .error .tooLarge
  else lexFrom vars 0 raw ⟨[],[],false⟩

inductive Redirect where
  | input (path : Bytes)
  | output (path : Bytes) (append stderr : Bool)
  | errToOut
  deriving DecidableEq

structure Stage where
  words : List Bytes
  redirects : List Redirect
  deriving DecidableEq

structure Pipeline where
  stages : List Stage
  background : Bool
  deriving DecidableEq

def STATE_MUTATING_BUILTINS : List Bytes :=
  [ascii "cd",ascii "unset",ascii "export",ascii "fg",ascii "bg"]

def mutatesShellState (word : Bytes) : Bool :=
  STATE_MUTATING_BUILTINS.contains word ||
    (word.findIdx? (· == EQUALS)).any fun index =>
      index > 0 && (word.take index).all fun b => isAsciiAlphanumeric b || b == UNDERSCORE

def Token.redirect : Token → Option (Bytes → Redirect)
  | .less => some .input
  | .great => some fun path => .output path false false
  | .greatGreat => some fun path => .output path true false
  | .errGreat => some fun path => .output path false true
  | .errGreatGreat => some fun path => .output path true true
  | _ => none

structure Parsing where
  stages : List Stage
  current : Stage
  background : Bool

namespace Parsing

variable (p : Parsing)

def addWord (w : Bytes) : Parsing :=
  { p with current := { p.current with words := p.current.words ++ [w] } }

def addRedirect (r : Redirect) : Parsing :=
  { p with current := { p.current with redirects := p.current.redirects ++ [r] } }

def endStage : Parsing :=
  { p with stages := p.stages ++ [p.current], current := ⟨[],[]⟩ }

end Parsing

def parseFrom : List Token → Parsing → Except ParseError Parsing
  | [], p => .ok p
  | .word w :: rest, p =>
    if p.current.words.length ≥ MAX_WORDS_PER_STAGE then .error .tooLarge
    else parseFrom rest (p.addWord w)
  | .pipe :: rest, p =>
    if p.current.words.isEmpty then .error .emptyStage
    else if p.stages.length + 1 ≥ MAX_STAGES then .error .tooLarge
    else parseFrom rest p.endStage
  | .errToOut :: rest, p => parseFrom rest (p.addRedirect .errToOut)
  | .amp :: rest, p =>
    if !rest.isEmpty then .error .danglingOperator
    else parseFrom rest { p with background := true }
  | operator :: rest, p =>
    match operator.redirect, rest with
    | some redirect, .word w :: rest =>
      if w.isEmpty then .error .emptyRedirectTarget
      else parseFrom rest (p.addRedirect (redirect w))
    | _, _ => .error .danglingOperator

/-- The end of `parse_pipeline`: a builtin that changes the state of the shell stands alone. -/
def finish (p : Parsing) : Except ParseError Pipeline :=
  if p.current.words.isEmpty then .error (if p.stages.isEmpty then .empty else .emptyStage)
  else
    let stages := p.stages ++ [p.current]
    let loneForeground := stages.length == 1 && !p.background &&
      stages.head?.all fun stage => stage.redirects.isEmpty
    if !loneForeground && stages.any fun stage => stage.words.head?.any mutatesShellState then
      .error .builtinNotAStage
    else .ok ⟨stages,p.background⟩

def parsePipeline (raw : Bytes) (vars : Vars) : Except ParseError Pipeline := do
  let tokens ← lex (trim raw) vars
  if tokens.isEmpty then throw .empty
  let p ← parseFrom tokens ⟨[],⟨[],[]⟩,false⟩
  finish p

end LiberSystem.Shell
