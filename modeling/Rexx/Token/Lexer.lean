import Rexx.SyntaxError

/-!
# `Token.Lexer` — reading a source text as tokens

The reader takes one step at a time: over a blank, over a comment, over the end of a line, or over one token. Each
step takes at least one character off the text that is left, so the number of characters bounds the number of steps.
-/

namespace Rexx

namespace Lexer

/-! ## Scanners: what is read, and the rest -/

def isSymbolChar (c : Char) : Bool := c.isAlphanum || "_.?@#$".toList.contains c

def isLabelChar (c : Char) : Bool := c.isAlphanum || c == '_'

def numberWord (plain : Bool) : Text → Text
  | [] => []
  | c :: s =>
    if !isSymbolChar c then []
    else if plain && (c == 'e' || c == 'E') then
      match s with
      | sign :: d :: r =>
        if (sign == '+' || sign == '-') && d.isDigit then c :: sign :: numberWord false (d :: r)
        else c :: numberWord false (sign :: d :: r)
      | s => c :: numberWord false s
    else c :: numberWord (plain && (c.isDigit || c == '.')) s

/-- The contents of a literal after its opening quote `q`, and the text after the closing one. -/
def quotedBody (q : Char) : Text → Option (Text × Text)
  | [] => none
  | c :: s =>
    if c = '\n' then none
    else if c = q then
      match s with
      | [] => some ([], [])
      | d :: r =>
        if d = q then (quotedBody q r).map fun (body, rest) => (q :: body, rest)
        else some ([], d :: r)
    else (quotedBody q s).map fun (body, rest) => (c :: body, rest)

/-- The place and the text after a comment of which `depth` levels are open. None if it is not closed. -/
def afterComment (depth : Nat) (p : Position) : Text → Option (Position × Text)
  | [] => none
  | '/' :: '*' :: s => afterComment (depth + 1) (p.right 2) s
  | '*' :: '/' :: s => if depth ≤ 1 then some (p.right 2, s) else afterComment (depth - 1) (p.right 2) s
  | c :: s => afterComment depth (p.past c) s

/-- Whether the next token of a text is the mark `|>`, on the same line. -/
def pipeNext (s : Text) : Bool :=
  "|>".toList.isPrefixOf (s.dropWhile fun c => c == ' ' || c == '\t')

/-- The label after `<<`, if `<<` and it are the last token of a line: only blanks, or a comment to the end of the line,
may follow. -/
def heredocLabel? (afterMark : Text) : Option Text :=
  let label := afterMark.takeWhile isLabelChar
  let rest := (afterMark.dropWhile isLabelChar).dropWhile fun c => c == ' ' || c == '\t' || c == '\r'
  let first := label.head?.any fun c => c.isAlpha || c == '_'
  let last := rest.isEmpty || "\n".toList.isPrefixOf rest || "--".toList.isPrefixOf rest
  if first && last then some label else none

def withoutReturn (line : Text) : Text := if line.getLast? = some '\r' then line.dropLast else line

def trimmed (line : Text) : Text :=
  let isSpace := fun c => c == ' ' || c == '\t'
  ((line.dropWhile isSpace).reverse.dropWhile isSpace).reverse

/-- The lines before the one that holds only `label`, their number, and the text after that one. -/
def heredocLines (label s : Text) : Option (List Text × Nat × Text) :=
  let lines := Text.splitAt '\n' s
  match lines.findIdx? fun line => trimmed (withoutReturn line) == label with
  | none => none
  | some k =>
    let taken := lines.take (k + 1)
    some ((lines.take k).map withoutReturn, k, s.drop (taken.foldl (fun n line => n + line.length + 1) 0))

/-! ## The reader -/

structure State where
  rest : Text
  pos : Position
  blank : Bool
  tokens : List Token
  heredoc : Option (Text × Position)
deriving DecidableEq, Repr

namespace State

def init (src : Text) : State := ⟨src, .start, false, [], none⟩

/-- Adds a token written `raw` at the start of what is left, all on one line. -/
def emit (s : State) (kind : TokenKind) (raw : Text) : State :=
  { s with
    rest := s.rest.drop raw.length
    pos := s.pos.right raw.length
    blank := false
    tokens := ⟨kind, raw, s.pos, s.blank⟩ :: s.tokens }

/-- Skips to `rest` at place `pos`, which counts as a blank if `blank` says so. -/
def skip (s : State) (rest : Text) (pos : Position) (blank : Bool) : State :=
  { s with rest, pos, blank := s.blank || blank }

/-- Reads the lines of a literal that was begun on the line just ended, and completes its token. -/
def collect (s : State) : Except SyntaxError State :=
  match s.heredoc, s.tokens with
  | some (label, pos), t :: ts =>
    match heredocLines label s.rest with
    | none => .error ⟨.unterminatedHeredoc label, pos⟩
    | some (lines, n, rest) =>
      let body : Text := ['\n'].intercalate lines
      let raw := t.raw ++ '\n' :: body ++ '\n' :: label
      .ok { s with
        rest, pos := s.pos.down (n + 1), heredoc := none
        tokens := { t with kind := .literal .heredoc body, raw } :: ts }
  | _, _ => .ok s

/-- Takes the end of a line: the literal of lines begun on it, if there is one, then the end of the clause, unless the
clause goes on. -/
def newline (s : State) (rest : Text) : Except SyntaxError State := do
  let ended ← collect { s with rest, pos := s.pos.down 1 }
  match ended.tokens with
  | t :: ts =>
    if t.isMark .comma then return { ended with tokens := ts, blank := true }
  | [] => pure ()
  if pipeNext ended.rest then return { ended with blank := true }
  return { ended with blank := false, tokens := ⟨.endOfClause, "\n", s.pos, ended.blank⟩ :: ended.tokens }

def literal (s : State) (c : Char) (quote : Quote) (r : Text) : Except SyntaxError State :=
  match quotedBody c r with
  | none => .error ⟨.unterminatedString c, s.pos⟩
  | some (body, rest) => .ok (s.emit (.literal quote body) (Text.before s.rest rest))

def word (s : State) (c : Char) (r : Text) : Except SyntaxError State :=
  if c.isDigit || (c == '.' && r.head?.any Char.isDigit) then
    let raw := numberWord true s.rest
    .ok (s.emit (.number (Text.upper raw)) raw)
  else if isSymbolChar c then
    let raw := s.rest.takeWhile isSymbolChar
    let name := Text.upper raw
    match Keyword.ofText? name with
    | some k => .ok (s.emit (.keyword k) raw)
    | none => .ok (s.emit (.symbol name) raw)
  else match Mark.atStart? s.rest with
    | some m => .ok (s.emit (.mark m) m.spelling)
    | none => .error ⟨.invalidCharacter c, s.pos⟩

def heredoc? (s : State) : Option State := do
  let label ← heredocLabel? (s.rest.drop 2)
  let opened := s.emit (.literal .heredoc []) ("<<" ++ label)
  some { opened with heredoc := some (label, s.pos) }

def step (s : State) : Except SyntaxError State :=
  match s.rest with
  | [] => .ok s
  | '\n' :: r => s.newline r
  | '/' :: '*' :: r =>
    match afterComment 1 (s.pos.right 2) r with
    | some (p, rest) => .ok (s.skip rest p true)
    | none => .error ⟨.unterminatedComment, s.pos⟩
  | '-' :: '-' :: r =>
    let rest := r.dropWhile (· != '\n')
    .ok (s.skip rest (s.pos.right (s.rest.length - rest.length)) false)
  | c :: r =>
    if c = ' ' ∨ c = '\t' ∨ c = '\r' then .ok (s.skip r (s.pos.right 1) true)
    else if c = ';' then .ok (s.emit .endOfClause ";")
    else if c = '\x22' then s.literal c .double r
    else if c = '\x27' then s.literal c .single r
    else if c = '\x60' then s.literal c .back r
    else if "<<".toList.isPrefixOf s.rest then
      match s.heredoc? with
      | some opened => .ok opened
      | none => s.word c r
    else s.word c r

def run : Nat → State → Except SyntaxError State
  | 0, s => .ok s
  | n + 1, s => if s.rest.isEmpty then .ok s else s.step.bind (run n)

/-- The tokens read, in order, with the end of the last clause and of the source. -/
def finish (s : State) : Except SyntaxError (List Token) :=
  match s.heredoc with
  | some (label, pos) => .error ⟨.unterminatedHeredoc label, pos⟩
  | none =>
    .ok ((⟨.endOfSource, [], s.pos, false⟩ :: ⟨.endOfClause, [], s.pos, s.blank⟩ :: s.tokens).reverse)

end State

end Lexer

def Token.lex (src : Text) : Except SyntaxError (List Token) := do
  (← (Lexer.State.init src).run src.length).finish

end Rexx
