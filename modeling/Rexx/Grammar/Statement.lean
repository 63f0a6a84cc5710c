import Rexx.Program
import Rexx.Token.Lexer
import Rexx.Grammar.Expression

/-!
# `Grammar.Statement` — reading clauses, statements and programs

What a clause is, its first tokens say: a name before a colon is a label, a name before an equal sign an assignment, a
literal a command, a keyword an instruction, and any other name an operation, a routine or the start of a command.
-/

namespace Rexx.Grammar

/-! ## Templates -/

/-- A piece of a template, or the comma before the next template; none at the end of the clause. -/
def templatePiece (sc : Scope) : Reader (Option (Option Piece)) := do
  let t ← current
  if sc.endsClause t then return none
  match t.name?, t.kind with
  | some name, _ =>
    skip 1
    return some (some (if name = "." then .dot else .var name))
  | none, .mark .comma =>
    skip 1
    return some none
  | none, .literal .heredoc _ => fail (.unexpectedInTemplate t.raw)
  | none, .literal _ body =>
    skip 1
    return some (some (.literal body))
  | none, .mark .leftParen =>
    skip 1
    let name ← symbolName "variable" " in pattern"
    expectMark .rightParen
    return some (some (.pattern name))
  | none, .number _ => return some (some (.column (← wholeNumber)))
  | none, .mark .plus =>
    skip 1
    return some (some (.offset (← wholeNumber)))
  | none, .mark .minus =>
    skip 1
    return some (some (.offset (Text.toWord (-(← wholeNumber)))))
  | none, .mark .equal =>
    skip 1
    return some (some (.column (← wholeNumber)))
  | none, _ => fail (.unexpectedInTemplate t.raw)

def splitTemplates : List (Option Piece) → List (List Piece)
  | [] => [[]]
  | none :: ps => [] :: splitTemplates ps
  | some p :: ps =>
    match splitTemplates ps with
    | [] => [[p]]
    | t :: ts => (p :: t) :: ts

/-- The templates of an instruction, up to the end of the clause. -/
def templates (sc : Scope) : Reader (List (List Piece)) := return splitTemplates (← all (templatePiece sc))

/-! ## Instructions of one line -/

def nonEmpty (s : Text) : Option Text := if s.isEmpty then none else some s

/-- Expressions with commas between them, up to the end of the clause; a comma at the end is allowed. -/
def callArguments (sc : Scope) : Nat → Reader (List Expr)
  | 0 => return []
  | n + 1 => do
    if ← atEnd sc then return []
    let x ← expression sc
    if ← takeMark .comma then return x :: (← callArguments sc n)
    return [x]

def loopName (sc : Scope) : Reader (Option Text) := do
  let t ← current
  if sc.endsClause t then return none
  match t.name? with
  | some name =>
    skip 1
    return some name
  | none => return none

def variableNames (sc : Scope) : Reader (List Text) :=
  all do
    if ← atEnd sc then return none
    return some (← symbolName "variable name" [])

def exitClause (sc : Scope) : Reader Clause := do
  if ← atEnd sc then return .exit none
  let code ← if ← atWord "UNLESS" then pure none else some <$> expression (sc.stopping ["UNLESS"])
  if !(← takeWord "UNLESS") then return .exit code
  let cond ← expression sc
  if !(← takeMark .comma) then fail (.expected "','" " between the UNLESS condition and its message")
  return .exitUnless code cond (← expression sc)

def signalClause (sc : Scope) (pos : Position) : Reader Clause := do
  let t ← current
  match (← ahead 1).name? with
  | some name =>
    if t.isWord "ON" || t.isWord "OFF" then
      skip 2
      match Event.trappable? name with
      | none => throw ⟨.unknownCondition name, pos⟩
      | some event =>
        if t.isWord "OFF" then return .signalOff event
        if ← takeWord "NAME" then return .signalOn event (← anyName "label")
        return .signalOn event name
  | none => pure ()
  if ← takeWord "VALUE" then return .signalValue (← expression sc)
  return .signal (← anyName "label")

def parseSource (sc : Scope) : Reader ParseSource := do
  if ← takeWord "ARG" then return .arg
  if ← takeWord "PULL" then return .pull
  if ← takeWord "SOURCE" then return .source
  if ← takeWord "VERSION" then return .version
  if ← takeWord "VAR" then return .var (← symbolName "variable" [])
  if ← takeWord "VALUE" then
    let x ← if ← atWord "WITH" then pure none else some <$> expression (sc.stopping ["WITH"])
    if !(← takeWord "WITH") then fail (.expected "WITH" [])
    return .value x
  fail (.expected "ARG, PULL, VAR, VALUE, SOURCE or VERSION" [])

def parseClause (sc : Scope) : Reader Clause := do
  let letters ← do
    if ← takeWord "UPPER" then pure (some .upper)
    else if ← takeWord "LOWER" then pure (some .lower)
    else pure none
  let src ← parseSource sc
  return .parse src letters (← templates sc)

/-- The parts AUTH and AS of ADDRESS, in any order, at most `n` of them; of several the last counts. -/
def addressParts (sc : Scope) (auth : Option Expr) (asName : Option Text) : Nat → Reader (Option Expr × Option Text)
  | 0 => return (auth, asName)
  | n + 1 => do
    if ← takeWord "AUTH" then
      let x ← prefixTerm sc
      addressParts sc (some x) asName n
    else if ← takeWord "AS" then
      let name ← anyName "alias"
      addressParts sc auth (nonEmpty name) n
    else return (auth, asName)

def addressClause (sc : Scope) : Reader Clause := do
  if ← atEnd sc then return .address none none none none
  let name ← anyName "target name"
  let (auth, asName) ← addressParts sc none none (← get).length
  return .address (nonEmpty name) auth asName (← expression? sc)

def numericClause (sc : Scope) : Reader Clause := do
  if ← takeWord "DIGITS" then return .numeric .digits (← expression? sc)
  if ← takeWord "FUZZ" then return .numeric .fuzz (← expression? sc)
  if ← takeWord "FORM" then
    let form ← if ← atEnd sc then pure "SCIENTIFIC".toList else anyName "FORM"
    if form = "SCIENTIFIC" then return .numericForm false
    if form = "ENGINEERING" then return .numericForm true
    fail (.expected "SCIENTIFIC or ENGINEERING" [])
  fail (.expected "DIGITS, FUZZ or FORM" [])

/-- An instruction of one line, after its keyword, which stands at `pos`. -/
def instruction (sc : Scope) (pos : Position) : Keyword → Reader Clause
  | .say => return .say (← expression? sc)
  | .«let» => do
    let name ← symbolName "variable" []
    expectMark .equal
    return .assign name (← expression sc)
  | .call => do
    if (← atWord "ON") || (← atWord "OFF") then fail .callTrap
    let name ← anyName "routine name"
    return .call name (← callArguments sc ((← get).length + 1))
  | .signal => signalClause sc pos
  | .exit => exitClause sc
  | .«return» => return .ret (← expression? sc)
  | .parse => parseClause sc
  | .arg => return .parse .arg (some .upper) (← templates sc)
  | .pull => return .parse .pull (some .upper) (← templates sc)
  | .push => return .push (← expression? sc)
  | .queue => return .queue (← expression? sc)
  | .address => addressClause sc
  | .require => do
    let spec ← expression (sc.stopping ["AS"])
    if ← takeWord "AS" then return .require spec (nonEmpty (← anyName "AS name"))
    return .require spec none
  | .leave => return .leave (← loopName sc)
  | .iterate => return .iterate (← loopName sc)
  | .nop => return .nop
  | .procedure => do
    if ← atEnd sc then return .procedure []
    if !(← takeWord "EXPOSE") then fail (.expected "EXPOSE" [])
    return .procedure (← variableNames sc)
  | .drop => return .drop (← variableNames sc)
  | .numeric => numericClause sc
  | .interpret => return .interpret (← expression sc)
  | .trace => do
    if ← atEnd sc then return .trace "N"
    return .trace (← anyName "trace option")
  | k => throw ⟨.unexpectedKeyword k, pos⟩

/-- How many tokens make up NO-INTERPRET, if it stands here alone: written with a minus sign and no blanks, or as one
word. -/
def noInterpretLength : Reader (Option Nat) := do
  let t ← current
  let dash ← ahead 1
  let word ← ahead 2
  let ends (t : Token) : Bool := Scope.top.endsClause t
  match t.kind with
  | .symbol name =>
    if name = "NO_INTERPRET" then return if ends dash then some 1 else none
    if name = "NO" ∧ dash.isMark .minus ∧ !dash.blank ∧ word.isKeyword .interpret ∧ !word.blank then
      return if ends (← ahead 3) then some 3 else none
    return none
  | _ => return none

/-- The named parameters of an operation, up to the end of the clause. -/
def parameters (sc : Scope) : Reader (List (Text × Expr)) :=
  all do
    if ← atEnd sc then return none
    let key ← symbolName "parameter name" []
    expectMark .equal
    return some (key, ← prefixTerm sc)

/-- A clause that begins with a symbol: an operation with parameters, a routine, or else a command. -/
def symbolClause (sc : Scope) (name : Text) : Reader Clause := do
  let start ← get
  skip 1
  if ← atEnd sc then return .routine name []
  if (← current).name?.isSome && (← ahead 1).isMark .equal then return .operation name (← parameters sc)
  if ← atArguments then
    let args ← arguments sc (depthFor (← get).length)
    if ← atEnd sc then return .routine name args
  set start
  return .command (← expression sc)

/-! ## Blocks -/

/-- Whether an ENDIF closes the IF whose THEN ends the line before these tokens. -/
def closedByEndIf (opened deep : Nat) (first chained : Bool) : List Token → Bool
  | [] => false
  | t :: ts =>
    let next := ts.headD nowhere
    let goOn (opened deep : Nat) (chained : Bool) : Bool :=
      let opens := t.isKeyword .«then» && next.kind == .endOfClause && !chained
      closedByEndIf (if opens then opened + 1 else opened) deep false chained ts
    match t.kind with
    | .endOfSource => false
    | .endOfClause => closedByEndIf opened deep true false ts
    | .keyword .«do» | .keyword .select => goOn opened (deep + 1) chained
    | .keyword .«end» =>
      if !first then goOn opened deep chained
      else if deep = 0 then false
      else goOn opened (deep - 1) chained
    | .keyword .endIf =>
      if !first then goOn opened deep chained
      else if opened ≤ 1 then true
      else goOn (opened - 1) deep chained
    | .keyword .«else» => goOn opened deep (chained || (first && next.isKeyword .«if»))
    | _ => goOn opened deep chained

structure Limits where
  limit : Option Expr
  by_ : Option Expr
  count : Option Expr

def loopWords : List Text := ["TO", "BY", "FOR", "WHILE", "UNTIL"]

def limits (sc : Scope) (l : Limits) : Nat → Reader Limits
  | 0 => return l
  | n + 1 => do
    if ← takeWord "TO" then
      if l.limit.isSome then fail (.duplicate "TO")
      let x ← expression (sc.stopping loopWords)
      limits sc { l with limit := some x } n
    else if ← takeWord "BY" then
      if l.by_.isSome then fail (.duplicate "BY")
      let x ← expression (sc.stopping loopWords)
      limits sc { l with by_ := some x } n
    else if ← takeWord "FOR" then
      if l.count.isSome then fail (.duplicate "FOR")
      let x ← expression (sc.stopping loopWords)
      limits sc { l with count := some x } n
    else return l

def loopControl (sc : Scope) : Reader Control := do
  if ← takeWord "FOREVER" then return .forever
  let next ← ahead 1
  match (← current).name? with
  | some var =>
    if next.isMark .equal then
      skip 2
      let start ← expression (sc.stopping loopWords)
      -- the fourth limit repeats one of the three
      let l ← limits sc ⟨none, none, none⟩ 4
      return .counted var start l.limit l.by_ l.count
    if next.isWord "OVER" then
      skip 2
      match (← current).name? with
      | some stem =>
        if stem.getLast? ≠ some '.' then fail (.expected "stem" " after OVER")
        skip 1
        return .tails var stem
      | none => fail (.expected "stem" " after OVER")
  | none => pure ()
  if (← atWord "WHILE") || (← atWord "UNTIL") then return .conditional
  return .times (← expression (sc.stopping ["WHILE", "UNTIL"]))

def loopGuard (sc : Scope) : Reader (Option Guard) := do
  if ← takeWord "WHILE" then return some (.whilst (← expression sc))
  if ← takeWord "UNTIL" then return some (.untilTrue (← expression sc))
  return none

/-- The head of a loop; none if there is none, so that DO and END make a group. -/
def loopHead (sc : Scope) : Reader (Option (Control × Option Guard)) := do
  if ← atEnd sc then return none
  let control ← loopControl sc
  let guard ← loopGuard sc
  let t ← current
  if !sc.endsClause t then fail (.unexpectedInDo t.raw)
  return some (control, guard)

def atAnyKeyword (ks : List Keyword) : Reader Bool := ks.anyM atKeyword

mutual

def statement (sc : Scope) : Nat → Reader Stmt
  | 0 => fail .nestedTooDeeply
  | n + 1 => do
    let t ← current
    let next ← ahead 1
    match t.name? with
    | some name =>
      if next.isMark .colon then
        if sc.nested then fail (.labelInBlock name)
        skip 2
        return .clause t.pos (.label name)
      if next.isMark .equal then
        skip 2
        return .clause t.pos (.assign name (← expression sc))
    | none => pure ()
    if let some k ← noInterpretLength then
      skip k
      return .clause t.pos .noInterpret
    match t.kind with
    | .symbol name => return .clause t.pos (← symbolClause sc name)
    | .keyword .«if» =>
      skip 1
      ifStatement sc t.pos n
    | .keyword .«do» =>
      skip 1
      doStatement sc t.pos n
    | .keyword .select =>
      skip 1
      let (whens, other) ← selectParts sc n
      if whens.isEmpty then throw ⟨.selectWithoutWhen, t.pos⟩
      return .select t.pos whens other
    | .keyword k =>
      skip 1
      return .clause t.pos (← instruction sc t.pos k)
    | _ => return .clause t.pos (.command (← expression sc))

/-- The statements of a block, up to one of the keywords `ends` or the end of the source. -/
def blockBody (ends : List Keyword) : Nat → Reader (List Stmt)
  | 0 => fail .nestedTooDeeply
  | n + 1 => do
    skipEnds
    if (← current).kind == .endOfSource || (← atAnyKeyword ends) then return []
    let s ← statement Scope.block n
    let t ← current
    if !Scope.block.endsClause t then fail (.unexpected t.raw)
    return s :: (← blockBody ends n)

def ifStatement (sc : Scope) (pos : Position) : Nat → Reader Stmt
  | 0 => fail .nestedTooDeeply
  | n + 1 => do
    let cond ← expression (sc.stopping ["THEN"])
    skipEnds
    expectKeyword .«then»
    if (← current).kind == .endOfClause && closedByEndIf 1 0 true false (← get) then
      let thens ← blockBody [.«else», .endIf] n
      if ← atKeyword .«else» then
        skip 1
        if ← atKeyword .«if» then
          -- ELSE IF shares the ENDIF
          let at_ := (← current).pos
          skip 1
          return .ifThen pos cond thens [← ifStatement sc at_ n]
        let elses ← blockBody [.endIf] n
        expectKeyword .endIf
        return .ifThen pos cond thens elses
      expectKeyword .endIf
      return .ifThen pos cond thens []
    skipEnds
    let thens ← statement sc.beforeElse n
    let afterThen ← get
    skipEnds
    if !(← atKeyword .«else») then
      set afterThen
      return .ifThen pos cond [thens] []
    skip 1
    skipEnds
    return .ifThen pos cond [thens] [← statement sc n]

def doStatement (sc : Scope) (pos : Position) : Nat → Reader Stmt
  | 0 => fail .nestedTooDeeply
  | n + 1 => do
    let head ← loopHead sc
    let body ← blockBody [.«end»] n
    expectKeyword .«end»
    let var := head.bind fun (control, _) => control.var?
    let t ← current
    match t.name? with
    | some name =>
      if !sc.endsClause t then
        if some name ≠ var then fail (.endMismatch name)
        skip 1
    | none => pure ()
    match head with
    | none => return .group pos body
    | some (control, guard) => return .loop pos control guard body

def selectParts (sc : Scope) : Nat → Reader (List (Expr × List Stmt) × Option (List Stmt))
  | 0 => fail .nestedTooDeeply
  | n + 1 => do
    skipEnds
    if ← atKeyword .when then
      skip 1
      let cond ← expression (sc.stopping ["THEN"])
      skipEnds
      expectKeyword .«then»
      let body ←
        if (← current).kind == .endOfClause then blockBody [.when, .otherwise, .«end»] n
        else List.singleton <$> statement sc n
      let (whens, other) ← selectParts sc n
      return ((cond, body) :: whens, other)
    if ← atKeyword .otherwise then
      skip 1
      let body ← blockBody [.«end»] n
      let (whens, _) ← selectParts sc n
      return (whens, some body)
    if ← atKeyword .«end» then
      skip 1
      return ([], none)
    fail (.expected "WHEN, OTHERWISE or END" [])

end

/-- The statements of a program. After a label no end of clause is needed. -/
def programBody : Nat → Reader (List Stmt)
  | 0 => fail .nestedTooDeeply
  | n + 1 => do
    skipEnds
    if (← current).kind == .endOfSource then return []
    let s ← statement Scope.top n
    let t ← current
    if s.label?.isNone && !Scope.top.endsClause t then fail (.unexpected t.raw)
    return s :: (← programBody n)

end Grammar

def Program.parse (src name : Text) : Except SyntaxError Program := do
  let tokens ← Token.lex src
  let (body, _) ← (Grammar.programBody (Grammar.depthFor tokens.length)).run tokens
  return Program.ofBody name (Text.lines src) body

end Rexx
