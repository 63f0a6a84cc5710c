import Rexx.Expr
import Rexx.Grammar.Reader

/-!
# `Grammar.Expression` — reading expressions

Operators bind on eight levels, from `|>` up to `**`; prefix operators bind tighter than all of them. Operators of one
level group to the left. Two terms side by side are concatenated, with a blank if one stands between them.
-/

namespace Rexx.Grammar

/-- The levels of operators with two operands, from the loosest to the tightest. -/
inductive Level where
  | pipe | or | and | compare | concat | add | multiply | power
deriving DecidableEq, Repr

namespace Level

def tighter? : Level → Option Level
  | .pipe => some .or
  | .or => some .and
  | .and => some .compare
  | .compare => some .concat
  | .concat => some .add
  | .add => some .multiply
  | .multiply => some .power
  | .power => none

def operator? : Level → Mark → Option BinaryOp
  | .or, .or => some (.logic .or)
  | .or, .xor => some (.logic .xor)
  | .and, .and => some (.logic .and)
  | .compare, .equal => some (.compare .eq)
  | .compare, .notEqual | .compare, .lessGreater | .compare, .greaterLess | .compare, .bangEqual => some (.compare .ne)
  | .compare, .greater => some (.compare .gt)
  | .compare, .less => some (.compare .lt)
  | .compare, .atLeast | .compare, .notLess => some (.compare .ge)
  | .compare, .atMost | .compare, .notGreater => some (.compare .le)
  | .compare, .strictEqual => some (.strict .eq)
  | .compare, .strictNotEqual => some (.strict .ne)
  | .compare, .strictGreater => some (.strict .gt)
  | .compare, .strictLess => some (.strict .lt)
  | .compare, .strictAtLeast => some (.strict .ge)
  | .compare, .strictAtMost => some (.strict .le)
  | .concat, .concat => some (.concat false)
  | .add, .plus => some (.arith .add)
  | .add, .minus => some (.arith .sub)
  | .multiply, .times => some (.arith .mul)
  | .multiply, .divide => some (.arith .div)
  | .multiply, .percent => some (.arith .intDiv)
  | .multiply, .remainder => some (.arith .rem)
  | .power, .power => some (.arith .pow)
  | _, _ => none

end Level

/-- What may follow an operand on a level. -/
inductive Link where
  | written (op : BinaryOp)
  | beside (blank : Bool)
  | pipe
deriving DecidableEq, Repr

def link? (sc : Scope) (level : Level) (t : Token) : Option Link :=
  match t.kind with
  | .mark .pipe => if level = .pipe then some .pipe else none
  | .mark m =>
    match level.operator? m with
    | some op => some (.written op)
    | none => if level = .concat ∧ sc.startsTerm t then some (.beside t.blank) else none
  | _ => if level = .concat ∧ sc.startsTerm t then some (.beside t.blank) else none

def prefixOp? (t : Token) : Option UnaryOp :=
  match t.kind with
  | .mark .minus => some .neg
  | .mark .plus => some .plus
  | .mark .backslash | .mark .bang => some .not
  | _ => none

/-- Whether an opening parenthesis follows without a blank. -/
def atArguments : Reader Bool := do
  let t ← current
  return t.isMark .leftParen && !t.blank

mutual

def levelExpr (sc : Scope) : Nat → Level → Reader Expr
  | 0, _ => fail .nestedTooDeeply
  | n + 1, level => do
    let left ← operand sc n level
    links sc n level left

def operand (sc : Scope) : Nat → Level → Reader Expr
  | 0, _ => fail .nestedTooDeeply
  | n + 1, level =>
    match level.tighter? with
    | some tighter => levelExpr sc n tighter
    | none => prefixExpr sc n

def links (sc : Scope) : Nat → Level → Expr → Reader Expr
  | 0, _, _ => fail .nestedTooDeeply
  | n + 1, level, left => do
    match link? sc level (← current) with
    | none => return left
    | some (.written op) =>
      skip 1
      let right ← operand sc n level
      links sc n level (.binary op left right)
    | some (.beside blank) =>
      let right ← operand sc n level
      links sc n level (.binary (.concat blank) left right)
    | some .pipe =>
      skip 1
      let t ← current
      match t.name? with
      | none => fail (.expected "function name" " after |>")
      | some name =>
        if sc.isStop t then fail (.expected "function name" " after |>")
        skip 1
        if ← atArguments then
          let args ← arguments sc n
          links sc n level (.pipeCall left name args)
        else links sc n level (.pipe left name)

def prefixExpr (sc : Scope) : Nat → Reader Expr
  | 0 => fail .nestedTooDeeply
  | n + 1 => do
    match prefixOp? (← current) with
    | some op =>
      skip 1
      return .unary op (← prefixExpr sc n)
    | none => term sc n

/-- A term: a number, a literal, a variable, a call, or an expression in parentheses. -/
def term (sc : Scope) : Nat → Reader Expr
  | 0 => fail .nestedTooDeeply
  | n + 1 => do
    let t ← current
    let refuse : Reader Expr := fail (.unexpectedInExpression (if t.raw.isEmpty then t.text else t.raw))
    match t.kind with
    | .number text =>
      skip 1
      return .literal text none
    | .literal quote body =>
      skip 1
      if ← atArguments then return .call body true (← arguments sc n)
      return .literal body (some quote)
    | .symbol _ | .keyword _ =>
      if sc.isStop t then refuse
      else
        skip 1
        if ← atArguments then return .call t.text false (← arguments sc n)
        return .symbol t.text
    | .mark .leftParen =>
      skip 1
      let x ← whole sc.enclosed n
      expectMark .rightParen
      return x
    | _ => refuse

def arguments (sc : Scope) : Nat → Reader (List Expr)
  | 0 => fail .nestedTooDeeply
  | n + 1 => do
    expectMark .leftParen
    if ← takeMark .rightParen then return []
    let args ← argumentList sc.enclosed n
    expectMark .rightParen
    return args

def argumentList (sc : Scope) : Nat → Reader (List Expr)
  | 0 => fail .nestedTooDeeply
  | n + 1 => do
    let x ← whole sc n
    if ← takeMark .comma then return x :: (← argumentList sc n)
    return [x]

def whole (sc : Scope) : Nat → Reader Expr
  | 0 => fail .nestedTooDeeply
  | n + 1 => do
    if sc.endsExpr (← current) then fail (.expected "expression" [])
    levelExpr sc n .pipe

end

/-- How deep the readers may call each other on a list of `n` tokens. -/
def depthFor (n : Nat) : Nat := 24 * (n + 1)

def expression (sc : Scope) : Reader Expr := do whole sc (depthFor (← get).length)

def prefixTerm (sc : Scope) : Reader Expr := do prefixExpr sc (depthFor (← get).length)

def expression? (sc : Scope) : Reader (Option Expr) := do
  if ← atEnd sc then return none
  return some (← expression sc)

end Rexx.Grammar
