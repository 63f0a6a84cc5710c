import Rexx.Grammar.Expression
import Rexx.Proofs.Token.Lexeme

/-!
# `Grammar.Rendering` — writing expressions with few parentheses

Operators bind on levels, and so does each place where an operand may stand.
-/

namespace Rexx

open Rexx.Expr Lexeme TokenKind

open Grammar

/-! ## How tightly expressions bind -/

def Grammar.Level.rank : Level → Nat
  | .pipe => 0
  | .or => 1
  | .and => 2
  | .compare => 3
  | .concat => 4
  | .add => 5
  | .multiply => 6
  | .power => 7

def BinaryOp.level : BinaryOp → Level
  | .logic .or | .logic .xor => .or
  | .logic .and => .and
  | .compare _ | .strict _ => .compare
  | .concat _ => .concat
  | .arith .add | .arith .sub => .add
  | .arith .mul | .arith .div | .arith .intDiv | .arith .rem => .multiply
  | .arith .pow => .power

def Expr.rank : Expr → Nat
  | .literal _ _ | .symbol _ | .call _ _ _ => 9
  | .unary _ _ => 8
  | .binary op _ _ => op.level.rank
  | .pipe _ _ | .pipeCall _ _ _ => 0

/-! ## Ways to write -/

/-- A choice among the ways to write an expression. -/
structure Spelling where
  mark : BinaryOp → Mark
  mark_spells : ∀ op : BinaryOp, op ≠ .concat true → op.level.operator? (mark op) = some op
  notMark : Mark
  notMark_spells : notMark = .backslash ∨ notMark = .bang
  quote : Quote
  quote_ne_heredoc : quote ≠ .heredoc
  enclosesPrefix : Bool

namespace Spelling

def standard : Spelling where
  mark
    | .logic .or => .or
    | .logic .xor => .xor
    | .logic .and => .and
    | .compare .eq => .equal
    | .compare .ne => .notEqual
    | .compare .gt => .greater
    | .compare .lt => .less
    | .compare .ge => .atLeast
    | .compare .le => .atMost
    | .strict .eq => .strictEqual
    | .strict .ne => .strictNotEqual
    | .strict .gt => .strictGreater
    | .strict .lt => .strictLess
    | .strict .ge => .strictAtLeast
    | .strict .le => .strictAtMost
    | .concat _ => .concat
    | .arith .add => .plus
    | .arith .sub => .minus
    | .arith .mul => .times
    | .arith .div => .divide
    | .arith .intDiv => .percent
    | .arith .rem => .remainder
    | .arith .pow => .power
  mark_spells := by
    rintro (op | rel | rel | blank | op) hop
    · cases op <;> rfl
    · cases rel <;> rfl
    · cases rel <;> rfl
    · cases blank
      · rfl
      · exact absurd rfl hop
    · cases op <;> rfl
  notMark := .backslash
  notMark_spells := .inl rfl
  quote := .double
  quote_ne_heredoc := by decide
  enclosesPrefix := false

def prefixMark (sp : Spelling) : UnaryOp → Mark
  | .not => sp.notMark
  | .neg => .minus
  | .plus => .plus

def prefixRank (sp : Spelling) : Nat := if sp.enclosesPrefix then 9 else 8

end Spelling

/-! ## Expressions as lexemes -/

namespace Lexeme

def ofMark (m : Mark) : Lexeme := ⟨.mark m, true⟩

def ofName (name : Text) : Lexeme := ⟨.ofName name, true⟩

def openArguments : Lexeme := ⟨.mark .leftParen, false⟩

def enclosed (needed : Bool) (ls : List Lexeme) : List Lexeme :=
  if needed then ofMark .leftParen :: (ls ++ [ofMark .rightParen]) else ls

end Lexeme

open Lexeme

mutual

def Expr.lexemes (sp : Spelling) : Expr → List Lexeme
  | .literal text none => [⟨.number text, true⟩]
  | .literal text (some quote) => [⟨.literal quote text, true⟩]
  | .symbol name => [ofName name]
  | .call name quoted args =>
    (if quoted then ⟨.literal sp.quote name, true⟩ else ofName name) :: openArguments ::
      (Expr.argumentLexemes sp args ++ [ofMark .rightParen])
  | .binary op l r =>
    if op = .concat true then
      enclosed (l.rank < op.level.rank) (l.lexemes sp) ++ enclosed true (r.lexemes sp)
    else
      enclosed (l.rank < op.level.rank) (l.lexemes sp) ++ ofMark (sp.mark op) ::
        enclosed (r.rank < op.level.rank + 1) (r.lexemes sp)
  | .unary op x => ofMark (sp.prefixMark op) :: enclosed (x.rank < sp.prefixRank) (x.lexemes sp)
  | .pipe value name => value.lexemes sp ++ [ofMark .pipe, ofName name]
  | .pipeCall value name args =>
    value.lexemes sp ++ ofMark .pipe :: ofName name :: openArguments ::
      (Expr.argumentLexemes sp args ++ [ofMark .rightParen])

def Expr.argumentLexemes (sp : Spelling) : List Expr → List Lexeme
  | [] => []
  | [x] => x.lexemes sp
  | x :: y :: rest => x.lexemes sp ++ ofMark .comma :: Expr.argumentLexemes sp (y :: rest)

end

def Expr.render (sp : Spelling) (x : Expr) : Text := line (x.lexemes sp)

mutual

def Expr.isRenderable : Expr → Bool
  | .literal text none => text.isNumberWord
  | .literal text (some quote) => quote != .heredoc && !text.contains '\n'
  | .symbol name => name.isSymbolWord
  | .call name quoted args => (if quoted then !name.contains '\n' else name.isSymbolWord) && Expr.areRenderable args
  | .binary _ l r => l.isRenderable && r.isRenderable
  | .unary _ x => x.isRenderable
  | .pipe value name => value.isRenderable && name.isSymbolWord
  | .pipeCall value name args => value.isRenderable && name.isSymbolWord && Expr.areRenderable args

def Expr.areRenderable : List Expr → Bool
  | [] => true
  | x :: xs => x.isRenderable && Expr.areRenderable xs

end

/-! ## The lexemes of an expression can be written -/

theorem TokenKind.isWritable_ofName {name : Text} (h : name.isSymbolWord = true) : (ofName name).isWritable = true := by
  unfold ofName
  cases hk : Keyword.ofText? name with
  | none => simp [isWritable, h, hk]
  | some k => rfl

theorem TokenKind.isMark_ofName (name : Text) : (ofName name).isMark = false := by
  unfold ofName
  cases Keyword.ofText? name <;> rfl

namespace Lexeme.WellSpaced

variable {ls : List Lexeme}

theorem ofMark (m : Mark) (h : WellSpaced ls) : WellSpaced (ofMark m :: ls) :=
  append (single rfl rfl) h

theorem enclosed (needed : Bool) (h : WellSpaced ls) : WellSpaced (enclosed needed ls) := by
  cases needed with
  | false => exact h
  | true => exact ofMark .leftParen (h.append (ofMark .rightParen nil))

theorem application {l : Lexeme} (hw : l.kind.isWritable = true) (hb : l.blank = true) (hm : l.kind.isMark = false)
    (h : WellSpaced ls) :
    WellSpaced (l :: openArguments :: (ls ++ [Lexeme.ofMark .rightParen])) :=
  beforeArguments hw hb hm (h.append (ofMark .rightParen nil))

end Lexeme.WellSpaced

mutual

theorem Expr.wellSpaced_lexemes (sp : Spelling) : ∀ x : Expr, x.isRenderable = true → WellSpaced (x.lexemes sp)
  | .literal text none, h => by
    rw [lexemes]
    exact .single h rfl
  | .literal text (some quote), h => by
    rw [lexemes]
    exact .single h rfl
  | .symbol name, h => by
    rw [lexemes]
    exact .single (isWritable_ofName h) rfl
  | .call name quoted args, h => by
    rw [isRenderable, Bool.and_eq_true] at h
    rw [lexemes]
    have hargs := wellSpaced_argumentLexemes sp args h.2
    cases quoted with
    | false => exact .application (TokenKind.isWritable_ofName h.1) rfl (TokenKind.isMark_ofName name) hargs
    | true =>
      refine .application ?_ rfl rfl hargs
      simpa [isWritable, sp.quote_ne_heredoc] using h.1
  | .binary op l r, h => by
    rw [isRenderable, Bool.and_eq_true] at h
    have hl := wellSpaced_lexemes sp l h.1
    have hr := wellSpaced_lexemes sp r h.2
    rw [lexemes]
    by_cases hop : op = .concat true
    · rw [if_pos hop]
      exact (hl.enclosed _).append (hr.enclosed _)
    · rw [if_neg hop]
      exact (hl.enclosed _).append (.ofMark _ (hr.enclosed _))
  | .unary op x, h => by
    rw [lexemes]
    exact .ofMark _ ((wellSpaced_lexemes sp x h).enclosed _)
  | .pipe value name, h => by
    rw [isRenderable, Bool.and_eq_true] at h
    rw [lexemes]
    exact (wellSpaced_lexemes sp value h.1).append (.ofMark _ (.single (isWritable_ofName h.2) rfl))
  | .pipeCall value name args, h => by
    rw [isRenderable, Bool.and_eq_true, Bool.and_eq_true] at h
    rw [lexemes]
    have hargs := wellSpaced_argumentLexemes sp args h.2
    exact (wellSpaced_lexemes sp value h.1.1).append
      (.ofMark _ (.application (TokenKind.isWritable_ofName h.1.2) rfl (TokenKind.isMark_ofName name) hargs))

theorem Expr.wellSpaced_argumentLexemes (sp : Spelling) :
    ∀ xs : List Expr, Expr.areRenderable xs = true → WellSpaced (Expr.argumentLexemes sp xs)
  | [], _ => by
    rw [Expr.argumentLexemes]
    exact .nil
  | [x], h => by
    rw [Expr.areRenderable, Bool.and_eq_true] at h
    rw [Expr.argumentLexemes]
    exact Expr.wellSpaced_lexemes sp x h.1
  | x :: y :: rest, h => by
    rw [Expr.areRenderable, Bool.and_eq_true] at h
    rw [Expr.argumentLexemes]
    exact (Expr.wellSpaced_lexemes sp x h.1).append (.ofMark _ (Expr.wellSpaced_argumentLexemes sp (y :: rest) h.2))

end

theorem Expr.lexemes_ne_nil (sp : Spelling) (x : Expr) : x.lexemes sp ≠ [] := by
  cases x with
  | literal text quote => cases quote <;> simp [lexemes]
  | binary op l r =>
    rw [lexemes]
    split <;> simp [enclosed]
  | _ => simp [lexemes]

end Rexx
