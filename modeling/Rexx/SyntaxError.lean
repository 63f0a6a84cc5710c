import Rexx.Token

/-!
# `SyntaxError` — why a source text is refused

A source text that cannot be read is refused with one cause at one place. `SyntaxError.message` is the wording of the
cause, up to the first null character in it.
-/

namespace Rexx

/-- The causes for which a source text is refused. -/
inductive SyntaxCause where
  | unterminatedHeredoc (label : Text)
  | unterminatedComment
  | unterminatedString (quote : Char)
  | invalidCharacter (c : Char)
  | markExpected (m : Mark)
  | keywordExpected (k : Keyword)
  | expected (what place : Text)
  | unexpected (raw : Text)
  | unexpectedInExpression (raw : Text)
  | unexpectedInDo (raw : Text)
  | unexpectedInTemplate (raw : Text)
  | unexpectedKeyword (k : Keyword)
  | labelInBlock (name : Text)
  | callTrap
  | duplicate (part : Text)
  | endMismatch (name : Text)
  | selectWithoutWhen
  | unknownCondition (name : Text)
  | nestedTooDeeply
deriving DecidableEq, Repr

def SyntaxCause.wording : SyntaxCause → Text
  | .unterminatedHeredoc label => "unterminated heredoc <<" ++ label
  | .unterminatedComment => "unterminated comment"
  | .unterminatedString quote => "unterminated string " ++ [quote]
  | .invalidCharacter c => "invalid character '" ++ [c] ++ "'"
  | .markExpected m => "'" ++ m.spelling ++ "' expected"
  | .keywordExpected k => k.spelling ++ " expected"
  | .expected what place => what ++ " expected" ++ place
  | .unexpected raw => "unexpected '" ++ raw ++ "'"
  | .unexpectedInExpression raw => "unexpected '" ++ raw ++ "' in expression"
  | .unexpectedInDo raw => "unexpected '" ++ raw ++ "' in DO"
  | .unexpectedInTemplate raw => "unexpected '" ++ raw ++ "' in template"
  | .unexpectedKeyword k => "unexpected " ++ k.spelling
  | .labelInBlock name => "label " ++ name ++ " inside a block"
  | .callTrap => "CALL ON/OFF is not supported"
  | .duplicate part => "duplicate " ++ part
  | .endMismatch name => "END " ++ name ++ " does not match DO"
  | .selectWithoutWhen => "SELECT without WHEN"
  | .unknownCondition name => "unknown condition " ++ name
  | .nestedTooDeeply => "nested too deeply"

/-- A refused source text: the cause and the place. -/
structure SyntaxError where
  cause : SyntaxCause
  pos : Position
deriving DecidableEq, Repr

def SyntaxError.message (e : SyntaxError) : Text := Text.untilNul e.cause.wording

end Rexx
