import Rexx.Builtin.Arguments
import Rexx.Text.Edit
import Rexx.Text.Order
import Rexx.Text.Search
import Rexx.Text.Words

/-!
# `Builtin.Texts` — built-in functions on texts

Each function takes the arguments of its call. An argument is checked only when it is needed, and where two are wrong the
first one checked is reported.
-/

namespace Rexx.Builtin

def centerOf (a : Args) : Except BadCall Text := do
  let n ← a.length 1 0
  let pad ← a.pad 2
  if (a.text 0).length < n then Args.checkLength n
  .ok (Text.center n pad (a.text 0))

def changestrOf (a : Args) : Except BadCall Text := .ok (Text.replaceAll (a.text 0) (a.text 2) (a.text 1))

def compareOf (a : Args) : Except BadCall Text := do
  let pad ← a.pad 2
  .ok (Text.ofNat (Text.firstDifference pad (a.text 0) (a.text 1)))

def copiesOf (a : Args) : Except BadCall Text := do
  let n ← a.length 1 0
  let s := a.text 0
  Args.checkLength (n * s.length)
  .ok (if s.isEmpty then [] else Text.copies n s)

def countstrOf (a : Args) : Except BadCall Text := .ok (Text.ofNat (Text.count (a.text 0) (a.text 1)))

def delstrOf (a : Args) : Except BadCall Text := do
  let n ← a.positive 1
  let s := a.text 0
  if s.length < n then .ok s
  else if a.size = 3 then .ok (Text.deleteAt s n (some (← a.length 2 0)))
  else .ok (Text.deleteAt s n none)

def delwordOf (a : Args) : Except BadCall Text := do
  let n ← a.positive 1
  let s := a.text 0
  if (Text.spans s).length < n then .ok s
  else if a.size = 3 then .ok (Text.delword s n (some (← a.length 2 0)))
  else .ok (Text.delword s n none)

def insertOf (a : Args) : Except BadCall Text := do
  let n ← a.length 2 0
  let pad ← a.pad 4
  let new ←
    if 3 < a.size then do
      let l ← a.length 3 0
      Args.checkLength l
      .ok (Text.fit l pad (a.text 0))
    else .ok (a.text 0)
  if (a.text 1).length < n then Args.checkLength n
  .ok (Text.insertAfter (a.text 1) n pad new)

def lastposOf (a : Args) : Except BadCall Text := do
  let s := a.text 1
  let start ← if a.size = 3 then a.positive 2 else .ok s.length
  .ok (Text.ofNat (Text.lastPosition (a.text 0) s start))

def leftOf (a : Args) : Except BadCall Text := do
  let n ← a.length 1 0
  let pad ← a.pad 2
  Args.checkLength n
  .ok (Text.fit n pad (a.text 0))

def posOf (a : Args) : Except BadCall Text := do
  let start ← a.positive 2
  .ok (Text.ofNat (Text.position (a.text 0) (a.text 1) start))

def rightOf (a : Args) : Except BadCall Text := do
  let n ← a.length 1 0
  let s := a.text 0
  if n ≤ s.length then .ok (Text.right n ' ' s)
  else
    let pad ← a.pad 2
    Args.checkLength n
    .ok (Text.right n pad s)

def spaceOf (a : Args) : Except BadCall Text := do
  let n ← a.length 1 1
  let pad ← a.pad 2
  Args.checkLength n
  .ok (Text.respace n pad (a.text 0))

def stripOf (a : Args) : Except BadCall Text := do
  let side ← a.option 1 'B' "BLT"
  let c ← a.pad 2
  let s := a.text 0
  .ok (if side = 'L' then Text.stripLeft c s
    else if side = 'T' then Text.stripRight c s
    else Text.strip c s)

/-- SUBSTR: a part of a text, filled up to a length if one is given. -/
def substrOf (a : Args) : Except BadCall Text := do
  let n ← a.positive 1
  let s := Text.fromColumn n (a.text 0)
  if 2 < a.size then
    let pad ← a.pad 3
    let l ← a.length 2 0
    Args.checkLength l
    .ok (Text.fit l pad s)
  else .ok s

def subwordOf (a : Args) : Except BadCall Text := do
  let n ← a.positive 1
  let s := a.text 0
  if (Text.spans s).length < n then .ok []
  else if a.size = 3 then .ok (Text.subword s n (some (← a.length 2 0)))
  else .ok (Text.subword s n none)

/-- TRANSLATE: a text in upper case, or with its characters replaced by tables. -/
def translateOf (a : Args) : Except BadCall Text := do
  let s := a.text 0
  if a.size = 1 then .ok (Text.upper s)
  else
    let pad ← a.pad 3
    if 2 < a.size then .ok (Text.translate (a.text 2) (a.text 1) pad s)
    else .ok (Text.translateByCode (a.text 1) pad s)

def wordOf (a : Args) : Except BadCall Text := do
  let n ← a.positive 1
  .ok ((Text.words (a.text 0)).getD (n - 1) [])

def wordindexOf (a : Args) : Except BadCall Text := do
  let n ← a.positive 1
  .ok (Text.ofNat (((Text.spans (a.text 0))[n - 1]?.map fun w => w.start + 1).getD 0))

def wordposOf (a : Args) : Except BadCall Text := do
  let start ← a.positive 2
  .ok (Text.ofNat (Text.wordPosition (a.text 0) (a.text 1) start))

def hasDatatype (s : Text) (kind : Char) : Option Bool :=
  let every (p : Char → Bool) : Bool := !s.isEmpty && s.all p
  match kind with
  | 'A' => some (every Char.isAlphanum)
  | 'B' => some (every fun c => c == '0' || c == '1')
  | 'L' => some (every Char.isLower)
  | 'M' => some (every Char.isAlpha)
  | 'N' => some (Number.isNumber s)
  | 'S' => some (Text.isName s)
  | 'U' => some (every Char.isUpper)
  | 'W' => some (Number.wholeOfText? s).isSome
  | 'X' => some (every Text.isHexDigit)
  | _ => none

/-- DATATYPE: whether a text is of a kind, or else whether it is a number. -/
def datatypeOf (a : Args) : Except BadCall Text := do
  let s := a.text 0
  let general : Text := if Number.isNumber s then "NUM" else "CHAR"
  if a.size = 1 then .ok general
  else
    let kind ← a.option 1 'N' "ABLMNSUWX"
    match hasDatatype s kind with
    | some b => .ok (if b then "1" else "0")
    | none => .ok general

end Rexx.Builtin
