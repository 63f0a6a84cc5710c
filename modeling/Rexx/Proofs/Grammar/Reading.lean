import Mathlib
import Rexx.Grammar.Statement

/-!
# `Grammar.Reading` — what the parts of readers do to a list of tokens

Readers are computations over the tokens that are left.
-/

namespace Rexx.Grammar

variable {α β : Type} {ts us : List Token}

/-! ## Sequencing -/

theorem bind_of_read {r : Reader α} {f : α → Reader β} {a : α} (h : r ts = .ok (a, us)) : (r >>= f) ts = f a us := by
  show Except.bind (r ts) _ = _
  rw [h]
  rfl

theorem bind_eq_ok {r : Reader α} {f : α → Reader β} {b : β} :
    (r >>= f) ts = .ok (b, us) ↔ ∃ a vs, r ts = .ok (a, vs) ∧ f a vs = .ok (b, us) := by
  constructor
  · intro h
    cases hr : r ts with
    | error e =>
      have herr : (r >>= f) ts = .error e := by
        show Except.bind (r ts) _ = _
        rw [hr]
        rfl
      rw [herr] at h
      cases h
    | ok p => exact ⟨p.1, p.2, rfl, (bind_of_read hr).symm.trans h⟩
  · rintro ⟨a, vs, hr, hf⟩
    rw [bind_of_read hr, hf]

theorem pure_read (a : α) (ts : List Token) : (pure a : Reader α) ts = .ok (a, ts) := rfl

theorem fail_read (cause : SyntaxCause) (ts : List Token) :
    (fail cause : Reader α) ts = .error ⟨cause, (ts.headD nowhere).pos⟩ := by
  cases ts <;> rfl

/-! ## Looking and moving -/

theorem get_read (ts : List Token) : (get : Reader (List Token)) ts = .ok (ts, ts) := rfl

theorem ahead_read (k : Nat) (ts : List Token) : ahead k ts = .ok (ts.getD k nowhere, ts) := rfl

theorem ahead_one_read (t : Token) (ts : List Token) : ahead 1 (t :: ts) = .ok (ts.headD nowhere, t :: ts) := by
  cases ts <;> rfl

theorem current_read (ts : List Token) : current ts = .ok (ts.headD nowhere, ts) := by
  cases ts <;> rfl

theorem skip_read (n : Nat) (ts : List Token) : skip n ts = .ok (⟨⟩, ts.drop n) := rfl

theorem skipEnds_read (ts : List Token) : skipEnds ts = .ok (⟨⟩, ts.dropWhile fun t => t.kind == .endOfClause) := rfl

theorem atMark_read (m : Mark) (ts : List Token) : atMark m ts = .ok ((ts.headD nowhere).isMark m, ts) := by
  cases ts <;> rfl

theorem atWord_read (word : Text) (ts : List Token) : atWord word ts = .ok ((ts.headD nowhere).isWord word, ts) := by
  cases ts <;> rfl

theorem atEnd_read (sc : Scope) (ts : List Token) : atEnd sc ts = .ok (sc.endsClause (ts.headD nowhere), ts) := by
  cases ts <;> rfl

theorem atArguments_read (ts : List Token) :
    atArguments ts = .ok ((ts.headD nowhere).isMark .leftParen && !(ts.headD nowhere).blank, ts) := by
  cases ts <;> rfl

theorem atKeyword_read (k : Keyword) (t : Token) (ts : List Token) :
    atKeyword k (t :: ts) = .ok (t.isKeyword k && !(ts.headD nowhere).isMark .equal &&
      !(ts.headD nowhere).isMark .colon, t :: ts) := by
  cases ts <;> rfl

theorem takeMark_read (m : Mark) (ts : List Token) :
    takeMark m ts = .ok ((ts.headD nowhere).isMark m, if (ts.headD nowhere).isMark m then ts.drop 1 else ts) := by
  unfold takeMark
  rw [bind_of_read (atMark_read m ts)]
  cases (ts.headD nowhere).isMark m <;> rfl

theorem takeWord_read (word : Text) (ts : List Token) :
    takeWord word ts = .ok ((ts.headD nowhere).isWord word, if (ts.headD nowhere).isWord word then ts.drop 1 else ts) := by
  unfold takeWord
  rw [bind_of_read (atWord_read word ts)]
  cases (ts.headD nowhere).isWord word <;> rfl

theorem expectMark_read {m : Mark} {t : Token} (h : t.isMark m = true) (ts : List Token) :
    expectMark m (t :: ts) = .ok (⟨⟩, ts) := by
  have ht : takeMark m (t :: ts) = .ok (true, ts) := by
    rw [takeMark_read, List.headD_cons, h]
    rfl
  unfold expectMark
  rw [bind_of_read ht]
  rfl

end Rexx.Grammar

theorem Rexx.Program.parse_eq_ok_iff {src name : Rexx.Text} {p : Rexx.Program} :
    parse src name = .ok p ↔ ∃ ts us, Token.lex src = .ok ts ∧
      Grammar.programBody (Grammar.depthFor ts.length) ts = .ok (p.body, us) ∧ p = ofBody name (Text.lines src) p.body := by
  unfold parse
  constructor
  · intro h
    cases hlex : Token.lex src with
    | error e =>
      rw [hlex] at h
      cases h
    | ok ts =>
      rw [hlex] at h
      cases hbody : Grammar.programBody (Grammar.depthFor ts.length) ts with
      | error e =>
        simp only [StateT.run, hbody, bind, Except.bind] at h
        cases h
      | ok r =>
        simp only [StateT.run, hbody, bind, Except.bind] at h
        cases h
        exact ⟨ts, r.2, rfl, hbody, rfl⟩
  · rintro ⟨ts, us, hlex, hbody, hp⟩
    rw [hlex, hp]
    simp only [StateT.run, hbody, bind, Except.bind]
    rfl
