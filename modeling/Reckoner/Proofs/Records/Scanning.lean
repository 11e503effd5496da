import Reckoner.Proofs.Records.Tally
import Reckoner.Proofs.Scan

/-! What a scan that succeeds logs: every token is reported once, behind the tokens in it. -/
namespace Reckoner

namespace Token

mutual

/-- A token behind all tokens of its arguments. -/
def visits : Token → List Token
  | call name arguments => visitsOfArguments arguments ++ [call name arguments]
  | token => [token]

/-- The tokens of a sequence at every depth, in the order in which they are found. -/
def visitsOfSequence : List Token → List Token
  | [] => []
  | token :: tokens => token.visits ++ visitsOfSequence tokens

def visitsOfArguments : List (List Token) → List Token
  | [] => []
  | argument :: arguments => visitsOfSequence argument ++ visitsOfArguments arguments

end

theorem visits_of_kind_ne {token : Token} (h : token.kind ≠ .call) : token.visits = [token] := by
  cases token with
  | call => exact absurd rfl h
  | operand | operator | leftParen | rightParen => rfl

end Token

/-- These tokens have been found one behind the other. A call is announced first, with the number
of its arguments. -/
inductive Reported : List Token → List Line → Prop
  | nil : Reported [] []
  | call {name arguments stop tokens lines} : Reported tokens lines →
      Reported (.call name arguments :: tokens)
        (.scannedCall name arguments.length :: .scanned (.call name arguments) stop :: lines)
  | other {token stop tokens lines} : token.kind ≠ .call → Reported tokens lines →
      Reported (token :: tokens) (.scanned token stop :: lines)

section Reported

variable {tokens tokens' : List Token} {lines lines' : List Line}

theorem Reported.append (h : Reported tokens lines) (h' : Reported tokens' lines') :
    Reported (tokens ++ tokens') (lines ++ lines') := by
  induction h with
  | nil => exact h'
  | call _ ih => exact .call ih
  | other hk _ ih => exact .other hk ih

theorem Reported.settled (h : Reported tokens lines) : Line.Settled lines := by
  induction h with
  | nil => trivial
  | call _ ih => exact ⟨⟨_, _, _, rfl, rfl⟩, trivial, ih⟩
  | other _ _ ih => exact ⟨trivial, ih⟩

theorem Reported.tally_eq (h : Reported tokens lines) (kind : Record.Kind) :
    Line.tally kind lines =
      match kind with
      | .scanned => tokens.length
      | .scannedCall => Token.tally .call tokens
      | _ => 0 := by
  induction h with
  | nil => cases kind <;> rfl
  | call _ ih => cases kind <;> simp [ih, Record.kind, Token.kind]
  | other hk _ ih => cases kind <;> simp [ih, Record.kind, hk]

end Reported

namespace Scan

variable {scanner : Option Scanner} {scan : Scanner} {start opened more levels : Nat}
  {place : Grammar.Place} {c : Char} {cs : List Char} {token : Token} {tokens : List Token}
  {texts : List (List Char)} {arguments : List (List Token)}

/-- Every token that the scanner finds is reported. -/
def Reports (scan : Scanner) : Prop :=
  ∀ ⦃cs tokens⦄, (scan cs).result = .ok tokens →
    Reported (Token.visitsOfSequence tokens) (scan cs).lines

theorem reported_mapM (hs : Reports scan) (h : (texts.mapM scan).result = .ok arguments) :
    Reported (Token.visitsOfArguments arguments) (texts.mapM scan).lines := by
  induction texts generalizing arguments with
  | nil =>
    obtain rfl := Except.ok.inj h
    exact .nil
  | cons text texts ih =>
    rw [List.mapM_cons, Logged.result_bind] at h
    obtain ⟨argument, hfirst, h⟩ := bind_eq_ok_iff.mp h
    rw [Logged.result_bind] at h
    obtain ⟨rest, hrest, h⟩ := bind_eq_ok_iff.mp h
    obtain rfl := Except.ok.inj h
    rw [List.mapM_cons, Logged.lines_bind_of_ok hfirst, Logged.lines_bind_of_ok hrest,
      Logged.lines_pure, List.append_nil]
    exact (hs hfirst).append (ih hrest)

theorem reported_call (hs : ∀ scan, scanner = some scan → Reports scan)
    (h : (call scanner start cs).result = .ok ⟨token, more⟩) (stop : Nat) :
    Reported token.visits ((call scanner start cs).lines ++ [.scanned token stop]) := by
  cases scanner with
  | none => exact absurd h call_none
  | some scan =>
    obtain ⟨inside, b, arguments, hi, hb, ⟨texts, ht, hm⟩, rfl, -⟩ := call_eq_ok_iff.mp h
    have inner := reported_mapM (hs scan rfl) hm
    simpa [call, hi, hb, ht, Logged.lines_bind_of_ok hm, Record.line_eq, Line.ofRecord,
      Token.visits] using inner.append (.call .nil)

theorem reported_single (hk : token.kind ≠ .call) (stop : Nat) :
    Reported token.visits [.scanned token stop] := by
  rw [Token.visits_of_kind_ne hk]
  exact .other hk .nil

/-- What begins neither with a numeral nor with a name is found without further lines. -/
theorem lexeme_eq_ofExcept (hnum : ¬ (c.isDigit ∨ c = '.')) (halpha : ¬ c.isAlpha) :
    ∃ found, lexeme scanner start opened c cs = .ofExcept found ∧
      ∀ l, found = .ok l → l.token.kind ≠ .call := by
  have hnum' : (c.isDigit || c == '.') = false := by simpa using hnum
  simp only [lexeme, hnum', halpha, if_false, Bool.false_eq_true]
  split
  · refine ⟨.ok ⟨.leftParen, 0⟩, rfl, ?_⟩
    rintro l ⟨⟩
    simp [Token.kind]
  split
  · split
    · exact ⟨.error _, rfl, by simp⟩
    · refine ⟨.ok ⟨.rightParen, 0⟩, rfl, ?_⟩
      rintro l ⟨⟩
      simp [Token.kind]
  cases Operator.ofSymbol? c with
  | none => exact ⟨.error _, rfl, by simp⟩
  | some op =>
    refine ⟨.ok ⟨.operator op, 0⟩, rfl, ?_⟩
    rintro l ⟨⟩
    simp [Token.kind]

theorem reported_lexeme (hs : ∀ scan, scanner = some scan → Reports scan)
    (h : (lexeme scanner start opened c cs).result = .ok ⟨token, more⟩) (stop : Nat) :
    Reported token.visits ((lexeme scanner start opened c cs).lines ++ [.scanned token stop]) := by
  by_cases hnum : c.isDigit ∨ c = '.'
  · rw [lexeme_numeral hnum] at h ⊢
    obtain ⟨l, -, -, -, rfl, -⟩ := (number_eq_ok_iff hnum).mp h
    exact reported_single (by simp [Token.kind]) stop
  by_cases halpha : c.isAlpha
  · rw [lexeme_alpha halpha] at h ⊢
    exact reported_call hs h stop
  obtain ⟨found, hfound, hk⟩ := @lexeme_eq_ofExcept scanner start opened c cs hnum halpha
  rw [hfound] at h ⊢
  exact reported_single (hk _ h) stop

/-- By recursion on the text, as it is scanned. -/
theorem reported_run (hs : ∀ scan, scanner = some scan → Reports scan) (start opened : Nat)
    (place : Grammar.Place) (cs : List Char) (tokens : List Token)
    (h : (run scanner start opened place cs).result = .ok tokens) :
    Reported (Token.visitsOfSequence tokens) (run scanner start opened place cs).lines := by
  match cs with
  | [] =>
    rw [run_nil] at h ⊢
    obtain ⟨-, -, rfl⟩ := map_eq_ok_iff.mp h
    exact .nil
  | c :: cs =>
    by_cases hc : Text.isWhitespace c
    · rw [run_whitespace hc] at h ⊢
      exact reported_run hs _ _ _ cs tokens h
    obtain ⟨token, more, us, hlexeme, ha, hrest, rfl⟩ := (run_lexeme_eq_ok_iff hc).mp h
    have advanced : place.advance token.kind = .ok (.after token.kind) :=
      advance_eq_ok_iff.mpr ⟨ha, rfl⟩
    have later := reported_run hs _ _ _ (cs.drop more) us hrest
    rw [run_lexeme hc, Logged.lines_bind_of_ok hlexeme, Logged.lines_emit_bind,
      Logged.lines_ofExcept_bind advanced, Logged.lines_map, List.append_cons, openedAfter_eq]
    exact (reported_lexeme hs hlexeme _).append later
termination_by cs.length
decreasing_by
  · exact Nat.lt_succ_self cs.length
  · rw [List.length_drop]
    exact Nat.lt_succ_of_le (Nat.sub_le ..)

theorem reports_fragment (levels : Nat) : Reports (fragment levels) := by
  induction levels with
  | zero =>
    have hs : ∀ scan, (none : Option Scanner) = some scan → Reports scan := by simp
    intro cs tokens h
    exact reported_run hs _ _ _ cs tokens h
  | succ levels ih =>
    have hs : ∀ scan, some (fragment levels) = some scan → Reports scan := by
      rintro scan ⟨⟩
      exact ih
    intro cs tokens h
    exact reported_run hs _ _ _ cs tokens h

theorem lines_tokenizeExpression {text : String}
    (h : (tokenizeExpression text).result = .ok tokens) :
    (tokenize text).result = .ok tokens ∧ ∃ scanning, (tokenizeExpression text).lines =
        .tokenizing text :: (scanning ++ [.tokenized text tokens.length]) ∧
      Reported (Token.visitsOfSequence tokens) scanning := by
  rw [tokenizeExpression] at h ⊢
  split at h
  · cases h
  next hb =>
    rw [if_neg hb]
    have hf := h
    rw [result_tokenize] at hf
    refine ⟨h, _, ?_, reports_fragment nestingLimit hf⟩
    rw [tokenize, Logged.lines_emit_bind, Logged.lines_bind_of_ok hf]
    rfl

end Scan

end Reckoner
