import Reckoner.Proofs.Scan.Lexeme

/-! Scanning a text succeeds with exactly the tokens that the language has for it. -/
namespace Reckoner

namespace Scan

open Reckoner.Language

variable {scanner : Option Scanner} {depth start opened more : Nat} {place : Grammar.Place}
  {c : Char} {cs : List Char} {token : Token} {tokens : List Token}

theorem rest_of_lexeme {text rest : List Char} (h : c :: cs = text ++ rest)
    (hm : more + 1 = text.length) : cs.drop more = rest ∧ rest.length ≤ cs.length := by
  have hdrop : cs.drop more = rest := calc
    cs.drop more = (c :: cs).drop (more + 1) := rfl
    _ = (text ++ rest).drop text.length := by rw [h, hm]
    _ = rest := List.drop_left
  refine ⟨hdrop, ?_⟩
  rw [← hdrop, List.length_drop]
  exact Nat.sub_le ..

theorem openedAfter_eq : openedAfter opened token = Grammar.openedBehind opened token.kind := by
  cases token <;> rfl

theorem advance_eq_ok_iff {kind : Token.Kind} {next : Grammar.Place} :
    place.advance kind = .ok next ↔ place.accepts kind ∧ .after kind = next := by
  rw [Grammar.Place.advance]
  split <;> simp_all

theorem finish_eq_ok_iff :
    finish opened place = .ok () ↔ opened = 0 ∧ place.finish = .ok () := by
  rw [finish]
  split <;> simp_all

theorem run_lexeme_eq_ok_iff (hc : ¬ Text.isWhitespace c) :
    (run scanner start opened place (c :: cs)).result = .ok tokens ↔
      ∃ token more us, (lexeme scanner start opened c cs).result = .ok ⟨token, more⟩ ∧
        place.accepts token.kind ∧
        (run scanner (start + 1 + more) (Grammar.openedBehind opened token.kind)
          (.after token.kind) (cs.drop more)).result = .ok us ∧
        token :: us = tokens := by
  simp only [run_lexeme hc, Logged.result_bind, Logged.result_emit, Logged.result_ofExcept,
    Logged.result_map, bind_eq_ok_iff, map_eq_ok_iff, advance_eq_ok_iff, openedAfter_eq]
  constructor
  · rintro ⟨⟨token, more⟩, hl, -, -, _, ⟨ha, rfl⟩, us, hu, rfl⟩
    exact ⟨token, more, us, hl, ha, hu, rfl⟩
  · rintro ⟨token, more, us, hl, ha, hu, rfl⟩
    exact ⟨⟨token, more⟩, hl, (), trivial, _, ⟨ha, rfl⟩, us, hu, rfl⟩

/-- A scan succeeds on the spelled-out sequences of tokens whose kinds are accepted. -/
theorem run_eq_ok_iff (hs : Scans depth scanner) (start opened : Nat) (place : Grammar.Place)
    (cs : List Char) (tokens : List Token) :
    (run scanner start opened place cs).result = .ok tokens ↔
      Spelled depth cs tokens ∧ Grammar.Accepted opened place (tokens.map Token.kind) := by
  match cs with
  | [] =>
    rw [run_nil, Logged.result_map, Logged.result_ofExcept, map_eq_ok_iff]
    constructor
    · rintro ⟨_, hf, rfl⟩
      exact ⟨.nil rfl, finish_eq_ok_iff.mp hf⟩
    · rintro ⟨h, ha⟩
      obtain rfl := spelled_of_nil h
      exact ⟨(), finish_eq_ok_iff.mpr ha, rfl⟩
  | c :: cs =>
    by_cases hc : Text.isWhitespace c
    · rw [run_whitespace hc, run_eq_ok_iff hs, spelled_whitespace_iff hc]
    rw [run_lexeme_eq_ok_iff hc, spelled_lexeme_iff hc]
    constructor
    · rintro ⟨token, more, us, hl, ha, hu, rfl⟩
      obtain ⟨text, rest, hcs, hm, hl, ho, -⟩ := (lexeme_scanned_iff hs).mp hl
      obtain ⟨hdrop, hlt⟩ := rest_of_lexeme hcs hm
      rw [hdrop] at hu
      obtain ⟨hu, hk⟩ := (run_eq_ok_iff hs _ _ _ rest us).mp hu
      exact ⟨⟨text, rest, token, us, rfl, hcs, hl, hu⟩, ha, ho, hk⟩
    · rintro ⟨⟨text, rest, token, us, rfl, hcs, hl, hu⟩, ha, ho, hk⟩
      obtain ⟨more, hm⟩ : ∃ more, more + 1 = text.length := by
        obtain ⟨d, ds, rfl, -⟩ := hl.exists_cons
        exact ⟨ds.length, rfl⟩
      obtain ⟨hdrop, hlt⟩ := rest_of_lexeme hcs hm
      have hr : token.kind = .operand → Literal.Stops rest := fun he => hu.stops (he ▸ hk)
      have scanned : (lexeme scanner start opened c cs).result = .ok ⟨token, more⟩ :=
        (lexeme_scanned_iff hs).mpr ⟨text, rest, hcs, hm, hl, ho, hr⟩
      refine ⟨token, more, us, scanned, ha, ?_, rfl⟩
      rw [hdrop]
      exact (run_eq_ok_iff hs _ _ _ rest us).mpr ⟨hu, hk⟩
termination_by cs.length
decreasing_by
  · exact Nat.lt_succ_self cs.length
  · exact Nat.lt_succ_of_le hlt
  · exact Nat.lt_succ_of_le hlt

theorem run_start_eq_ok_iff (hs : Scans depth scanner) :
    (run scanner 0 0 .start cs).result = .ok tokens ↔
      (Text.isBlank cs ∧ tokens = []) ∨ Expression depth cs tokens := by
  rw [run_eq_ok_iff hs, Grammar.accepted_iff, List.map_eq_nil_iff, and_or_left, ← expression_iff]
  refine or_congr_left ?_
  constructor
  · rintro ⟨h, rfl⟩
    exact ⟨spelled_nil_iff.mp h, rfl⟩
  · rintro ⟨h, rfl⟩
    exact ⟨spelled_nil_iff.mpr h, rfl⟩

/-- The fragments inside `depth` calls are the expressions that the language has there. -/
theorem fragment_eq_ok_iff {levels : Nat} (h : depth + levels = nestingLimit) :
    (fragment levels cs).result = .ok tokens ↔
      (Text.isBlank cs ∧ tokens = []) ∨ Expression depth cs tokens := by
  induction levels generalizing depth cs tokens with
  | zero =>
    have hs : Scans depth none := by
      simp only [Scans]
      omega
    exact run_start_eq_ok_iff hs
  | succ levels ih =>
    have hs : Scans depth (some (fragment levels)) := by
      refine ⟨by omega, ?_⟩
      intro cs ts
      have next : depth + 1 + levels = nestingLimit := by omega
      exact ih next
    exact run_start_eq_ok_iff hs

theorem result_tokenize (text : String) :
    (tokenize text).result = (fragment nestingLimit text.toList).result := by
  simp only [tokenize, Logged.result_bind, Logged.result_emit, Logged.result_pure]
  cases (fragment nestingLimit text.toList).result <;> rfl

theorem tokenizeExpression_eq_ok_iff {text : String} :
    (tokenizeExpression text).result = .ok tokens ↔ Expression 0 text.toList tokens := by
  rw [tokenizeExpression]
  by_cases h : Text.isBlank text.toList
  · rw [if_pos h]
    exact ⟨nofun, fun he => absurd h he.not_isBlank⟩
  · rw [if_neg h, result_tokenize, fragment_eq_ok_iff (Nat.zero_add _)]
    exact or_iff_right fun hb => h hb.1

theorem tokenizeExpression_of_tokenize {text : String} (h : (tokenize text).result = .ok tokens)
    (hn : tokens ≠ []) : (tokenizeExpression text).result = .ok tokens := by
  rw [result_tokenize, fragment_eq_ok_iff (Nat.zero_add _)] at h
  exact tokenizeExpression_eq_ok_iff.mpr (h.resolve_left fun hb => hn hb.2)

end Scan

/-- The tokenizer accepts exactly its grammar: blank texts, and the expressions outside calls. -/
theorem tokenize_eq_ok_iff (text : String) (tokens : List Token) :
    (tokenize text).result = .ok tokens ↔
      (Text.isBlank text.toList ∧ tokens = []) ∨ Language.Expression 0 text.toList tokens := by
  rw [Scan.result_tokenize]
  exact Scan.fragment_eq_ok_iff (Nat.zero_add _)

end Reckoner
