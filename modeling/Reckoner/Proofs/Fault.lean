import Reckoner.Proofs.Fault.Lexeme

/-! Tokenizing a text fails only because something is wrong in it, or in an argument of a call in
it. The failure says what it is and points at the place. -/
namespace Reckoner

open CallText Reckoner.Language

/-- The texts that are scanned on their own: the whole text, and the arguments of the calls in it, at
the depth of their nesting. -/
inductive Fragment (text : List Char) : (depth : Nat) → List Char → Prop
  | whole : Fragment text 0 text
  | argument {depth outer argument} : Fragment text depth outer → IsArgument outer argument →
      Fragment text (depth + 1) argument

/-- A scan has come so far: what is behind it are the texts of tokens that may begin an expression,
and `opened` parentheses are open. -/
structure Scanned (depth : Nat) (before : List Char) (opened : Nat) (place : Grammar.Place) :
    Prop where
  parens : before.count '(' = before.count ')' + opened
  spelled : ∃ ts, Spelled depth before ts ∧ ∀ ks,
    Grammar.Accepted 0 .start (ts.map Token.kind ++ ks) ↔ Grammar.Accepted opened place ks

variable {depth levels opened more : Nat} {place : Grammar.Place} {c : Char}
  {text before cs rest lexeme : List Char} {token : Token} {e : Failure}

namespace Scanned

theorem start : Scanned depth [] 0 .start :=
  ⟨rfl, [], .nil rfl, fun _ => Iff.rfl⟩

theorem whitespace (h : Scanned depth before opened place) (hc : Text.isWhitespace c) :
    Scanned depth (before ++ [c]) opened place := by
  have hl : c ≠ '(' := by
    rintro rfl
    exact absurd hc (by decide)
  have hr : c ≠ ')' := by
    rintro rfl
    exact absurd hc (by decide)
  have blank : Text.isBlank [c] := isBlank_cons.mpr ⟨hc, rfl⟩
  obtain ⟨ts, hs, hts⟩ := h.spelled
  refine ⟨by simp [hl, hr, h.parens], ts, ?_, hts⟩
  simpa using hs.append (.nil blank)

theorem count_lexeme (hl : Lexeme depth lexeme token)
    (ho : token.kind = .rightParen → opened ≠ 0) :
    lexeme.count '(' + opened = lexeme.count ')' + Grammar.openedBehind opened token.kind := by
  cases hl with
  | leftParen => simp [Token.kind, Grammar.openedBehind, Nat.add_comm]
  | rightParen =>
    have := ho rfl
    simp [Token.kind, Grammar.openedBehind]
    omega
  | operator op => cases op <;> simp [Token.kind, Grammar.openedBehind, Operator.symbol]
  | value hv =>
    have balanced := count_of_depthBehind (hv.plain (k := 0)).depthBehind
    cases hv <;> simpa [Token.kind, Grammar.openedBehind] using balanced

theorem append_lexeme (h : Scanned depth before opened place) (hl : Lexeme depth lexeme token)
    (ho : token.kind = .rightParen → opened ≠ 0) (ha : place.accepts token.kind) :
    Scanned depth (before ++ lexeme) (Grammar.openedBehind opened token.kind)
      (.after token.kind) := by
  obtain ⟨ts, hs, hts⟩ := h.spelled
  refine ⟨?_, ts ++ [token], hs.append (.single hl), fun ks => ?_⟩
  · have counts := count_lexeme hl ho
    have parens := h.parens
    simp only [List.count_append]
    omega
  · have behind := hts (token.kind :: ks)
    rw [Grammar.Accepted, and_iff_right ha, and_iff_right ho] at behind
    simpa using behind

/-- No expression goes on with a token that is not accepted. -/
theorem misplaced (h : Scanned depth before opened place) (hl : Lexeme depth lexeme token)
    (ha : ¬ place.accepts token.kind) :
    Fault depth (before ++ (lexeme ++ rest)) (.of .misplacedToken) := by
  obtain ⟨ts, hs, hts⟩ := h.spelled
  have text : before ++ (lexeme ++ rest) = (before ++ lexeme) ++ rest := by simp
  refine .misplacedToken text (hs.append (.single hl)) ?_
  intro ks he
  have accepted := (Grammar.expression_iff_accepted.mp he).2
  rw [List.map_append, List.append_assoc, hts] at accepted
  exact ha accepted.1

/-- Where the text ends, parentheses may be open or a value may be missing. -/
theorem finish (h : Scanned depth text opened place)
    (hf : Scan.finish opened place = .error e) : Fault depth text e := by
  have parens := h.parens
  rw [Scan.finish] at hf
  split at hf
  next ho =>
    obtain rfl := Except.error.inj hf
    refine .unclosedParen ?_
    omega
  next ho =>
    rw [Grammar.Place.finish] at hf
    split at hf
    next hp =>
      obtain rfl := Except.error.inj hf
      obtain ⟨ts, hs, hts⟩ := h.spelled
      have unfinished : ¬ Grammar.Accepted 0 .start (ts.map Token.kind) := by
        intro accepted
        rw [← List.append_nil (ts.map Token.kind), hts] at accepted
        simpa [Grammar.finish_iff, hp] using accepted.2
      rw [Grammar.accepted_iff, not_or, List.map_eq_nil_iff] at unfinished
      exact .missingToken hs unfinished.1 unfinished.2
    · cases hf

end Scanned

namespace Scan

variable {scanner : Option Scanner}

/-- What a scan fails for is a fault of the text, behind which all has been scanned, or lies in an
argument. -/
theorem run_fault (hs : Scans depth scanner) (hd : scanner = none → depth = nestingLimit)
    (before : List Char) (opened : Nat) (place : Grammar.Place) (cs : List Char)
    (hb : Scanned depth before opened place)
    (h : (run scanner before.length opened place cs).result = .error e) :
    Fault depth (before ++ cs) e ∨ ArgumentFails scanner (before ++ cs) e := by
  match cs with
  | [] =>
    rw [run_nil, Logged.result_map, Logged.result_ofExcept, map_eq_error_iff] at h
    rw [List.append_nil]
    exact Or.inl (hb.finish h)
  | c :: cs =>
    by_cases hc : Text.isWhitespace c
    · have later := run_fault hs hd (before ++ [c]) opened place cs (hb.whitespace hc)
      rw [run_whitespace hc] at h
      rw [List.length_append, List.length_singleton, List.append_assoc] at later
      exact later h
    rw [run_lexeme hc, Logged.result_bind] at h
    obtain hfails | ⟨⟨token, more⟩, hlexeme, h⟩ := bind_eq_error_iff.mp h
    · exact lexeme_fault rfl hc hb.parens hd hfails
    obtain ⟨lexeme, rest, hcs, hm, hl, ho, -⟩ := begins_of_lexeme hs hlexeme
    obtain ⟨hrest, hlt⟩ := rest_of_lexeme hcs hm
    simp only [Logged.result_bind, Logged.result_emit, Logged.result_ofExcept, Logged.result_map,
      hrest, openedAfter_eq] at h
    obtain hemit | ⟨-, -, h⟩ := bind_eq_error_iff.mp h
    · cases hemit
    rw [hcs]
    obtain hadvance | ⟨next, hadvance, h⟩ := bind_eq_error_iff.mp h
    · rw [Grammar.Place.advance] at hadvance
      split at hadvance
      · cases hadvance
      next ha =>
        obtain rfl := Except.error.inj hadvance
        exact Or.inl (hb.misplaced hl ha)
    · obtain ⟨ha, rfl⟩ := advance_eq_ok_iff.mp hadvance
      have later := run_fault hs hd (before ++ lexeme) _ _ rest (hb.append_lexeme hl ho ha)
      rw [List.length_append, ← hm, Nat.add_comm more 1, ← Nat.add_assoc,
        List.append_assoc] at later
      exact later (map_eq_error_iff.mp h)
termination_by cs.length
decreasing_by
  · exact Nat.lt_succ_self cs.length
  · exact Nat.lt_succ_of_le hlt

/-- By induction on the levels that are left for calls. -/
theorem fragment_fault (hf : Fragment text depth cs) (hd : depth + levels = nestingLimit)
    (h : (fragment levels cs).result = .error e) :
    ∃ depth fragment, Fragment text depth fragment ∧ Fault depth fragment e ∧
      (Scan.fragment (nestingLimit - depth) fragment).result = .error e := by
  have left : nestingLimit - depth = levels := by omega
  induction levels generalizing depth cs with
  | zero =>
    have hs : Scans depth none := by
      simp only [Scans]
      omega
    obtain hfault | ⟨scan, argument, hscan, -⟩ :=
      run_fault hs (fun _ => hd) [] 0 .start cs .start h
    · exact ⟨depth, cs, hf, hfault, by rw [left]; exact h⟩
    · cases hscan
  | succ levels ih =>
    have next : depth + 1 + levels = nestingLimit := by omega
    have hs : Scans depth (some (fragment levels)) := by
      refine ⟨by omega, ?_⟩
      intro ds ts
      exact fragment_eq_ok_iff next
    obtain hfault | ⟨scan, argument, hscan, hargument, hfails⟩ :=
      run_fault hs (by simp) [] 0 .start cs .start h
    · exact ⟨depth, cs, hf, hfault, by rw [left]; exact h⟩
    · obtain rfl := Option.some.inj hscan
      exact ih (hf.argument hargument) next hfails (by omega)

end Scan

/-- Tokenizing fails for a fault that some fragment of the text has, and the failure points at the
place of it in this fragment. It is the fragment whose own scan fails so. -/
theorem tokenize_fault {text : String} {e : Failure} (h : (tokenize text).result = .error e) :
    e.detail = none ∧ ∃ depth fragment, Fragment text.toList depth fragment ∧
      Fault depth fragment e ∧
      (Scan.fragment (nestingLimit - depth) fragment).result = .error e := by
  rw [Scan.result_tokenize] at h
  obtain ⟨depth, fragment, hf, hfault, hfails⟩ := Scan.fragment_fault .whole (Nat.zero_add _) h
  exact ⟨hfault.detail_eq_none, depth, fragment, hf, hfault, hfails⟩

theorem tokenize_fault_nested :
    (tokenize "2 + f(1, g(3 $))").result =
        .error { cause := .unknownCharacter, index := some 2, token := some "$" } ∧
      ∃ depth fragment, Fragment "2 + f(1, g(3 $))".toList depth fragment ∧
        Fault depth fragment
          { cause := .unknownCharacter, index := some 2, token := some "$" } := by
  have failed : (match (tokenize "2 + f(1, g(3 $))").result with
      | .error e =>
        decide (e = { cause := .unknownCharacter, index := some 2, token := some "$" })
      | .ok _ => false) = true := by
    decide +kernel
  cases htext : (tokenize "2 + f(1, g(3 $))").result with
  | ok => simp [htext] at failed
  | error e =>
    rw [htext] at failed
    obtain rfl := of_decide_eq_true failed
    obtain ⟨-, depth, fragment, hf, hfault, -⟩ := tokenize_fault htext
    exact ⟨rfl, depth, fragment, hf, hfault⟩

end Reckoner
