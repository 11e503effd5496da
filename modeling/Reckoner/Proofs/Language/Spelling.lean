import Reckoner.Proofs.Grammar
import Reckoner.Proofs.Language

/-! A text of the language is a spelled-out sequence of tokens whose kinds form an expression. -/
namespace Reckoner.Language

/-- A token and its text. -/
inductive Lexeme (depth : Nat) : List Char → Token → Prop
  | leftParen : Lexeme depth ['('] .leftParen
  | rightParen : Lexeme depth [')'] .rightParen
  | operator (op : Operator) : Lexeme depth [op.symbol] (.operator op)
  | value {cs token} : Value depth cs token → Lexeme depth cs token

/-- The texts of a sequence of tokens one after the other, whitespace between them or not. -/
inductive Spelled (depth : Nat) : List Char → List Token → Prop
  | nil {after} : Text.isBlank after → Spelled depth after []
  | cons {before cs token ds ts} : Text.isBlank before → Lexeme depth cs token →
      Spelled depth ds ts → Spelled depth (before ++ (cs ++ ds)) (token :: ts)

variable {depth opened : Nat} {c : Char} {cs ds before after : List Char} {ts us : List Token}
  {token : Token}

/-- No token begins with whitespace. -/
theorem Lexeme.exists_cons (h : Lexeme depth cs token) :
    ∃ c rest, cs = c :: rest ∧ Text.isWhitespace c = false := by
  have name {name : String} {rest} (hn : IsName name.toList) :
      ∃ c ds, name.toList ++ rest = c :: ds ∧ Text.isWhitespace c = false := by
    obtain ⟨c, ds, hc, ha⟩ := hn.exists_cons
    rw [hc]
    exact ⟨c, ds ++ rest, rfl, isWhitespace_of_nameChar (Or.inl (isAlphanum_of_isAlpha ha))⟩
  cases h with
  | leftParen | rightParen => exact ⟨_, [], rfl, rfl⟩
  | operator op => exact ⟨_, [], rfl, by cases op <;> rfl⟩
  | value h =>
    cases h with
    | number hl =>
      obtain ⟨c, ds, hc, hd | rfl⟩ := chars_exists_cons hl
      · exact ⟨c, ds, hc, isWhitespace_of_nameChar (Or.inl (isAlphanum_of_isDigit hd))⟩
      · exact ⟨_, ds, hc, rfl⟩
    | emptyCall _ hn => exact name hn
    | call _ hn => exact name hn

namespace Spelled

theorem prepend (hb : Text.isBlank before) (h : Spelled depth cs ts) :
    Spelled depth (before ++ cs) ts := by
  cases h with
  | nil ha => exact .nil (isBlank_append.mpr ⟨hb, ha⟩)
  | cons hb' hl h =>
    rw [← List.append_assoc]
    exact .cons (isBlank_append.mpr ⟨hb, hb'⟩) hl h

theorem append (h : Spelled depth cs ts) (h' : Spelled depth ds us) :
    Spelled depth (cs ++ ds) (ts ++ us) := by
  induction h with
  | nil ha => exact h'.prepend ha
  | cons hb hl _ ih =>
    simp only [List.append_assoc, List.cons_append]
    exact .cons hb hl ih

theorem single (h : Lexeme depth cs token) : Spelled depth cs [token] := by
  have empty : Spelled depth [] [] := .nil rfl
  have blank : Text.isBlank [] := rfl
  simpa using Spelled.cons blank h empty

theorem lexeme_append (h : Lexeme depth cs token) (h' : Spelled depth ds ts) :
    Spelled depth (cs ++ ds) (token :: ts) :=
  (single h).append h'

theorem exists_of_append (h : Spelled depth cs (ts ++ us)) :
    ∃ ds es, cs = ds ++ es ∧ Spelled depth ds ts ∧ Spelled depth es us := by
  induction ts generalizing cs with
  | nil => exact ⟨[], cs, rfl, .nil rfl, h⟩
  | cons token ts ih =>
    cases h with
    | cons hb hl h =>
      obtain ⟨ds, es, rfl, hd, he⟩ := ih h
      exact ⟨_ ++ (_ ++ ds), es, by simp, .cons hb hl hd, he⟩

theorem exists_of_single (h : Spelled depth cs [token]) :
    ∃ before ds after, cs = before ++ (ds ++ after) ∧ Text.isBlank before ∧
      Lexeme depth ds token ∧ Text.isBlank after := by
  cases h with
  | cons hb hl h =>
    cases h with
    | nil ha => exact ⟨_, _, _, rfl, hb, hl, ha⟩

end Spelled

theorem spelled_nil_iff : Spelled depth cs [] ↔ Text.isBlank cs :=
  ⟨fun | .nil h => h, .nil⟩

theorem spelled_of_nil (h : Spelled depth [] ts) : ts = [] := by
  generalize hcs : ([] : List Char) = cs at h
  cases h with
  | nil => rfl
  | cons _ hl =>
    obtain ⟨c, rest, rfl, -⟩ := hl.exists_cons
    simp at hcs

theorem spelled_whitespace_iff (hc : Text.isWhitespace c) :
    Spelled depth (c :: cs) ts ↔ Spelled depth cs ts := by
  constructor
  · intro h
    generalize hcs : c :: cs = ds at h
    cases h with
    | nil ha =>
      subst hcs
      exact .nil (isBlank_cons.mp ha).2
    | @cons before text token rest ts hb hl h =>
      cases before with
      | nil =>
        obtain ⟨d, more, rfl, hd⟩ := hl.exists_cons
        obtain ⟨rfl, -⟩ := List.cons.inj hcs
        exact absurd hc (by simp [hd])
      | cons d before =>
        obtain ⟨rfl, rfl⟩ := List.cons.inj hcs
        exact .cons (isBlank_cons.mp hb).2 hl h
  · intro h
    have blank : Text.isBlank [c] := isBlank_cons.mpr ⟨hc, rfl⟩
    exact h.prepend blank

theorem spelled_lexeme_iff (hc : ¬ Text.isWhitespace c) :
    Spelled depth (c :: cs) ts ↔ ∃ text rest token us, ts = token :: us ∧
      c :: cs = text ++ rest ∧ Lexeme depth text token ∧ Spelled depth rest us := by
  constructor
  · intro h
    generalize hcs : c :: cs = ds at h
    cases h with
    | nil ha =>
      subst hcs
      exact absurd (isBlank_cons.mp ha).1 hc
    | @cons before text token rest us hb hl h =>
      cases before with
      | nil => exact ⟨text, rest, token, us, rfl, rfl, hl, h⟩
      | cons d before =>
        obtain ⟨rfl, -⟩ := List.cons.inj hcs
        exact absurd (isBlank_cons.mp hb).1 hc
  · rintro ⟨text, rest, token, us, rfl, hcs, hl, h⟩
    rw [hcs]
    exact h.lexeme_append hl

/-- Behind a value neither digits nor points are accepted. -/
theorem Spelled.stops (h : Spelled depth cs ts)
    (ha : Grammar.Accepted opened (.after .operand) (ts.map Token.kind)) : Literal.Stops cs := by
  have blank {before rest : List Char} (hb : Text.isBlank before) (hr : Literal.Stops rest) :
      Literal.Stops (before ++ rest) := by
    cases before with
    | nil => exact hr
    | cons d before =>
      rintro _ ⟨⟩
      have hd := (isBlank_cons.mp hb).1
      constructor
      · intro hdigit
        rw [isWhitespace_of_nameChar (Or.inl (isAlphanum_of_isDigit hdigit))] at hd
        exact absurd hd Bool.false_ne_true
      · rintro rfl
        exact absurd hd (by decide)
  cases h with
  | nil hafter =>
    have stops : Literal.Stops [] := nofun
    simpa using blank hafter stops
  | @cons before text token rest us hb hl h =>
    refine blank hb ?_
    have hkind : token.kind = .operator ∨ token.kind = .rightParen := by
      have := (Grammar.accepts_iff.mp ha.1)
      by_contra hne
      exact absurd (this.mpr (not_or.mp hne)) (by decide)
    cases hl with
    | leftParen => simp [Token.kind] at hkind
    | rightParen =>
      rintro _ ⟨⟩
      decide
    | operator op =>
      rintro _ ⟨⟩
      cases op <;> decide
    | value h => cases h <;> simp [Token.kind] at hkind

mutual

theorem Expression.spelled : {depth : Nat} → {cs : List Char} → {ts : List Token} →
    Expression depth cs ts → Spelled depth cs ts
  | _, _, _, .term hb h ha => by
    simpa using (h.spelled.append (.nil ha)).prepend hb
  | _, _, _, .operation h hb ht ha => by
    have right := (ht.spelled.append (.nil ha)).prepend hb
    simpa using h.spelled.append (Spelled.lexeme_append (.operator _) right)

theorem Term.spelled : {depth : Nat} → {cs : List Char} → {ts : List Token} →
    Term depth cs ts → Spelled depth cs ts
  | _, _, _, .value h => .single (.value h)
  | _, _, _, .group h =>
    Spelled.lexeme_append .leftParen (h.spelled.append (.single .rightParen))

end

theorem Value.kinds (h : Value depth cs token) : Grammar.Value [token.kind] := by
  cases h with
  | number => exact .operand
  | emptyCall | call => exact .call

mutual

theorem Expression.kinds : {depth : Nat} → {cs : List Char} → {ts : List Token} →
    Expression depth cs ts → Grammar.Expression (ts.map Token.kind)
  | _, _, _, .term _ h _ => .value h.kinds
  | _, _, _, .operation h _ ht _ => by
    simpa [Token.kind] using Grammar.Expression.operation h.kinds ht.kinds

theorem Term.kinds : {depth : Nat} → {cs : List Char} → {ts : List Token} →
    Term depth cs ts → Grammar.Value (ts.map Token.kind)
  | _, _, _, .value h => h.kinds
  | _, _, _, .group h => by simpa [Token.kind] using Grammar.Value.group h.kinds

end

theorem lexeme_operator {op : Operator} (h : Lexeme depth cs (.operator op)) :
    cs = [op.symbol] := by
  cases h with
  | operator => rfl
  | value h => nomatch h

theorem lexeme_leftParen (h : Lexeme depth cs .leftParen) : cs = ['('] := by
  cases h with
  | leftParen => rfl
  | value h => nomatch h

theorem lexeme_rightParen (h : Lexeme depth cs .rightParen) : cs = [')'] := by
  cases h with
  | rightParen => rfl
  | value h => nomatch h

/-- A token of the kind of values has the text of a value. -/
theorem lexeme_value (h : Lexeme depth cs token) (hk : token.kind = .operand ∨ token.kind = .call) :
    Value depth cs token := by
  cases h with
  | leftParen | rightParen | operator => exact absurd hk (by simp [Token.kind])
  | value h => exact h

theorem eq_operator (h : token.kind = .operator) : ∃ op, token = .operator op := by
  cases token <;> simp_all [Token.kind]

theorem eq_leftParen (h : token.kind = .leftParen) : token = .leftParen := by
  cases token <;> simp_all [Token.kind]

theorem eq_rightParen (h : token.kind = .rightParen) : token = .rightParen := by
  cases token <;> simp_all [Token.kind]

mutual

/-- The derivation of the kinds tells how the spelled-out tokens are derived. -/
theorem expression_of_spelled : {ks : List Token.Kind} → Grammar.Expression ks →
    ∀ {cs ts}, ts.map Token.kind = ks → Spelled depth cs ts → Expression depth cs ts
  | _, .value h, _, _, hk, hs => by
    obtain ⟨before, ds, after, rfl, hb, ht, ha⟩ := term_of_spelled h hk hs
    exact .term hb ht ha
  | _, .operation h hv, _, _, hk, hs => by
    obtain ⟨ts, tail, rfl, hts, htail⟩ := List.map_eq_append_iff.mp hk
    obtain ⟨token, us, rfl, hop, hus⟩ := List.map_eq_cons_iff.mp htail
    obtain ⟨op, rfl⟩ := eq_operator hop
    obtain ⟨ds, es, rfl, hds, hes⟩ := hs.exists_of_append
    -- whitespace before the operator goes to the expression on its left
    cases hes with
    | cons hb hl hes =>
      obtain rfl := lexeme_operator hl
      obtain ⟨before', es, after, rfl, hb', ht, ha⟩ := term_of_spelled hv hus hes
      have left := expression_of_spelled h hts (by simpa using hds.append (.nil hb))
      simpa using Expression.operation left hb' ht ha

theorem term_of_spelled : {ks : List Token.Kind} → Grammar.Value ks →
    ∀ {cs ts}, ts.map Token.kind = ks → Spelled depth cs ts →
      ∃ before ds after, cs = before ++ (ds ++ after) ∧ Text.isBlank before ∧
        Term depth ds ts ∧ Text.isBlank after
  | _, .operand, _, _, hk, hs => by
    obtain ⟨token, rfl, hoperand⟩ := List.map_eq_singleton_iff.mp hk
    obtain ⟨before, ds, after, rfl, hb, hl, ha⟩ := hs.exists_of_single
    exact ⟨before, ds, after, rfl, hb, .value (lexeme_value hl (Or.inl hoperand)), ha⟩
  | _, .call, _, _, hk, hs => by
    obtain ⟨token, rfl, hcall⟩ := List.map_eq_singleton_iff.mp hk
    obtain ⟨before, ds, after, rfl, hb, hl, ha⟩ := hs.exists_of_single
    exact ⟨before, ds, after, rfl, hb, .value (lexeme_value hl (Or.inr hcall)), ha⟩
  | _, .group h, _, _, hk, hs => by
    obtain ⟨left, tail, rfl, hleft, htail⟩ := List.map_eq_cons_iff.mp hk
    obtain ⟨ts, last, rfl, hts, hlast⟩ := List.map_eq_append_iff.mp htail
    obtain ⟨right, rfl, hright⟩ := List.map_eq_singleton_iff.mp hlast
    obtain rfl := eq_leftParen hleft
    obtain rfl := eq_rightParen hright
    cases hs with
    | cons hb hl hs =>
      obtain rfl := lexeme_leftParen hl
      obtain ⟨ds, es, rfl, hds, hes⟩ := hs.exists_of_append
      obtain ⟨before', es, after, rfl, hb', hr, ha⟩ := hes.exists_of_single
      obtain rfl := lexeme_rightParen hr
      have inside := expression_of_spelled h hts (by simpa using hds.append (.nil hb'))
      exact ⟨_, '(' :: ((ds ++ before') ++ [')']), after, by simp, hb, .group inside, ha⟩

end

theorem expression_iff :
    Expression depth cs ts ↔ Spelled depth cs ts ∧ Grammar.Expression (ts.map Token.kind) :=
  ⟨fun h => ⟨h.spelled, h.kinds⟩, fun h => expression_of_spelled h.2 rfl h.1⟩

theorem Term.not_isBlank (h : Term depth cs ts) : ¬ Text.isBlank cs := by
  intro hb
  have lexeme {token} (hl : Lexeme depth cs token) : False := by
    obtain ⟨c, rest, rfl, hc⟩ := hl.exists_cons
    exact absurd (isBlank_cons.mp hb).1 (by simp [hc])
  cases h with
  | value h => exact lexeme (.value h)
  | group => exact absurd (isBlank_cons.mp hb).1 (by decide)

theorem Expression.not_isBlank (h : Expression depth cs ts) : ¬ Text.isBlank cs := by
  intro hb
  cases h with
  | term _ h => exact h.not_isBlank (isBlank_append.mp (isBlank_append.mp hb).2).1
  | operation _ _ h =>
    have right := (isBlank_cons.mp (isBlank_append.mp hb).2).2
    exact h.not_isBlank (isBlank_append.mp (isBlank_append.mp right).2).1

end Reckoner.Language
