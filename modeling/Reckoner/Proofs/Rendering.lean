import Reckoner.Proofs.Scan

/-! Well-formed sequences of tokens: those that texts are tokenized to. Their written form is
tokenized back to the same sequence. -/
namespace Reckoner

/-- A token with a text of its own, wherever calls may be nested `levels` deep. -/
inductive Writable : (levels : Nat) → Token → Prop
  | operand {levels x} : x.isFinite → Number.isNegative x = false → Writable levels (.operand x)
  | operator {levels op} : Writable levels (.operator op)
  | leftParen {levels} : Writable levels .leftParen
  | rightParen {levels} : Writable levels .rightParen
  | call {levels} {name : String} {arguments : List (List Token)} :
      Language.IsName name.toList →
      (∀ argument ∈ arguments, Grammar.Expression (argument.map Token.kind)) →
      (∀ argument ∈ arguments, ∀ token ∈ argument, Writable levels token) →
      Writable (levels + 1) (.call name arguments)

/-- Nothing, or values joined by operators, in tokens that can be written. -/
structure WellFormed (tokens : List Token) : Prop where
  shape : tokens = [] ∨ Grammar.Expression (tokens.map Token.kind)
  writable : ∀ token ∈ tokens, Writable nestingLimit token

namespace Language

variable {depth levels : Nat} {cs before : List Char} {tokens : List Token} {token : Token}
  {arguments : List (List Token)}

theorem writable_call {name : String} (hl : depth < nestingLimit) (hn : IsName name.toList)
    (h : ∀ argument ∈ arguments, Grammar.Expression (argument.map Token.kind) ∧
      ∀ token ∈ argument, Writable (nestingLimit - (depth + 1)) token) :
    Writable (nestingLimit - depth) (.call name arguments) := by
  have inner : nestingLimit - depth = nestingLimit - (depth + 1) + 1 := by omega
  rw [inner]
  exact .call hn (fun argument ha => (h argument ha).1) fun argument ha => (h argument ha).2

mutual

theorem Expression.writable : {depth : Nat} → {cs : List Char} → {ts : List Token} →
    Expression depth cs ts → ∀ token ∈ ts, Writable (nestingLimit - depth) token
  | _, _, _, .term _ h _ => h.writable
  | _, _, _, .operation h _ h' _ =>
    List.forall_mem_append.mpr ⟨h.writable, List.forall_mem_cons.mpr ⟨.operator, h'.writable⟩⟩

theorem Term.writable : {depth : Nat} → {cs : List Char} → {ts : List Token} →
    Term depth cs ts → ∀ token ∈ ts, Writable (nestingLimit - depth) token
  | _, _, _, .value h => List.forall_mem_singleton.mpr h.writable
  | _, _, _, .group h =>
    have last := List.forall_mem_singleton.mpr .rightParen
    List.forall_mem_cons.mpr ⟨.leftParen, List.forall_mem_append.mpr ⟨h.writable, last⟩⟩

theorem Value.writable : {depth : Nat} → {cs : List Char} → {token : Token} →
    Value depth cs token → Writable (nestingLimit - depth) token
  | _, _, _, .number _ hf => .operand hf (Literal.isNegative_value _)
  | _, _, _, .emptyCall hl hn _ => writable_call hl hn nofun
  | _, _, _, .call hl hn h => writable_call hl hn h.writable

theorem Arguments.writable : {depth : Nat} → {cs : List Char} → {arguments : List (List Token)} →
    Arguments depth cs arguments → ∀ argument ∈ arguments,
      Grammar.Expression (argument.map Token.kind) ∧
        ∀ token ∈ argument, Writable (nestingLimit - depth) token
  | _, _, _, .last h => List.forall_mem_singleton.mpr ⟨h.kinds, h.writable⟩
  | _, _, _, .cons h hs => List.forall_mem_cons.mpr ⟨⟨h.kinds, h.writable⟩, hs.writable⟩

end

theorem Arguments.prepend (hb : Text.isBlank before) (h : Arguments depth cs arguments) :
    Arguments depth (before ++ cs) arguments := by
  have first {ds : List Char} {ts : List Token} (he : Expression depth ds ts) :
      Expression depth (before ++ ds) ts := by
    obtain ⟨hs, hk⟩ := expression_iff.mp he
    exact expression_iff.mpr ⟨hs.prepend hb, hk⟩
  cases h with
  | last h => exact .last (first h)
  | cons h hs =>
    rw [← List.append_assoc]
    exact .cons (first h) hs

theorem spelled_renderChars (h : ∀ token ∈ tokens, Lexeme depth token.chars token) :
    Spelled depth (renderChars tokens) tokens := by
  induction tokens with
  | nil => exact .nil rfl
  | cons token tokens ih =>
    obtain ⟨ht, hs⟩ := List.forall_mem_cons.mp h
    cases tokens with
    | nil => simpa [renderChars, List.intercalate] using Spelled.single ht
    | cons next tokens =>
      have space : Text.isBlank [' '] := rfl
      have rest := Spelled.lexeme_append ht ((ih hs).prepend space)
      simpa [renderChars, List.intercalate] using rest

theorem arguments_renderChars (hn : arguments ≠ [])
    (h : ∀ argument ∈ arguments, Expression depth (renderChars argument) argument) :
    Arguments depth (List.intercalate [',', ' '] (arguments.map renderChars)) arguments := by
  induction arguments with
  | nil => exact absurd rfl hn
  | cons argument arguments ih =>
    obtain ⟨ha, hs⟩ := List.forall_mem_cons.mp h
    cases arguments with
    | nil => simpa [List.intercalate] using Arguments.last ha
    | cons next arguments =>
      have space : Text.isBlank [' '] := rfl
      have rest := Arguments.cons ha ((ih nofun hs).prepend space)
      simpa [List.intercalate] using rest

/-- The written form of a token is a text of it. -/
theorem lexeme_chars (hd : depth + levels = nestingLimit) (h : Writable levels token) :
    Lexeme depth token.chars token := by
  induction h generalizing depth with
  | operand hf hn =>
    obtain ⟨l, hl, hc, rfl⟩ := Layout.exists_literal hf hn
    rw [Token.chars, hc]
    exact .value (.number hl hf)
  | operator => exact .operator _
  | leftParen => exact .leftParen
  | rightParen => exact .rightParen
  | @call levels name arguments hn hk _ ih =>
    have limit : depth < nestingLimit := by omega
    rw [Token.chars_call]
    by_cases ha : arguments = []
    · subst ha
      exact .value (.emptyCall limit hn rfl)
    · refine .value (.call limit hn (arguments_renderChars ha fun argument hm => ?_))
      have inner : depth + 1 + levels = nestingLimit := by omega
      have spelled := spelled_renderChars fun token ht => ih argument hm token ht inner
      exact expression_iff.mpr ⟨spelled, hk argument hm⟩

end Language

theorem wellFormed_of_tokenize {text : String} {tokens : List Token}
    (h : (tokenize text).result = .ok tokens) : WellFormed tokens := by
  rw [Scan.result_tokenize, Scan.fragment_eq_ok_iff (Nat.zero_add _)] at h
  rcases h with ⟨-, rfl⟩ | h
  · exact ⟨Or.inl rfl, nofun⟩
  · exact ⟨Or.inr h.kinds, h.writable⟩

theorem WellFormed.tokenize {tokens : List Token} (h : WellFormed tokens) :
    (tokenize (render tokens)).result = .ok tokens := by
  have outside : 0 + nestingLimit = nestingLimit := Nat.zero_add _
  have spelled : Language.Spelled 0 (renderChars tokens) tokens :=
    Language.spelled_renderChars fun token ht => Language.lexeme_chars outside (h.writable token ht)
  rw [Scan.result_tokenize, render, String.toList_ofList, Scan.fragment_eq_ok_iff outside]
  rcases h.shape with rfl | hk
  · exact Or.inl ⟨rfl, rfl⟩
  · exact Or.inr (Language.expression_iff.mpr ⟨spelled, hk⟩)

/-- Rendering and tokenizing are inverse to each other on the well-formed sequences, and only these
are the result of tokenizing. -/
theorem tokenize_render_of_wellFormed :
    (∀ text tokens, (tokenize text).result = .ok tokens → WellFormed tokens) ∧
      ∀ tokens, WellFormed tokens → (tokenize (render tokens)).result = .ok tokens :=
  ⟨fun _ _ => wellFormed_of_tokenize, fun _ => WellFormed.tokenize⟩

theorem tokenize_render_nested_call :
    WellFormed [.operand 2.5, .operator .multiply,
        .call "max" [[.operand 1.0], [.leftParen, .call "f" [], .rightParen]]] ∧
      (tokenize "2.5 * max(1, ( f() ))").result = .ok [.operand 2.5, .operator .multiply,
        .call "max" [[.operand 1.0], [.leftParen, .call "f" [], .rightParen]]] := by
  have half : Writable 64 (.operand 2.5) := .operand (by decide +kernel) (by decide +kernel)
  have one : Writable 63 (.operand 1.0) := .operand (by decide +kernel) (by decide +kernel)
  have inner : Writable 63 (.call "f" []) := .call (by decide) nofun nofun
  have outer : Writable 64
      (.call "max" [[.operand 1.0], [.leftParen, .call "f" [], .rightParen]]) := by
    refine .call (by decide) (by decide) ?_
    simp [one, inner, Writable.leftParen, Writable.rightParen]
  have wellFormed : WellFormed [.operand 2.5, .operator .multiply,
      .call "max" [[.operand 1.0], [.leftParen, .call "f" [], .rightParen]]] := by
    refine ⟨by decide, ?_⟩
    simp [nestingLimit, half, outer, Writable.operator]
  have written : render [.operand 2.5, .operator .multiply,
      .call "max" [[.operand 1.0], [.leftParen, .call "f" [], .rightParen]]] =
        "2.5 * max(1, ( f() ))" := by
    decide +kernel
  have back := tokenize_render_of_wellFormed.2 _ wellFormed
  rw [written] at back
  exact ⟨tokenize_render_of_wellFormed.1 _ _ back, back⟩

end Reckoner
