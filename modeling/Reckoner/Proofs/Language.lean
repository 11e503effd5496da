import Mathlib.Data.List.Forall2
import Reckoner.Proofs.CallText
import Reckoner.Proofs.Number.Literal
import Reckoner.Token.Scan

/-! The language of expressions: which texts there are, and the tokens that each stands for. -/
namespace Reckoner.Language

open CallText (Plain)

/-- A letter, then letters, digits and underscores. -/
def IsName : List Char → Prop
  | [] => False
  | c :: cs => c.isAlpha ∧ ∀ d ∈ cs, d.isAlphanum ∨ d = '_'

instance : DecidablePred IsName
  | [] => isFalse not_false
  | c :: cs =>
    have : Decidable (∀ d ∈ cs, d.isAlphanum ∨ d = '_') := List.decidableBAll _ cs
    inferInstanceAs (Decidable (c.isAlpha ∧ ∀ d ∈ cs, d.isAlphanum ∨ d = '_'))

mutual

/-- Terms joined by operators, inside `depth` calls. Whitespace may stand around every term. -/
inductive Expression : (depth : Nat) → List Char → List Token → Prop
  | term {depth before cs after ts} :
      Text.isBlank before → Term depth cs ts → Text.isBlank after →
      Expression depth (before ++ (cs ++ after)) ts
  | operation {depth cs ts op before ds after us} :
      Expression depth cs ts → Text.isBlank before → Term depth ds us → Text.isBlank after →
      Expression depth (cs ++ op.symbol :: (before ++ (ds ++ after))) (ts ++ .operator op :: us)

inductive Term : Nat → List Char → List Token → Prop
  | value {depth cs token} : Value depth cs token → Term depth cs [token]
  | group {depth cs ts} : Expression depth cs ts →
      Term depth ('(' :: (cs ++ [')'])) (.leftParen :: (ts ++ [.rightParen]))

/-- Number literals and calls. Only so many calls may be nested in each other. -/
inductive Value : Nat → List Char → Token → Prop
  | number {depth} {l : Literal} : l.Numeral → l.value.isFinite →
      Value depth l.chars (.operand l.value)
  | emptyCall {depth} {name : String} {cs} :
      depth < nestingLimit → IsName name.toList → Text.isBlank cs →
      Value depth (name.toList ++ '(' :: (cs ++ [')'])) (.call name [])
  | call {depth} {name : String} {cs arguments} :
      depth < nestingLimit → IsName name.toList → Arguments (depth + 1) cs arguments →
      Value depth (name.toList ++ '(' :: (cs ++ [')'])) (.call name arguments)

/-- One expression or more, with commas between them. -/
inductive Arguments : Nat → List Char → List (List Token) → Prop
  | last {depth cs ts} : Expression depth cs ts → Arguments depth cs [ts]
  | cons {depth cs ts ds arguments} : Expression depth cs ts → Arguments depth ds arguments →
      Arguments depth (cs ++ ',' :: ds) (ts :: arguments)

end

variable {depth : Nat} {cs ds before after : List Char} {ts us : List Token} {token : Token}

section Characters

variable {c : Char}

theorem isBlank_append : Text.isBlank (cs ++ ds) ↔ Text.isBlank cs ∧ Text.isBlank ds := by
  simp [Text.isBlank]

theorem isBlank_cons : Text.isBlank (c :: cs) ↔ Text.isWhitespace c ∧ Text.isBlank cs := by
  simp [Text.isBlank]

theorem isDigit_iff : c.isDigit ↔ 48 ≤ c.toNat ∧ c.toNat ≤ 57 := Char.isDigit_iff_toNat

theorem isAlpha_iff :
    c.isAlpha ↔ (65 ≤ c.toNat ∧ c.toNat ≤ 90) ∨ (97 ≤ c.toNat ∧ c.toNat ≤ 122) := by
  simp only [Char.isAlpha, Char.isUpper, Char.isLower, Bool.or_eq_true, Bool.and_eq_true,
    decide_eq_true_eq, UInt32.le_iff_toNat_le]
  exact Iff.rfl

theorem isAlphanum_of_isDigit (h : c.isDigit) : c.isAlphanum := by
  simp [Char.isAlphanum, h]

theorem isDigit_eq_false_of_isAlpha (h : c.isAlpha) : c.isDigit = false := by
  rw [← Bool.not_eq_true, isDigit_iff]
  have := isAlpha_iff.mp h
  omega

theorem isWhitespace_of_nameChar (h : c.isAlphanum ∨ c = '_') : Text.isWhitespace c = false := by
  have range : ((65 ≤ c.toNat ∧ c.toNat ≤ 90) ∨ (97 ≤ c.toNat ∧ c.toNat ≤ 122)) ∨
      (48 ≤ c.toNat ∧ c.toNat ≤ 57) ∨ c.toNat = 95 := by
    rcases h with h | rfl
    · rcases Bool.or_eq_true _ _ ▸ h with h | h
      · exact Or.inl (isAlpha_iff.mp h)
      · exact Or.inr (Or.inl (isDigit_iff.mp h))
    · exact Or.inr (Or.inr rfl)
  simp only [Text.isWhitespace, Bool.or_eq_false_iff, Bool.and_eq_false_iff,
    decide_eq_false_iff_not, beq_eq_false_iff_ne]
  omega

theorem isAlphanum_of_isAlpha (h : c.isAlpha) : c.isAlphanum := by
  simp [Char.isAlphanum, h]

theorem plain_symbol_cons {op : Operator} (h : Plain depth cs) : Plain depth (op.symbol :: cs) := by
  refine h.cons ?_ ?_ ?_ <;> cases op <;> simp [Operator.symbol]

theorem plain_of_isBlank (h : Text.isBlank cs) : Plain depth cs := by
  refine Plain.of_forall ?_
  intro c hc
  have hw : Text.isWhitespace c := List.all_eq_true.mp h c hc
  refine ⟨?_, ?_, ?_⟩ <;> rintro rfl <;> exact absurd hw (by decide)

theorem IsName.exists_cons (h : IsName cs) : ∃ c ds, cs = c :: ds ∧ c.isAlpha := by
  cases cs with
  | nil => exact h.elim
  | cons c ds => exact ⟨c, ds, rfl, h.1⟩

theorem nameChar_of_isName (h : IsName cs) (hc : c ∈ cs) : c.isAlphanum ∨ c = '_' := by
  cases cs with
  | nil => exact absurd h not_false
  | cons d cs =>
    rcases List.mem_cons.mp hc with rfl | hc
    · exact Or.inl (isAlphanum_of_isAlpha h.1)
    · exact h.2 c hc

theorem plain_of_isName (h : IsName cs) : Plain depth cs := by
  refine Plain.of_forall ?_
  intro c hc
  have hn := nameChar_of_isName h hc
  refine ⟨?_, ?_, ?_⟩ <;> rintro rfl <;> exact absurd hn (by decide)

end Characters

section Literal

variable {l : Literal} {c : Char}

theorem digit_or_point (h : l.Numeral) (hc : c ∈ l.chars) : c.isDigit ∨ c = '.' := by
  rw [Literal.chars] at hc
  split at hc
  · exact Or.inl (h.whole c hc)
  · rcases List.mem_append.mp hc with hc | hc
    · exact Or.inl (h.whole c hc)
    · rcases List.mem_cons.mp hc with rfl | hc
      · exact Or.inr rfl
      · exact Or.inl (h.fraction c hc)

theorem plain_chars (h : l.Numeral) : Plain depth l.chars := by
  refine Plain.of_forall ?_
  intro c hc
  have hd := digit_or_point h hc
  refine ⟨?_, ?_, ?_⟩ <;> rintro rfl <;> exact absurd hd (by decide)

theorem chars_ne_nil (h : l.Numeral) : l.chars ≠ [] := by
  obtain ⟨whole, fraction⟩ := l
  have := h.digits
  cases fraction <;> simp_all [Literal.chars]

theorem chars_exists_cons (h : l.Numeral) :
    ∃ c cs, l.chars = c :: cs ∧ (c.isDigit ∨ c = '.') := by
  obtain ⟨c, cs, hc⟩ := List.exists_cons_of_ne_nil (chars_ne_nil h)
  exact ⟨c, cs, hc, digit_or_point h (hc ▸ List.mem_cons_self)⟩

end Literal

section Plain

mutual

theorem Expression.plain {k : Nat} : {depth : Nat} → {cs : List Char} → {ts : List Token} →
    Expression depth cs ts → Plain k cs
  | _, _, _, .term hb h ha => (plain_of_isBlank hb).append (h.plain.append (plain_of_isBlank ha))
  | _, _, _, .operation h hb ht ha =>
    have right := (plain_of_isBlank hb).append (ht.plain.append (plain_of_isBlank ha))
    h.plain.append (plain_symbol_cons right)

theorem Term.plain {k : Nat} : {depth : Nat} → {cs : List Char} → {ts : List Token} →
    Term depth cs ts → Plain k cs
  | _, _, _, .value h => h.plain
  | _, _, _, .group h => Plain.group h.plain

theorem Value.plain {k : Nat} : {depth : Nat} → {cs : List Char} → {token : Token} →
    Value depth cs token → Plain k cs
  | _, _, _, .number h _ => plain_chars h
  | _, _, _, .emptyCall _ hn hb => (plain_of_isName hn).append (Plain.group (plain_of_isBlank hb))
  | _, _, _, .call _ hn h => (plain_of_isName hn).append (Plain.group h.plain)

theorem Arguments.plain {k : Nat} : {depth : Nat} → {cs : List Char} →
    {arguments : List (List Token)} → Arguments depth cs arguments → Plain (k + 1) cs
  | _, _, _, .last h => h.plain
  | _, _, _, .cons h hs => h.plain.append (hs.plain.cons (by decide) (by decide) nofun)

end

end Plain

section Arguments

variable {arguments : List (List Token)}

/-- The arguments are the expressions between the commas outside parentheses. -/
theorem Arguments.segments : {depth : Nat} → {cs : List Char} → {arguments : List (List Token)} →
    Arguments depth cs arguments →
      List.Forall₂ (Expression depth) (CallText.segments 0 cs) arguments
  | _, _, _, .last h => by
    rw [(h.plain (k := 0)).segments]
    exact .cons h .nil
  | _, _, _, .cons h hs => by
    rw [h.plain.segments_append_comma]
    exact .cons h hs.segments

theorem Arguments.depthBehind {k : Nat} : {depth : Nat} → {cs : List Char} →
    {arguments : List (List Token)} → Arguments depth cs arguments →
      CallText.depthBehind k cs = some k
  | _, _, _, .last h => h.plain.depthBehind
  | _, _, _, .cons h hs => h.plain.depthBehind_append_comma.trans hs.depthBehind

theorem arguments_of_forall₂ {texts : List (List Char)} (hn : texts ≠ [])
    (h : List.Forall₂ (Expression depth) texts arguments) :
    Arguments depth (List.intercalate [','] texts) arguments := by
  induction h with
  | nil => exact absurd rfl hn
  | @cons text argument texts arguments h hs ih =>
    cases hs with
    | nil => simpa [List.intercalate] using Arguments.last h
    | cons => simpa [List.intercalate] using Arguments.cons h (ih (by simp))

theorem arguments_iff :
    Arguments depth cs arguments ↔
      List.Forall₂ (Expression depth) (CallText.segments 0 cs) arguments := by
  refine ⟨Arguments.segments, ?_⟩
  intro h
  have := arguments_of_forall₂ (CallText.segments_ne_nil 0 cs) h
  rwa [CallText.intercalate_segments] at this

end Arguments

end Reckoner.Language
