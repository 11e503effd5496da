import Reckoner.Number.Layout
import Reckoner.Proofs.Number.Decimal

/-! A literal is read as far as it goes. The plain text of a double is a literal that reads back as
the same double. -/
namespace Reckoner

namespace Literal

variable {l : Literal} {cs rest : List Char} {c : Char} {d : Decimal}

/-- Digits, or digits around a point with one behind it at least. -/
structure Numeral (l : Literal) : Prop where
  whole : ∀ c ∈ l.whole, c.isDigit
  fraction : ∀ c ∈ l.fraction, c.isDigit
  digits : l.whole ≠ [] ∨ l.fraction ≠ []

/-- What does not carry a literal on. -/
def Stops (rest : List Char) : Prop := ∀ c, rest.head? = some c → ¬ c.isDigit ∧ c ≠ '.'

theorem takeWhile_digits (h : ∀ c ∈ cs, c.isDigit) (hr : Stops rest ∨ rest.head? = some '.') :
    (cs ++ rest).takeWhile Char.isDigit = cs ∧ (cs ++ rest).dropWhile Char.isDigit = rest := by
  have head : ∀ c, rest.head? = some c → c.isDigit = false := by
    intro c hc
    rcases hr with hr | hr
    · simpa using (hr c hc).1
    · obtain rfl : c = '.' := Option.some.inj (hc.symm.trans hr)
      rfl
  rw [List.takeWhile_append_of_pos h, List.dropWhile_append_of_pos h]
  cases rest with
  | nil => simp
  | cons c rest => simp [head c rfl]

theorem read_append (h : l.Numeral) (hr : Stops rest) : read (l.chars ++ rest) = (l, rest) := by
  obtain ⟨whole, fraction⟩ := l
  by_cases hf : fraction = []
  · subst hf
    obtain ⟨ht, hd⟩ := takeWhile_digits h.whole (Or.inl hr)
    simp only [read, chars, List.isEmpty_nil, if_true, ht, hd]
    split
    next => exact absurd rfl (hr '.' rfl).2
    next => rfl
  · have point : ('.' :: (fraction ++ rest)).head? = some '.' := rfl
    obtain ⟨ht, hd⟩ := takeWhile_digits h.whole (Or.inr point)
    obtain ⟨hft, hfd⟩ := takeWhile_digits h.fraction (Or.inl hr)
    simp [read, chars, hf, ht, hd, hft, hfd]

theorem isDigit_of_mem_takeWhile (h : c ∈ cs.takeWhile Char.isDigit) : c.isDigit :=
  List.all_eq_true.mp List.all_takeWhile c h

theorem isDigit_of_mem_read : (∀ c ∈ (read cs).1.whole, c.isDigit) ∧
    ∀ c ∈ (read cs).1.fraction, c.isDigit := by
  constructor
  · intro c hc
    rw [whole_read] at hc
    exact isDigit_of_mem_takeWhile hc
  · simp only [read]
    split
    · split
      · simp
      · exact fun c => isDigit_of_mem_takeWhile
    · simp

/-- The rest goes on with no digit. -/
theorem not_isDigit_of_read (h : (read cs).2.head? = some c) : ¬ c.isDigit := by
  have stop (ds : List Char) (hd : (ds.dropWhile Char.isDigit).head? = some c) : ¬ c.isDigit := by
    have := List.head?_dropWhile_not Char.isDigit ds
    simpa [hd] using this
  revert h
  simp only [read]
  split
  · split
    · rintro ⟨⟩
      decide
    · exact stop _
  · exact stop cs

theorem numeral_of_read (hc : c.isDigit ∨ c = '.') (hp : (read (c :: cs)).2.head? ≠ some '.') :
    (read (c :: cs)).1.Numeral ∧ Stops (read (c :: cs)).2 := by
  obtain ⟨hw, hf⟩ := @isDigit_of_mem_read (c :: cs)
  have stops : Stops (read (c :: cs)).2 := fun d hd =>
    ⟨not_isDigit_of_read hd, fun he => hp (he ▸ hd)⟩
  refine ⟨⟨hw, hf, ?_⟩, stops⟩
  by_cases hn : (read (c :: cs)).1.whole = [] ∧ (read (c :: cs)).1.fraction = []
  · have parts := @chars_read_append (c :: cs)
    have rest : (read (c :: cs)).2 = c :: cs := by simpa [chars, hn.1, hn.2] using parts
    have := stops c (by rw [rest]; rfl)
    exact absurd hc (by simpa using this)
  · exact Decidable.not_and_iff_not_or_not.mp hn

/-- The digits of a decimal, with the zeros that its positional form needs before them. -/
theorem isDigit_zeros_append_digits {n m : Nat}
    (h : c ∈ List.replicate n '0' ++ Nat.toDigits 10 m) : c.isDigit := by
  rcases List.mem_append.mp h with h | h
  · rw [(List.mem_replicate.mp h).2]
    decide
  · exact Nat.isDigit_of_mem_toDigits (by decide) (by decide) h

theorem numeral_ofDecimal (d : Decimal) : (ofDecimal d).Numeral := by
  obtain ⟨m, e | e⟩ := d
  · refine ⟨fun c hc => ?_, by simp [ofDecimal], Or.inl ?_⟩
    · rcases List.mem_append.mp hc with hc | hc
      · exact Nat.isDigit_of_mem_toDigits (by decide) (by decide) hc
      · rw [(List.mem_replicate.mp hc).2]
        decide
    · simp [ofDecimal, Nat.toDigits_ne_nil]
  · refine ⟨fun c hc => ?_, fun c hc => ?_, Or.inl ?_⟩
    · exact isDigit_zeros_append_digits (List.mem_of_mem_take hc)
    · exact isDigit_zeros_append_digits (List.mem_of_mem_drop hc)
    · intro he
      have := congrArg List.length he
      simp [ofDecimal] at this
      omega

/-- The point of a positional form does not change the value. -/
theorem value_ofDecimal (d : Decimal) : (ofDecimal d).value = d.toFloat := by
  refine congrArg Number.ofCode ?_
  obtain ⟨m, e | e⟩ := d
  · simp only [ofDecimal, decimal, List.append_nil, Nat.ofDigitChars_append,
      Nat.ofDigitChars_ten_toDigits, Nat.ofDigitChars_replicate_zero, List.length_nil]
    rw [Nat.mul_comm, Decimal.code_shift]
    simp
  · simp only [ofDecimal, decimal, List.take_append_drop, Nat.ofDigitChars_append,
      Nat.ofDigitChars_replicate_zero, Nat.mul_zero, Nat.ofDigitChars_ten_toDigits,
      List.length_drop, List.length_append, List.length_replicate]
    congr 2
    rw [Int.ofNat_eq_natCast]
    omega

theorem isNegative_value (l : Literal) : Number.isNegative l.value = false :=
  Number.isNegative_ofCode l.decimal.code_le

end Literal

namespace Layout

variable {x : Float}

theorem isNaN_eq_false_and_isInf_eq_false (hx : x.isFinite) :
    x.isNaN = false ∧ x.isInf = false := by
  simp only [Float.isFinite, Float.isNaN, Float.isInf, Float.Model.isFinite, Float.Model.isNaN,
    Float.Model.isInf] at hx ⊢
  generalize x.toModel.unpack = u at hx
  cases u with
  | notANumber | infinity => exact absurd hx Bool.false_ne_true
  | zero | finite => exact ⟨rfl, rfl⟩

theorem chars_plain (hx : x.isFinite) (hn : Number.isNegative x = false) :
    plain.chars x = (Literal.ofDecimal (Decimal.shortest (Number.code x))).chars := by
  obtain ⟨hnan, hinf⟩ := isNaN_eq_false_and_isInf_eq_false hx
  generalize hd : Decimal.shortest (Number.code x) = d
  have positional : plain.isPositional d := rfl
  simp only [chars, hnan, hn, hinf, magnitude, hd, positional, if_true, positionalChars]
  obtain ⟨whole, fraction⟩ := Literal.ofDecimal d
  cases fraction <;> rfl

/-- What the plain text of a double is: a literal for this double. -/
theorem exists_literal (hx : x.isFinite) (hn : Number.isNegative x = false) :
    ∃ l : Literal, l.Numeral ∧ plain.chars x = l.chars ∧ l.value = x := by
  refine ⟨_, Literal.numeral_ofDecimal _, chars_plain hx hn, ?_⟩
  rw [Literal.value_ofDecimal, Decimal.toFloat,
    Decimal.code_shortest (Number.isFinite_iff.mp hx), Number.ofCode_code hn]

end Layout

end Reckoner
