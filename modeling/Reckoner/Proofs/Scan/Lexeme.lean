import Reckoner.Proofs.Language.Spelling
import Reckoner.Proofs.Logged

/-! Scanning finds a token just when the text goes on with one. -/
namespace Reckoner.Scan

open CallText Reckoner.Language

variable {scanner : Option Scanner} {depth start opened more : Nat} {place : Grammar.Place}
  {c : Char} {cs b : List Char} {token : Token} {tokens : List Token}
  {arguments : List (List Token)}

/-- What scans the arguments of calls in the right way, inside `depth` other calls. -/
def Scans (depth : Nat) : Option Scanner → Prop
  | none => nestingLimit ≤ depth
  | some scan => depth < nestingLimit ∧ ∀ cs ts,
      (scan cs).result = .ok ts ↔ (Text.isBlank cs ∧ ts = []) ∨ Expression (depth + 1) cs ts

theorem number_eq_ok_iff (hc : c.isDigit ∨ c = '.') :
    number start (c :: cs) = .ok ⟨token, more⟩ ↔
      ∃ (l : Literal) (rest : List Char), l.Numeral ∧ l.value.isFinite ∧
        token = .operand l.value ∧ c :: cs = l.chars ++ rest ∧ Literal.Stops rest ∧
        more + 1 = l.chars.length := by
  constructor
  · intro h
    have parts := @Literal.chars_read_append (c :: cs)
    simp only [number] at h
    split at h
    · split at h <;> cases h
    next hp =>
      obtain ⟨hl, hr⟩ := Literal.numeral_of_read hc hp
      split at h
      next hf =>
        obtain ⟨rfl, rfl⟩ := Lexeme.mk.inj (Except.ok.inj h)
        have := List.length_pos_iff.mpr (chars_ne_nil hl)
        exact ⟨_, _, hl, hf, rfl, parts.symm, hr, by omega⟩
      next => cases h
  · rintro ⟨l, rest, hl, hf, rfl, hcs, hr, hm⟩
    have hp : rest.head? ≠ some '.' := fun he => (hr _ he).2 rfl
    simp [number, hcs, Literal.read_append hl hr, hp, hf, ← hm]

theorem takeWhile_name {name : String} {rest : List Char} (h : IsName name.toList) :
    (name.toList ++ '(' :: rest).takeWhile isNameChar = name.toList ∧
      (name.toList ++ '(' :: rest).dropWhile isNameChar = '(' :: rest := by
  have all : ∀ c ∈ name.toList, isNameChar c := by
    intro c hc
    simpa [isNameChar] using nameChar_of_isName h hc
  have paren : isNameChar '(' = false := by decide
  rw [List.takeWhile_append_of_pos all, List.dropWhile_append_of_pos all]
  simp [paren]

theorem isName_takeWhile (hc : c.isAlpha) : IsName ((c :: cs).takeWhile isNameChar) := by
  have first : isNameChar c := by simp [isNameChar, isAlphanum_of_isAlpha hc]
  rw [List.takeWhile_cons_of_pos first]
  refine ⟨hc, ?_⟩
  intro d hd
  have := List.all_eq_true.mp List.all_takeWhile d hd
  simpa [isNameChar] using this

theorem mapM_segments_iff {scan : Scanner} (hs : Scans depth (some scan)) :
    (∀ text ∈ segments 0 b, ¬ Text.isBlank text) ∧
        ((segments 0 b).mapM scan).result = .ok arguments ↔
      Arguments (depth + 1) b arguments := by
  have scanned (text : List Char) (ts : List Token) :
      ¬ Text.isBlank text ∧ (scan text).result = .ok ts ↔ Expression (depth + 1) text ts := by
    rw [hs.2]
    constructor
    · rintro ⟨hn, ⟨hb, -⟩ | he⟩
      · exact absurd hb hn
      · exact he
    · intro he
      exact ⟨he.not_isBlank, Or.inr he⟩
  rw [Logged.result_mapM, mapM_eq_ok_iff, ← List.forall₂_and_left, arguments_iff]
  constructor
  · intro h
    exact h.imp fun text ts => (scanned text ts).mp
  · intro h
    exact h.imp fun text ts => (scanned text ts).mpr

/-- The arguments of a call are found in its body just when the language has them there. -/
theorem body_scanned_iff {scan : Scanner} (hs : Scans depth (some scan)) :
    (∃ texts, CallText.arguments b = .ok texts ∧ (texts.mapM scan).result = .ok arguments) ↔
      (Text.isBlank b ∧ arguments = []) ∨ Arguments (depth + 1) b arguments := by
  rw [← mapM_segments_iff hs]
  constructor
  · rintro ⟨texts, ht, hm⟩
    rcases arguments_eq_ok_iff.mp ht with ⟨hb, rfl⟩ | ⟨-, rfl, hn⟩
    · exact Or.inl ⟨hb, (Except.ok.inj hm).symm⟩
    · exact Or.inr ⟨hn, hm⟩
  · rintro (⟨hb, rfl⟩ | ⟨hn, hm⟩)
    · exact ⟨[], arguments_eq_ok_iff.mpr (Or.inl ⟨hb, rfl⟩), rfl⟩
    · have blank : ¬ Text.isBlank b := by
        intro hb
        have whole : Plain 0 b := plain_of_isBlank hb
        exact hn b (by simp [whole.segments]) hb
      exact ⟨_, arguments_eq_ok_iff.mpr (Or.inr ⟨blank, rfl, hn⟩), hm⟩

theorem call_eq_ok_iff {scan : Scanner} :
    (call (some scan) start cs).result = .ok ⟨token, more⟩ ↔
      ∃ inside b arguments, cs.dropWhile isNameChar = '(' :: inside ∧ body 0 inside = some b ∧
        (∃ texts, CallText.arguments b = .ok texts ∧
          (texts.mapM scan).result = .ok arguments) ∧
        token = .call (String.ofList (cs.takeWhile isNameChar)) arguments ∧
        more = (cs.takeWhile isNameChar).length + b.length + 1 := by
  constructor
  · intro h
    simp only [call] at h
    split at h
    next inside hi =>
      split at h
      · cases h
      next b hb =>
        split at h
        · cases h
        next texts ht =>
          rw [Logged.result_bind, bind_eq_ok_iff] at h
          obtain ⟨arguments, hm, hr⟩ := h
          obtain ⟨rfl, rfl⟩ := Lexeme.mk.inj (Except.ok.inj hr)
          exact ⟨inside, b, arguments, hi, hb, ⟨texts, ht, hm⟩, rfl, rfl⟩
    next => cases h
  · rintro ⟨inside, b, arguments, hi, hb, ⟨texts, ht, hm⟩, rfl, rfl⟩
    simp only [call, hi, hb, ht, Logged.result_bind, hm]
    rfl

theorem call_scanned {scan : Scanner} {name : String} {rest : List Char}
    (hs : Scans depth (some scan)) (hn : IsName name.toList) (hb : depthBehind 0 b = some 0)
    (ha : (Text.isBlank b ∧ arguments = []) ∨ Arguments (depth + 1) b arguments) :
    (call (some scan) start (name.toList ++ '(' :: (b ++ ')' :: rest))).result =
      .ok ⟨.call name arguments, name.toList.length + b.length + 1⟩ := by
  obtain ⟨htake, hdrop⟩ := @takeWhile_name name (b ++ ')' :: rest) hn
  refine call_eq_ok_iff.mpr ⟨_, b, arguments, hdrop, ?_, (body_scanned_iff hs).mpr ha, ?_, ?_⟩
  · exact body_eq_some_iff.mpr ⟨hb, rest, rfl⟩
  · rw [htake, String.ofList_toList]
  · rw [htake]

theorem call_none {cs : List Char} {found : Lexeme} : (call none start cs).result ≠ .ok found := by
  rw [call]
  split <;> nofun

/-- A call is scanned just when it is a value of the language. -/
theorem call_scanned_iff (hs : Scans depth scanner) (hc : c.isAlpha) :
    (call scanner start (c :: cs)).result = .ok ⟨token, more⟩ ↔
      ∃ text rest, c :: cs = text ++ rest ∧ more + 1 = text.length ∧
        Value depth text token ∧ token.kind = .call := by
  constructor
  · intro h
    cases scanner with
    | none => exact absurd h call_none
    | some scan =>
      obtain ⟨inside, b, arguments, hi, hb, ha, rfl, rfl⟩ := call_eq_ok_iff.mp h
      have parts := @List.takeWhile_append_dropWhile _ isNameChar (c :: cs)
      have hn := @isName_takeWhile c cs hc
      generalize (c :: cs).takeWhile isNameChar = name at *
      obtain ⟨-, rest, rfl⟩ := body_eq_some_iff.mp hb
      have hn' : IsName (String.ofList name).toList := by rwa [String.toList_ofList]
      refine ⟨name ++ '(' :: (b ++ [')']), rest, ?_, ?_, ?_, rfl⟩
      · rw [← parts, hi]
        simp
      · simp
        omega
      · rcases (body_scanned_iff hs).mp ha with ⟨hb, rfl⟩ | ha
        · simpa using Value.emptyCall hs.1 hn' hb
        · simpa using Value.call hs.1 hn' ha
  · rintro ⟨text, rest, hcs, hm, hv, hk⟩
    cases scanner with
    | none =>
      have hd : nestingLimit ≤ depth := hs
      cases hv with
      | number => cases hk
      | emptyCall h | call h => omega
    | some scan =>
      have reached {name : String} {b : List Char}
          (hm : more + 1 = (name.toList ++ '(' :: (b ++ [')'])).length) :
          more = name.toList.length + b.length + 1 := by
        simp at hm ⊢
        omega
      cases hv with
      | number => cases hk
      | emptyCall _ hn hb =>
        rw [hcs, reached hm]
        simpa using call_scanned hs hn (plain_of_isBlank hb).depthBehind (Or.inl ⟨hb, rfl⟩)
      | call _ hn ha =>
        rw [hcs, reached hm]
        simpa using call_scanned hs hn ha.depthBehind (Or.inr ha)

theorem lexeme_operator (op : Operator) :
    lexeme scanner start opened op.symbol cs = pure ⟨.operator op, 0⟩ := by
  cases op <;> rfl

theorem lexeme_numeral (hc : c.isDigit ∨ c = '.') :
    lexeme scanner start opened c cs = .ofExcept (number start (c :: cs)) := by
  have hl : c ≠ '(' := by rintro rfl; exact absurd hc (by decide)
  have hr : c ≠ ')' := by rintro rfl; exact absurd hc (by decide)
  simp [lexeme, hl, hr, hc]

theorem lexeme_alpha (hc : c.isAlpha) :
    lexeme scanner start opened c cs = call scanner start (c :: cs) := by
  have hl : c ≠ '(' := by rintro rfl; exact absurd hc (by decide)
  have hr : c ≠ ')' := by rintro rfl; exact absurd hc (by decide)
  have hp : c ≠ '.' := by rintro rfl; exact absurd hc (by decide)
  have hd : c.isDigit = false := isDigit_eq_false_of_isAlpha hc
  simp [lexeme, hl, hr, hp, hd, hc]

/-- A text goes on with a token of the language. Inside no parentheses it may not close one, and
what follows a literal may not carry it on. -/
def Begins (depth opened : Nat) (cs : List Char) (found : Lexeme) : Prop :=
  ∃ text rest, cs = text ++ rest ∧ found.more + 1 = text.length ∧
    Language.Lexeme depth text found.token ∧ (found.token.kind = .rightParen → opened ≠ 0) ∧
    (found.token.kind = .operand → Literal.Stops rest)

theorem begins_single (hl : Language.Lexeme depth [c] token)
    (ho : token.kind = .rightParen → opened ≠ 0) (hk : token.kind ≠ .operand) :
    Begins depth opened (c :: cs) ⟨token, 0⟩ :=
  ⟨[c], cs, rfl, rfl, hl, ho, fun he => absurd he hk⟩

theorem begins_of_lexeme (hs : Scans depth scanner)
    (h : (lexeme scanner start opened c cs).result = .ok ⟨token, more⟩) :
    Begins depth opened (c :: cs) ⟨token, more⟩ := by
  by_cases hnum : c.isDigit ∨ c = '.'
  · rw [lexeme_numeral hnum, Logged.result_ofExcept, number_eq_ok_iff hnum] at h
    obtain ⟨l, rest, hl, hf, rfl, hcs, hr, hm⟩ := h
    exact ⟨_, rest, hcs, hm, .value (.number hl hf), nofun, fun _ => hr⟩
  by_cases halpha : c.isAlpha
  · rw [lexeme_alpha halpha, call_scanned_iff hs halpha] at h
    obtain ⟨text, rest, hcs, hm, hv, hk⟩ := h
    exact ⟨text, rest, hcs, hm, .value hv, by simp [hk], by simp [hk]⟩
  have hnum' : (c.isDigit || c == '.') = false := by simpa using hnum
  simp only [lexeme, hnum', halpha, if_false, Bool.false_eq_true] at h
  split at h
  next hc =>
    obtain ⟨rfl, rfl⟩ := Lexeme.mk.inj (Except.ok.inj h)
    exact begins_single (hc ▸ .leftParen) nofun nofun
  split at h
  next hc =>
    split at h
    · cases h
    next ho =>
      obtain ⟨rfl, rfl⟩ := Lexeme.mk.inj (Except.ok.inj h)
      exact begins_single (hc ▸ .rightParen) (fun _ => ho) nofun
  split at h
  next op hop =>
    obtain ⟨rfl, rfl⟩ := Lexeme.mk.inj (Except.ok.inj h)
    exact begins_single (Operator.symbol_of_ofSymbol? hop ▸ .operator op) nofun nofun
  next => cases h

theorem lexeme_of_begins (hs : Scans depth scanner)
    (h : Begins depth opened (c :: cs) ⟨token, more⟩) :
    (lexeme scanner start opened c cs).result = .ok ⟨token, more⟩ := by
  obtain ⟨text, rest, hcs, hm, hl, ho, hr⟩ := h
  cases hl with
  | leftParen =>
    obtain ⟨rfl, -⟩ := List.cons.inj hcs
    obtain rfl : more = 0 := Nat.succ.inj hm
    rfl
  | rightParen =>
    obtain ⟨rfl, -⟩ := List.cons.inj hcs
    obtain rfl : more = 0 := Nat.succ.inj hm
    simp [lexeme, ho rfl]
  | operator op =>
    obtain ⟨rfl, -⟩ := List.cons.inj hcs
    obtain rfl : more = 0 := Nat.succ.inj hm
    rw [lexeme_operator, Logged.result_pure]
  | value hv =>
    have alpha {name : String} {tail : List Char} (hn : IsName name.toList)
        (hcs : c :: cs = name.toList ++ tail ++ rest) : c.isAlpha := by
      obtain ⟨d, ds, hd, ha⟩ := hn.exists_cons
      rw [hd] at hcs
      obtain ⟨rfl, -⟩ := List.cons.inj hcs
      exact ha
    have hv' := hv
    cases hv with
    | number hl hf =>
      have hnum : c.isDigit ∨ c = '.' := by
        obtain ⟨d, ds, hd, hnum⟩ := chars_exists_cons hl
        rw [hd] at hcs
        obtain ⟨rfl, -⟩ := List.cons.inj hcs
        exact hnum
      rw [lexeme_numeral hnum, Logged.result_ofExcept, number_eq_ok_iff hnum]
      exact ⟨_, rest, hl, hf, rfl, hcs, hr rfl, hm⟩
    | emptyCall _ hn | call _ hn =>
      rw [lexeme_alpha (alpha hn hcs), call_scanned_iff hs (alpha hn hcs)]
      exact ⟨_, rest, hcs, hm, hv', rfl⟩

theorem lexeme_scanned_iff (hs : Scans depth scanner) :
    (lexeme scanner start opened c cs).result = .ok ⟨token, more⟩ ↔
      Begins depth opened (c :: cs) ⟨token, more⟩ :=
  ⟨begins_of_lexeme hs, lexeme_of_begins hs⟩

end Reckoner.Scan
