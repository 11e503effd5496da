import Reckoner.Proofs.Scan

/-! What is wrong with a text that cannot be tokenized, and where. A failure to scan a token points
at its place. -/
namespace Reckoner

open CallText Reckoner.Language

/-- The text of an argument of some call in a text. -/
def IsArgument (text argument : List Char) : Prop :=
  ∃ before name body after, text = before ++ (name ++ '(' :: (body ++ ')' :: after)) ∧
    IsName name ∧ depthBehind 0 body = some 0 ∧ argument ∈ segments 0 body ∧
    ¬ Text.isBlank argument

/-- What is wrong with a fragment inside `depth` calls, as a failure reports it. The index is the
length of the text before the place. -/
inductive Fault (depth : Nat) (text : List Char) : Failure → Prop
  /-- A parenthesis closes what has not been opened. -/
  | unmatchedParen {before after} : text = before ++ ')' :: after →
      before.count '(' = before.count ')' →
      Fault depth text
        { cause := .unmatchedRightParen, index := some before.length, token := some ")" }
  /-- No token begins with the character. -/
  | unknownCharacter {before c after} : text = before ++ c :: after →
      Text.isWhitespace c = false → c.isAlphanum = false → c ≠ '.' → c ≠ '(' → c ≠ ')' →
      (∀ op : Operator, c ≠ op.symbol) →
      Fault depth text
        { cause := .unknownCharacter, index := some before.length, token := some c.toString }
  /-- No digit stands behind the point. -/
  | misplacedPoint {before after} : text = before ++ '.' :: after →
      (∀ c, after.head? = some c → ¬ c.isDigit) →
      Fault depth text { cause := .misplacedPoint, index := some before.length, token := some "." }
  /-- A point follows a literal that has one already. The index is that of the second point. -/
  | secondPoint {before after} {l : Literal} : text = before ++ (l.chars ++ '.' :: after) →
      l.Numeral → l.fraction ≠ [] →
      Fault depth text { cause := .malformedNumber, index := some (before ++ l.chars).length,
                         token := some (String.ofList (l.chars ++ ['.'])) }
  /-- A whole literal is too large. -/
  | infinite {before after} {l : Literal} : text = before ++ (l.chars ++ after) → l.Numeral →
      Literal.Stops after → l.value.isInf →
      Fault depth text { cause := .malformedNumber, index := some before.length,
                         token := some (String.ofList l.chars) }
  /-- A whole name is not followed by a parenthesis. The index is that of what follows. -/
  | nameWithoutCall {before name after} : text = before ++ (name ++ after) → IsName name →
      (∀ c, after.head? = some c → c ≠ '(' ∧ ¬ (c.isAlphanum ∨ c = '_')) →
      Fault depth text { cause := .nameWithoutCall, index := some (before ++ name).length,
                         token := some (String.ofList name) }
  /-- A call inside as many calls as are allowed. -/
  | nestingTooDeep {before name after} : text = before ++ (name ++ '(' :: after) → IsName name →
      depth = nestingLimit →
      Fault depth text { cause := .nestingTooDeep, index := some before.length,
                         token := some (String.ofList name) }
  /-- The parenthesis of a call is not closed. -/
  | unclosedCall {before name after} : text = before ++ (name ++ '(' :: after) → IsName name →
      (∀ body rest, after = body ++ ')' :: rest → depthBehind 0 body ≠ some 0) →
      Fault depth text
        { cause := .unclosedParen, index := some (before ++ name).length, token := some "(" }
  /-- A comma between the arguments of a call has nothing before it, or nothing behind it up to the
  end of the call. -/
  | blankArgument {before name left right after} :
      text = before ++ (name ++ '(' :: (left ++ ',' :: right ++ ')' :: after)) → IsName name →
      depthBehind 0 left = some 0 → depthBehind 0 right = some 0 →
      (∃ segment ∈ (segments 0 left).getLast?, Text.isBlank segment) ∨ Text.isBlank right →
      Fault depth text { cause := .blankArgument,
                         index := some (before ++ (name ++ '(' :: left)).length,
                         token := some "," }
  /-- More parentheses are opened than closed. -/
  | unclosedParen : text.count ')' < text.count '(' → Fault depth text (.of .unclosedParen)
  /-- The text begins with tokens that no expression begins with. -/
  | misplacedToken {before after ts} : text = before ++ after → Spelled depth before ts →
      (∀ ks, ¬ Grammar.Expression (ts.map Token.kind ++ ks)) →
      Fault depth text (.of .misplacedToken)
  /-- The tokens of the text break off within an expression. -/
  | missingToken {ts} : Spelled depth text ts → ts ≠ [] →
      ¬ Grammar.Expression (ts.map Token.kind) → Fault depth text (.of .misplacedToken)

variable {depth inner k start opened : Nat} {c : Char} {text before cs b : List Char}
  {texts : List (List Char)} {comma : Nat} {e : Failure}

theorem Fault.detail_eq_none (h : Fault depth text e) : e.detail = none := by
  cases h <;> rfl

section Text

/-- Between the numbers of both parentheses lies what is open behind a text. -/
theorem count_of_depthBehind (h : depthBehind k cs = some inner) :
    cs.count '(' + k = cs.count ')' + inner := by
  induction cs generalizing k with
  | nil =>
    obtain rfl := Option.some.inj h
    rfl
  | cons c cs ih =>
    rw [depthBehind] at h
    split at h
    · cases h
    next hc =>
      have counts := ih h
      by_cases hl : c = '('
      · subst hl
        simp [nesting] at counts ⊢
        omega
      by_cases hr : c = ')'
      · subst hr
        have hk : k ≠ 0 := fun hk => hc ⟨rfl, hk⟩
        simp [nesting] at counts ⊢
        omega
      · simpa [nesting, hl, hr] using counts

/-- The first segment ends at the first comma outside parentheses. -/
theorem exists_of_segments {first next : List Char} (hd : depthBehind k cs = some inner)
    (h : segments k cs = first :: next :: texts) :
    ∃ ds, cs = first ++ ',' :: ds ∧ segments k first = [first] ∧ depthBehind k first = some 0 ∧
      depthBehind 0 ds = some inner ∧ segments 0 ds = next :: texts := by
  induction cs generalizing k first with
  | nil => simp [segments] at h
  | cons c cs ih =>
    rw [depthBehind] at hd
    split at hd
    · cases hd
    next hparen =>
      rw [segments] at h
      split at h
      next hcomma =>
        obtain ⟨rfl, rfl⟩ := hcomma
        obtain ⟨rfl, htail⟩ := List.cons.inj h
        exact ⟨cs, rfl, rfl, rfl, by simpa [nesting] using hd, htail⟩
      next hcomma =>
        cases hs : segments (nesting k c) cs with
        | nil => exact absurd hs (segments_ne_nil _ _)
        | cons first' rest =>
          rw [hs, List.modifyHead_cons] at h
          obtain ⟨rfl, rfl⟩ := List.cons.inj h
          obtain ⟨ds, rfl, hseg, hdepth, hds, hrest⟩ := ih hd hs
          refine ⟨ds, rfl, ?_, ?_, hds, hrest⟩
          · rw [segments, if_neg hcomma, hseg, List.modifyHead_cons]
          · rw [depthBehind, if_neg hparen, hdepth]

/-- The comma to blame stands behind a blank segment, or before a last one. -/
theorem exists_of_blankComma (hd : depthBehind 0 cs = some 0) (hs : segments 0 cs = texts)
    (h : blankComma start texts = some comma) :
    (Text.isBlank cs ∧ comma = start - 1) ∨
      ∃ left right, cs = left ++ ',' :: right ∧ comma = start + left.length ∧
        depthBehind 0 left = some 0 ∧ depthBehind 0 right = some 0 ∧
        ((∃ segment ∈ (segments 0 left).getLast?, Text.isBlank segment) ∨ Text.isBlank right) := by
  induction texts generalizing start cs with
  | nil => exact absurd hs (segments_ne_nil _ _)
  | cons first texts ih =>
    cases texts with
    | nil =>
      have whole := intercalate_segments 0 cs
      rw [hs] at whole
      obtain rfl : first = cs := by simpa [List.intercalate] using whole
      rw [blankComma] at h
      split at h
      next hb => exact Or.inl ⟨hb, (Option.some.inj h).symm⟩
      next => cases h
    | cons next texts =>
      obtain ⟨ds, rfl, hseg, hfirst, hds, hrest⟩ := exists_of_segments hd hs
      rw [blankComma] at h
      · split at h
        next hb =>
          refine Or.inr ⟨first, ds, rfl, (Option.some.inj h).symm, hfirst, hds, Or.inl ?_⟩
          exact ⟨first, by simp [hseg], hb⟩
        next =>
          obtain ⟨hb, rfl⟩ | ⟨left, right, rfl, rfl, hleft, hright, hblank⟩ := ih hds hrest h
          · exact Or.inr ⟨first, ds, rfl, by omega, hfirst, hds, Or.inr hb⟩
          · have plain : Plain 0 first := ⟨hfirst, hseg⟩
            refine Or.inr ⟨first ++ ',' :: left, right, by simp, by simp; omega, ?_, hright, ?_⟩
            · rw [plain.depthBehind_append_comma, hleft]
            · rw [plain.segments_append_comma]
              refine hblank.imp_left ?_
              rintro ⟨segment, hlast, hb⟩
              exact ⟨segment, by simp [List.getLast?_cons, Option.mem_def.mp hlast], hb⟩
      · simp

end Text

theorem Literal.isInf_value {l : Literal} (h : ¬ l.value.isFinite) : l.value.isInf := by
  have hle := l.decimal.code_le
  rw [value, Decimal.toFloat] at h ⊢
  have hcode : l.decimal.code = Number.infinity := by
    rw [Number.isFinite_iff, Number.code, Number.toNat_toBits_ofCode hle] at h
    have small : Number.infinity < Number.signBit := by decide
    rw [Nat.mod_eq_of_lt (Nat.lt_of_le_of_lt hle small)] at h
    exact Nat.le_antisymm hle (Nat.le_of_not_lt h)
  rw [hcode]
  decide +kernel

/-- No digit stands behind a point that is not read. -/
theorem Literal.not_isDigit_behind_point {behind : List Char} (hf : (read cs).1.fraction = [])
    (hr : (read cs).2 = '.' :: behind) (hc : behind.head? = some c) : ¬ c.isDigit := by
  revert hf hr
  simp only [read]
  split
  next behind' h =>
    split
    next hempty =>
      rintro - ⟨⟩
      cases behind with
      | nil => cases hc
      | cons d behind =>
        obtain rfl := Option.some.inj hc
        intro hd
        simp [hd] at hempty
    next hempty =>
      intro hf
      exact absurd (List.isEmpty_iff.mpr hf) hempty
  next hne =>
    intro _ hr
    exact absurd hr (hne behind)

namespace Scan

variable {scanner : Option Scanner} {place : Grammar.Place}

theorem number_fault (ht : text = before ++ c :: cs) (hc : c.isDigit ∨ c = '.')
    (h : number before.length (c :: cs) = .error e) : Fault depth text e := by
  have parts := @Literal.chars_read_append (c :: cs)
  obtain ⟨hwhole, hfraction⟩ := @Literal.isDigit_of_mem_read (c :: cs)
  rw [← parts] at ht
  simp only [number] at h
  split at h
  next hpoint =>
    obtain ⟨behind, hrest⟩ : ∃ behind, (Literal.read (c :: cs)).2 = '.' :: behind := by
      cases hr : (Literal.read (c :: cs)).2 with
      | nil => simp [hr] at hpoint
      | cons d behind =>
        rw [hr] at hpoint
        exact ⟨behind, by rw [Option.some.inj hpoint]⟩
    rw [hrest] at ht
    split at h
    next hf =>
      obtain rfl := Except.error.inj h
      have point := @Fault.misplacedPoint depth text (before ++ (Literal.read (c :: cs)).1.chars)
        behind (by simp [ht])
        fun d => Literal.not_isDigit_behind_point (List.isEmpty_iff.mp hf) hrest
      simpa using point
    next hf =>
      obtain rfl := Except.error.inj h
      have hne : (Literal.read (c :: cs)).1.fraction ≠ [] := fun he => hf (List.isEmpty_iff.mpr he)
      have point := @Fault.secondPoint depth text _ _ _ ht ⟨hwhole, hfraction, Or.inr hne⟩ hne
      simpa using point
  next hpoint =>
    obtain ⟨hl, hstops⟩ := Literal.numeral_of_read hc hpoint
    split at h
    · cases h
    next hf =>
      obtain rfl := Except.error.inj h
      exact .infinite ht hl hstops (Literal.isInf_value hf)

/-- The failure comes from scanning an argument of a call in the text. -/
def ArgumentFails (scanner : Option Scanner) (text : List Char) (e : Failure) : Prop :=
  ∃ scan argument, scanner = some scan ∧ IsArgument text argument ∧
    (scan argument).result = .error e

theorem call_fault (ht : text = before ++ c :: cs) (hc : c.isAlpha)
    (hd : scanner = none → depth = nestingLimit)
    (h : (call scanner before.length (c :: cs)).result = .error e) :
    Fault depth text e ∨ ArgumentFails scanner text e := by
  have parts := @List.takeWhile_append_dropWhile _ isNameChar (c :: cs)
  have hname := @isName_takeWhile c cs hc
  simp only [call] at h
  generalize (c :: cs).takeWhile isNameChar = name at *
  split at h
  next inside hinside =>
    rw [← parts, hinside] at ht
    cases scanner with
    | none =>
      obtain rfl := Except.error.inj h
      exact Or.inl (.nestingTooDeep ht hname (hd rfl))
    | some scan =>
      simp only at h
      split at h
      next hbody =>
        obtain rfl := Except.error.inj h
        refine Or.inl ?_
        have unclosed := @Fault.unclosedCall depth text before name inside ht hname ?_
        · simpa using unclosed
        · rintro body rest rfl hdepth
          rw [body_eq_some_iff.mpr ⟨hdepth, rest, rfl⟩] at hbody
          cases hbody
      next body hbody =>
        obtain ⟨hdepth, rest, rfl⟩ := body_eq_some_iff.mp hbody
        split at h
        next comma hcomma =>
          obtain rfl := Except.error.inj h
          rw [arguments] at hcomma
          split at hcomma
          · cases hcomma
          next hbody =>
            split at hcomma
            next comma' hblank =>
              obtain rfl := Except.error.inj hcomma
              obtain ⟨hb, -⟩ | ⟨left, right, rfl, rfl, hleft, hright, hblank⟩ :=
                exists_of_blankComma hdepth rfl hblank
              · exact absurd hb hbody
              · have blank := @Fault.blankArgument depth text before name left right rest
                  (by simpa using ht) hname hleft hright hblank
                refine Or.inl ?_
                simpa [Nat.add_assoc, Nat.add_comm 1] using blank
            next => cases hcomma
        next texts htexts =>
          rw [Logged.result_bind] at h
          obtain hfails | ⟨scanned, -, h⟩ := bind_eq_error_iff.mp h
          · rw [Logged.result_mapM] at hfails
            obtain ⟨argument, hmem, hargument⟩ := exists_of_mapM_eq_error hfails
            obtain ⟨-, rfl⟩ | ⟨-, rfl, hvisible⟩ := arguments_eq_ok_iff.mp htexts
            · cases hmem
            · refine Or.inr ⟨scan, argument, rfl, ?_, hargument⟩
              exact ⟨before, name, body, rest, ht, hname, hdepth, hmem, hvisible argument hmem⟩
          · cases h
  next rest hrest =>
    obtain rfl := Except.error.inj h
    rw [← parts] at ht
    have missing := @Fault.nameWithoutCall depth text before name _ ht hname ?_
    · exact Or.inl (by simpa using missing)
    · intro d hd
      have stop := List.head?_dropWhile_not isNameChar (c :: cs)
      rw [hd] at stop
      refine ⟨?_, by simpa [isNameChar] using stop⟩
      rintro rfl
      obtain ⟨inside, hinside⟩ := List.head?_eq_some_iff.mp hd
      exact hrest inside hinside

/-- Where no token can be scanned, the text has a fault at this place or in an argument of the call
that begins there. -/
theorem lexeme_fault (ht : text = before ++ c :: cs) (hw : ¬ Text.isWhitespace c)
    (hp : before.count '(' = before.count ')' + opened)
    (hd : scanner = none → depth = nestingLimit)
    (h : (lexeme scanner before.length opened c cs).result = .error e) :
    Fault depth text e ∨ ArgumentFails scanner text e := by
  by_cases hnum : c.isDigit ∨ c = '.'
  · rw [lexeme_numeral hnum, Logged.result_ofExcept] at h
    exact Or.inl (number_fault ht hnum h)
  by_cases halpha : c.isAlpha
  · rw [lexeme_alpha halpha] at h
    exact call_fault ht halpha hd h
  refine Or.inl ?_
  have hnum' : (c.isDigit || c == '.') = false := by simpa using hnum
  simp only [lexeme, hnum', halpha, if_false, Bool.false_eq_true] at h
  split at h
  · cases h
  next hleft =>
    split at h
    next hright =>
      split at h
      next ho =>
        obtain rfl := Except.error.inj h
        rw [hright] at ht
        exact .unmatchedParen ht (by rw [hp, ho, Nat.add_zero])
      · cases h
    next hright =>
      split at h
      · cases h
      next hop =>
        obtain rfl := Except.error.inj h
        obtain ⟨hdigit, hpoint⟩ := not_or.mp hnum
        have hnone : ∀ op : Operator, c ≠ op.symbol := by
          rintro op rfl
          rw [Operator.ofSymbol?_symbol] at hop
          cases hop
        refine .unknownCharacter ht (by simpa using hw) ?_ hpoint hleft hright hnone
        simp [Char.isAlphanum, halpha, hdigit]

end Scan

end Reckoner
