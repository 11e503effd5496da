import Reckoner.Proofs.Evaluation

/-! Whitespace in a text that is accepted. It may be left out anywhere, and put in at the ends and
beside marks, without a change to the tokens. -/
namespace Reckoner

open Reckoner.Language

/-- The second text is the first one without some of its whitespace. -/
inductive Thinned : List Char → List Char → Prop
  | nil : Thinned [] []
  | keep {c cs ds} : Thinned cs ds → Thinned (c :: cs) (c :: ds)
  | drop {c cs ds} : Text.isWhitespace c → Thinned cs ds → Thinned (c :: cs) ds

/-- Commas, parentheses and the symbols of operators. -/
def IsMark (c : Char) : Prop := c = ',' ∨ c = '(' ∨ c = ')' ∨ ∃ op : Operator, c = op.symbol

/-- Two parts of a text that whitespace may be put between: it stands at an end or beside a mark,
and does not part a name from the parenthesis of its call. -/
inductive Gap : List Char → List Char → Prop
  | atStart {after} : Gap [] after
  | atEnd {before} : Gap before []
  | behind {before c after} : IsMark c → Gap (before ++ [c]) after
  | ahead {before c after} : IsMark c →
      (c = '(' → ∀ first name, before = first ++ name → ¬ IsName name) → Gap before (c :: after)

/-- Whitespace has been left out and put in, as often as one likes. -/
inductive Respaced : List Char → List Char → Prop
  | refl {cs} : Respaced cs cs
  | thin {cs ds es} : Respaced cs ds → Thinned ds es → Respaced cs es
  | insert {cs before blank after} : Respaced cs (before ++ after) → Gap before after →
      Text.isBlank blank → Respaced cs (before ++ (blank ++ after))

/-- A term with whitespace around it. -/
def Language.Padded (depth : Nat) (cs : List Char) (ts : List Token) : Prop :=
  ∃ before text after, cs = before ++ (text ++ after) ∧ Text.isBlank before ∧
    Term depth text ts ∧ Text.isBlank after

variable {depth : Nat} {c : Char} {cs ds es before after left right blank : List Char}
  {ts : List Token} {token : Token} {arguments : List (List Token)}

namespace Thinned

theorem isBlank (h : Thinned cs ds) (hb : Text.isBlank cs) : Text.isBlank ds := by
  induction h with
  | nil => exact hb
  | keep _ ih =>
    obtain ⟨hc, hb⟩ := isBlank_cons.mp hb
    exact isBlank_cons.mpr ⟨hc, ih hb⟩
  | drop _ _ ih => exact ih (isBlank_cons.mp hb).2

theorem exists_of_append (h : Thinned (cs ++ ds) es) :
    ∃ cs' ds', es = cs' ++ ds' ∧ Thinned cs cs' ∧ Thinned ds ds' := by
  induction cs generalizing es with
  | nil => exact ⟨[], es, rfl, .nil, h⟩
  | cons c cs ih =>
    cases h with
    | keep h =>
      obtain ⟨cs', ds', rfl, hcs, hds⟩ := ih h
      exact ⟨c :: cs', ds', rfl, .keep hcs, hds⟩
    | drop hc h =>
      obtain ⟨cs', ds', rfl, hcs, hds⟩ := ih h
      exact ⟨cs', ds', rfl, .drop hc hcs, hds⟩

theorem exists_of_cons (h : Thinned (c :: cs) es) (hc : Text.isWhitespace c = false) :
    ∃ ds, es = c :: ds ∧ Thinned cs ds := by
  cases h with
  | keep h => exact ⟨_, rfl, h⟩
  | drop hw => exact absurd hw (by simp [hc])

theorem eq_of_visible (h : Thinned cs ds) (hv : ∀ c ∈ cs, Text.isWhitespace c = false) :
    ds = cs := by
  induction h with
  | nil => rfl
  | keep _ ih => rw [ih fun c hc => hv c (List.mem_cons_of_mem _ hc)]
  | drop hc => exact absurd hc (by simp [hv _ List.mem_cons_self])

/-- What stands between two parentheses may be thinned, they stay. -/
theorem exists_of_group (h : Thinned ('(' :: (cs ++ [')'])) es) :
    ∃ ds, es = '(' :: (ds ++ [')']) ∧ Thinned cs ds := by
  obtain ⟨tail, rfl, htail⟩ := h.exists_of_cons (by decide)
  obtain ⟨ds, last, rfl, hcs, hlast⟩ := htail.exists_of_append
  obtain ⟨nothing, rfl, hnil⟩ := hlast.exists_of_cons (by decide)
  cases hnil
  exact ⟨ds, rfl, hcs⟩

theorem exists_of_call {name : String} (hn : IsName name.toList)
    (h : Thinned (name.toList ++ '(' :: (cs ++ [')'])) es) :
    ∃ ds, es = name.toList ++ '(' :: (ds ++ [')']) ∧ Thinned cs ds := by
  obtain ⟨word, group, rfl, hword, hgroup⟩ := h.exists_of_append
  obtain ⟨ds, rfl, hds⟩ := hgroup.exists_of_group
  have same := hword.eq_of_visible fun c hc => isWhitespace_of_nameChar (nameChar_of_isName hn hc)
  exact ⟨ds, by rw [same], hds⟩

end Thinned

theorem isWhitespace_symbol (op : Operator) : Text.isWhitespace op.symbol = false := by
  cases op <;> rfl

theorem isWhitespace_of_mem_chars {l : Literal} (h : l.Numeral) (hc : c ∈ l.chars) :
    Text.isWhitespace c = false := by
  rcases digit_or_point h hc with hd | rfl
  · exact isWhitespace_of_nameChar (Or.inl (isAlphanum_of_isDigit hd))
  · rfl

namespace Language

mutual

/-- Leaving out whitespace never joins two tokens, as tokens side by side need none between
them. -/
theorem Expression.thin : {depth : Nat} → {cs : List Char} → {ts : List Token} →
    Expression depth cs ts → ∀ {ds}, Thinned cs ds → Expression depth ds ts
  | _, _, _, .term hb h ha, _, ht => by
    obtain ⟨before, tail, rfl, hbefore, htail⟩ := ht.exists_of_append
    obtain ⟨text, after, rfl, htext, hafter⟩ := htail.exists_of_append
    exact .term (hbefore.isBlank hb) (h.thin htext) (hafter.isBlank ha)
  | _, _, _, .operation h hb hterm ha, _, ht => by
    obtain ⟨first, tail, rfl, hfirst, htail⟩ := ht.exists_of_append
    obtain ⟨behind, rfl, hbehind⟩ := htail.exists_of_cons (isWhitespace_symbol _)
    obtain ⟨before, padded, rfl, hbefore, hpadded⟩ := hbehind.exists_of_append
    obtain ⟨text, after, rfl, htext, hafter⟩ := hpadded.exists_of_append
    exact .operation (h.thin hfirst) (hbefore.isBlank hb) (hterm.thin htext) (hafter.isBlank ha)

theorem Term.thin : {depth : Nat} → {cs : List Char} → {ts : List Token} →
    Term depth cs ts → ∀ {ds}, Thinned cs ds → Term depth ds ts
  | _, _, _, .value h, _, ht => .value (h.thin ht)
  | _, _, _, .group h, _, ht => by
    obtain ⟨inside, rfl, hinside⟩ := ht.exists_of_group
    exact .group (h.thin hinside)

theorem Value.thin : {depth : Nat} → {cs : List Char} → {token : Token} →
    Value depth cs token → ∀ {ds}, Thinned cs ds → Value depth ds token
  | _, _, _, .number hl hf, _, ht => by
    rw [ht.eq_of_visible fun _ => isWhitespace_of_mem_chars hl]
    exact .number hl hf
  | _, _, _, .emptyCall hd hn hb, _, ht => by
    obtain ⟨inside, rfl, hinside⟩ := ht.exists_of_call hn
    exact .emptyCall hd hn (hinside.isBlank hb)
  | _, _, _, .call hd hn h, _, ht => by
    obtain ⟨inside, rfl, hinside⟩ := ht.exists_of_call hn
    exact .call hd hn (h.thin hinside)

theorem Arguments.thin : {depth : Nat} → {cs : List Char} → {arguments : List (List Token)} →
    Arguments depth cs arguments → ∀ {ds}, Thinned cs ds → Arguments depth ds arguments
  | _, _, _, .last h, _, ht => .last (h.thin ht)
  | _, _, _, .cons h hs, _, ht => by
    obtain ⟨first, tail, rfl, hfirst, htail⟩ := ht.exists_of_append
    obtain ⟨rest, rfl, hrest⟩ := htail.exists_of_cons (by decide)
    exact .cons (h.thin hfirst) (hs.thin hrest)

end

end Language

namespace Gap

/-- Whether there is a gap is decided by what stands next to it. -/
theorem inside (h : Gap (left ++ before) (after ++ right)) : Gap before after := by
  by_cases hb : before = []
  · subst hb
    exact .atStart
  by_cases ha : after = []
  · subst ha
    exact .atEnd
  generalize hl : left ++ before = ls at h
  generalize hr : after ++ right = rs at h
  cases h with
  | atStart => exact absurd (List.append_eq_nil_iff.mp hl).2 hb
  | atEnd => exact absurd (List.append_eq_nil_iff.mp hr).1 ha
  | behind hm =>
    obtain ⟨first, c, rfl⟩ := (List.eq_nil_or_concat before).resolve_left hb
    rw [List.concat_eq_append, ← List.append_assoc] at hl
    obtain ⟨-, hlast⟩ := List.append_inj' hl rfl
    obtain rfl := List.singleton_inj.mp hlast
    rw [List.concat_eq_append]
    exact .behind hm
  | ahead hm hn =>
    obtain ⟨c, rest, rfl⟩ := List.exists_cons_of_ne_nil ha
    obtain ⟨rfl, -⟩ := List.cons.inj hr
    refine .ahead hm ?_
    rintro hc first name rfl
    exact hn hc (left ++ first) name (by rw [← hl, List.append_assoc])

theorem of_append (h : Gap (left ++ before) after) : Gap before after := by
  have whole : Gap (left ++ before) (after ++ []) := by simpa using h
  exact whole.inside

theorem of_cons (h : Gap (c :: before) after) : Gap before after := by
  have whole : Gap ([c] ++ before) after := h
  exact whole.of_append

theorem of_append_right (h : Gap before (after ++ right)) : Gap before after := by
  have whole : Gap ([] ++ before) (after ++ right) := h
  exact whole.inside

/-- There is none in a text without marks. -/
theorem false_of_no_mark (h : Gap before after) (hb : before ≠ []) (ha : after ≠ [])
    (hl : ∀ c ∈ before, ¬ IsMark c) (hr : ∀ c, after.head? = some c → ¬ IsMark c) : False := by
  cases h with
  | atStart => exact hb rfl
  | atEnd => exact ha rfl
  | behind hm => exact hl _ (by simp) hm
  | ahead hm => exact hr _ rfl hm

end Gap

theorem not_isMark_of_nameChar (h : c.isAlphanum ∨ c = '_') : ¬ IsMark c := by
  rintro (rfl | rfl | rfl | ⟨op, rfl⟩)
  · exact absurd h (by decide)
  · exact absurd h (by decide)
  · exact absurd h (by decide)
  · revert h
    cases op <;> decide

theorem not_isMark_of_mem_chars {l : Literal} (h : l.Numeral) (hc : c ∈ l.chars) : ¬ IsMark c := by
  rcases digit_or_point h hc with hd | rfl
  · exact not_isMark_of_nameChar (Or.inl (isAlphanum_of_isDigit hd))
  · rintro (hm | hm | hm | ⟨op, hm⟩)
    · exact absurd hm (by decide)
    · exact absurd hm (by decide)
    · exact absurd hm (by decide)
    · revert hm
      cases op <;> decide

/-- A split of a text in parentheses splits what stands between them, unless it is at an end. -/
theorem exists_split_of_group (h : '(' :: (cs ++ [')']) = left ++ right) (hl : left ≠ [])
    (hr : right ≠ []) : ∃ ds es, left = '(' :: ds ∧ right = es ++ [')'] ∧ cs = ds ++ es := by
  obtain ⟨c, ds, rfl⟩ := List.exists_cons_of_ne_nil hl
  obtain ⟨es, d, rfl⟩ := (List.eq_nil_or_concat right).resolve_left hr
  rw [List.concat_eq_append] at h ⊢
  obtain ⟨rfl, htail⟩ := List.cons.inj h
  have behind : cs ++ [')'] = (ds ++ es) ++ [d] := by simpa using htail
  obtain ⟨hcs, hlast⟩ := List.append_inj' behind rfl
  obtain rfl := List.singleton_inj.mp hlast
  exact ⟨ds, es, rfl, rfl, hcs⟩

/-- The gaps of a call are the gaps between its parentheses. -/
theorem Gap.exists_split_of_call {name : List Char} (hg : Gap left right) (hn : IsName name)
    (h : name ++ '(' :: (cs ++ [')']) = left ++ right) (hl : left ≠ []) (hr : right ≠ []) :
    ∃ ds es, left = name ++ '(' :: ds ∧ right = es ++ [')'] ∧ cs = ds ++ es := by
  have visible : ∀ c ∈ name, ¬ IsMark c :=
    fun c hc => not_isMark_of_nameChar (nameChar_of_isName hn hc)
  obtain ⟨tail, rfl, htail⟩ | ⟨tail, hname, rfl⟩ := List.append_eq_append_iff.mp h
  · cases tail with
    | nil =>
      -- between the name and its parenthesis
      obtain rfl := htail
      rw [List.append_nil] at hl hg
      cases hg with
      | atStart => exact absurd rfl hl
      | @behind first c _ hm => exact absurd hm (visible c (by simp))
      | ahead _ hcall => exact absurd hn (hcall rfl [] _ rfl)
    | cons c tail =>
      obtain ⟨ds, es, hds, rfl, hcs⟩ := exists_split_of_group htail nofun hr
      exact ⟨ds, es, by rw [hds], rfl, hcs⟩
  · -- inside the name, or right behind it again
    rw [hname] at visible hn
    obtain ⟨hleft, htail⟩ := List.forall_mem_append.mp visible
    exfalso
    cases tail with
    | nil =>
      cases hg with
      | atStart => exact hl rfl
      | @behind first c _ hm => exact hleft c (by simp) hm
      | ahead _ hcall => exact hcall rfl [] _ rfl (by simpa using hn)
    | cons c tail =>
      refine hg.false_of_no_mark hl nofun hleft ?_
      rintro _ ⟨⟩
      exact htail c List.mem_cons_self

namespace Language

/-- When gaps inside a term may be filled, so may those beside it. -/
theorem Padded.insert {text : List Char} (hb : Text.isBlank before) (ht : Term depth text ts)
    (ha : Text.isBlank after) (hw : Text.isBlank blank)
    (hinsert : ∀ ds es, text = ds ++ es → ds ≠ [] → es ≠ [] → Gap ds es →
      Term depth (ds ++ (blank ++ es)) ts)
    (h : before ++ (text ++ after) = left ++ right) (hg : Gap left right) :
    Padded depth (left ++ (blank ++ right)) ts := by
  obtain ⟨ds, rfl, htail⟩ | ⟨ds, rfl, rfl⟩ := List.append_eq_append_iff.mp h
  · obtain ⟨es, rfl, rfl⟩ | ⟨es, rfl, rfl⟩ := List.append_eq_append_iff.mp htail
    · obtain ⟨he, hr⟩ := isBlank_append.mp ha
      have filled : Text.isBlank (es ++ (blank ++ right)) :=
        isBlank_append.mpr ⟨he, isBlank_append.mpr ⟨hw, hr⟩⟩
      exact ⟨before, text, _, by simp, hb, ht, filled⟩
    · by_cases hds : ds = []
      · subst hds
        exact ⟨before ++ blank, es, after, by simp, isBlank_append.mpr ⟨hb, hw⟩, ht, ha⟩
      by_cases hes : es = []
      · subst hes
        exact ⟨before, ds, blank ++ after, by simp, hb, by simpa using ht,
          isBlank_append.mpr ⟨hw, ha⟩⟩
      exact ⟨before, _, after, by simp, hb, hinsert ds es rfl hds hes hg.inside, ha⟩
  · obtain ⟨hl, hd⟩ := isBlank_append.mp hb
    have filled : Text.isBlank (left ++ (blank ++ ds)) :=
      isBlank_append.mpr ⟨hl, isBlank_append.mpr ⟨hw, hd⟩⟩
    exact ⟨_, text, after, by simp, filled, ht, ha⟩

/-- A split of a text at a separator lies on one side of it. -/
theorem split_at (h : cs ++ c :: ds = left ++ right) :
    (∃ es, cs = left ++ es ∧ right = es ++ c :: ds) ∨
      ∃ es, left = cs ++ c :: es ∧ ds = es ++ right := by
  obtain ⟨es, rfl, htail⟩ | ⟨es, rfl, rfl⟩ := List.append_eq_append_iff.mp h
  · cases es with
    | nil => exact Or.inl ⟨[], by simp, htail.symm⟩
    | cons d es =>
      obtain ⟨rfl, rfl⟩ := List.cons.inj htail
      exact Or.inr ⟨es, rfl, rfl⟩
  · exact Or.inl ⟨es, rfl, rfl⟩

mutual

theorem Expression.insert (hw : Text.isBlank blank) : {depth : Nat} → {cs : List Char} →
    {ts : List Token} → Expression depth cs ts → ∀ {left right}, cs = left ++ right →
      Gap left right → Expression depth (left ++ (blank ++ right)) ts
  | _, _, _, .term hb h ha, _, _, heq, hg => by
    obtain ⟨before, text, after, hcs, hb, h, ha⟩ :=
      Padded.insert hb h ha hw (fun _ _ => h.insert hw) heq hg
    rw [hcs]
    exact .term hb h ha
  | _, _, _, .operation h hb hterm ha, _, _, heq, hg => by
    obtain ⟨es, hleft, rfl⟩ | ⟨es, rfl, hright⟩ := split_at heq
    · have first := h.insert hw hleft hg.of_append_right
      simpa using Expression.operation first hb hterm ha
    · obtain ⟨before, text, after, hcs, hb, h', ha⟩ :=
        Padded.insert hb hterm ha hw (fun _ _ => hterm.insert hw) hright hg.of_append.of_cons
      rw [List.append_assoc, List.cons_append, hcs]
      exact .operation h hb h' ha

theorem Term.insert (hw : Text.isBlank blank) : {depth : Nat} → {cs : List Char} →
    {ts : List Token} → Term depth cs ts → ∀ {left right}, cs = left ++ right → left ≠ [] →
      right ≠ [] → Gap left right → Term depth (left ++ (blank ++ right)) ts
  | _, _, _, .value h, _, _, heq, hl, hr, hg => .value (h.insert hw heq hl hr hg)
  | _, _, _, .group h, _, _, heq, hl, hr, hg => by
    obtain ⟨ds, es, rfl, rfl, hcs⟩ := exists_split_of_group heq hl hr
    have inside := h.insert hw hcs (hg.of_append_right.of_cons)
    simpa using Term.group inside

theorem Value.insert (hw : Text.isBlank blank) : {depth : Nat} → {cs : List Char} →
    {token : Token} → Value depth cs token → ∀ {left right}, cs = left ++ right → left ≠ [] →
      right ≠ [] → Gap left right → Value depth (left ++ (blank ++ right)) token
  | _, _, _, .number hl _, _, _, heq, hleft, hright, hg => by
    have visible : ∀ c ∈ _ ++ _, ¬ IsMark c := heq ▸ fun c => not_isMark_of_mem_chars hl
    obtain ⟨hbefore, hbehind⟩ := List.forall_mem_append.mp visible
    exact (hg.false_of_no_mark hleft hright hbefore fun c hc =>
      hbehind c (List.mem_of_mem_head? hc)).elim
  | _, _, _, .emptyCall hd hn hb, _, _, heq, hl, hr, hg => by
    obtain ⟨ds, es, rfl, rfl, rfl⟩ := hg.exists_split_of_call hn heq hl hr
    obtain ⟨hds, hes⟩ := isBlank_append.mp hb
    have inside : Text.isBlank (ds ++ (blank ++ es)) :=
      isBlank_append.mpr ⟨hds, isBlank_append.mpr ⟨hw, hes⟩⟩
    simpa using Value.emptyCall hd hn inside
  | _, _, _, .call hd hn h, _, _, heq, hl, hr, hg => by
    obtain ⟨ds, es, rfl, rfl, hcs⟩ := hg.exists_split_of_call hn heq hl hr
    have inside := h.insert hw hcs hg.of_append_right.of_append.of_cons
    simpa using Value.call hd hn inside

theorem Arguments.insert (hw : Text.isBlank blank) : {depth : Nat} → {cs : List Char} →
    {arguments : List (List Token)} → Arguments depth cs arguments → ∀ {left right},
      cs = left ++ right → Gap left right → Arguments depth (left ++ (blank ++ right)) arguments
  | _, _, _, .last h, _, _, heq, hg => .last (h.insert hw heq hg)
  | _, _, _, .cons h hs, _, _, heq, hg => by
    obtain ⟨es, hleft, rfl⟩ | ⟨es, rfl, hright⟩ := split_at heq
    · have first := h.insert hw hleft hg.of_append_right
      simpa using Arguments.cons first hs
    · have rest := hs.insert hw hright hg.of_append.of_cons
      simpa using Arguments.cons h rest

end

end Language

namespace Respaced

theorem isBlank (h : Respaced cs ds) (hb : Text.isBlank cs) : Text.isBlank ds := by
  induction h with
  | refl => exact hb
  | thin _ ht ih => exact ht.isBlank ih
  | insert _ _ hw ih =>
    obtain ⟨hbefore, hafter⟩ := isBlank_append.mp ih
    exact isBlank_append.mpr ⟨hbefore, isBlank_append.mpr ⟨hw, hafter⟩⟩

theorem expression (h : Respaced cs ds) (he : Expression depth cs ts) : Expression depth ds ts := by
  induction h with
  | refl => exact he
  | thin _ ht ih => exact ih.thin ht
  | insert _ hg hw ih => exact ih.insert hw rfl hg

end Respaced

/-- The outcome of an evaluation depends on the tokens only. -/
theorem Registry.outcome_evaluate {σ : Type} (r : Registry σ) (text : String) (s : σ) :
    ((r.evaluate text s).1.result, (r.evaluate text s).2) =
      match (tokenizeExpression text).result with
      | .error failure => (.error failure, s)
      | .ok tokens => ((r.evaluateTokens tokens s).1.result, (r.evaluateTokens tokens s).2) := by
  rcases htext : tokenizeExpression text with ⟨records, failure | tokens⟩
  · rw [evaluate, htext, Run.bind_error (Run.lift_apply _ s)]
  · rw [evaluate, htext, Run.bind_ok (Run.lift_apply _ s)]
    rcases htokens : r.evaluateTokens tokens s with ⟨⟨records', failure | value⟩, t⟩
    · rw [Run.bind_error htokens]
      simp only [htokens]
    · rw [Run.bind_ok htokens]
      simp only [htokens]
      rfl

variable {text text' : String} {tokens : List Token}

theorem tokenizeExpression_respaced (h : (tokenize text).result = .ok tokens)
    (hs : Respaced text.toList text'.toList) :
    (tokenizeExpression text').result = (tokenizeExpression text).result := by
  rw [Scan.result_tokenize, Scan.fragment_eq_ok_iff (Nat.zero_add _)] at h
  rcases h with ⟨hb, -⟩ | he
  · rw [tokenizeExpression, tokenizeExpression, if_pos hb, if_pos (hs.isBlank hb)]
  · rw [Scan.tokenizeExpression_eq_ok_iff.mpr he,
      Scan.tokenizeExpression_eq_ok_iff.mpr (hs.expression he)]

/-- A text that is accepted has the same tokens however it is spaced, and so the same value, or the
same failure, with the same effects on the host. -/
theorem tokenize_respaced (h : (tokenize text).result = .ok tokens)
    (hs : Respaced text.toList text'.toList) :
    (tokenize text').result = .ok tokens ∧ ∀ (σ : Type) (r : Registry σ) (s : σ),
      ((r.evaluate text' s).1.result, (r.evaluate text' s).2) =
        ((r.evaluate text s).1.result, (r.evaluate text s).2) := by
  constructor
  · rw [Scan.result_tokenize, Scan.fragment_eq_ok_iff (Nat.zero_add _)] at h ⊢
    exact h.imp (And.imp_left hs.isBlank) hs.expression
  · intro σ r s
    rw [r.outcome_evaluate, r.outcome_evaluate, tokenizeExpression_respaced h hs]

theorem tokenize_respaced_nested_call :
    (tokenize "2 * max(1, f())").result = .ok [.operand 2.0, .operator .multiply,
        .call "max" [[.operand 1.0], [.call "f" []]]] ∧
      Respaced "2 * max(1, f())".toList " 2*max( 1,f(\u3000))".toList ∧
      (tokenize " 2*max( 1,f(\u3000))").result = .ok [.operand 2.0, .operator .multiply,
        .call "max" [[.operand 1.0], [.call "f" []]]] := by
  have one : Writable 63 (.operand 1.0) := .operand (by decide +kernel) (by decide +kernel)
  have two : Writable 64 (.operand 2.0) := .operand (by decide +kernel) (by decide +kernel)
  have inner : Writable 63 (.call "f" []) := .call (by decide) (by simp) (by simp)
  have outer : Writable 64 (.call "max" [[.operand 1.0], [.call "f" []]]) := by
    refine .call (by decide) (by decide) ?_
    simp [one, inner]
  have wellFormed : WellFormed [.operand 2.0, .operator .multiply,
      .call "max" [[.operand 1.0], [.call "f" []]]] := by
    refine ⟨by decide, ?_⟩
    simp [nestingLimit, two, outer, Writable.operator]
  have written : render [.operand 2.0, .operator .multiply,
      .call "max" [[.operand 1.0], [.call "f" []]]] = "2 * max(1, f())" := by
    decide +kernel
  have tokenized := wellFormed.tokenize
  rw [written] at tokenized
  have thinned : Thinned "2 * max(1, f())".toList "2*max(1,f())".toList :=
    .keep <| .drop rfl <| .keep <| .drop rfl <| .keep <| .keep <| .keep <| .keep <| .keep <|
      .keep <| .drop rfl <| .keep <| .keep <| .keep <| .keep .nil
  have paren : IsMark '(' := Or.inr (Or.inl rfl)
  have start : Respaced "2 * max(1, f())".toList " 2*max(1,f())".toList :=
    .insert (.thin .refl thinned) .atStart (rfl : Text.isBlank [' '])
  have outer : Respaced "2 * max(1, f())".toList " 2*max( 1,f())".toList :=
    @Respaced.insert _ " 2*max(".toList [' '] "1,f())".toList start
      (@Gap.behind " 2*max".toList '(' _ paren) rfl
  have spaced : Respaced "2 * max(1, f())".toList " 2*max( 1,f(\u3000))".toList :=
    @Respaced.insert _ " 2*max( 1,f(".toList ['\u3000'] "))".toList outer
      (@Gap.behind " 2*max( 1,f".toList '(' _ paren) rfl
  exact ⟨tokenized, spaced, (tokenize_respaced tokenized spaced).1⟩

end Reckoner
