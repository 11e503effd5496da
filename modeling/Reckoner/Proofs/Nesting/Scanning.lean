import Reckoner.Proofs.Formula
import Reckoner.Proofs.Nesting

/-! Scanning the written form of tokens whose calls are nested to any depth. -/
namespace Reckoner

/-- Well-formed but for how deep calls are nested. -/
structure Expressible (tokens : List Token) : Prop where
  shape : tokens = [] ∨ Grammar.Expression (tokens.map Token.kind)
  writable : ∃ levels, ∀ token ∈ tokens, Writable levels token

section Text

open CallText Reckoner.Language

variable {k levels : Nat} {texts : List (List Char)} {before : List Char} {token : Token}
  {tokens xs ys argument : List Token} {arguments : List (List Token)}

theorem renderChars_cons (token : Token) (h : tokens ≠ []) :
    renderChars (token :: tokens) = token.chars ++ ' ' :: renderChars tokens := by
  cases tokens with
  | nil => exact absurd rfl h
  | cons => simp [renderChars, List.intercalate]

theorem renderChars_singleton (token : Token) : renderChars [token] = token.chars := by
  simp [renderChars, List.intercalate]

theorem renderChars_append (hx : xs ≠ []) (hy : ys ≠ []) :
    renderChars (xs ++ ys) = renderChars xs ++ ' ' :: renderChars ys := by
  induction xs with
  | nil => exact absurd rfl hx
  | cons token xs ih =>
    by_cases h : xs = []
    · subst h
      rw [List.singleton_append, renderChars_cons token hy, renderChars_singleton]
    · rw [List.cons_append, renderChars_cons token (by simp [h]), renderChars_cons token h, ih h]
      simp

theorem intercalate_cons_cons (text next : List Char) (texts : List (List Char)) :
    List.intercalate [',', ' '] (text :: next :: texts) =
      text ++ ',' :: ([' '] ++ List.intercalate [',', ' '] (next :: texts)) := by
  simp [List.intercalate]

/-- Inside parentheses commas do no harm. -/
theorem plain_intercalate (h : ∀ text ∈ texts, Plain (k + 1) text) :
    Plain (k + 1) (List.intercalate [',', ' '] texts) := by
  induction texts with
  | nil => exact .nil
  | cons text texts ih =>
    obtain ⟨ht, hs⟩ := List.forall_mem_cons.mp h
    cases texts with
    | nil => simpa [List.intercalate] using ht
    | cons next texts =>
      have space : Plain (k + 1) [' '] := plain_of_isBlank rfl
      rw [intercalate_cons_cons]
      exact ht.append ((space.append (ih hs)).cons (by decide) (by decide) (by simp))

theorem depthBehind_intercalate (h : ∀ text ∈ texts, Plain k text) :
    depthBehind k (List.intercalate [',', ' '] texts) = some k := by
  induction texts with
  | nil => rfl
  | cons text texts ih =>
    obtain ⟨ht, hs⟩ := List.forall_mem_cons.mp h
    cases texts with
    | nil => simpa [List.intercalate] using ht.depthBehind
    | cons next texts =>
      have space : Plain k [' '] := plain_of_isBlank rfl
      rw [intercalate_cons_cons, ht.depthBehind_append_comma, depthBehind_append,
        space.depthBehind]
      exact ih hs

/-- The commas between arguments cut the whole into the texts of the arguments, whitespace
aside. -/
theorem segments_intercalate {R : List Char → List Token → Prop} (hn : arguments ≠ [])
    (hp : ∀ argument ∈ arguments, Plain 0 (renderChars argument))
    (h : ∀ argument ∈ arguments, ∀ blank, Text.isBlank blank →
      R (blank ++ renderChars argument) argument)
    (hb : Text.isBlank before) :
    List.Forall₂ R
      (segments 0 (before ++ List.intercalate [',', ' '] (arguments.map renderChars)))
      arguments := by
  induction arguments generalizing before with
  | nil => exact absurd rfl hn
  | cons argument arguments ih =>
    obtain ⟨ha, hs⟩ := List.forall_mem_cons.mp h
    obtain ⟨hp, hps⟩ := List.forall_mem_cons.mp hp
    have whole : Plain 0 (before ++ renderChars argument) := (plain_of_isBlank hb).append hp
    cases arguments with
    | nil =>
      have single : List.intercalate [',', ' '] ([argument].map renderChars) =
          renderChars argument := by
        simp [List.intercalate]
      rw [single, whole.segments]
      exact .cons (ha before hb) .nil
    | cons next arguments =>
      have space : Text.isBlank [' '] := rfl
      rw [List.map_cons, List.map_cons, intercalate_cons_cons, ← List.append_assoc,
        whole.segments_append_comma]
      exact .cons (ha before hb) (ih (List.cons_ne_nil _ _) hps hs space)

theorem renderChars_group (f : Formula) :
    renderChars (Formula.group f).tokens =
      '(' :: (([' '] ++ (renderChars f.tokens ++ [' '])) ++ [')']) := by
  rw [Formula.tokens, renderChars_cons _ (by simp),
    renderChars_append f.tokens_ne_nil (List.cons_ne_nil _ _), renderChars_singleton]
  simp [Token.chars]

theorem renderChars_operation (op : Operator) (left right : Formula) :
    renderChars (Formula.operation op left right).tokens =
      renderChars left.tokens ++ ([' '] ++ op.symbol :: ([' '] ++ renderChars right.tokens)) := by
  rw [Formula.tokens, renderChars_append left.tokens_ne_nil (List.cons_ne_nil _ _),
    renderChars_cons _ right.tokens_ne_nil]
  simp [Token.chars]

/-- The written form of a tree closes all parentheses that it opens. -/
theorem plain_render {f : Formula} (hf : f.Grouped)
    (hw : ∀ token ∈ f.tokens, Writable levels token) : Plain k (renderChars f.tokens) := by
  have space {k : Nat} : Plain k [' '] := plain_of_isBlank rfl
  induction hf generalizing levels k with
  | number =>
    rw [Formula.tokens, renderChars_singleton]
    cases List.forall_mem_singleton.mp hw with
    | operand hx hn =>
      obtain ⟨l, hl, hc, -⟩ := Layout.exists_literal hx hn
      rw [Token.chars, hc]
      exact plain_chars hl
  | @group f _ ih =>
    have inside := (List.forall_mem_append.mp (List.forall_mem_cons.mp hw).2).1
    rw [renderChars_group]
    exact .group (space.append ((ih inside).append space))
  | @operation op left right _ _ _ _ ihl ihr =>
    obtain ⟨hl, htail⟩ := List.forall_mem_append.mp hw
    have behind : Plain k ([' '] ++ renderChars right.tokens) :=
      space.append (ihr (List.forall_mem_cons.mp htail).2)
    rw [renderChars_operation]
    exact (ihl hl).append (space.append (plain_symbol_cons behind))
  | @call name fs _ ih =>
    rw [Formula.tokens_call] at hw ⊢
    rw [renderChars_singleton, Token.chars_call]
    cases List.forall_mem_singleton.mp hw with
    | call hn _ hargs =>
      refine (plain_of_isName hn).append (.group (plain_intercalate ?_))
      simp only [List.map_map, List.forall_mem_map]
      intro f hf
      exact ih f hf (hargs f.tokens (List.mem_map_of_mem hf))

/-- No token begins with whitespace. -/
theorem exists_chars_cons (h : Writable levels token) :
    ∃ c cs, token.chars = c :: cs ∧ Text.isWhitespace c = false := by
  have deepest : nestingLimit + 0 = nestingLimit := rfl
  cases h with
  | operand hx hn => exact (lexeme_chars deepest (.operand hx hn)).exists_cons
  | operator => exact (lexeme_chars deepest .operator).exists_cons
  | leftParen => exact (lexeme_chars deepest .leftParen).exists_cons
  | rightParen => exact (lexeme_chars deepest .rightParen).exists_cons
  | call hn =>
    obtain ⟨c, cs, hc, ha⟩ := hn.exists_cons
    rw [Token.chars_call, hc]
    exact ⟨c, _, rfl, isWhitespace_of_nameChar (Or.inl (isAlphanum_of_isAlpha ha))⟩

theorem not_isBlank_renderChars (hn : tokens ≠ [])
    (hw : ∀ token ∈ tokens, Writable levels token) : ¬ Text.isBlank (renderChars tokens) := by
  intro hb
  cases tokens with
  | nil => exact hn rfl
  | cons token tokens =>
    obtain ⟨c, cs, hc, hspace⟩ := exists_chars_cons (hw token List.mem_cons_self)
    have first : ∃ rest, renderChars (token :: tokens) = c :: rest := by
      by_cases h : tokens = []
      · subst h
        exact ⟨cs, by rw [renderChars_singleton, hc]⟩
      · exact ⟨_, by rw [renderChars_cons token h, hc, List.cons_append]⟩
    obtain ⟨rest, hrest⟩ := first
    rw [hrest] at hb
    exact absurd (isBlank_cons.mp hb).1 (by simp [hspace])

end Text

namespace Scan

open CallText Reckoner.Language

variable {scanner : Option Scanner} {scan : Scanner} {levels depth k start opened : Nat}
  {place : Grammar.Place} {c : Char} {before cs : List Char} {token : Token} {tokens : List Token}
  {argument : List Token} {arguments : List (List Token)} {culprit : Option String}
  {blame : Token → Option String}

/-- A failure over the nesting of calls is the only one there is. -/
abbrev OnlyBlames {α : Type} (culprit : Option String) (result : Except Failure α) : Prop :=
  Blames (fun _ => False) culprit result

theorem exists_run_blank (hb : Text.isBlank before) :
    ∃ later, run scanner start opened place (before ++ cs) =
      run scanner later opened place cs := by
  induction before generalizing start with
  | nil => exact ⟨start, rfl⟩
  | cons c before ih =>
    obtain ⟨hc, hb⟩ := isBlank_cons.mp hb
    rw [List.cons_append, run_whitespace hc]
    exact ih hb

/-- The scanner reads the token off the front of a text, or puts the blame on a call in it. -/
def Reads (scanner : Option Scanner) (culprit : Option String) (token : Token) : Prop :=
  ∃ c cs, token.chars = c :: cs ∧ Text.isWhitespace c = false ∧
    ∀ start opened rest, (token.kind = .rightParen → opened ≠ 0) → Literal.Stops rest →
      OnlyBlames culprit (lexeme scanner start opened c (cs ++ rest)).result ∧
        ∀ found, (lexeme scanner start opened c (cs ++ rest)).result = .ok found →
          found.token.kind = token.kind ∧ found.more = cs.length

theorem exists_tail (token : Token) (tokens : List Token) :
    ∃ blank, renderChars (token :: tokens) = token.chars ++ (blank ++ renderChars tokens) ∧
      Text.isBlank blank ∧ Literal.Stops (blank ++ renderChars tokens) := by
  by_cases h : tokens = []
  · subst h
    exact ⟨[], by simp [renderChars, List.intercalate], rfl, nofun⟩
  · refine ⟨[' '], renderChars_cons token h, rfl, ?_⟩
    rintro _ ⟨⟩
    decide

/-- Tokens whose kinds are accepted are scanned one by one, up to the first call to blame. -/
theorem run_blames (h : ∀ token ∈ tokens, Reads scanner (blame token) token)
    (ha : Grammar.Accepted opened place (tokens.map Token.kind)) (start : Nat) :
    OnlyBlames (tokens.findSome? blame)
      (run scanner start opened place (renderChars tokens)).result := by
  induction tokens generalizing start opened place with
  | nil =>
    have finished : finish opened place = .ok () := finish_eq_ok_iff.mpr ha
    have scanned : (run scanner start opened place []).result = .ok [] := by
      rw [run_nil, finished]
      rfl
    exact scanned ▸ .ok rfl
  | cons token tokens ih =>
    obtain ⟨hread, hreads⟩ := List.forall_mem_cons.mp h
    obtain ⟨haccepts, hopened, ha⟩ := ha
    obtain ⟨c, cs, hc, hw, hread⟩ := hread
    -- nothing or a space follows the token, so that a literal ends where it was written to end
    obtain ⟨blank, htext, hblank, hstops⟩ := exists_tail token tokens
    obtain ⟨found, hfound⟩ := hread start opened _ hopened hstops
    have visible : ¬ Text.isWhitespace c := by simp [hw]
    rw [htext, hc, List.cons_append, run_lexeme visible, findSome?_cons_eq_or, Logged.result_bind]
    refine found.bind ?_
    rintro ⟨read, more⟩ hok
    obtain ⟨hkind, rfl⟩ := hfound _ hok
    have advanced : place.advance token.kind = .ok (.after token.kind) :=
      advance_eq_ok_iff.mpr ⟨haccepts, rfl⟩
    obtain ⟨later, hlater⟩ := @exists_run_blank scanner (start + 1 + cs.length)
      (Grammar.openedBehind opened token.kind) (.after token.kind) blank (renderChars tokens) hblank
    simp only [Logged.result_bind, Logged.result_emit, Logged.result_ofExcept, advanced,
      Logged.result_map, List.drop_left, openedAfter_eq, hkind]
    have behind := ih hreads ha later
    rw [← hlater] at behind
    exact behind.map (read :: ·)

/-- The arguments of a call are found in the text between its parentheses. -/
theorem exists_texts {R : List Char → List Token → Prop}
    (hp : ∀ argument ∈ arguments, Plain 0 (renderChars argument))
    (hn : ∀ argument ∈ arguments, ¬ Text.isBlank (renderChars argument))
    (h : ∀ argument ∈ arguments, ∀ blank, Text.isBlank blank →
      R (blank ++ renderChars argument) argument) :
    ∃ texts, CallText.arguments
        (List.intercalate [',', ' '] (arguments.map renderChars)) = .ok texts ∧
      List.Forall₂ R texts arguments := by
  by_cases ha : arguments = []
  · subst ha
    exact ⟨[], rfl, .nil⟩
  have nothing : Text.isBlank [] := rfl
  have cut := @segments_intercalate [] arguments
    (fun text argument => ¬ Text.isBlank text ∧ R text argument) ha hp
    (fun argument hm blank hb => ⟨fun hall => hn argument hm (isBlank_append.mp hall).2,
      h argument hm blank hb⟩) nothing
  rw [List.nil_append, List.forall₂_and_left] at cut
  obtain ⟨hseg, hR⟩ := cut
  refine ⟨_, arguments_eq_ok_iff.mpr (Or.inr ⟨?_, rfl, hseg⟩), hR⟩
  intro hb
  have whole : Plain 0 (List.intercalate [',', ' '] (arguments.map renderChars)) :=
    plain_of_isBlank hb
  exact hseg _ (by simp [whole.segments]) hb

theorem plain_argument (hk : Grammar.Expression (argument.map Token.kind))
    (hw : ∀ token ∈ argument, Writable levels token) : Plain k (renderChars argument) := by
  obtain ⟨f, hf, rfl⟩ := Formula.exists_of_writable_expression hk hw
  exact plain_render hf hw

theorem chars_call_append (name : String) (arguments : List (List Token)) (rest : List Char) :
    (Token.call name arguments).chars ++ rest = name.toList ++
      '(' :: (List.intercalate [',', ' '] (arguments.map renderChars) ++ ')' :: rest) := by
  rw [Token.chars_call]
  simp

theorem isAlpha_of_chars_call {name : String} (hn : IsName name.toList)
    (hc : (Token.call name arguments).chars = c :: cs) : c.isAlpha := by
  obtain ⟨d, ds, hd, ha⟩ := hn.exists_cons
  rw [Token.chars_call, hd] at hc
  obtain ⟨rfl, -⟩ := List.cons.inj hc
  exact ha

/-- A call comes to what its arguments come to. -/
theorem result_call {name : String} {b rest : List Char} {texts : List (List Char)}
    (hn : IsName name.toList) (hb : depthBehind 0 b = some 0)
    (ht : CallText.arguments b = .ok texts) :
    (call (some scan) start (name.toList ++ '(' :: (b ++ ')' :: rest))).result =
      (fun scanned => ⟨.call name scanned, name.toList.length + b.length + 1⟩) <$>
        texts.mapM fun text => (scan text).result := by
  have balanced : body 0 (b ++ ')' :: rest) = some b := body_eq_some_iff.mpr ⟨hb, rest, rfl⟩
  obtain ⟨htake, hdrop⟩ := @takeWhile_name name (b ++ ')' :: rest) hn
  rw [call, hdrop, htake]
  simp only [balanced, ht, Logged.result_bind, Logged.result_mapM, Logged.result_emit,
    Logged.result_pure, String.ofList_toList]
  rfl

theorem result_call_chars {name : String} {texts : List (List Char)} {rest : List Char}
    (hn : IsName name.toList)
    (hp : ∀ argument ∈ arguments, Plain 0 (renderChars argument))
    (ht : CallText.arguments
      (List.intercalate [',', ' '] (arguments.map renderChars)) = .ok texts) :
    (call (some scan) start ((Token.call name arguments).chars ++ rest)).result =
      (fun scanned => ⟨.call name scanned, (Token.call name arguments).chars.length - 1⟩) <$>
        texts.mapM fun text => (scan text).result := by
  have width : name.toList.length +
      (List.intercalate [',', ' '] (arguments.map renderChars)).length + 1 =
        (Token.call name arguments).chars.length - 1 := by
    rw [Token.chars_call]
    simp
    omega
  rw [chars_call_append, result_call hn (depthBehind_intercalate (List.forall_mem_map.mpr hp)) ht,
    width]

/-- A call is read when its arguments are, and those may be nested to any depth. -/
theorem reads_call {name : String} {inside : List Token → Option String}
    (hw : Writable levels (.call name arguments))
    (h : ∀ argument ∈ arguments, ∀ blank, Text.isBlank blank →
      OnlyBlames (inside argument) (scan (blank ++ renderChars argument)).result) :
    Reads (some scan) ((Token.call name arguments).blamed (some inside))
      (.call name arguments) := by
  obtain ⟨c, cs, hc, hspace⟩ := exists_chars_cons hw
  refine ⟨c, cs, hc, hspace, ?_⟩
  intro start opened rest _ _
  cases hw with
  | call hn hk hargs =>
    have plain : ∀ argument ∈ arguments, Plain 0 (renderChars argument) :=
      fun argument ha => plain_argument (hk argument ha) (hargs argument ha)
    have visible : ∀ argument ∈ arguments, ¬ Text.isBlank (renderChars argument) := by
      intro argument ha
      have nonempty : argument ≠ [] := by simpa using (hk argument ha).ne_nil
      exact not_isBlank_renderChars nonempty (hargs argument ha)
    obtain ⟨texts, htexts, hscan⟩ := @exists_texts arguments
      (fun text argument => OnlyBlames (inside argument) (scan text).result) plain visible h
    have result := @result_call_chars scan start arguments name texts rest hn plain htexts
    rw [hc] at result
    rw [lexeme_alpha (isAlpha_of_chars_call hn hc), ← List.cons_append, result]
    refine ⟨(Blames.mapM hscan).map _, ?_⟩
    intro found hfound
    obtain ⟨scanned, -, rfl⟩ := map_eq_ok_iff.mp hfound
    exact ⟨rfl, rfl⟩

/-- Where no call is allowed, the first one is to blame. -/
theorem reads_forbidden {name : String} (hw : Writable levels (.call name arguments)) :
    Reads none (some name) (.call name arguments) := by
  obtain ⟨c, cs, hc, hspace⟩ := exists_chars_cons hw
  refine ⟨c, cs, hc, hspace, ?_⟩
  intro start opened rest _ _
  cases hw with
  | call hn =>
    obtain ⟨htake, hdrop⟩ := @takeWhile_name name
      (List.intercalate [',', ' '] (arguments.map renderChars) ++ ')' :: rest) hn
    rw [lexeme_alpha (isAlpha_of_chars_call hn hc), ← List.cons_append, ← hc, chars_call_append,
      call, hdrop, htake, String.ofList_toList]
    refine ⟨.deep rfl rfl rfl, ?_⟩
    intro found hfound
    cases hfound

/-- Any token but a call is read wherever it stands. -/
theorem reads_other (hd : depth + levels = nestingLimit) (hs : Scans depth scanner)
    (hw : Writable levels token) : Reads scanner none token := by
  obtain ⟨c, cs, hc, hspace⟩ := exists_chars_cons hw
  refine ⟨c, cs, hc, hspace, ?_⟩
  intro start opened rest hopened hstops
  have text : Language.Lexeme depth (c :: cs) token := hc ▸ lexeme_chars hd hw
  have begins : Begins depth opened (c :: (cs ++ rest)) ⟨token, cs.length⟩ :=
    ⟨c :: cs, rest, rfl, rfl, text, hopened, fun _ => hstops⟩
  rw [lexeme_of_begins hs begins]
  refine ⟨.ok rfl, ?_⟩
  rintro found ⟨⟩
  exact ⟨rfl, rfl⟩

/-- What scans the arguments of calls, if calls may stand where `levels` are left. -/
def inner : (levels : Nat) → Option Scanner
  | 0 => none
  | levels + 1 => some (fragment levels)

theorem fragment_eq (levels : Nat) : fragment levels = run (inner levels) 0 0 .start := by
  cases levels <;> rfl

theorem scans_inner (h : depth + levels = nestingLimit) : Scans depth (inner levels) := by
  cases levels with
  | zero => exact Nat.le_of_eq h.symm
  | succ levels =>
    have next : depth + 1 + levels = nestingLimit := by omega
    exact ⟨by omega, fun cs ts => fragment_eq_ok_iff next⟩

/-- The arguments of calls put the blame on the calls in them. -/
def InnerReads : Option Scanner → Option (List Token → Option String) → Prop :=
  Option.Rel fun scan inside => ∀ tokens, Expressible tokens → ∀ blank, Text.isBlank blank →
    OnlyBlames (inside tokens) (scan (blank ++ renderChars tokens)).result

theorem reads_of_inner (hd : depth + levels = nestingLimit)
    (h : InnerReads (inner levels) (blamedInside levels)) (hw : Writable k token) :
    Reads (inner levels) (token.blamed (blamedInside levels)) token := by
  have scans := scans_inner hd
  cases hw with
  | operand hx hn => exact reads_other hd scans (.operand hx hn)
  | operator => exact reads_other hd scans .operator
  | leftParen => exact reads_other hd scans .leftParen
  | rightParen => exact reads_other hd scans .rightParen
  | call hn hk hargs =>
    cases levels with
    | zero => exact reads_forbidden (.call hn hk hargs)
    | succ levels =>
      cases h with
      | some h =>
        refine reads_call (.call hn hk hargs) ?_
        intro argument ha
        exact h argument ⟨Or.inr (hk argument ha), _, hargs argument ha⟩

/-- By induction on the levels that are left for calls. -/
theorem inner_reads (h : levels ≤ nestingLimit + 1) :
    InnerReads (inner levels) (blamedInside levels) := by
  induction levels with
  | zero => exact .none
  | succ levels ih =>
    refine .some fun tokens ht blank hb => ?_
    obtain ⟨inside, hw⟩ := ht.writable
    obtain ⟨later, hlater⟩ := @exists_run_blank (inner levels) 0 0 .start blank
      (renderChars tokens) hb
    have kinds : Grammar.Accepted 0 .start (tokens.map Token.kind) := by
      rw [Grammar.accepted_iff, List.map_eq_nil_iff]
      exact ht.shape
    have left : nestingLimit - levels + levels = nestingLimit := by omega
    have reads : ∀ token ∈ tokens,
        Reads (inner levels) (token.blamed (blamedInside levels)) token :=
      fun token hm => reads_of_inner left (ih (by omega)) (hw token hm)
    rw [fragment_eq, hlater, blamed_eq]
    exact run_blames reads kinds later

end Scan

/-- Tokenizing what has been written fails only over the nesting of calls, and by the name of the
first call that is nested too deeply. -/
theorem Expressible.tokenize_blames {tokens : List Token} (h : Expressible tokens) :
    Scan.OnlyBlames (blamed nestingLimit tokens) (tokenize (render tokens)).result := by
  have nothing : Text.isBlank [] := rfl
  rw [Scan.result_tokenize, render, String.toList_ofList]
  cases Scan.inner_reads (Nat.le_refl (nestingLimit + 1)) with
  | some reads => exact reads tokens h [] nothing

end Reckoner
