import Reckoner.Proofs.Independence
import Reckoner.Proofs.Nesting.Scanning

/-! The arguments of a call are tokenized as if each of them stood alone. -/
namespace Reckoner

namespace CallText

variable {depth depth' inner : Nat} {c : Char} {cs ds text : List Char} {texts : List (List Char)}

/-- The most parentheses that are open at once in a text that begins inside `depth` of them. -/
def height (depth : Nat) : List Char → Nat
  | [] => depth
  | c :: cs => max depth (height (nesting depth c) cs)

theorem le_height (depth : Nat) (cs : List Char) : depth ≤ height depth cs := by
  cases cs with
  | nil => exact Nat.le_refl depth
  | cons c cs => exact Nat.le_max_left ..

theorem height_mono (h : depth ≤ depth') (cs : List Char) : height depth cs ≤ height depth' cs := by
  induction cs generalizing depth depth' with
  | nil => exact h
  | cons c cs ih =>
    have step : nesting depth c ≤ nesting depth' c := by
      simp only [nesting]
      split
      · omega
      · split <;> omega
    have rest := ih step
    simp only [height]
    omega

theorem height_append_left (cs ds : List Char) : height depth cs ≤ height depth (cs ++ ds) := by
  induction cs generalizing depth with
  | nil => exact le_height depth ds
  | cons c cs ih =>
    have rest := @ih (nesting depth c)
    simp only [List.cons_append, height]
    omega

/-- Read on its own, a text seems inside fewer parentheses than where it stands. -/
theorem height_append_right (cs ds : List Char) : height 0 ds ≤ height depth (cs ++ ds) := by
  induction cs generalizing depth with
  | nil => exact height_mono (Nat.zero_le depth) ds
  | cons c cs ih => exact Nat.le_trans ih (Nat.le_max_right ..)

theorem height_le_of_infix (h : cs <:+: ds) : height 0 cs ≤ height depth ds := by
  obtain ⟨before, after, rfl⟩ := h
  rw [List.append_assoc]
  exact Nat.le_trans (height_append_left cs after) (height_append_right before _)

/-- Around a balanced text one parenthesis more is open. -/
theorem height_succ (h : depthBehind depth cs = some inner) :
    height (depth + 1) cs = height depth cs + 1 := by
  induction cs generalizing depth with
  | nil => rfl
  | cons c cs ih =>
    rw [depthBehind] at h
    split at h
    · cases h
    next hc =>
      have step : nesting (depth + 1) c = nesting depth c + 1 := by
        simp only [nesting]
        split
        · rfl
        · split
          · rename_i hr
            have : depth ≠ 0 := fun h0 => hc ⟨hr, h0⟩
            omega
          · rfl
      simp only [height, step, ih h]
      omega

theorem intercalate_comma (first next : List Char) (texts : List (List Char)) :
    List.intercalate [','] (first :: next :: texts) =
      first ++ ',' :: List.intercalate [','] (next :: texts) := by
  simp [List.intercalate]

theorem infix_of_mem (h : text ∈ texts) : text <:+: List.intercalate [','] texts := by
  induction texts with
  | nil => cases h
  | cons first texts ih =>
    cases texts with
    | nil =>
      obtain rfl := List.mem_singleton.mp h
      simp [List.intercalate]
    | cons next texts =>
      rw [intercalate_comma]
      rcases List.mem_cons.mp h with rfl | h
      · exact (List.prefix_append text _).isInfix
      · exact (ih h).trans ((List.suffix_cons ',' _).trans (List.suffix_append first _)).isInfix

/-- The arguments in a body are parts of it. -/
theorem height_le_of_arguments (h : arguments cs = .ok texts) (ht : text ∈ texts) :
    height 0 text ≤ height 0 cs := by
  obtain ⟨-, rfl⟩ | ⟨-, rfl, -⟩ := arguments_eq_ok_iff.mp h
  · cases ht
  · have part := infix_of_mem ht
    rw [intercalate_segments] at part
    exact height_le_of_infix part

/-- In an argument fewer parentheses are open at once than in the text of the call. -/
theorem height_lt_of_body {inside b : List Char} (hb : body 0 inside = some b)
    (ha : arguments b = .ok texts) (ht : text ∈ texts) :
    height 0 text < height 0 ('(' :: inside) := by
  obtain ⟨hbalanced, rest, rfl⟩ := body_eq_some_iff.mp hb
  have argument := height_le_of_arguments ha ht
  have around : height 1 b = height 0 b + 1 := height_succ hbalanced
  have whole : height 1 b ≤ height 1 (b ++ ')' :: rest) := height_append_left b _
  have opened : height 0 ('(' :: (b ++ ')' :: rest)) = max 0 (height 1 (b ++ ')' :: rest)) := rfl
  omega

section Joined

theorem segments_of_undivided (hd : depthBehind depth cs = some inner)
    (h : ∀ before after, cs = before ++ ',' :: after → depthBehind depth before ≠ some 0) :
    segments depth cs = [cs] := by
  induction cs generalizing depth with
  | nil => rfl
  | cons c cs ih =>
    rw [depthBehind] at hd
    split at hd
    · cases hd
    next hc =>
      have comma : ¬ (c = ',' ∧ depth = 0) := by
        rintro ⟨rfl, rfl⟩
        exact h [] cs rfl rfl
      have rest : segments (nesting depth c) cs = [cs] := by
        refine ih hd ?_
        rintro before after rfl
        have := h (c :: before) after rfl
        rwa [depthBehind, if_neg hc] at this
      rw [segments, if_neg comma, rest]
      rfl

/-- The text of an argument: not blank, balanced, without a comma outside parentheses, and with no
more parentheses open at once than calls may be nested inside another one. -/
structure Argument (cs : List Char) : Prop where
  visible : ¬ Text.isBlank cs
  balanced : depthBehind 0 cs = some 0
  undivided : ∀ i < cs.length, cs[i]? = some ',' → depthBehind 0 (cs.take i) ≠ some 0
  shallow : height 0 cs < nestingLimit

instance : Decidable (Argument cs) :=
  decidable_of_iff
    (¬ Text.isBlank cs ∧ depthBehind 0 cs = some 0 ∧
      (∀ i < cs.length, cs[i]? = some ',' → depthBehind 0 (cs.take i) ≠ some 0) ∧
      height 0 cs < nestingLimit)
    ⟨fun ⟨visible, balanced, undivided, shallow⟩ => ⟨visible, balanced, undivided, shallow⟩,
      fun h => ⟨h.visible, h.balanced, h.undivided, h.shallow⟩⟩

theorem Argument.plain (h : Argument cs) : Plain 0 cs := by
  refine ⟨h.balanced, segments_of_undivided h.balanced ?_⟩
  rintro before after rfl
  simpa using h.undivided before.length (by simp) (by simp)

theorem plain_joined (hn : texts ≠ []) (h : ∀ text ∈ texts, Plain 0 text) :
    depthBehind 0 (List.intercalate [','] texts) = some 0 ∧
      segments 0 (List.intercalate [','] texts) = texts := by
  induction texts with
  | nil => exact absurd rfl hn
  | cons first texts ih =>
    obtain ⟨hfirst, hs⟩ := List.forall_mem_cons.mp h
    cases texts with
    | nil => simpa [List.intercalate] using And.intro hfirst.depthBehind hfirst.segments
    | cons next texts =>
      obtain ⟨hdepth, hsegments⟩ := ih (List.cons_ne_nil _ _) hs
      rw [intercalate_comma, hfirst.depthBehind_append_comma, hfirst.segments_append_comma, hsegments]
      exact ⟨hdepth, rfl⟩

theorem arguments_joined (hn : texts ≠ []) (h : ∀ text ∈ texts, Argument text) :
    depthBehind 0 (List.intercalate [','] texts) = some 0 ∧
      arguments (List.intercalate [','] texts) = .ok texts := by
  obtain ⟨hdepth, hsegments⟩ := plain_joined hn fun text ht => (h text ht).plain
  refine ⟨hdepth, arguments_eq_ok_iff.mpr (Or.inr ⟨?_, hsegments.symm, ?_⟩)⟩
  · intro hb
    have whole : Plain 0 (List.intercalate [','] texts) := Language.plain_of_isBlank hb
    have only : List.intercalate [','] texts ∈ segments 0 (List.intercalate [','] texts) := by
      rw [whole.segments]
      exact List.mem_singleton_self _
    rw [hsegments] at only
    exact (h _ only).visible hb
  · exact fun text ht => (h text ht).visible

end Joined

end CallText

namespace Scan

open CallText

variable {scanner scanner' : Option Scanner} {start opened levels levels' bound : Nat}
  {place : Grammar.Place} {c : Char} {cs : List Char}

/-- On texts in which fewer than `bound` parentheses are open at once, both scan alike. -/
def SameBelow (bound : Nat) (scanner scanner' : Option Scanner) : Prop :=
  0 < bound → Option.Rel (fun scan scan' => ∀ cs, height 0 cs < bound → scan cs = scan' cs)
    scanner scanner'

theorem SameBelow.mono {bound' : Nat} (h : SameBelow bound scanner scanner') (hb : bound' ≤ bound) :
    SameBelow bound' scanner scanner' := by
  intro hpos
  cases h (Nat.lt_of_lt_of_le hpos hb) with
  | none => exact .none
  | some same => exact .some fun cs hcs => same cs (Nat.lt_of_lt_of_le hcs hb)

/-- Only the arguments of a call are given to the scanner, and in these fewer parentheses are open
than in the call. -/
theorem call_congr (h : SameBelow (height 0 cs) scanner scanner') :
    call scanner start cs = call scanner' start cs := by
  have parts := @List.takeWhile_append_dropWhile _ isNameChar cs
  simp only [call]
  split
  next inside hi =>
    rw [hi] at parts
    have behind : height 0 ('(' :: inside) ≤ height 0 cs := by
      rw [← parts]
      exact height_append_right _ _
    have first : 1 ≤ height 0 ('(' :: inside) :=
      Nat.le_trans (le_height 1 inside) (Nat.le_max_right ..)
    cases h (by omega) with
    | none => rfl
    | @some scan scan' same =>
      cases hb : body 0 inside with
      | none => rfl
      | some b =>
        cases ha : arguments b with
        | error comma => simp only [ha]
        | ok texts =>
          have scanned : texts.mapM scan = texts.mapM scan' := by
            apply mapM_congr_mem
            intro text ht
            have inner := height_lt_of_body hb ha ht
            exact same text (by omega)
          simp only [ha, scanned]
  next => rfl

theorem lexeme_congr (h : SameBelow (height 0 (c :: cs)) scanner scanner') :
    lexeme scanner start opened c cs = lexeme scanner' start opened c cs := by
  rw [lexeme, lexeme, call_congr h]

theorem run_congr (start opened : Nat) (place : Grammar.Place) (cs : List Char)
    (h : SameBelow (height 0 cs) scanner scanner') :
    run scanner start opened place cs = run scanner' start opened place cs := by
  match cs with
  | [] => rw [run_nil, run_nil]
  | c :: cs =>
    by_cases hc : Text.isWhitespace c
    · have rest : height 0 cs ≤ height 0 (c :: cs) := height_append_right [c] cs
      rw [run_whitespace hc, run_whitespace hc, run_congr _ _ _ cs (h.mono rest)]
    · have behind (more : Nat) : height 0 (cs.drop more) ≤ height 0 (c :: cs) := by
        have split : c :: cs = (c :: cs.take more) ++ cs.drop more := by simp
        rw [split]
        exact height_append_right _ _
      rw [run_lexeme hc, run_lexeme hc, lexeme_congr h]
      congr 1
      funext ⟨token, more⟩
      simp only [run_congr _ _ _ (cs.drop more) (h.mono (behind more))]
termination_by cs.length
decreasing_by
  · exact Nat.lt_succ_self _
  · rw [List.length_drop]
    exact Nat.lt_succ_of_le (Nat.sub_le ..)

/-- A fragment is scanned alike on every level that covers its height. By induction on the
levels, since a call leaves its arguments one of them less and opens a parenthesis around them. -/
theorem fragment_congr (h : height 0 cs ≤ levels) (h' : height 0 cs ≤ levels') :
    fragment levels cs = fragment levels' cs := by
  induction levels generalizing levels' cs with
  | zero =>
    -- without parentheses there is no call
    have flat : height 0 cs = 0 := Nat.le_zero.mp h
    rw [fragment_eq, fragment_eq]
    refine run_congr _ _ _ cs ?_
    intro hpos
    omega
  | succ levels ih =>
    rw [fragment_eq, fragment_eq]
    refine run_congr _ _ _ cs ?_
    intro hpos
    obtain ⟨left, rfl⟩ : ∃ left, levels' = left + 1 := ⟨levels' - 1, by omega⟩
    refine .some ?_
    intro ds hds
    exact ih (by omega) (by omega)

/-- Where nothing but a call stands, there is nothing but its arguments to fail. -/
theorem result_run_call {scan : Scanner} {name : String} {b : List Char} {texts : List (List Char)}
    (hn : Language.IsName name.toList) (hb : depthBehind 0 b = some 0)
    (ht : arguments b = .ok texts) :
    (run (some scan) 0 0 .start (name.toList ++ '(' :: (b ++ [')']))).result =
      (fun arguments => [.call name arguments]) <$> texts.mapM fun text => (scan text).result := by
  have scanned := @result_call scan 0 name b [] texts hn hb ht
  obtain ⟨c, cs, hc, ha⟩ := hn.exists_cons
  have visible : ¬ Text.isWhitespace c := by
    simp [Language.isWhitespace_of_nameChar (Or.inl (Language.isAlphanum_of_isAlpha ha))]
  have nothing : (cs ++ '(' :: (b ++ [')'])).drop ((c :: cs).length + b.length + 1) = [] := by
    apply List.drop_eq_nil_of_le
    simp
    omega
  rw [hc, List.cons_append, ← lexeme_alpha ha] at scanned
  rw [hc, List.cons_append]
  cases hm : texts.mapM fun text => (scan text).result with
  | error failure =>
    rw [run_lexeme visible, Logged.result_bind, scanned, hm]
    rfl
  | ok arguments =>
    rw [hm] at scanned
    refine (run_lexeme_eq_ok_iff visible).mpr ⟨_, _, [], scanned, rfl, ?_, rfl⟩
    rw [nothing, run_nil]
    rfl

end Scan

/-- A traversal fails as it does at the first place at which it fails. -/
theorem mapM_eq_error_of_first {ε α β : Type} {f : α → Except ε β} {before after : List α} {x : α}
    {failure : ε} (hb : ∀ y ∈ before, ∃ z, f y = .ok z) (hx : f x = .error failure) :
    (before ++ x :: after).mapM f = .error failure := by
  induction before with
  | nil =>
    rw [List.nil_append, List.mapM_cons, hx]
    rfl
  | cons y before ih =>
    obtain ⟨⟨z, hz⟩, hs⟩ := List.forall_mem_cons.mp hb
    rw [List.cons_append, List.mapM_cons, hz, ih hs]
    rfl

theorem result_tokenize_call {name : String} {texts : List String}
    (hn : Language.IsName name.toList) (hne : texts ≠ [])
    (ht : ∀ text ∈ texts, CallText.Argument text.toList) :
    (tokenize (name ++ "(" ++ ",".intercalate texts ++ ")")).result =
      (fun arguments => [.call name arguments]) <$>
        texts.mapM fun text => (tokenize text).result := by
  have chars : (name ++ "(" ++ ",".intercalate texts ++ ")").toList =
      name.toList ++ '(' :: (List.intercalate [','] (texts.map String.toList) ++ [')']) := by
    simp [String.toList_intercalate]
  obtain ⟨hdepth, harguments⟩ := CallText.arguments_joined (by simpa using hne)
    (List.forall_mem_map.mpr ht)
  rw [Scan.result_tokenize, chars, nestingLimit, Scan.fragment_eq, Scan.inner,
    Scan.result_run_call hn hdepth harguments, List.mapM_map]
  congr 1
  apply mapM_congr_mem
  intro text hm
  -- on its own an argument has one level more
  have shallow := (ht text hm).shallow
  have same : Scan.fragment 63 text.toList = Scan.fragment nestingLimit text.toList :=
    Scan.fragment_congr (Nat.le_of_lt_succ shallow) (Nat.le_of_lt shallow)
  rw [Function.comp_apply, Scan.result_tokenize, same]

/-- The arguments of a call are tokenized as if each of them stood alone, the first of them that
cannot be tokenized with the failure that it has alone. -/
theorem tokenize_call (name : String) (texts : List String) (hn : Language.IsName name.toList)
    (hne : texts ≠ []) (ht : ∀ text ∈ texts, CallText.Argument text.toList) :
    (∀ arguments,
      List.Forall₂ (fun text tokens => (tokenize text).result = .ok tokens) texts arguments →
        (tokenize (name ++ "(" ++ ",".intercalate texts ++ ")")).result =
          .ok [.call name arguments]) ∧
      ∀ before text after failure, texts = before ++ text :: after →
        (∀ earlier ∈ before, ∃ tokens, (tokenize earlier).result = .ok tokens) →
          (tokenize text).result = .error failure →
            (tokenize (name ++ "(" ++ ",".intercalate texts ++ ")")).result = .error failure := by
  rw [result_tokenize_call hn hne ht]
  constructor
  · intro arguments h
    rw [mapM_eq_ok_iff.mpr h]
    rfl
  · rintro before text after failure rfl hbefore hfailure
    rw [mapM_eq_error_of_first hbefore hfailure]
    rfl

theorem tokenize_call_of_nested :
    let texts := ["1", "g(2, 3)"]
    let flawed := ["g(2, 3)", "2 $", "3 +"]
    (Language.IsName "f".toList ∧ texts ≠ [] ∧ ∀ text ∈ texts, CallText.Argument text.toList) ∧
      (∃ first second, (tokenize "1").result = .ok first ∧
        (tokenize "g(2, 3)").result = .ok second ∧
          (tokenize "f(1,g(2, 3))").result = .ok [.call "f" [first, second]]) ∧
      (∀ text ∈ flawed, CallText.Argument text.toList) ∧
      (tokenize "f(g(2, 3),2 $,3 +)").result =
        .error { cause := .unknownCharacter, index := some 2, token := some "$" } := by
  intro texts flawed
  have isName : Language.IsName "f".toList := by decide
  have separate : ∀ text ∈ texts, CallText.Argument text.toList := by decide
  have separateFlawed : ∀ text ∈ flawed, CallText.Argument text.toList := by decide
  have kindsOfFirst : (List.map Token.kind) <$> (tokenize "1").result = .ok [.operand] := by
    decide +kernel
  have kindsOfSecond : (List.map Token.kind) <$> (tokenize "g(2, 3)").result = .ok [.call] := by
    decide +kernel
  obtain ⟨first, hfirst, -⟩ := map_eq_ok_iff.mp kindsOfFirst
  obtain ⟨second, hsecond, -⟩ := map_eq_ok_iff.mp kindsOfSecond
  have failed : (fun _ => ()) <$> (tokenize "2 $").result =
      .error { cause := .unknownCharacter, index := some 2, token := some "$" } := by
    decide +kernel
  have whole := (tokenize_call "f" texts isName (by decide) separate).1 [first, second]
    (.cons hfirst (.cons hsecond .nil))
  have wholeFlawed := (tokenize_call "f" flawed isName (by decide) separateFlawed).2
    ["g(2, 3)"] "2 $" ["3 +"] _ rfl (by simpa using ⟨second, hsecond⟩) (map_eq_error_iff.mp failed)
  exact ⟨⟨isName, by decide, separate⟩, ⟨first, second, hfirst, hsecond, whole⟩, separateFlawed,
    wholeFlawed⟩

end Reckoner
