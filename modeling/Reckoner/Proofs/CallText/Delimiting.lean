import Reckoner.Proofs.Fault.Lexeme
import Reckoner.Proofs.Locality

/-! Where the body of a call ends, and how it is cut into the texts of the arguments. The body is
the balanced text before a right parenthesis, the cuts are at the commas outside parentheses, and
nothing but these commas is lost. -/
namespace Reckoner

namespace CallText

variable {depth inner start comma : Nat} {c : Char} {cs ds b b' before after text upTo : List Char}
  {texts earlier behind : List (List Char)}

/-- As many parentheses are closed as are opened, and none before it is opened. -/
structure Balanced (cs : List Char) : Prop where
  nested : ∀ before, before <+: cs → before.count ')' ≤ before.count '('
  total : cs.count ')' = cs.count '('

/-- What one character does to the count. -/
theorem count_cons_nesting (h : ¬ (c = ')' ∧ depth = 0)) (cs : List Char) :
    nesting depth c + cs.count '(' + (c :: cs).count ')' =
      depth + (c :: cs).count '(' + cs.count ')' := by
  by_cases hl : c = '('
  · subst hl
    simp [nesting]
    omega
  by_cases hr : c = ')'
  · subst hr
    have hd : depth ≠ 0 := fun h0 => h ⟨rfl, h0⟩
    simp [nesting]
    omega
  · simp [nesting, hl, hr]

theorem depthBehind_eq_some_iff :
    depthBehind depth cs = some inner ↔
      (∀ before, before <+: cs → before.count ')' ≤ depth + before.count '(') ∧
        inner + cs.count ')' = depth + cs.count '(' := by
  induction cs generalizing depth with
  | nil => simp [depthBehind, eq_comm]
  | cons c cs ih =>
    rw [depthBehind]
    split
    next hc =>
      obtain ⟨rfl, rfl⟩ := hc
      constructor
      · intro h
        cases h
      · intro h
        have first := h.1 [')'] (by simp)
        simp at first
    next hc =>
      rw [ih]
      have whole := count_cons_nesting hc cs
      refine and_congr ⟨fun h before hb => ?_, fun h before hb => ?_⟩ (by omega)
      · rcases List.prefix_cons_iff.mp hb with rfl | ⟨rest, rfl, hrest⟩
        · simp
        · have := h rest hrest
          have := count_cons_nesting hc rest
          omega
      · have := h (c :: before) (List.cons_prefix_cons.mpr ⟨rfl, hb⟩)
        have := count_cons_nesting hc before
        omega

theorem balanced_iff : Balanced cs ↔ depthBehind 0 cs = some 0 := by
  rw [depthBehind_eq_some_iff]
  simp only [Nat.zero_add]
  exact ⟨fun h => ⟨h.nested, h.total⟩, fun h => ⟨h.1, h.2⟩⟩

instance : DecidablePred Balanced := fun _ => decidable_of_iff _ balanced_iff.symm

/-- No two balanced texts stand before a right parenthesis. -/
theorem Balanced.unique {after' : List Char} (h : Balanced b) (h' : Balanced b')
    (he : b ++ ')' :: after = b' ++ ')' :: after') : b' = b := by
  have body : body 0 (b ++ ')' :: after) = some b :=
    body_eq_some_iff.mpr ⟨balanced_iff.mp h, after, rfl⟩
  have body' : CallText.body 0 (b ++ ')' :: after) = some b' :=
    body_eq_some_iff.mpr ⟨balanced_iff.mp h', after', he⟩
  exact Option.some.inj (body'.symm.trans body)

theorem body_eq_none_iff :
    body 0 cs = none ↔ ∀ b after, Balanced b → cs ≠ b ++ ')' :: after := by
  rw [Option.eq_none_iff_forall_ne_some]
  constructor
  · intro h b after hb hcs
    exact h b (body_eq_some_iff.mpr ⟨balanced_iff.mp hb, after, hcs⟩)
  · intro h b hb
    obtain ⟨hbalanced, after, hcs⟩ := body_eq_some_iff.mp hb
    exact h b after (balanced_iff.mpr hbalanced) hcs

/-- Behind a balanced text a comma ends a segment. -/
theorem segments_append_comma (hd : depthBehind depth cs = some 0) :
    segments depth (cs ++ ',' :: ds) = segments depth cs ++ segments 0 ds := by
  induction cs generalizing depth with
  | nil =>
    obtain rfl := Option.some.inj hd
    simp [segments]
  | cons c cs ih =>
    rw [depthBehind] at hd
    split at hd
    · cases hd
    rw [List.cons_append, segments, segments]
    split
    next hc =>
      obtain ⟨rfl, rfl⟩ := hc
      have same : nesting 0 ',' = 0 := rfl
      rw [same] at hd
      rw [List.cons_append, ih hd]
    next =>
      rw [ih hd]
      cases h : segments (nesting depth c) cs with
      | nil => exact absurd h (segments_ne_nil _ cs)
      | cons => rfl

/-- All commas of the text are inside parentheses. -/
def Undivided (cs : List Char) : Prop :=
  ∀ before after, cs = before ++ ',' :: after → ¬ Balanced before

theorem plain_iff : Plain 0 cs ↔ Balanced cs ∧ Undivided cs := by
  constructor
  · intro h
    refine ⟨balanced_iff.mpr h.depthBehind, ?_⟩
    rintro before after rfl hb
    have pieces := congrArg List.length h.segments
    have := List.length_pos_iff.mpr (segments_ne_nil 0 before)
    have := List.length_pos_iff.mpr (segments_ne_nil 0 after)
    rw [segments_append_comma (balanced_iff.mp hb), List.length_append, List.length_singleton]
      at pieces
    omega
  · rintro ⟨hb, hu⟩
    have hd := balanced_iff.mp hb
    exact ⟨hd, segments_of_undivided hd fun before after hcs hbefore =>
      hu before after hcs (balanced_iff.mpr hbefore)⟩

/-- The texts are what is left of the body when it is cut at its commas outside parentheses. -/
structure Cut (b : List Char) (texts : List (List Char)) : Prop where
  nonempty : texts ≠ []
  joined : List.intercalate [','] texts = b
  balanced : ∀ text ∈ texts, Balanced text
  undivided : ∀ text ∈ texts, Undivided text

theorem Cut.plain (h : Cut b texts) : ∀ text ∈ texts, Plain 0 text :=
  fun text ht => plain_iff.mpr ⟨h.balanced text ht, h.undivided text ht⟩

theorem plain_of_mem_segments (hd : depthBehind 0 cs = some 0) (hs : segments 0 cs = texts) :
    ∀ text ∈ texts, Plain 0 text := by
  induction texts generalizing cs with
  | nil => exact nofun
  | cons first texts ih =>
    cases texts with
    | nil =>
      have whole := intercalate_segments 0 cs
      rw [hs, List.intercalate_singleton] at whole
      subst whole
      simpa using ⟨hd, hs⟩
    | cons next texts =>
      obtain ⟨ds, -, hfirst, hbalanced, hds, hrest⟩ := exists_of_segments hd hs
      exact List.forall_mem_cons.mpr ⟨⟨hbalanced, hfirst⟩, ih hds hrest⟩

/-- A balanced text has one cut. -/
theorem cut_iff (hb : Balanced b) : Cut b texts ↔ texts = segments 0 b := by
  constructor
  · intro h
    obtain ⟨-, hsegments⟩ := plain_joined h.nonempty h.plain
    rw [← h.joined, hsegments]
  · rintro rfl
    have plain := plain_of_mem_segments (balanced_iff.mp hb) rfl
    exact ⟨segments_ne_nil 0 b, intercalate_segments 0 b,
      fun text ht => (plain_iff.mp (plain text ht)).1,
      fun text ht => (plain_iff.mp (plain text ht)).2⟩

/-- The first of the texts that is blank, and those on either side of it. -/
structure FirstBlank (texts earlier : List (List Char)) (text : List Char)
    (behind : List (List Char)) : Prop where
  split : texts = earlier ++ text :: behind
  visible : ∀ text ∈ earlier, ¬ Text.isBlank text
  blank : Text.isBlank text

theorem exists_firstBlank (h : ¬ ∀ text ∈ texts, ¬ Text.isBlank text) :
    ∃ earlier text behind, FirstBlank texts earlier text behind := by
  induction texts with
  | nil => exact absurd nofun h
  | cons first texts ih =>
    by_cases hfirst : Text.isBlank first
    · exact ⟨[], first, texts, rfl, nofun, hfirst⟩
    · obtain ⟨earlier, text, behind, rfl, hvisible, hblank⟩ :=
        ih fun hs => h (List.forall_mem_cons.mpr ⟨hfirst, hs⟩)
      refine ⟨first :: earlier, text, behind, rfl, ?_, hblank⟩
      exact List.forall_mem_cons.mpr ⟨hfirst, hvisible⟩

/-- The texts before the comma that is blamed for a blank text: the comma that ends it or, if it is
the last text, the one before it. -/
def upToComma (earlier : List (List Char)) (text : List Char) (behind : List (List Char)) :
    List (List Char) :=
  if behind = [] then earlier else earlier ++ [text]

theorem upToComma_eq_nil_iff : upToComma earlier text behind = [] ↔ earlier = [] ∧ behind = [] := by
  rw [upToComma]
  split
  next h => simp [h]
  next h => simp [h]

theorem blankComma_cons {first : List Char} (hf : ¬ Text.isBlank first) (hn : texts ≠ []) :
    blankComma start (first :: texts) = blankComma (start + first.length + 1) texts := by
  cases texts with
  | nil => exact absurd rfl hn
  | cons next texts =>
    rw [blankComma]
    · rw [if_neg hf]
    · exact List.cons_ne_nil next texts

theorem blankComma_of_firstBlank (hv : ∀ text ∈ earlier, ¬ Text.isBlank text)
    (hb : Text.isBlank text) (hn : upToComma earlier text behind ≠ []) :
    blankComma start (earlier ++ text :: behind) =
      some (start + (List.intercalate [','] (upToComma earlier text behind)).length) := by
  induction earlier generalizing start with
  | nil =>
    cases behind with
    | nil => exact absurd rfl hn
    | cons next behind => simp [blankComma, upToComma, hb]
  | cons first earlier ih =>
    obtain ⟨hfirst, hv⟩ := List.forall_mem_cons.mp hv
    rw [List.cons_append, blankComma_cons hfirst (by simp)]
    by_cases hrest : upToComma earlier text behind = []
    · obtain ⟨rfl, rfl⟩ := upToComma_eq_nil_iff.mp hrest
      simp [blankComma, upToComma, hb]
    · have next :
          upToComma (first :: earlier) text behind = first :: upToComma earlier text behind := by
        simp only [upToComma]
        split <;> rfl
      rw [ih hv hrest, next, List.intercalate_cons_of_ne_nil hrest]
      simp
      omega

theorem intercalate_append (hcs : texts ≠ []) (hds : behind ≠ []) :
    List.intercalate [','] (texts ++ behind) =
      List.intercalate [','] texts ++ ',' :: List.intercalate [','] behind := by
  induction texts with
  | nil => exact absurd rfl hcs
  | cons first texts ih =>
    by_cases ht : texts = []
    · subst ht
      simp [List.intercalate_cons_of_ne_nil hds]
    · rw [List.cons_append, List.intercalate_cons_of_ne_nil (by simp [ht]), ih ht,
        List.intercalate_cons_of_ne_nil ht]
      simp

/-- A blank text is blamed on the comma that ends it, or on the last comma outside parentheses. -/
theorem exists_arguments_eq_error (hc : Cut b texts) (hn : ¬ Text.isBlank b)
    (h : ¬ ∀ text ∈ texts, ¬ Text.isBlank text) :
    ∃ earlier text behind upTo after, FirstBlank texts earlier text behind ∧
      upTo = List.intercalate [','] (upToComma earlier text behind) ∧
        b = upTo ++ ',' :: after ∧ Balanced upTo ∧ arguments b = .error upTo.length := by
  obtain ⟨earlier, text, behind, hfirst⟩ := exists_firstBlank h
  obtain ⟨hsplit, hvisible, hblank⟩ := hfirst
  have nonempty : upToComma earlier text behind ≠ [] := by
    intro hnone
    obtain ⟨rfl, rfl⟩ := upToComma_eq_nil_iff.mp hnone
    have whole := hc.joined
    rw [hsplit, List.nil_append, List.intercalate_singleton] at whole
    exact hn (whole ▸ hblank)
  obtain ⟨left, hleft, hparts⟩ :
      ∃ left, left ≠ [] ∧ texts = upToComma earlier text behind ++ left := by
    by_cases hb : behind = []
    · exact ⟨[text], List.cons_ne_nil _ _, by simpa [upToComma, hb] using hsplit⟩
    · exact ⟨behind, hb, by simpa [upToComma, hb] using hsplit⟩
  have plain : ∀ piece ∈ upToComma earlier text behind, Plain 0 piece := by
    intro piece hp
    refine hc.plain piece ?_
    rw [hparts]
    exact List.mem_append_left _ hp
  refine ⟨earlier, text, behind, _, List.intercalate [','] left, ⟨hsplit, hvisible, hblank⟩, rfl,
    ?_, balanced_iff.mpr (plain_joined nonempty plain).1, ?_⟩
  · rw [← hc.joined, hparts, intercalate_append nonempty hleft]
  · have balanced : Balanced b := by
      have whole := (plain_joined hc.nonempty hc.plain).1
      rw [hc.joined] at whole
      exact balanced_iff.mpr whole
    have comma := @blankComma_of_firstBlank 0 text earlier behind hvisible hblank nonempty
    rw [← hsplit, (cut_iff balanced).mp hc, Nat.zero_add] at comma
    rw [arguments, if_neg hn, comma]

end CallText

namespace Scan

open CallText

variable {scan : Scanner} {depth start comma : Nat} {name : String} {b rest rest' : List Char}

theorem call_of_unclosed (hn : Language.IsName name.toList) (hb : body 0 rest = none) :
    call (some scan) start (name.toList ++ '(' :: rest) =
      .fail { cause := .unclosedParen, index := some (start + name.toList.length),
              token := some "(" } := by
  obtain ⟨htake, hdrop⟩ := @takeWhile_name name rest hn
  simp only [call, htake, hdrop, hb]

theorem call_of_blank (hn : Language.IsName name.toList) (hb : body 0 rest = some b)
    (ha : arguments b = .error comma) :
    call (some scan) start (name.toList ++ '(' :: rest) =
      .fail { cause := .blankArgument, index := some (start + name.toList.length + 1 + comma),
              token := some "," } := by
  obtain ⟨htake, hdrop⟩ := @takeWhile_name name rest hn
  simp only [call, htake, hdrop, hb, ha]

/-- What stands behind the body does not matter. -/
theorem call_eq_of_body (hn : Language.IsName name.toList) (hb : body 0 rest = some b)
    (hb' : body 0 rest' = some b) :
    call (some scan) start (name.toList ++ '(' :: rest) =
      call (some scan) start (name.toList ++ '(' :: rest') := by
  obtain ⟨htake, hdrop⟩ := @takeWhile_name name rest hn
  obtain ⟨htake', hdrop'⟩ := @takeWhile_name name rest' hn
  simp only [call, htake, hdrop, hb, htake', hdrop', hb']

/-- A call inside fewer than the allowed number of others has its arguments scanned one level
further down. Whatever scans them, the body is the one balanced text before a right parenthesis,
whatever is behind it, and the arguments are its cut. A call without such a text, or with a blank
piece in the cut, fails before any argument is scanned. -/
theorem call_delimited (hd : depth < nestingLimit) (hn : Language.IsName name.toList) (start : Nat)
    (rest : List Char) :
    inner (nestingLimit - depth) = some (fragment (nestingLimit - (depth + 1))) ∧
      ∀ scan : Scanner,
        let paren := start + name.toList.length
        let scanned := call (some scan) start (name.toList ++ '(' :: rest)
        ((∀ b after, Balanced b → rest ≠ b ++ ')' :: after) →
            scanned =
              .fail { cause := .unclosedParen, index := some paren, token := some "(" }) ∧
          ∀ b after, Balanced b → rest = b ++ ')' :: after →
            (∀ b' after', Balanced b' → rest = b' ++ ')' :: after' → b' = b) ∧
            (∀ after',
              call (some scan) start (name.toList ++ '(' :: (b ++ ')' :: after')) = scanned) ∧
            (Text.isBlank b →
              scanned.result = .ok ⟨.call name [], name.toList.length + b.length + 1⟩) ∧
            (¬ Text.isBlank b → ∃ texts, Cut b texts ∧ (∀ other, Cut b other → other = texts) ∧
              ((∀ text ∈ texts, ¬ Text.isBlank text) →
                scanned.result =
                  (fun arguments => ⟨.call name arguments, name.toList.length + b.length + 1⟩) <$>
                    texts.mapM fun text => (scan text).result) ∧
              ((¬ ∀ text ∈ texts, ¬ Text.isBlank text) →
                ∃ earlier text behind upTo after', FirstBlank texts earlier text behind ∧
                  upTo = List.intercalate [','] (upToComma earlier text behind) ∧
                  b = upTo ++ ',' :: after' ∧ Balanced upTo ∧
                  scanned = .fail { cause := .blankArgument,
                                    index := some (paren + 1 + upTo.length),
                                    token := some "," })) := by
  refine ⟨?_, fun scan => ⟨fun hnone => ?_, ?_⟩⟩
  · obtain ⟨left, hleft⟩ : ∃ left, nestingLimit - depth = left + 1 :=
      ⟨_, (Nat.sub_add_cancel (by omega)).symm⟩
    rw [hleft, Nat.sub_add_eq, hleft]
    rfl
  · exact call_of_unclosed hn (body_eq_none_iff.mpr hnone)
  · rintro b after hb rfl
    have balanced := balanced_iff.mp hb
    have delimits (after' : List Char) : body 0 (b ++ ')' :: after') = some b :=
      body_eq_some_iff.mpr ⟨balanced, after', rfl⟩
    refine ⟨fun b' after' hb' he => hb.unique hb' he,
      fun after' => call_eq_of_body hn (delimits after') (delimits after), fun hblank => ?_,
      fun hblank => ⟨segments 0 b, (cut_iff hb).mpr rfl, fun other => (cut_iff hb).mp, ?_, ?_⟩⟩
    · exact result_call hn balanced (arguments_eq_ok_iff.mpr (Or.inl ⟨hblank, rfl⟩))
    · intro hvisible
      exact result_call hn balanced (arguments_eq_ok_iff.mpr (Or.inr ⟨hblank, rfl, hvisible⟩))
    · intro hsome
      obtain ⟨earlier, text, behind, upTo, after', hfirst, hupTo, hsplit, hbalanced, hfails⟩ :=
        exists_arguments_eq_error ((cut_iff hb).mpr rfl) hblank hsome
      exact ⟨earlier, text, behind, upTo, after', hfirst, hupTo, hsplit, hbalanced,
        call_of_blank hn (delimits after) hfails⟩

theorem call_delimited_of_nested_commas :
    (0 < nestingLimit ∧ Language.IsName "f".toList) ∧ ∀ scan : Scanner,
      call (some scan) 4 "f((1, $), 2".toList =
          .fail { cause := .unclosedParen, index := some 5, token := some "(" } ∧
        (call (some scan) 4 "f(g(1, 2),(3))) $".toList).result =
          (fun arguments => ⟨.call "f" arguments, 13⟩) <$>
            ["g(1, 2)".toList, "(3)".toList].mapM fun text => (scan text).result := by
  have below : 0 < nestingLimit := by decide
  have isName : Language.IsName "f".toList := by decide
  obtain ⟨-, unclosed⟩ := call_delimited below isName 4 "(1, $), 2".toList
  obtain ⟨-, closed⟩ := call_delimited below isName 4 "g(1, 2),(3))) $".toList
  have none : body 0 "(1, $), 2".toList = none := by decide
  have balanced : Balanced "g(1, 2),(3)".toList := by decide
  have cut : Cut "g(1, 2),(3)".toList ["g(1, 2)".toList, "(3)".toList] :=
    (cut_iff balanced).mpr (by decide)
  refine ⟨⟨below, isName⟩, fun scan => ⟨(unclosed scan).1 (body_eq_none_iff.mp none), ?_⟩⟩
  obtain ⟨-, -, -, divided⟩ := (closed scan).2 "g(1, 2),(3)".toList ") $".toList balanced rfl
  obtain ⟨texts, -, hunique, hscanned, -⟩ := divided (by decide)
  obtain rfl := hunique _ cut
  exact hscanned (by decide)

end Scan

end Reckoner
