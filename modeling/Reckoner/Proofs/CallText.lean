import Reckoner.Token.CallText

/-! The body of a call is the balanced text before its parenthesis, and its segments are the texts
between the commas outside parentheses. -/
namespace Reckoner.CallText

variable {depth inner start : Nat} {c : Char} {cs ds b : List Char} {texts : List (List Char)}

/-- The parentheses open behind a text that begins inside `depth` of them. A text may not close
more than are open. -/
def depthBehind (depth : Nat) : List Char → Option Nat
  | [] => some depth
  | c :: cs => if c = ')' ∧ depth = 0 then none else depthBehind (nesting depth c) cs

theorem depthBehind_append :
    depthBehind depth (cs ++ ds) = (depthBehind depth cs).bind (depthBehind · ds) := by
  induction cs generalizing depth with
  | nil => rfl
  | cons c cs ih =>
    rw [List.cons_append, depthBehind, depthBehind]
    split
    · rfl
    · exact ih

theorem body_append (h : depthBehind depth cs = some inner) :
    body depth (cs ++ ds) = (body inner ds).map (cs ++ ·) := by
  induction cs generalizing depth with
  | nil =>
    obtain rfl := Option.some.inj h
    simp
  | cons c cs ih =>
    rw [depthBehind] at h
    split at h
    · cases h
    · next hc => simp [body, hc, ih h, Function.comp_def]

theorem depthBehind_body (h : body depth cs = some b) : depthBehind depth b = some 0 := by
  induction cs generalizing depth b with
  | nil => cases h
  | cons c cs ih =>
    rw [body] at h
    split at h
    next hc =>
      obtain rfl := Option.some.inj h
      rw [depthBehind, hc.2]
    next hc =>
      obtain ⟨b', hb, rfl⟩ := Option.map_eq_some_iff.mp h
      rw [depthBehind, if_neg hc, ih hb]

/-- The body is the text up to a right parenthesis that closes all that it opens. -/
theorem body_eq_some_iff :
    body depth cs = some b ↔ depthBehind depth b = some 0 ∧ ∃ rest, cs = b ++ ')' :: rest := by
  constructor
  · intro h
    exact ⟨depthBehind_body h, append_of_body h⟩
  · rintro ⟨hb, rest, rfl⟩
    simp [body_append hb, body]

/-- A text behind which as many parentheses are open as before it, without a comma outside. -/
structure Plain (depth : Nat) (cs : List Char) : Prop where
  depthBehind : depthBehind depth cs = some depth
  segments : segments depth cs = [cs]

theorem segments_append (hs : segments depth cs = [cs]) (hd : depthBehind depth cs = some inner) :
    segments depth (cs ++ ds) = (segments inner ds).modifyHead (cs ++ ·) := by
  induction cs generalizing depth with
  | nil =>
    obtain rfl := Option.some.inj hd
    cases h : segments depth ds <;> simp [h]
  | cons c cs ih =>
    rw [depthBehind] at hd
    split at hd
    · cases hd
    rw [segments] at hs
    split at hs
    · cases (List.cons.inj hs).1
    next hc =>
      have single : segments (nesting depth c) cs = [cs] := by
        cases h : segments (nesting depth c) cs with
        | nil => exact absurd h (segments_ne_nil _ _)
        | cons => simpa [h] using hs
      rw [List.cons_append, segments, if_neg hc, ih single hd]
      cases h : segments inner ds <;> simp

namespace Plain

theorem nil : Plain depth [] := ⟨rfl, rfl⟩

theorem append (h : Plain depth cs) (h' : Plain depth ds) : Plain depth (cs ++ ds) where
  depthBehind := by simp [depthBehind_append, h.depthBehind, h'.depthBehind]
  segments := by simp [segments_append h.segments h.depthBehind, h'.segments]

/-- Any character but a parenthesis; a comma only inside parentheses. -/
theorem char (hl : c ≠ '(') (hr : c ≠ ')') (hc : c = ',' → depth ≠ 0) : Plain depth [c] := by
  have same : nesting depth c = depth := by simp [nesting, hl, hr]
  constructor
  · simp [CallText.depthBehind, hr, same]
  · simp [CallText.segments]
    exact hc

theorem cons (hl : c ≠ '(') (hr : c ≠ ')') (hc : c = ',' → depth ≠ 0) (h : Plain depth cs) :
    Plain depth (c :: cs) :=
  (char hl hr hc).append h

theorem of_forall (h : ∀ c ∈ cs, c ≠ '(' ∧ c ≠ ')' ∧ c ≠ ',') : Plain depth cs := by
  induction cs with
  | nil => exact nil
  | cons c cs ih =>
    obtain ⟨hl, hr, hc⟩ := h c (by simp)
    exact cons hl hr (fun he => absurd he hc) (ih fun d hd => h d (by simp [hd]))

theorem group (h : Plain (depth + 1) cs) : Plain depth ('(' :: (cs ++ [')'])) := by
  have opens : nesting depth '(' = depth + 1 := rfl
  have closes : nesting (depth + 1) ')' = depth := rfl
  constructor
  · simp [CallText.depthBehind, opens, closes, depthBehind_append, h.depthBehind]
  · simp [CallText.segments, opens, segments_append h.segments h.depthBehind]

/-- A comma behind such a text ends a segment. -/
theorem segments_append_comma (h : Plain 0 cs) :
    CallText.segments 0 (cs ++ ',' :: ds) = cs :: CallText.segments 0 ds := by
  simp [segments_append h.segments h.depthBehind, CallText.segments]

theorem depthBehind_append_comma (h : Plain depth cs) :
    CallText.depthBehind depth (cs ++ ',' :: ds) = CallText.depthBehind depth ds := by
  rw [depthBehind_append, h.depthBehind]
  simp [CallText.depthBehind, nesting]

end Plain

theorem blankComma_eq_none_iff :
    blankComma start texts = none ↔ ∀ text ∈ texts, ¬ Text.isBlank text := by
  induction texts generalizing start with
  | nil => simp [blankComma]
  | cons text texts ih =>
    cases texts with
    | nil => simp [blankComma]
    | cons next texts =>
      rw [blankComma, List.forall_mem_cons]
      · split
        next hb => exact ⟨nofun, fun h => absurd hb h.1⟩
        next hb => exact ih.trans (and_iff_right hb).symm
      · nofun

theorem arguments_eq_ok_iff :
    arguments b = .ok texts ↔
      (Text.isBlank b ∧ texts = []) ∨
        (¬ Text.isBlank b ∧ texts = segments 0 b ∧ ∀ text ∈ texts, ¬ Text.isBlank text) := by
  rw [arguments]
  by_cases hb : Text.isBlank b
  · rw [if_pos hb]
    constructor
    · rintro ⟨⟩
      exact Or.inl ⟨hb, rfl⟩
    · rintro (⟨-, rfl⟩ | ⟨h, -⟩)
      · rfl
      · exact absurd hb h
  rw [if_neg hb]
  split
  next comma h =>
    have hall : ¬ ∀ text ∈ segments 0 b, ¬ Text.isBlank text := by
      rw [← @blankComma_eq_none_iff 0, h]
      nofun
    constructor
    · nofun
    · rintro (⟨h', -⟩ | ⟨-, rfl, h'⟩)
      · exact absurd h' hb
      · exact absurd h' hall
  next h =>
    have hall := blankComma_eq_none_iff.mp h
    constructor
    · rintro ⟨⟩
      exact Or.inr ⟨hb, rfl, hall⟩
    · rintro (⟨h', -⟩ | ⟨-, rfl, -⟩)
      · exact absurd h' hb
      · rfl

end Reckoner.CallText
