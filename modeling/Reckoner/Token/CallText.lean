import Reckoner.Text.Whitespace

/-! The text of a call: where its parenthesis closes, and where commas divide its arguments. -/
namespace Reckoner.CallText

/-- Open parentheses behind a character, none below zero. -/
def nesting (depth : Nat) (c : Char) : Nat :=
  if c = '(' then depth + 1 else if c = ')' then depth - 1 else depth

/-- The text before the parenthesis that closes the call, with `depth` inner ones open. -/
def body (depth : Nat) : List Char → Option (List Char)
  | [] => none
  | c :: cs =>
    if c = ')' ∧ depth = 0 then some [] else (body (nesting depth c) cs).map (c :: ·)

/-- A text cut at its commas outside parentheses. There is one segment more than such commas. -/
def segments (depth : Nat) : List Char → List (List Char)
  | [] => [[]]
  | c :: cs =>
    if c = ',' ∧ depth = 0 then [] :: segments depth cs
    else (segments (nesting depth c) cs).modifyHead (c :: ·)

/-- The comma to blame for the first blank segment: the one that ends it, or for the last segment
the one before it. The segments begin at `start`. -/
def blankComma (start : Nat) : List (List Char) → Option Nat
  | [] => none
  | [last] => if Text.isBlank last then some (start - 1) else none
  | segment :: rest =>
    if Text.isBlank segment then some (start + segment.length)
    else blankComma (start + segment.length + 1) rest

/-- The texts of the arguments in a call's body, or the place of the comma beside a blank one. A
blank body has no arguments. -/
def arguments (body : List Char) : Except Nat (List (List Char)) :=
  if Text.isBlank body then .ok []
  else
    match blankComma 0 (segments 0 body) with
    | some comma => .error comma
    | none => .ok (segments 0 body)

/-- The body ends before a parenthesis. -/
theorem append_of_body {depth : Nat} {cs b : List Char} (h : body depth cs = some b) :
    ∃ rest, cs = b ++ ')' :: rest := by
  induction cs generalizing depth b with
  | nil => simp [body] at h
  | cons c cs ih =>
    rw [body] at h
    split at h
    next hc =>
      obtain rfl := Option.some.inj h
      exact ⟨cs, by simp [hc.1]⟩
    next =>
      obtain ⟨b', hb, rfl⟩ := Option.map_eq_some_iff.mp h
      obtain ⟨rest, rfl⟩ := ih hb
      exact ⟨rest, rfl⟩

theorem segments_ne_nil (depth : Nat) (cs : List Char) : segments depth cs ≠ [] := by
  induction cs generalizing depth with
  | nil => simp [segments]
  | cons c cs ih =>
    rw [segments]
    split
    · simp
    · have := ih (nesting depth c)
      cases h : segments (nesting depth c) cs with
      | nil => contradiction
      | cons => simp

/-- Joined by commas, the segments give back the text. -/
theorem intercalate_segments (depth : Nat) (cs : List Char) :
    List.intercalate [','] (segments depth cs) = cs := by
  induction cs generalizing depth with
  | nil => rfl
  | cons c cs ih =>
    rw [segments]
    split
    next hc =>
      have joined := ih depth
      cases h : segments depth cs with
      | nil => exact absurd h (segments_ne_nil depth cs)
      | cons =>
        rw [h] at joined
        simpa [List.intercalate, hc.1] using joined
    next =>
      have joined := ih (nesting depth c)
      cases h : segments (nesting depth c) cs with
      | nil => exact absurd h (segments_ne_nil _ cs)
      | cons segment rest =>
        rw [h] at joined
        cases rest <;> simpa [List.intercalate] using joined

end Reckoner.CallText
