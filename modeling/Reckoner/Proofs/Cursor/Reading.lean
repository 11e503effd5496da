import Mathlib
import Reckoner.Proofs.Scan.Lexeme

/-! Reading a fragment by positions. No position goes beyond the end of the fragment, texts are cut
out of it within its bounds, and no count goes below zero: where one of these would happen, the
reading breaks. It never does, and it finds what scanning the rest of the fragment finds. -/
namespace Reckoner.Cursor

open CallText

/-- Why a reading stops. -/
inductive Stop
  | done (tokens : List Token)
  | failed (failure : Failure)
  /-- Bounds have been overstepped. -/
  | broken

abbrev Checked := Except Stop

section Checked

variable {ε α β : Type}

def fail (failure : Failure) : Checked α := .error (.failed failure)

def checked (result : Except Failure α) : Checked α := result.mapError .failed

theorem ok_bind (a : α) (f : α → Except ε β) : .ok a >>= f = f a := rfl

theorem fail_bind (failure : Failure) (f : α → Checked β) : fail failure >>= f = fail failure := rfl

end Checked

/-- The text between two positions. -/
def cut (cs : List Char) (start stop : Nat) : Checked (List Char) :=
  if start ≤ stop ∧ stop ≤ cs.length then .ok ((cs.take stop).drop start) else .error .broken

/-- The next position, at the end of the fragment or before it. -/
def next (cs : List Char) (pos : Nat) : Checked Nat :=
  if pos < cs.length then .ok (pos + 1) else .error .broken

/-- One less than a count that is not zero. -/
def less (count : Nat) : Checked Nat := if count = 0 then .error .broken else .ok (count - 1)

/-- The first position from `pos` on with a character of another class. -/
def skip (p : Char → Bool) (cs : List Char) (pos : Nat) : Nat :=
  if h : pos < cs.length then if p cs[pos] then skip p cs (pos + 1) else pos else pos
termination_by cs.length - pos

/-- The position behind a literal. A point must be followed by a digit. -/
def literalEnd (cs : List Char) (start : Nat) : Checked Nat :=
  let point := skip Char.isDigit cs start
  if cs[point]? = some '.' then do
    let behind ← next cs point
    if cs[behind]?.any Char.isDigit then pure (skip Char.isDigit cs behind)
    else fail { cause := .misplacedPoint, index := some point, token := some "." }
  else pure point

/-- The token that a literal is, and the position behind it. -/
def number (cs : List Char) (start : Nat) : Checked (Token × Nat) := do
  let stop ← literalEnd cs start
  let literal ← cut cs start stop
  if cs[stop]? = some '.' then
    let token := String.ofList (literal ++ ['.'])
    fail { cause := .malformedNumber, index := some stop, token := some token }
  else
    let value := (Literal.read literal).1.value
    if value.isFinite then pure (.operand value, stop)
    else
      let token := String.ofList literal
      fail { cause := .malformedNumber, index := some start, token := some token }

/-- The position of the parenthesis that closes a call, with `inner` others open at `pos`. -/
def closing (cs : List Char) (pos inner : Nat) : Checked (Option Nat) :=
  if h : pos < cs.length then
    if cs[pos] = '(' then closing cs (pos + 1) (inner + 1)
    else if cs[pos] = ')' then
      if inner = 0 then pure (some pos) else less inner >>= closing cs (pos + 1)
    else closing cs (pos + 1) inner
  else pure none
termination_by cs.length - pos

def blankArgument (comma : Nat) : Failure :=
  { cause := .blankArgument, index := some comma, token := some "," }

/-- The ranges, in the fragment, of the texts between the commas of a call's body that begins at
`first`. One of these texts has begun at `start`, and `depth` parentheses are open at `offset`. -/
def ranges (body : List Char) (first start depth offset : Nat) : Checked (List (Nat × Nat)) :=
  if h : offset < body.length then
    if body[offset] = '(' then ranges body first start (depth + 1) (offset + 1)
    else if body[offset] = ')' then
      less depth >>= fun depth => ranges body first start depth (offset + 1)
    else if body[offset] = ',' ∧ depth = 0 then do
      let text ← cut body start offset
      if Text.isBlank text then
        fail (blankArgument (first + offset))
      else
        ((first + start, first + offset) :: ·) <$>
          ranges body first (offset + 1) depth (offset + 1)
    else ranges body first start depth (offset + 1)
  else do
    let text ← cut body start body.length
    if Text.isBlank text then do
      let comma ← less start
      fail (blankArgument (first + comma))
    else pure [(first + start, first + body.length)]
termination_by body.length - offset

/-- The ranges of the arguments of a call whose body stands between two positions. -/
def arguments (cs : List Char) (first last : Nat) : Checked (List (Nat × Nat)) := do
  let body ← cut cs first last
  if Text.isBlank body then pure [] else ranges body first 0 0 0

/-- The ranges of texts that stand one after the other, with a character between two of them. -/
def spans (start : Nat) : List (List Char) → List (Nat × Nat)
  | [] => []
  | text :: texts => (start, start + text.length) :: spans (start + text.length + 1) texts

/-- The ranges of the segments of a body that begins at `first`, or the comma to blame for a blank
one. The segments begin at `start` in it. -/
def placed (first start : Nat) (segments : List (List Char)) : Checked (List (Nat × Nat)) :=
  match blankComma start segments with
  | some comma => fail (blankArgument (first + comma))
  | none => .ok (spans (first + start) segments)

/-- The text of a range, which is not the whole fragment. -/
structure Within (cs : List Char) (range : Nat × Nat) (text : List Char) : Prop where
  cut : cut cs range.1 range.2 = .ok text
  shorter : text.length < cs.length

/-- What is still ahead at a position of the fragment. -/
structure Ahead (cs : List Char) (pos : Nat) (rest : List Char) : Prop where
  bound : pos ≤ cs.length
  drop : cs.drop pos = rest

variable {cs rest text body segment : List Char} {texts : List (List Char)}
  {pos start first depth inner : Nat} {c : Char}

theorem Within.bounds {range : Nat × Nat} (h : Within cs range text) :
    range.1 ≤ range.2 ∧ range.2 ≤ cs.length := by
  by_contra hb
  have broken : Cursor.cut cs range.1 range.2 = .error .broken := if_neg hb
  rw [h.cut] at broken
  cases broken

namespace Ahead

theorem whole (cs : List Char) : Ahead cs 0 cs := ⟨Nat.zero_le _, rfl⟩

theorem length (h : Ahead cs pos rest) : pos + rest.length = cs.length := by
  rw [← h.drop, List.length_drop]
  have := h.bound
  omega

theorem getElem? (h : Ahead cs pos rest) : cs[pos]? = rest.head? := by
  rw [← h.drop, List.head?_drop]

theorem append (h : Ahead cs pos (text ++ rest)) : Ahead cs (pos + text.length) rest where
  bound := by
    have := h.length
    rw [List.length_append] at this
    omega
  drop := by rw [← List.drop_drop, h.drop, List.drop_left]

theorem cons (h : Ahead cs pos (c :: rest)) : Ahead cs (pos + 1) rest :=
  @append cs rest [c] pos h

theorem lt (h : Ahead cs pos (c :: rest)) : pos < cs.length := by
  have := h.length
  rw [List.length_cons] at this
  omega

theorem not_lt (h : Ahead cs pos []) : ¬ pos < cs.length := by
  have := h.length
  rw [List.length_nil] at this
  omega

theorem getElem (h : Ahead cs pos (c :: rest)) (hp : pos < cs.length) : cs[pos] = c := by
  have here := h.getElem?
  rw [List.getElem?_eq_getElem hp] at here
  exact Option.some.inj here

theorem next_eq (h : Ahead cs pos (c :: rest)) : next cs pos = .ok (pos + 1) := if_pos h.lt

theorem cut_eq (h : Ahead cs pos (text ++ rest)) : cut cs pos (pos + text.length) = .ok text := by
  have bounds := And.intro (Nat.le_add_right pos text.length) h.append.bound
  rw [cut, if_pos bounds, List.drop_take, h.drop, Nat.add_sub_cancel_left, List.take_left]

theorem skip_eq (h : Ahead cs pos rest) (p : Char → Bool) :
    skip p cs pos = pos + (rest.takeWhile p).length := by
  induction rest generalizing pos with
  | nil =>
    rw [skip, dif_neg h.not_lt]
    rfl
  | cons c rest ih =>
    rw [skip, dif_pos h.lt, h.getElem]
    by_cases hc : p c
    · rw [if_pos hc, ih h.cons, List.takeWhile_cons_of_pos hc, List.length_cons]
      omega
    · rw [if_neg hc, List.takeWhile_cons_of_neg hc]
      rfl

theorem dropWhile (h : Ahead cs pos rest) (p : Char → Bool) :
    Ahead cs (pos + (rest.takeWhile p).length) (rest.dropWhile p) := by
  apply append
  rwa [List.takeWhile_append_dropWhile]

theorem any_head?_iff (p : Char → Bool) : rest.head?.any p ↔ rest.takeWhile p ≠ [] := by
  cases rest with
  | nil => simp
  | cons c rest => by_cases hc : p c <;> simp [hc]

/-- Behind the literal, unless it is only a point. -/
theorem literalEnd_eq (h : Ahead cs pos rest) :
    literalEnd cs pos =
      if (Literal.read rest).2.head? = some '.' ∧ (Literal.read rest).1.fraction = [] then
        fail { cause := .misplacedPoint, index := some (pos + (Literal.read rest).1.chars.length),
               token := some "." }
      else .ok (pos + (Literal.read rest).1.chars.length) := by
  have tail := h.dropWhile Char.isDigit
  simp only [literalEnd, h.skip_eq, tail.getElem?]
  split
  next hpoint =>
    obtain ⟨behind, htail⟩ := List.head?_eq_some_iff.mp hpoint
    rw [htail] at tail
    simp only [Literal.read, htail, tail.next_eq, List.isEmpty_iff, ok_bind, tail.cons.getElem?,
      tail.cons.skip_eq]
    by_cases hdigit : behind.takeWhile Char.isDigit = []
    · have none : ¬ behind.head?.any Char.isDigit := by simp [any_head?_iff, hdigit]
      rw [if_pos hdigit, if_neg none, if_pos (by simp)]
      rfl
    · have some := (any_head?_iff Char.isDigit).mpr hdigit
      rw [if_neg hdigit, if_pos some, if_neg (by simp [hdigit])]
      simp [Literal.chars, hdigit, pure, Except.pure]
      omega
  next hpoint =>
    have read : Literal.read rest =
        (⟨rest.takeWhile Char.isDigit, []⟩, rest.dropWhile Char.isDigit) := by
      simp only [Literal.read]
      split
      next htail => exact absurd (by rw [htail]; rfl) hpoint
      next => rfl
    rw [read, if_neg fun h => hpoint h.1]
    rfl

/-- A literal is read as it is scanned. -/
theorem number_eq (h : Ahead cs pos (c :: rest)) (hc : c.isDigit ∨ c = '.') :
    number cs pos =
      checked ((fun l => (l.token, pos + 1 + l.more)) <$> Scan.number pos (c :: rest)) := by
  have ends := h.literalEnd_eq
  have numeral := @Literal.numeral_of_read rest c hc
  have parts := @Literal.chars_read_append (c :: rest)
  simp only [number, Scan.number, ends, List.isEmpty_iff]
  cases hread : Literal.read (c :: rest) with
  | mk l behind =>
    rw [hread] at numeral parts
    rw [← parts] at h
    have there := h.append.getElem?
    by_cases hpoint : behind.head? = some '.'
    · rw [if_pos hpoint]
      by_cases hf : l.fraction = []
      · rw [if_pos hf, if_pos ⟨hpoint, hf⟩, fail_bind]
        rfl
      · rw [if_neg hf, if_neg fun h => hf h.2, ok_bind, h.cut_eq, ok_bind,
          if_pos (there.trans hpoint)]
        rfl
    · rw [if_neg hpoint, if_neg fun h => hpoint h.1, ok_bind, h.cut_eq, ok_bind,
        if_neg fun h => hpoint (there.symm.trans h)]
      have hl : l.Numeral := (numeral hpoint).1
      have whole : Literal.read l.chars = (l, []) := by
        have stops : Literal.Stops [] := by
          intro d hd
          cases hd
        have alone := Literal.read_append hl stops
        rwa [List.append_nil] at alone
      rw [whole]
      by_cases hv : l.value.isFinite
      · have width := List.length_pos_iff.mpr (Language.chars_ne_nil hl)
        have stop : pos + 1 + (l.chars.length - 1) = pos + l.chars.length := by omega
        rw [if_pos hv, if_pos hv, ← stop]
        rfl
      · rw [if_neg hv, if_neg hv]
        rfl

theorem closing_eq (h : Ahead cs pos rest) :
    closing cs pos inner = .ok ((CallText.body inner rest).map fun b => pos + b.length) := by
  induction rest generalizing pos inner with
  | nil =>
    rw [closing, dif_neg h.not_lt]
    rfl
  | cons c rest ih =>
    have later (inner : Nat) : closing cs (pos + 1) inner =
        .ok (((CallText.body inner rest).map (c :: ·)).map fun b => pos + b.length) := by
      rw [ih h.cons, Option.map_map]
      congr 2
      funext b
      simp
      omega
    rw [closing, dif_pos h.lt, h.getElem, CallText.body]
    by_cases hl : c = '('
    · subst hl
      rw [if_pos rfl, later]
      simp [nesting]
    rw [if_neg hl]
    by_cases hr : c = ')'
    · subst hr
      rw [if_pos rfl]
      by_cases hi : inner = 0
      · rw [if_pos hi, if_pos ⟨rfl, hi⟩]
        rfl
      · rw [if_neg hi, if_neg fun h => hi h.2, less, if_neg hi, ok_bind, later]
        rfl
    · rw [if_neg hr, if_neg fun h => hr h.1, later]
      simp [nesting, hl, hr]

theorem modifyHead_segments (segment : List Char) (hc : ¬ (c = ',' ∧ depth = 0)) :
    (segments depth (c :: rest)).modifyHead (segment ++ ·) =
      (segments (nesting depth c) rest).modifyHead ((segment ++ [c]) ++ ·) := by
  rw [segments, if_neg hc, List.modifyHead_modifyHead]
  congr 1
  funext text
  simp

theorem placed_singleton (segment : List Char) :
    placed first start [segment] =
      if Text.isBlank segment then fail (blankArgument (first + (start - 1)))
      else .ok [(first + start, first + (start + segment.length))] := by
  rw [placed, blankComma]
  by_cases hblank : Text.isBlank segment
  · rw [if_pos hblank, if_pos hblank]
  · rw [if_neg hblank, if_neg hblank, spans, spans, Nat.add_assoc]

theorem placed_cons (segment : List Char) (hn : texts ≠ []) :
    placed first start (segment :: texts) =
      if Text.isBlank segment then fail (blankArgument (first + (start + segment.length)))
      else ((first + start, first + (start + segment.length)) :: ·) <$>
        placed first (start + segment.length + 1) texts := by
  rw [placed, blankComma]
  · by_cases hblank : Text.isBlank segment
    · rw [if_pos hblank, if_pos hblank]
    · rw [if_neg hblank, if_neg hblank, placed, spans, Nat.add_assoc first start,
        Nat.add_assoc first]
      cases blankComma (start + segment.length + 1) texts <;> rfl
  · exact hn

/-- The last text can only be blank behind a comma, since the body is not. -/
theorem ranges_last (h : Ahead body start segment) (hb : start = 0 → ¬ Text.isBlank body) :
    ranges body first start depth (start + segment.length) = placed first start [segment] := by
  have all : Ahead body start (segment ++ []) := by rwa [List.append_nil]
  rw [ranges, dif_neg (by rw [h.length]; exact Nat.lt_irrefl _), ← h.length, all.cut_eq, ok_bind,
    placed_singleton]
  by_cases hblank : Text.isBlank segment
  · have begun : start ≠ 0 := by
      rintro rfl
      have whole : body = segment := h.drop
      exact hb rfl (whole ▸ hblank)
    rw [if_pos hblank, if_pos hblank, less, if_neg begun]
    rfl
  · rw [if_neg hblank, if_neg hblank]
    rfl

theorem ranges_inside (h : Ahead body start (segment ++ c :: rest))
    (hp : ¬ (c = ')' ∧ depth = 0)) (hc : ¬ (c = ',' ∧ depth = 0)) :
    ranges body first start depth (start + segment.length) =
      ranges body first start (nesting depth c) (start + segment.length + 1) := by
  have here := h.append
  rw [ranges, dif_pos here.lt, here.getElem]
  by_cases hl : c = '('
  · rw [if_pos hl, nesting, if_pos hl]
  rw [if_neg hl, nesting, if_neg hl]
  by_cases hr : c = ')'
  · have opened : depth ≠ 0 := fun h0 => hp ⟨hr, h0⟩
    rw [if_pos hr, if_pos hr, less, if_neg opened, ok_bind]
  · rw [if_neg hr, if_neg hr, if_neg hc]

theorem ranges_comma (h : Ahead body start (segment ++ ',' :: rest)) :
    ranges body first start 0 (start + segment.length) =
      if Text.isBlank segment then fail (blankArgument (first + (start + segment.length)))
      else ((first + start, first + (start + segment.length)) :: ·) <$>
        ranges body first (start + segment.length + 1) 0 (start + segment.length + 1) := by
  have here := h.append
  have left : ¬ ',' = '(' := by decide
  have right : ¬ ',' = ')' := by decide
  rw [ranges, dif_pos here.lt, here.getElem, if_neg left, if_neg right, if_pos ⟨rfl, rfl⟩, h.cut_eq,
    ok_bind]

theorem modifyHead_nil (segments : List (List Char)) : segments.modifyHead ([] ++ ·) = segments := by
  cases segments <;> rfl

/-- By induction on what is ahead. The text that has begun is in front of the first segment. -/
theorem ranges_eq (h : Ahead body start (segment ++ rest)) (hd : depthBehind depth rest = some 0)
    (hb : start = 0 → ¬ Text.isBlank body) :
    ranges body first start depth (start + segment.length) =
      placed first start ((segments depth rest).modifyHead (segment ++ ·)) := by
  induction rest generalizing segment start depth with
  | nil =>
    rw [List.append_nil] at h
    rw [ranges_last h hb, segments, List.modifyHead_cons, List.append_nil]
  | cons c rest ih =>
    rw [depthBehind] at hd
    split at hd
    · cases hd
    next hp =>
      by_cases hc : c = ',' ∧ depth = 0
      · obtain ⟨rfl, rfl⟩ := hc
        have begun : start + segment.length + 1 ≠ 0 := Nat.succ_ne_zero _
        have later := @ih [] (start + segment.length + 1) 0 h.append.cons hd
          fun h => absurd h begun
        rw [modifyHead_nil, List.length_nil, Nat.add_zero] at later
        have divided : segments 0 (',' :: rest) = [] :: segments 0 rest := if_pos ⟨rfl, rfl⟩
        rw [ranges_comma h, later, divided, List.modifyHead_cons, List.append_nil,
          placed_cons segment (segments_ne_nil 0 rest)]
      · have ahead : Ahead body start ((segment ++ [c]) ++ rest) := by
          rwa [List.append_assoc, List.singleton_append]
        have later := ih ahead hd hb
        rw [List.length_append, List.length_singleton, ← Nat.add_assoc] at later
        rw [ranges_inside h hp hc, modifyHead_segments segment hc, later]

theorem arguments_eq (h : Ahead cs first (body ++ rest)) (hd : depthBehind 0 body = some 0) :
    arguments cs first (first + body.length) =
      match CallText.arguments body with
      | .error comma => fail (blankArgument (first + comma))
      | .ok texts => .ok (spans first texts) := by
  rw [arguments, h.cut_eq, ok_bind, CallText.arguments]
  by_cases hb : Text.isBlank body
  · rw [if_pos hb, if_pos hb]
    rfl
  · have ranged := @ranges_eq body body [] 0 first 0 (Ahead.whole body) hd fun _ => hb
    rw [modifyHead_nil, List.length_nil, Nat.add_zero] at ranged
    rw [if_neg hb, if_neg hb, ranged, placed, Nat.add_zero]
    cases blankComma 0 (segments 0 body) <;> rfl

-- the count of open parentheses would go below zero
example : arguments ['1', ')'] 0 2 = .error .broken := by cbv

theorem within (h : Ahead cs pos (text ++ c :: rest)) :
    Within cs (pos, pos + text.length) text where
  cut := h.cut_eq
  shorter := by
    have := h.length
    simp at this
    omega

theorem spans_within (h : Ahead cs first (List.intercalate [','] texts ++ c :: rest)) :
    List.Forall₂ (Within cs) (spans first texts) texts := by
  induction texts generalizing first with
  | nil => exact .nil
  | cons text texts ih =>
    cases texts with
    | nil =>
      rw [List.intercalate_singleton] at h
      exact .cons h.within .nil
    | cons next texts =>
      rw [List.intercalate_cons_of_ne_nil (List.cons_ne_nil next texts), List.append_assoc,
        List.append_assoc] at h
      have after : Ahead cs (first + text.length + 1)
          (List.intercalate [','] (next :: texts) ++ c :: rest) := h.append.cons
      exact .cons h.within (ih after)

theorem spans_arguments (h : Ahead cs first (body ++ c :: rest))
    (ha : CallText.arguments body = .ok texts) :
    List.Forall₂ (Within cs) (spans first texts) texts := by
  obtain ⟨-, rfl⟩ | ⟨-, rfl, -⟩ := arguments_eq_ok_iff.mp ha
  · exact .nil
  · apply spans_within
    rwa [intercalate_segments]

end Ahead

end Reckoner.Cursor
