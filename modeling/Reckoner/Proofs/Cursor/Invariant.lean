import Reckoner.Proofs.Cursor.Stack

/-! What every step of the machine keeps: the cursors are within their fragments, each waits for the
next one, and no step breaks. -/
namespace Reckoner.Cursor

/-- The call is not too deep, and the ranges that are left of it are within the fragment. -/
structure Divided (k : Cursor) (pending : List (Nat × Nat)) : Prop where
  below : k.depth < nestingLimit
  texts : ∃ texts, List.Forall₂ (Within k.chars) pending texts

structure Fits (k : Cursor) : Prop where
  bound : k.pos ≤ k.chars.length
  divided : ∀ call, k.call = some call → Divided k call.pending

/-- Each fragment is a part of the one outside it, in which a call waits for its tokens. -/
inductive Sound : List Cursor → Prop
  | outermost {k : Cursor} (hf : Fits k) (hd : k.depth = 0) : Sound [k]
  | inner {k parent : Cursor} {outer : List Cursor} (hf : Fits k) (hd : k.depth = parent.depth + 1)
      (hs : k.chars.length < parent.chars.length) (hw : parent.call ≠ none)
      (h : Sound (parent :: outer)) : Sound (k :: parent :: outer)

/-- What a step does, guards included. -/
inductive Move : List Cursor → List Cursor → Prop
  | turn {k later : Cursor} {outer : List Cursor} (hk : k.call = none) (ho : Onward k later)
      (hf : Fits later) : Move (k :: outer) (later :: outer)
  | accept {k later : Cursor} {outer : List Cursor} (hk : k.call ≠ none)
      (hc : later.chars = k.chars) (hd : later.depth = k.depth) (hp : later.pos = k.pos)
      (hl : later.call = none) : Move (k :: outer) (later :: outer)
  | enter {k : Cursor} {call : Call} {range : Nat × Nat} {pending : List (Nat × Nat)}
      {text : List Char} {outer : List Cursor} (hk : k.call = some call)
      (hc : call.pending = range :: pending) (hw : Within k.chars range text) :
    Move (k :: outer)
      ({ chars := text, depth := k.depth + 1 } ::
        { k with call := some { call with pending } } :: outer)
  | deliver {k parent : Cursor} {call : Call} {tokens : List Token} {outer : List Cursor}
      (hk : k.call = none) (hp : parent.call = some call) :
    Move (k :: parent :: outer)
      ({ parent with call := some { call with scanned := call.scanned ++ [tokens] } } :: outer)

variable {k later first : Cursor} {c : Char} {rest : List Char}
  {cursors reached outer inside inside' : List Cursor}
  {result : Except Failure Scan.Lexeme} {turned : Checked Cursor}

theorem Divided.bounds {pending : List (Nat × Nat)} (h : Divided k pending) :
    ∀ range ∈ pending, range.1 ≤ range.2 ∧ range.2 ≤ k.chars.length := by
  obtain ⟨texts, hp⟩ := h.texts
  have bounded := hp.imp fun range text hw => And.intro hw.bounds hw
  exact ((List.forall₂_and_left pending texts).mp bounded).1

theorem fits_start (cs : List Char) (depth : Nat) : Fits { chars := cs, depth } :=
  ⟨Nat.zero_le _, nofun⟩

theorem Sound.fits (h : Sound (k :: outer)) : Fits k := by
  cases h with
  | outermost hf => exact hf
  | inner hf => exact hf

theorem Sound.fits_of_mem (h : Sound cursors) : ∀ k ∈ cursors, Fits k := by
  induction h with
  | outermost hf => exact List.forall_mem_singleton.mpr hf
  | inner hf _ _ _ _ ih => exact List.forall_mem_cons.mpr ⟨hf, ih⟩

/-- The innermost cursor may be replaced by any other in its fragment. -/
theorem Sound.replace (h : Sound (k :: outer)) (hf : Fits later) (hc : later.chars = k.chars)
    (hd : later.depth = k.depth) : Sound (later :: outer) := by
  cases h with
  | outermost _ hk => exact .outermost hf (hd.trans hk)
  | inner _ hk hs hw h => exact .inner hf (hd.trans hk) (hc ▸ hs) hw h

/-- In a turn the position goes on. -/
theorem Turn.onward (h : Ahead k.chars k.pos (c :: rest)) (ht : Turn k rest (.ok later) result) :
    Onward k later ∧ Fits later := by
  generalize hx : Except.ok later = x at ht
  cases ht with
  | fails => cases hx
  | @reads found hm =>
    cases ha : k.advance found with
    | error failure =>
      rw [ha] at hx
      cases hx
    | ok reached =>
      rw [ha] at hx
      cases hx
      have onward := onward_advance h hm ha
      refine ⟨onward, onward.bound, ?_⟩
      rw [eq_of_accept ha]
      exact nofun
  | @calls name pending texts more levels hm hl hp =>
    cases hx
    have width := h.length
    rw [List.length_cons] at width
    have bound : k.pos + 1 + more ≤ k.chars.length := by omega
    refine ⟨⟨rfl, rfl, by simp only; omega, bound⟩, bound, ?_⟩
    rintro _ ⟨⟩
    exact ⟨by simp only; omega, texts, hp⟩

theorem Turn.unbroken (ht : Turn k rest turned result) : turned ≠ .error .broken := by
  cases ht with
  | fails => nofun
  | @reads found =>
    cases k.advance found <;> nofun
  | calls => nofun

/-- What a step may come to. -/
def Moves (cursors : List Cursor) : Checked (List Cursor) → Prop
  | .ok reached => Move cursors reached
  | .error stop => stop ≠ .broken

theorem moves_turn (h : Ahead k.chars k.pos (c :: rest)) (hk : k.call = none) :
    Moves (k :: outer) ((· :: outer) <$> k.turn c) := by
  by_cases hc : Text.isWhitespace c
  · have fits : Fits { k with pos := k.pos + 1 } := ⟨h.lt, by simp [hk]⟩
    rw [turn_whitespace h hc]
    exact .turn hk ⟨rfl, rfl, Nat.lt_succ_self _, h.lt⟩ fits
  · have turned := turn_lexeme h hc
    cases hx : k.turn c with
    | ok later =>
      rw [hx] at turned
      obtain ⟨onward, fits⟩ := turned.onward h
      exact .turn hk onward fits
    | error stop =>
      rw [hx] at turned
      exact fun hstop => turned.unbroken (congrArg _ hstop)

theorem moves_deliver (h : Sound (k :: outer)) (hk : k.call = none)
    (finished : Except Failure Unit) :
    Moves (k :: outer) (checked finished >>= fun _ => deliver k.tokens outer) := by
  cases finished with
  | error failure => exact nofun
  | ok =>
    cases h with
    | outermost => exact nofun
    | inner _ _ _ hw =>
      obtain ⟨call, hcall⟩ := Option.ne_none_iff_exists'.mp hw
      simp only [deliver, hcall]
      exact .deliver hk hcall

/-- No step from sound cursors breaks. -/
theorem moves_step (h : Sound cursors) : Moves cursors (step cursors) := by
  cases cursors with
  | nil => cases h
  | cons k outer =>
    cases hk : k.call with
    | none =>
      cases hrest : k.chars.drop k.pos with
      | nil =>
        have ahead : Ahead k.chars k.pos [] := ⟨h.fits.bound, hrest⟩
        simp only [step, hk, ahead.getElem?, List.head?_nil]
        exact moves_deliver h hk _
      | cons c rest =>
        have ahead : Ahead k.chars k.pos (c :: rest) := ⟨h.fits.bound, hrest⟩
        simp only [step, hk, ahead.getElem?, List.head?_cons]
        exact moves_turn ahead hk
    | some call =>
      have waits : k.call ≠ none := by simp [hk]
      obtain ⟨-, texts, hp⟩ := h.fits.divided call hk
      cases hpending : call.pending with
      | nil =>
        simp only [step, hk, hpending]
        cases ha : k.accept (.call call.name call.scanned) k.pos with
        | error failure => exact nofun
        | ok later =>
          obtain rfl := eq_of_accept ha
          exact .accept waits rfl rfl rfl rfl
      | cons range pending =>
        rw [hpending] at hp
        obtain ⟨text, texts', hw, -, rfl⟩ := List.forall₂_cons_left_iff.mp hp
        simp only [step, hk, hpending, hw.cut, ok_bind]
        exact .enter hk hpending hw

theorem Sound.move (h : Sound cursors) (hm : Move cursors reached) : Sound reached := by
  cases hm with
  | turn _ ho hf => exact h.replace hf ho.chars ho.depth
  | @accept k later outer _ hc hd hp hl =>
    have fits : Fits later := ⟨by rw [hp, hc]; exact h.fits.bound, by simp [hl]⟩
    exact h.replace fits hc hd
  | @enter k call range pending text outer hk hc hw =>
    obtain ⟨below, texts, hp⟩ := h.fits.divided call hk
    rw [hc] at hp
    obtain ⟨text', texts', -, hp', rfl⟩ := List.forall₂_cons_left_iff.mp hp
    have fits : Fits { k with call := some { call with pending } } := by
      refine ⟨h.fits.bound, ?_⟩
      rintro _ ⟨⟩
      exact ⟨below, texts', hp'⟩
    exact .inner (fits_start text _) rfl hw.shorter nofun (h.replace fits rfl rfl)
  | @deliver k parent call tokens outer _ hp =>
    cases h with
    | inner _ _ _ _ h =>
      refine h.replace ⟨h.fits.bound, ?_⟩ rfl rfl
      rintro _ ⟨⟩
      exact ⟨(h.fits.divided call hp).below, (h.fits.divided call hp).texts⟩

theorem eq_of_append {before before' : List Cursor}
    (h : before ++ k :: outer = before' ++ later :: outer) : k = later :=
  (List.cons.inj (List.append_inj' h rfl).2).1

/-- In its own steps a cursor never moves back, and in a turn it goes on. -/
theorem pos_of_move (hm : Move (k :: outer) (inside ++ later :: outer)) :
    k.pos ≤ later.pos ∧ (k.call = none → k.pos < later.pos) := by
  generalize hr : inside ++ later :: outer = reached at hm
  cases hm with
  | @turn _ moved _ _ ho =>
    obtain rfl : later = moved := @eq_of_append later moved outer inside [] hr
    exact ⟨Nat.le_of_lt ho.pos, fun _ => ho.pos⟩
  | @accept _ moved _ hk _ _ hp =>
    obtain rfl : later = moved := @eq_of_append later moved outer inside [] hr
    exact ⟨Nat.le_of_eq hp.symm, fun h => absurd h hk⟩
  | enter hk =>
    obtain rfl := @eq_of_append later _ outer inside [_] hr
    exact ⟨Nat.le_refl _, fun h => by simp [h] at hk⟩
  | deliver =>
    have width := congrArg List.length hr
    simp at width
    omega

/-- The steps of the cursors inside it do not move a cursor. -/
theorem pos_of_move_inside (hm : Move (first :: (inside ++ k :: outer)) (inside' ++ later :: outer)) :
    later.pos = k.pos := by
  generalize hb : inside ++ k :: outer = behind at hm
  generalize hr : inside' ++ later :: outer = reached at hm
  cases hm with
  | turn =>
    subst hb
    rw [@eq_of_append later k outer inside' (_ :: inside) hr]
  | accept =>
    subst hb
    rw [@eq_of_append later k outer inside' (_ :: inside) hr]
  | enter =>
    subst hb
    rw [@eq_of_append later k outer inside' (_ :: _ :: inside) hr]
  | deliver =>
    cases inside with
    | nil =>
      obtain ⟨rfl, rfl⟩ := List.cons.inj hb
      rw [@eq_of_append later _ outer inside' [] hr]
    | cons next inside =>
      obtain ⟨-, rfl⟩ := List.cons.inj hb
      rw [@eq_of_append later k outer inside' (_ :: inside) hr]

end Reckoner.Cursor
