import Reckoner.Proofs.Cursor.Agreement
import Reckoner.Proofs.Cursor.Invariant

/-! Scanning within bounds: no text makes the machine break or stand still, and it finds the tokens
of the text. -/
namespace Reckoner

namespace Cursor

variable {text : String} {k later : Cursor} {cursors reached outer : List Cursor}

/-- How the machine should stop. -/
def Stop.of : Except Failure (List Token) → Stop
  | .error failure => .failed failure
  | .ok tokens => .done tokens

/-- A step that does not leave the fragment whose cursor stands on `outer`. -/
def GoesAbove (outer cursors reached : List Cursor) : Prop :=
  Goes cursors reached ∧ ∃ inside k, reached = inside ++ k :: outer

/-- At most 65 cursors, each within a fragment that is shorter than the one outside it, as are the
ranges of the arguments it has left, and a next step that does not break. A cursor that waits for no
call is further on whenever it is the innermost one again, unless its fragment has been left. -/
structure Safe (cursors : List Cursor) : Prop where
  few : cursors.length ≤ nestingLimit + 1
  bounded : ∀ k ∈ cursors, k.pos ≤ k.chars.length
  divided : ∀ k ∈ cursors, ∀ call, k.call = some call →
    ∀ range ∈ call.pending, range.1 ≤ range.2 ∧ range.2 ≤ k.chars.length
  shorter : cursors.IsChain fun k outside => k.chars.length < outside.chars.length
  unbroken : step cursors ≠ .error .broken
  onward : ∀ k outer, cursors = k :: outer → k.call = none → ∀ later,
    Relation.TransGen (GoesAbove outer) cursors (later :: outer) → k.pos < later.pos

theorem comes_tokenize (text : String) :
    Comes [{ chars := text.toList, depth := 0 }] (.error (.of (tokenize text).result)) := by
  have scanned := scanned_of_depth 0 { chars := text.toList, depth := 0 } [] rfl rfl (Nat.zero_le _)
  rw [outcome, scan_start] at scanned
  rw [Scan.result_tokenize]
  cases h : (Scan.fragment nestingLimit text.toList).result with
  | ok tokens =>
    rw [Nat.sub_zero, h] at scanned
    exact scanned
  | error failure =>
    rw [Nat.sub_zero, h] at scanned
    exact scanned

theorem move_of_goes (h : Sound cursors) (hg : Goes cursors reached) : Move cursors reached := by
  have moves := moves_step h
  rwa [hg] at moves

theorem sound_of_reachable (h : Reachable text cursors) : Sound cursors := by
  induction h with
  | refl => exact .outermost (fits_start _ _) rfl
  | tail _ hg ih => exact ih.move (move_of_goes ih hg)

theorem Sound.depth_eq (h : Sound (k :: outer)) : k.depth = outer.length := by
  induction outer generalizing k with
  | nil =>
    cases h with
    | outermost _ hd => exact hd
  | cons parent outer ih =>
    cases h with
    | inner _ hd _ _ h => rw [hd, ih h, List.length_cons]

theorem Sound.few (h : Sound cursors) : cursors.length ≤ nestingLimit + 1 := by
  cases h with
  | outermost => exact Nat.succ_le_succ (Nat.zero_le _)
  | @inner k parent outer _ _ _ hw h =>
    obtain ⟨call, hcall⟩ := Option.ne_none_iff_exists'.mp hw
    have below := (h.fits.divided call hcall).below
    rw [h.depth_eq] at below
    simp only [List.length_cons]
    omega

theorem Sound.shorter (h : Sound cursors) :
    cursors.IsChain fun k outside => k.chars.length < outside.chars.length := by
  induction h with
  | outermost => exact .singleton _
  | inner _ _ hs _ _ ih => exact .cons_cons hs ih

/-- However many steps the arguments of a call take, they begin and end behind the call. -/
theorem exists_of_goesAbove (h : Sound (k :: outer)) (hk : k.call = none)
    (ht : Relation.TransGen (GoesAbove outer) (k :: outer) cursors) :
    Sound cursors ∧ ∃ inside later, cursors = inside ++ later :: outer ∧ k.pos < later.pos := by
  induction ht with
  | single hg =>
    obtain ⟨hgoes, inside, later, rfl⟩ := hg
    have move := move_of_goes h hgoes
    exact ⟨h.move move, inside, later, rfl, (pos_of_move move).2 hk⟩
  | tail _ hg ih =>
    obtain ⟨hsound, inside, before, rfl, hlt⟩ := ih
    obtain ⟨hgoes, inside', later, rfl⟩ := hg
    have move := move_of_goes hsound hgoes
    refine ⟨hsound.move move, inside', later, rfl, ?_⟩
    cases inside with
    | nil => exact Nat.lt_of_lt_of_le hlt (pos_of_move move).1
    | cons first inside => rwa [pos_of_move_inside move]

theorem safe_of_reachable (h : Reachable text cursors) : Safe cursors where
  few := (sound_of_reachable h).few
  bounded := fun k hk => ((sound_of_reachable h).fits_of_mem k hk).bound
  divided := fun k hk call hc => (((sound_of_reachable h).fits_of_mem k hk).divided call hc).bounds
  shorter := (sound_of_reachable h).shorter
  unbroken := by
    intro hstep
    have moves := moves_step (sound_of_reachable h)
    rw [hstep] at moves
    exact moves rfl
  onward := by
    rintro k outer rfl hk later ht
    obtain ⟨-, inside, moved, hmoved, hlt⟩ := exists_of_goesAbove (sound_of_reachable h) hk ht
    obtain rfl : later = moved := @eq_of_append later moved outer [] inside hmoved
    exact hlt

end Cursor

/-- On every text the machine stops as scanning does, and all cursors on the way are safe. -/
theorem tokenize_safe (text : String) :
    (∃ last, Cursor.Reachable text last ∧
        Cursor.step last = .error (Cursor.Stop.of (tokenize text).result)) ∧
      ∀ cursors, Cursor.Reachable text cursors → Cursor.Safe cursors :=
  ⟨Cursor.comes_tokenize text, fun _ => Cursor.safe_of_reachable⟩

theorem tokenize_safe_of_nested_calls :
    ∃ cursors, cursors.map Cursor.pos = [0, 4, 9] ∧ Cursor.Reachable "f(g(1),2)" cursors ∧
      Cursor.Safe cursors := by
  have inside : Cursor.Reachable "f(g(1),2)"
      [⟨"f(g(1),2)".toList, 0, 9, 0, .start, [], some ⟨"f", [(2, 6), (7, 8)], []⟩⟩] :=
    .single (by cbv)
  have argument : Cursor.Reachable "f(g(1),2)"
      [{ chars := "g(1)".toList, depth := 1 },
        ⟨"f(g(1),2)".toList, 0, 9, 0, .start, [], some ⟨"f", [(7, 8)], []⟩⟩] :=
    inside.tail (by cbv)
  have deeper : Cursor.Reachable "f(g(1),2)"
      [⟨"g(1)".toList, 1, 4, 0, .start, [], some ⟨"g", [(2, 3)], []⟩⟩,
        ⟨"f(g(1),2)".toList, 0, 9, 0, .start, [], some ⟨"f", [(7, 8)], []⟩⟩] :=
    argument.tail (by cbv)
  have deepest : Cursor.Reachable "f(g(1),2)"
      [{ chars := ['1'], depth := 2 },
        ⟨"g(1)".toList, 1, 4, 0, .start, [], some ⟨"g", [], []⟩⟩,
        ⟨"f(g(1),2)".toList, 0, 9, 0, .start, [], some ⟨"f", [(7, 8)], []⟩⟩] :=
    deeper.tail (by cbv)
  exact ⟨_, rfl, deepest, (tokenize_safe _).2 _ deepest⟩

end Reckoner
