import Reckoner.Proofs.Cursor.Reading
import Reckoner.Proofs.Nesting.Scanning

/-! Scanning as a machine. Every fragment that is being scanned has a cursor. The cursors stand on a
stack: the innermost moves, and each of the others waits for an argument of a call. -/
namespace Reckoner

open Cursor (Checked fail checked cut next less)

/-- A call between the texts of its arguments and their tokens. -/
structure Cursor.Call where
  name : String
  pending : List (Nat × Nat)
  scanned : List (List Token)

/-- A position in a fragment, inside `depth` calls, and what has been found up to it. While the
arguments of a call are scanned, the position is behind the call. -/
structure Cursor where
  chars : List Char
  depth : Nat
  pos : Nat := 0
  opened : Nat := 0
  place : Grammar.Place := .start
  tokens : List Token := []
  call : Option Cursor.Call := none

namespace Cursor

variable (k : Cursor)

/-- The token ends before `pos`. -/
def accept (token : Token) (pos : Nat) : Except Failure Cursor := do
  let place ← k.place.advance token.kind
  pure { k with pos, place, tokens := k.tokens ++ [token], call := none }

/-- Finds the ranges of a call's arguments. -/
def enter : Checked Cursor := do
  let paren := skip Scan.isNameChar k.chars k.pos
  let name ← cut k.chars k.pos paren
  let text := String.ofList name
  if k.chars[paren]? ≠ some '(' then
    fail { cause := .nameWithoutCall, index := some paren, token := some text }
  else if nestingLimit ≤ k.depth then
    fail { cause := .nestingTooDeep, index := some k.pos, token := some text }
  else
    let first ← next k.chars paren
    match ← closing k.chars first 0 with
    | none => fail { cause := .unclosedParen, index := some paren, token := some "(" }
    | some last =>
      let pos ← next k.chars last
      let pending ← arguments k.chars first last
      pure { k with pos, call := some ⟨text, pending, []⟩ }

/-- Goes on with `c`, the character at the position. -/
def turn (c : Char) : Checked Cursor := do
  if Text.isWhitespace c then
    let pos ← next k.chars k.pos
    pure { k with pos }
  else if c = '(' then
    let pos ← next k.chars k.pos
    checked (accept { k with opened := k.opened + 1 } .leftParen pos)
  else if c = ')' then
    if k.opened = 0 then
      fail { cause := .unmatchedRightParen, index := some k.pos, token := some ")" }
    else
      let opened ← less k.opened
      let pos ← next k.chars k.pos
      checked (accept { k with opened } .rightParen pos)
  else if c.isDigit || c == '.' then
    let (token, pos) ← number k.chars k.pos
    checked (k.accept token pos)
  else if c.isAlpha then k.enter
  else
    match Operator.ofSymbol? c with
    | some op =>
      let pos ← next k.chars k.pos
      checked (k.accept (.operator op) pos)
    | none =>
      fail { cause := .unknownCharacter, index := some k.pos, token := some c.toString }

/-- The tokens of an argument go to the call that waits for them. -/
def deliver (tokens : List Token) : List Cursor → Checked (List Cursor)
  | [] => .error (.done tokens)
  | k :: outer =>
    match k.call with
    | none => .error .broken
    | some call =>
      .ok ({ k with call := some { call with scanned := call.scanned ++ [tokens] } } :: outer)

def step : List Cursor → Checked (List Cursor)
  | [] => .error .broken
  | k :: outer =>
    match k.call with
    | none =>
      match k.chars[k.pos]? with
      | none => do
        checked (Scan.finish k.opened k.place)
        deliver k.tokens outer
      | some c => (· :: outer) <$> k.turn c
    | some call =>
      match call.pending with
      | [] => (· :: outer) <$> checked (k.accept (.call call.name call.scanned) k.pos)
      | (start, stop) :: pending => do
        let chars ← cut k.chars start stop
        let waiting := { k with call := some { call with pending } }
        pure ({ chars, depth := k.depth + 1 } :: waiting :: outer)

def Goes (cursors later : List Cursor) : Prop := step cursors = .ok later

/-- The stacks that scanning a text comes to. -/
def Reachable (text : String) (cursors : List Cursor) : Prop :=
  Relation.ReflTransGen Goes [{ chars := text.toList, depth := 0 }] cursors

/-- Moves behind a lexeme. -/
def advance (found : Scan.Lexeme) : Except Failure Cursor :=
  accept { k with opened := Scan.openedAfter k.opened found.token } found.token
    (k.pos + 1 + found.more)

/-- What scans the arguments of calls in the fragment of a cursor. -/
abbrev scanner : Option Scan.Scanner := Scan.inner (nestingLimit - k.depth)

/-- What a turn comes to where a lexeme is due, and what scanning comes to there. A call has been
delimited and divided, and each of its arguments is left to scan. -/
inductive Turn (k : Cursor) (rest : List Char) :
    Checked Cursor → Except Failure Scan.Lexeme → Prop
  | fails (failure : Failure) : Turn k rest (fail failure) (.error failure)
  | reads {found : Scan.Lexeme} (hm : found.more ≤ rest.length) :
    Turn k rest (checked (k.advance found)) (.ok found)
  | calls {name : String} {pending : List (Nat × Nat)} {texts : List (List Char)}
      {more levels : Nat} (hm : more ≤ rest.length) (hl : nestingLimit - k.depth = levels + 1)
      (hp : List.Forall₂ (Within k.chars) pending texts) :
    Turn k rest
      (.ok { k with pos := k.pos + 1 + more, call := some ⟨name, pending, []⟩ })
      ((fun scanned => ⟨.call name scanned, more⟩) <$>
        texts.mapM fun text => (Scan.fragment levels text).result)

variable {k} {c : Char} {rest : List Char}

theorem enter_turn (h : Ahead k.chars k.pos (c :: rest)) :
    Turn k rest k.enter (Scan.call k.scanner k.pos (c :: rest)).result := by
  have parts := List.takeWhile_append_dropWhile (p := Scan.isNameChar) (l := c :: rest)
  have skipped := h.skip_eq Scan.isNameChar
  rw [enter, skipped, Scan.call]
  generalize (c :: rest).takeWhile Scan.isNameChar = name at *
  generalize (c :: rest).dropWhile Scan.isNameChar = behind at *
  have named : Ahead k.chars k.pos (name ++ behind) := parts.symm ▸ h
  have here := named.append
  simp only [named.cut_eq, ok_bind, here.getElem?]
  by_cases hparen : behind.head? = some '('
  · obtain ⟨inside, rfl⟩ := List.head?_eq_some_iff.mp hparen
    rw [if_neg (not_not.mpr hparen)]
    by_cases hdepth : nestingLimit ≤ k.depth
    · have deepest : nestingLimit - k.depth = 0 := Nat.sub_eq_zero_of_le hdepth
      simp only [if_pos hdepth, scanner, deepest, Scan.inner]
      exact .fails _
    · obtain ⟨levels, hl⟩ : ∃ levels, nestingLimit - k.depth = levels + 1 :=
        ⟨nestingLimit - k.depth - 1, by omega⟩
      have first := here.cons
      simp only [if_neg hdepth, scanner, hl, Scan.inner, here.next_eq, ok_bind, first.closing_eq]
      cases hb : CallText.body 0 inside with
      | none => exact .fails _
      | some body =>
        obtain ⟨hd, after, rfl⟩ := CallText.body_eq_some_iff.mp hb
        simp only [Option.map_some, first.append.next_eq, ok_bind, first.arguments_eq hd]
        cases ha : CallText.arguments body with
        | error comma => exact .fails _
        | ok texts =>
          have behind : k.pos + name.length + 1 + body.length + 1 =
              k.pos + 1 + (name.length + body.length + 1) := by omega
          have width : name.length + body.length + 1 ≤ rest.length := by
            have := congrArg List.length parts
            simp at this
            omega
          simp only [Logged.result_bind, Logged.result_mapM, behind]
          exact .calls width hl (first.spans_arguments ha)
  · rw [if_pos hparen]
    split
    next inside => exact absurd rfl hparen
    next => exact .fails _

theorem turn_whitespace (h : Ahead k.chars k.pos (c :: rest)) (hc : Text.isWhitespace c) :
    k.turn c = .ok { k with pos := k.pos + 1 } := by
  rw [turn, if_pos hc, h.next_eq, ok_bind]
  rfl

theorem turn_lexeme (h : Ahead k.chars k.pos (c :: rest)) (hc : ¬ Text.isWhitespace c) :
    Turn k rest (k.turn c) (Scan.lexeme k.scanner k.pos k.opened c rest).result := by
  rw [turn, if_neg hc, Scan.lexeme]
  simp only [h.next_eq, ok_bind]
  by_cases hl : c = '('
  · rw [if_pos hl, if_pos hl]
    exact @Turn.reads k rest ⟨.leftParen, 0⟩ (Nat.zero_le _)
  rw [if_neg hl, if_neg hl]
  by_cases hr : c = ')'
  · rw [if_pos hr, if_pos hr]
    by_cases ho : k.opened = 0
    · rw [if_pos ho, if_pos ho]
      exact .fails _
    · rw [if_neg ho, if_neg ho, less, if_neg ho, ok_bind]
      exact @Turn.reads k rest ⟨.rightParen, 0⟩ (Nat.zero_le _)
  rw [if_neg hr, if_neg hr]
  by_cases hn : c.isDigit || c == '.'
  · rw [if_pos hn, if_pos hn, Logged.result_ofExcept, h.number_eq (by simpa using hn)]
    cases hf : Scan.number k.pos (c :: rest) with
    | error failure => exact .fails failure
    | ok found =>
      obtain ⟨token, more⟩ := found
      obtain ⟨l, behind, -, -, rfl, hcs, -, hm⟩ :=
        (Scan.number_eq_ok_iff (by simpa using hn)).mp hf
      have width := congrArg List.length hcs
      simp at width
      have hm : more ≤ rest.length := by omega
      exact @Turn.reads k rest ⟨.operand l.value, more⟩ hm
  rw [if_neg hn, if_neg hn]
  by_cases ha : c.isAlpha
  · rw [if_pos ha, if_pos ha]
    exact enter_turn h
  rw [if_neg ha, if_neg ha]
  cases Operator.ofSymbol? c with
  | some op => exact @Turn.reads k rest ⟨.operator op, 0⟩ (Nat.zero_le _)
  | none => exact .fails _

theorem eq_of_accept {later : Cursor} {token : Token} {pos : Nat}
    (h : k.accept token pos = .ok later) :
    later = { k with pos, place := .after token.kind, tokens := k.tokens ++ [token],
                     call := none } := by
  obtain ⟨place, hplace, hlater⟩ := bind_eq_ok_iff.mp h
  obtain ⟨-, rfl⟩ := Scan.advance_eq_ok_iff.mp hplace
  exact (Except.ok.inj hlater).symm

/-- A later cursor is further on in the same fragment. -/
structure Onward (k later : Cursor) : Prop where
  chars : later.chars = k.chars
  depth : later.depth = k.depth
  pos : k.pos < later.pos
  bound : later.pos ≤ later.chars.length

theorem onward_advance {later : Cursor} {found : Scan.Lexeme}
    (h : Ahead k.chars k.pos (c :: rest)) (hm : found.more ≤ rest.length)
    (ha : k.advance found = .ok later) : Onward k later := by
  have := h.length
  rw [List.length_cons] at this
  obtain rfl := eq_of_accept ha
  exact ⟨rfl, rfl, by simp only; omega, by simp only; omega⟩

theorem Turn.more_le {result : Checked Cursor} {found : Scan.Lexeme}
    (h : Turn k rest result (.ok found)) : found.more ≤ rest.length := by
  generalize hy : Except.ok found = y at h
  cases h with
  | fails => cases hy
  | reads hm =>
    cases hy
    exact hm
  | calls hm =>
    obtain ⟨scanned, -, rfl⟩ := map_eq_ok_iff.mp hy.symm
    exact hm

end Cursor

end Reckoner
