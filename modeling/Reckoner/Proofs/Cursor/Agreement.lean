import Reckoner.Proofs.Cursor.Stack

/-! The machine comes to what scanning comes to. -/
namespace Reckoner.Cursor

section Comes

variable {cursors later : List Cursor} {result : Checked (List Cursor)}

/-- Where the machine comes to: to other cursors, or to a stop. -/
def Comes (cursors : List Cursor) : Checked (List Cursor) → Prop
  | .ok later => Relation.ReflTransGen Goes cursors later
  | .error stop => ∃ last, Relation.ReflTransGen Goes cursors last ∧ step last = .error stop

theorem comes_step (cursors : List Cursor) : Comes cursors (step cursors) := by
  cases h : step cursors with
  | ok later => exact .single h
  | error stop => exact ⟨cursors, .refl, h⟩

theorem Comes.trans (h : Relation.ReflTransGen Goes cursors later) (h' : Comes later result) :
    Comes cursors result := by
  cases result with
  | ok last => exact h.trans h'
  | error stop =>
    obtain ⟨last, hlast, hstop⟩ := h'
    exact ⟨last, h.trans hlast, hstop⟩

theorem Comes.head (h : step cursors = .ok later) (h' : Comes later result) :
    Comes cursors result :=
  h'.trans (.single h)

end Comes

section checked

variable {α β : Type} {x : Except Failure α}

theorem checked_bind (f : α → Except Failure β) :
    checked (x >>= f) = checked x >>= fun a => checked (f a) := by
  cases x <;> rfl

theorem checked_map (f : α → β) : checked (f <$> x) = f <$> checked x := by
  cases x <;> rfl

end checked

variable {k : Cursor} {c : Char} {rest : List Char} {outer : List Cursor} {depth levels : Nat}
  {name : String} {pending : List (Nat × Nat)} {texts : List (List Char)}
  {scanned : List (List Token)}

/-- Scans on from the cursor to the end of the fragment. -/
def scan (k : Cursor) : Except Failure (List Token) :=
  (k.tokens ++ ·) <$>
    (Scan.run k.scanner k.pos k.opened k.place (k.chars.drop k.pos)).result

def outcome (k : Cursor) (outer : List Cursor) : Checked (List Cursor) :=
  checked k.scan >>= fun tokens => deliver tokens outer

theorem scan_nil (h : Ahead k.chars k.pos []) :
    k.scan = (fun _ => k.tokens) <$> Scan.finish k.opened k.place := by
  rw [scan, h.drop, Scan.run_nil]
  cases Scan.finish k.opened k.place <;> simp [Functor.map, Except.map]

theorem scan_whitespace (h : Ahead k.chars k.pos (c :: rest)) (hc : Text.isWhitespace c) :
    k.scan = scan { k with pos := k.pos + 1 } := by
  rw [scan, h.drop, Scan.run_whitespace hc, ← h.cons.drop]
  rfl

theorem scan_lexeme (h : Ahead k.chars k.pos (c :: rest)) (hc : ¬ Text.isWhitespace c) :
    k.scan = (Scan.lexeme k.scanner k.pos k.opened c rest).result >>= k.advance >>= scan := by
  have behind (more : Nat) : rest.drop more = k.chars.drop (k.pos + 1 + more) := by
    rw [← h.cons.drop, List.drop_drop]
  rw [scan, h.drop, Scan.run_lexeme hc]
  simp only [Logged.result_bind, Logged.result_emit, Logged.result_ofExcept, Logged.result_map,
    behind]
  cases (Scan.lexeme k.scanner k.pos k.opened c rest).result with
  | error failure => rfl
  | ok found =>
    simp only [ok_bind, advance, accept]
    cases k.place.advance found.token.kind with
    | error failure => rfl
    | ok place =>
      simp only [ok_bind, pure_bind, scan, Functor.map_map, List.append_assoc,
        List.singleton_append]

/-- Fragments inside `depth` calls are scanned as they should be. -/
def Scanned (depth : Nat) : Prop :=
  ∀ (k : Cursor) (outer : List Cursor), k.depth = depth → k.call = none →
    k.pos ≤ k.chars.length → Comes (k :: outer) (k.outcome outer)

theorem scan_start (cs : List Char) (depth : Nat) :
    scan { chars := cs, depth } = (Scan.fragment (nestingLimit - depth) cs).result := by
  rw [Scan.fragment_eq]
  exact id_map _

/-- One argument after the other is scanned, up to the first that fails. By induction on those that
are left, for any that have been scanned before. -/
theorem comes_arguments (hs : Scanned (k.depth + 1)) (hl : nestingLimit - k.depth = levels + 1)
    (hp : List.Forall₂ (Within k.chars) pending texts)
    (hc : k.call = some ⟨name, pending, scanned⟩) :
    Comes (k :: outer) ((· :: outer) <$> checked (do
      let found ← texts.mapM fun text => (Scan.fragment levels text).result
      k.accept (.call name (scanned ++ found)) k.pos)) := by
  generalize hcs : k.chars = cs at hp
  induction hp generalizing k scanned with
  | nil =>
    have accepted := comes_step (k :: outer)
    rw [step, hc] at accepted
    simpa using accepted
  | @cons range text pending texts hw _ ih =>
    subst hcs
    have inner := hs { chars := text, depth := k.depth + 1 }
      ({ k with call := some ⟨name, pending, scanned⟩ } :: outer) rfl rfl (Nat.zero_le _)
    have entered : step (k :: outer) = .ok ({ chars := text, depth := k.depth + 1 } ::
        { k with call := some ⟨name, pending, scanned⟩ } :: outer) := by
      simp only [step, hc, hw.cut, ok_bind]
      rfl
    have left : nestingLimit - (k.depth + 1) = levels := by omega
    rw [outcome, scan_start, left] at inner
    rw [List.mapM_cons]
    apply Comes.head entered
    cases hf : (Scan.fragment levels text).result with
    | error failure =>
      rw [hf] at inner
      exact inner
    | ok tokens =>
      rw [hf] at inner
      -- the call waits again, for one argument less
      have later := @ih { k with call := some ⟨name, pending, scanned ++ [tokens]⟩ }
        (scanned ++ [tokens]) hs hl rfl rfl
      simp only [List.append_assoc, List.singleton_append] at later
      simp only [ok_bind, bind_assoc, pure_bind]
      exact later.trans inner

/-- In one turn, or in one for each argument of a call and those inside it, the cursor gets behind
a lexeme. -/
theorem comes_lexeme (hs : k.depth < nestingLimit → Scanned (k.depth + 1)) (hk : k.call = none)
    (h : Ahead k.chars k.pos (c :: rest)) (hc : ¬ Text.isWhitespace c) :
    Comes (k :: outer) ((· :: outer) <$>
      checked ((Scan.lexeme k.scanner k.pos k.opened c rest).result >>= k.advance)) := by
  have turned := turn_lexeme h hc
  have stepped := comes_step (k :: outer)
  simp only [step, hk, h.getElem?, List.head?_cons] at stepped
  generalize k.turn c = x at *
  generalize (Scan.lexeme k.scanner k.pos k.opened c rest).result = y at *
  cases turned with
  | fails failure => exact stepped
  | reads => exact stepped
  | @calls name pending texts more levels _ hl hp =>
    have below : k.depth < nestingLimit := by omega
    have scanned := @comes_arguments
      { k with pos := k.pos + 1 + more, call := some ⟨name, pending, []⟩ } outer levels name pending
      texts [] (hs below) hl hp rfl
    rw [bind_map_left]
    exact scanned.trans stepped

/-- The rest of a fragment is scanned lexeme by lexeme. -/
theorem comes_outcome (k : Cursor) (outer : List Cursor)
    (hs : k.depth < nestingLimit → Scanned (k.depth + 1)) (hk : k.call = none)
    (hb : k.pos ≤ k.chars.length) : Comes (k :: outer) (k.outcome outer) := by
  match hrest : k.chars.drop k.pos with
  | [] =>
    have h : Ahead k.chars k.pos [] := ⟨hb, hrest⟩
    have finished := comes_step (k :: outer)
    simp only [step, hk, h.getElem?, List.head?_nil] at finished
    rwa [outcome, scan_nil h, checked_map, bind_map_left]
  | c :: rest =>
    have h : Ahead k.chars k.pos (c :: rest) := ⟨hb, hrest⟩
    have hlt := h.lt
    by_cases hc : Text.isWhitespace c
    · have moved : step (k :: outer) = .ok ({ k with pos := k.pos + 1 } :: outer) := by
        simp only [step, hk, h.getElem?, List.head?_cons, turn_whitespace h hc]
        rfl
      rw [outcome, scan_whitespace h hc]
      exact .head moved (comes_outcome { k with pos := k.pos + 1 } outer hs hk hlt)
    · have turned := turn_lexeme h hc
      have reached := @comes_lexeme k c rest outer hs hk h hc
      rw [outcome, scan_lexeme h hc, checked_bind]
      cases hl : (Scan.lexeme k.scanner k.pos k.opened c rest).result >>= k.advance with
      | error failure =>
        rw [hl] at reached
        exact reached
      | ok later =>
        rw [hl] at reached
        obtain ⟨found, hfound, hlater⟩ := bind_eq_ok_iff.mp hl
        rw [hfound] at turned
        obtain ⟨hchars, hdepth, hpos, hbound⟩ := onward_advance h turned.more_le hlater
        have settled : later.call = none := by rw [eq_of_accept hlater]
        have width := congrArg List.length hchars
        exact (comes_outcome later outer (hdepth ▸ hs) settled hbound).trans reached
termination_by k.chars.length - k.pos

theorem scanned_of_depth (depth : Nat) : Scanned depth := by
  rintro k outer rfl hk hb
  exact comes_outcome k outer (fun _ => scanned_of_depth (k.depth + 1)) hk hb
termination_by nestingLimit - depth

end Reckoner.Cursor
