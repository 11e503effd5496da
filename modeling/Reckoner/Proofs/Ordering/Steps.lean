import Mathlib.Data.List.Perm.Basic
import Reckoner.Postfix
import Reckoner.Proofs.Grammar
import Reckoner.Proofs.Records.Tally

/-! What a token does to the operators and parentheses that wait for their place, and what a whole
sequence does to them. Nothing but parentheses is lost, and ordering ends early at two kinds of
token only. -/
namespace Reckoner

namespace Token

/-- The operands and operators, which postfix order keeps. -/
def terms (tokens : List Token) : List Token :=
  tokens.filter fun token => token.kind = .operand ∨ token.kind = .operator

def operands (tokens : List Token) : List Token :=
  tokens.filter fun token => token.kind = .operand

theorem terms_append (ts us : List Token) : terms (ts ++ us) = terms ts ++ terms us :=
  List.filter_append ..

theorem operands_append (ts us : List Token) : operands (ts ++ us) = operands ts ++ operands us :=
  List.filter_append ..

end Token

namespace Postfix

open Token (terms operands tally)
open Grammar (openedBehind)

variable {pending rest : List Pending} {token : Token} {before after tokens out : List Token}
  {opened : Nat}

/-- The operators that wait, innermost first. -/
def operators : List Pending → List Token
  | [] => []
  | .paren :: pending => operators pending
  | .operator op :: pending => .operator op :: operators pending

def parens (pending : List Pending) : Nat := pending.count .paren

@[simp]
theorem parens_nil : parens [] = 0 := rfl

@[simp]
theorem parens_paren : parens (.paren :: pending) = parens pending + 1 := by simp [parens]

@[simp]
theorem parens_operator (op : Operator) : parens (.operator op :: pending) = parens pending := by
  simp [parens]

theorem operands_operators (pending : List Pending) : operands (operators pending) = [] := by
  induction pending with
  | nil => rfl
  | cons top pending ih => cases top <;> simpa [operators, operands, Token.kind] using ih

theorem operands_eq_nil_of_split (h : out ++ operators rest = operators pending) :
    operands out = [] := by
  have none := operands_operators pending
  rw [← h, Token.operands_append] at none
  exact (List.append_eq_nil_iff.mp none).1

/-- Operators are taken off in the order in which they wait. -/
theorem release_splits (op : Operator) (pending : List Pending) :
    (release op pending).1 ++ operators (release op pending).2 = operators pending ∧
      parens (release op pending).2 = parens pending := by
  induction pending with
  | nil => exact ⟨rfl, rfl⟩
  | cons top pending ih =>
    cases top with
    | paren => exact ⟨rfl, rfl⟩
    | operator q =>
      rw [release]
      split
      · simpa [operators] using ih
      · exact ⟨rfl, rfl⟩

theorem close_of_parens_eq_zero (h : parens pending = 0) :
    close pending = .error (.of .stackUnderflow) := by
  induction pending with
  | nil => rfl
  | cons top pending ih =>
    cases top with
    | paren => simp at h
    | operator op =>
      rw [parens_operator] at h
      rw [close, ih h]
      rfl

theorem close_of_parens_pos (h : 0 < parens pending) :
    ∃ released rest, close pending = .ok (released, rest) ∧
      released ++ operators rest = operators pending ∧ parens rest + 1 = parens pending := by
  induction pending with
  | nil => simp at h
  | cons top pending ih =>
    cases top with
    | paren => exact ⟨[], pending, rfl, rfl, by simp⟩
    | operator op =>
      rw [parens_operator] at h
      obtain ⟨released, rest, hclose, hsplit, hparens⟩ := ih h
      refine ⟨.operator op :: released, rest, ?_, ?_, ?_⟩
      · rw [close, hclose]
        rfl
      · rw [List.cons_append, hsplit, operators]
      · rw [hparens, parens_operator]

theorem drain_of_parens_pos (h : 0 < parens pending) :
    drain pending = .error (.of .unclosedParen) := by
  induction pending with
  | nil => simp at h
  | cons top pending ih =>
    cases top with
    | paren => rfl
    | operator op =>
      rw [parens_operator] at h
      rw [drain, ih h]
      rfl

theorem drain_of_parens_eq_zero (h : parens pending = 0) : drain pending = .ok (operators pending) := by
  induction pending with
  | nil => rfl
  | cons top pending ih =>
    cases top with
    | paren => simp at h
    | operator op =>
      rw [parens_operator] at h
      rw [drain, ih h]
      rfl

/-- Inside `opened` parentheses, ordering comes to an end at a token behind these: at a call, or at a
right parenthesis if the right ones are more by then than the left ones. -/
def Halts (opened : Nat) (before : List Token) (token : Token) : Prop :=
  token.kind = .call ∨ token.kind = .rightParen ∧
    opened + tally .leftParen (before ++ [token]) < tally .rightParen (before ++ [token])

/-- Nowhere in the sequence does ordering come to an end. -/
def Clear (opened : Nat) (tokens : List Token) : Prop :=
  ∀ ⦃before token after⦄, tokens = before ++ token :: after → ¬ Halts opened before token

/-- What ordering fails for at a token. -/
def halt : Token → Failure
  | .call name _ => { cause := .unresolvedCall, token := some name }
  | _ => .of .stackUnderflow

/-- Behind a token that it goes past, ordering goes on as from the parentheses open then. -/
theorem halts_cons_iff {first : Token} (h : ¬ Halts opened [] first) :
    Halts opened (first :: before) token ↔
      Halts (openedBehind opened first.kind) before token := by
  simp only [Halts, List.nil_append, List.cons_append, Token.tally_cons, Token.tally_nil] at h ⊢
  generalize first.kind = kind at h ⊢
  refine or_congr_right (and_congr_right fun _ => ?_)
  cases kind with
  | operand | operator | leftParen => simp [openedBehind] <;> omega
  | rightParen =>
    have opens : 0 < opened := by simpa [Nat.pos_iff_ne_zero] using h
    simp [openedBehind]
    omega
  | call => simp at h

theorem clear_nil : Clear opened [] := by
  intro before token after h
  simp at h

theorem clear_cons_iff {first : Token} :
    Clear opened (first :: tokens) ↔
      ¬ Halts opened [] first ∧ Clear (openedBehind opened first.kind) tokens := by
  constructor
  · intro h
    have hfirst : ¬ Halts opened [] first := h rfl
    refine ⟨hfirst, ?_⟩
    rintro before token after rfl
    rw [← halts_cons_iff hfirst]
    exact h rfl
  · rintro ⟨hfirst, h⟩ before token after heq
    cases before with
    | nil =>
      obtain ⟨rfl, -⟩ := List.cons.inj heq
      exact hfirst
    | cons first' before =>
      obtain ⟨rfl, rfl⟩ := List.cons.inj heq
      rw [halts_cons_iff hfirst]
      exact h rfl

/-- Some tokens have been read: these have come out, and those wait. Nothing but parentheses has been
lost or doubled, and operands have come out in their order. -/
structure Advances (pending : List Pending) (tokens released : List Token)
    (waiting : List Pending) : Prop where
  order : ∀ after, order pending (tokens ++ after) = (released ++ ·) <$> order waiting after
  parens : parens waiting + tally .rightParen tokens = parens pending + tally .leftParen tokens
  terms : (released ++ operators waiting).Perm (terms tokens ++ operators pending)
  operands : operands released = operands tokens

theorem Advances.nil (pending : List Pending) : Advances pending [] [] pending :=
  ⟨fun after => by simp, rfl, .refl _, rfl⟩

theorem Advances.trans {middle waiting : List Pending} {ts us released released' : List Token}
    (h : Advances pending ts released middle) (h' : Advances middle us released' waiting) :
    Advances pending (ts ++ us) (released ++ released') waiting where
  order after := by
    rw [List.append_assoc, h.order, h'.order]
    simp
  parens := by
    have first := h.parens
    have second := h'.parens
    rw [Token.tally_append, Token.tally_append]
    omega
  terms := by
    rw [List.append_assoc, Token.terms_append]
    calc List.Perm (released ++ (released' ++ operators waiting))
          (released ++ (Token.terms us ++ operators middle)) := h'.terms.append_left _
      List.Perm _ (Token.terms us ++ (released ++ operators middle)) := List.perm_append_comm_assoc ..
      List.Perm _ (Token.terms us ++ (Token.terms ts ++ operators pending)) := h.terms.append_left _
      List.Perm _ (Token.terms ts ++ (Token.terms us ++ operators pending)) :=
        List.perm_append_comm_assoc ..
      List.Perm _ (Token.terms ts ++ Token.terms us ++ operators pending) := by
        rw [List.append_assoc]
  operands := by rw [Token.operands_append, Token.operands_append, h.operands, h'.operands]

/-- What one token does. -/
theorem exists_advances_single (h : ¬ Halts (parens pending) [] token) :
    ∃ released waiting, Advances pending [token] released waiting ∧
      parens waiting = openedBehind (parens pending) token.kind := by
  cases token with
  | operand x =>
    refine ⟨[.operand x], pending, ⟨fun _ => rfl, ?_, .refl _, rfl⟩, rfl⟩
    simp [Token.kind]
  | leftParen =>
    refine ⟨[], .paren :: pending, ⟨fun after => ?_, ?_, .refl _, rfl⟩, ?_⟩
    · simp [order]
    · simp [Token.kind]
    · simp [openedBehind, Token.kind]
  | rightParen =>
    have opens : 0 < parens pending := by simpa [Halts, Token.kind, Nat.pos_iff_ne_zero] using h
    obtain ⟨released, waiting, hclose, hsplit, hparens⟩ := close_of_parens_pos opens
    refine ⟨released, waiting, ⟨fun after => ?_, ?_, ?_, ?_⟩, ?_⟩
    · rw [List.singleton_append, order, hclose]
      rfl
    · simpa [Token.kind] using hparens
    · rw [hsplit]
      exact .refl _
    · rw [operands_eq_nil_of_split hsplit]
      rfl
    · simp [openedBehind, Token.kind]
      omega
  | operator op =>
    obtain ⟨hsplit, hparens⟩ := release_splits op pending
    refine ⟨(release op pending).1, .operator op :: (release op pending).2,
      ⟨fun after => rfl, ?_, ?_, ?_⟩, ?_⟩
    · simpa [Token.kind] using hparens
    · rw [operators, ← hsplit]
      exact List.perm_middle
    · rw [operands_eq_nil_of_split hsplit]
      rfl
    · simpa [openedBehind, Token.kind] using hparens
  | call => simp [Halts, Token.kind] at h

/-- What a sequence does, token by token. -/
theorem exists_advances (h : Clear (parens pending) tokens) :
    ∃ released waiting, Advances pending tokens released waiting := by
  induction tokens generalizing pending with
  | nil => exact ⟨[], pending, .nil pending⟩
  | cons token tokens ih =>
    obtain ⟨hfirst, hrest⟩ := clear_cons_iff.mp h
    obtain ⟨released, waiting, hstep, hparens⟩ := exists_advances_single hfirst
    rw [← hparens] at hrest
    obtain ⟨released', waiting', hrun⟩ := ih hrest
    exact ⟨released ++ released', waiting', hstep.trans hrun⟩

theorem order_of_halts (hb : Clear (parens pending) before)
    (ht : Halts (parens pending) before token) (after : List Token) :
    order pending (before ++ token :: after) = .error (halt token) := by
  obtain ⟨released, waiting, h⟩ := exists_advances hb
  have parens := h.parens
  rw [h.order]
  cases token with
  | call => rfl
  | rightParen =>
    have closed : Postfix.parens waiting = 0 := by
      simp [Halts, Token.kind] at ht
      omega
    rw [order, close_of_parens_eq_zero closed]
    rfl
  | operand | operator | leftParen => simp [Halts, Token.kind] at ht

/-- If ordering comes to no end, then it fails over a parenthesis that is left open, or succeeds. -/
theorem order_of_clear (h : Clear (parens pending) tokens) :
    (tally .rightParen tokens < parens pending + tally .leftParen tokens →
        order pending tokens = .error (.of .unclosedParen)) ∧
      (parens pending + tally .leftParen tokens ≤ tally .rightParen tokens →
        ∃ out, order pending tokens = .ok out ∧ out.Perm (terms tokens ++ operators pending) ∧
          operands out = operands tokens) := by
  obtain ⟨released, waiting, hrun⟩ := exists_advances h
  have parens := hrun.parens
  have ends := hrun.order []
  rw [List.append_nil, order] at ends
  rw [ends]
  constructor
  · intro more
    rw [drain_of_parens_pos (by omega)]
    rfl
  · intro less
    rw [drain_of_parens_eq_zero (by omega)]
    refine ⟨_, rfl, hrun.terms, ?_⟩
    rw [Token.operands_append, operands_operators, List.append_nil, hrun.operands]

/-- Where ordering comes to an end, there is a first token at which it does. -/
theorem exists_halts_of_not_clear (h : ¬ Clear opened tokens) :
    ∃ before token after, tokens = before ++ token :: after ∧ Clear opened before ∧
      Halts opened before token := by
  induction tokens generalizing opened with
  | nil => exact absurd clear_nil h
  | cons first tokens ih =>
    by_cases hfirst : Halts opened [] first
    · exact ⟨[], first, tokens, rfl, clear_nil, hfirst⟩
    · have hrest : ¬ Clear (openedBehind opened first.kind) tokens :=
        fun hc => h (clear_cons_iff.mpr ⟨hfirst, hc⟩)
      obtain ⟨before, token, after, rfl, hclear, hhalts⟩ := ih hrest
      exact ⟨first :: before, token, after, rfl, clear_cons_iff.mpr ⟨hfirst, hclear⟩,
        (halts_cons_iff hfirst).mpr hhalts⟩

theorem clear_of_order (h : order pending tokens = .ok out) : Clear (parens pending) tokens := by
  by_contra hc
  obtain ⟨before, token, after, rfl, hclear, hhalts⟩ := exists_halts_of_not_clear hc
  rw [order_of_halts hclear hhalts] at h
  cases h

/-- Nothing but parentheses is lost on the way to its place, and nothing is doubled. -/
theorem perm_of_ofInfix (h : ofInfix tokens = .ok out) : out.Perm (terms tokens) := by
  obtain ⟨fails, succeeds⟩ := order_of_clear (clear_of_order h)
  by_cases more : tally .rightParen tokens < parens [] + tally .leftParen tokens
  · have failed := fails more
    rw [ofInfix, failed] at h
    cases h
  · obtain ⟨out', hout, hperm, -⟩ := succeeds (Nat.le_of_not_lt more)
    rw [ofInfix, hout] at h
    rw [operators, List.append_nil] at hperm
    exact Except.ok.inj h ▸ hperm

theorem mem_of_ofInfix (h : ofInfix tokens = .ok out) (ht : token ∈ out) : token ∈ tokens :=
  List.mem_of_mem_filter ((perm_of_ofInfix h).mem_iff.mp ht)

theorem tally_of_ofInfix (h : ofInfix tokens = .ok out) :
    tally .operator out = tally .operator tokens := by
  rw [tally, (perm_of_ofInfix h).countP_eq, terms, List.countP_filter, tally]
  congr 1
  funext token
  simpa using Or.inr

end Postfix

end Reckoner
