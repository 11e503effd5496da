import Reckoner.Proofs.Agenda

/-! What computing a sequence can fail for, once its calls have been replaced. -/
namespace Reckoner

variable {α β : Type} {F : Failure → Prop} {P : α → Prop}

theorem Within.map_imp {R : β → Prop} {x : Except Failure α} {f : α → β} (h : Within F P x)
    (hf : ∀ a, P a → R (f a)) : Within F R (f <$> x) := by
  cases h with
  | ok h => exact .ok (hf _ h)
  | error h => exact .error h

/-- Computing with an operator fails over a zero divisor, or because the result is too large. -/
inductive Operator.Fails (op : Operator) : Failure → Prop
  | divisionByZero : op = .divide ∨ op = .modulo →
      Fails op { cause := .divisionByZero, token := some op.text }
  | overflow : Fails op { cause := .overflow, token := some op.text }

theorem Operator.combine_within (op : Operator) (left right : Float) :
    Within op.Fails (fun _ => True) (op.combine left right) := by
  rw [combine_eq_reduce, reduce]
  split
  next h => exact .error (.divisionByZero h.1)
  · split
    · exact .ok trivial
    · exact .error .overflow

namespace Postfix

variable {O : Operator → Prop} {pending : List Pending} {tokens : List Token}

/-- Operands, and operators with a property. -/
def Ordered (O : Operator → Prop) (tokens : List Token) : Prop :=
  ∀ token ∈ tokens, (∃ x, token = .operand x) ∨ ∃ op, O op ∧ token = .operator op

def Waiting (O : Operator → Prop) (pending : List Pending) : Prop :=
  ∀ op, .operator op ∈ pending → O op

theorem ordered_nil : Ordered O [] := List.forall_mem_nil _

theorem Ordered.append {ts us : List Token} (h : Ordered O ts) (h' : Ordered O us) :
    Ordered O (ts ++ us) :=
  List.forall_mem_append.mpr ⟨h, h'⟩

theorem Ordered.operand_cons {x : Float} (h : Ordered O tokens) :
    Ordered O (.operand x :: tokens) :=
  List.forall_mem_cons.mpr ⟨Or.inl ⟨x, rfl⟩, h⟩

theorem Ordered.operator_cons {op : Operator} (ho : O op) (h : Ordered O tokens) :
    Ordered O (.operator op :: tokens) :=
  List.forall_mem_cons.mpr ⟨Or.inr ⟨op, ho, rfl⟩, h⟩

theorem waiting_operator_cons_iff {op : Operator} :
    Waiting O (.operator op :: pending) ↔ O op ∧ Waiting O pending := by
  simp [Waiting]

theorem waiting_paren_cons_iff : Waiting O (.paren :: pending) ↔ Waiting O pending := by
  simp [Waiting]

theorem release_ordered (op : Operator) (h : Waiting O pending) :
    Ordered O (release op pending).1 ∧ Waiting O (release op pending).2 := by
  induction pending with
  | nil => exact ⟨ordered_nil, h⟩
  | cons top pending ih =>
    cases top with
    | paren => exact ⟨ordered_nil, h⟩
    | operator top =>
      obtain ⟨htop, hrest⟩ := waiting_operator_cons_iff.mp h
      rw [release]
      split
      · exact ⟨(ih hrest).1.operator_cons htop, (ih hrest).2⟩
      · exact ⟨ordered_nil, h⟩

theorem close_within (h : Waiting O pending) :
    Within (· = .of .stackUnderflow) (fun p => Ordered O p.1 ∧ Waiting O p.2) (close pending) := by
  induction pending with
  | nil => exact .error rfl
  | cons top pending ih =>
    cases top with
    | paren => exact .ok ⟨ordered_nil, waiting_paren_cons_iff.mp h⟩
    | operator op =>
      obtain ⟨hop, hrest⟩ := waiting_operator_cons_iff.mp h
      exact (ih hrest).map_imp fun _ hp => ⟨hp.1.operator_cons hop, hp.2⟩

theorem drain_within (h : Waiting O pending) :
    Within (· = .of .unclosedParen) (Ordered O) (drain pending) := by
  induction pending with
  | nil => exact .ok ordered_nil
  | cons top pending ih =>
    cases top with
    | paren => exact .error rfl
    | operator op =>
      obtain ⟨hop, hrest⟩ := waiting_operator_cons_iff.mp h
      exact (ih hrest).map_imp fun _ hp => hp.operator_cons hop

/-- A parenthesis can be wrong, or a call be left among the tokens. -/
inductive OrderFails (tokens : List Token) : Failure → Prop
  | stackUnderflow : OrderFails tokens (.of .stackUnderflow)
  | unclosedParen : OrderFails tokens (.of .unclosedParen)
  | unresolvedCall {name arguments} : .call name arguments ∈ tokens →
      OrderFails tokens { cause := .unresolvedCall, token := some name }

theorem OrderFails.cons {token : Token} {e : Failure} (h : OrderFails tokens e) :
    OrderFails (token :: tokens) e := by
  cases h with
  | stackUnderflow => exact .stackUnderflow
  | unclosedParen => exact .unclosedParen
  | unresolvedCall h => exact .unresolvedCall (List.mem_cons_of_mem _ h)

theorem order_within (ho : ∀ op, .operator op ∈ tokens → O op) (hp : Waiting O pending) :
    Within (OrderFails tokens) (Ordered O) (order pending tokens) := by
  induction tokens generalizing pending with
  | nil =>
    refine (drain_within hp).mono ?_
    rintro _ rfl
    exact .unclosedParen
  | cons token tokens ih =>
    have behind {pending : List Pending} (hp : Waiting O pending) :
        Within (OrderFails (token :: tokens)) (Ordered O) (order pending tokens) :=
      (ih (fun op hop => ho op (List.mem_cons_of_mem _ hop)) hp).mono fun _ => .cons
    cases token with
    | operand x => exact (behind hp).map_imp fun _ h => h.operand_cons
    | leftParen => exact behind (waiting_paren_cons_iff.mpr hp)
    | rightParen =>
      refine ((close_within hp).mono ?_).bind ?_
      · rintro _ rfl
        exact .stackUnderflow
      rintro ⟨released, rest⟩ ⟨hreleased, hrest⟩
      exact (behind hrest).map_imp fun _ h => hreleased.append h
    | operator op =>
      obtain ⟨hreleased, hrest⟩ := release_ordered op hp
      have waiting := waiting_operator_cons_iff.mpr ⟨ho op List.mem_cons_self, hrest⟩
      exact (behind waiting).map_imp fun _ h => hreleased.append h
    | call => exact .error (.unresolvedCall List.mem_cons_self)

/-- Operands and operators are computed, but for too few operands, too many, or an operator that
fails. -/
theorem run_within (h : Ordered O tokens) (stack : List Float) :
    Within (fun e => e = .of .stackUnderflow ∨ e = .of .leftoverOperands ∨
      ∃ op : Operator, O op ∧ op.Fails e) (fun _ => True) (run stack tokens).result := by
  induction tokens generalizing stack with
  | nil =>
    rcases stack with _ | ⟨x, _ | _⟩
    · exact .error (Or.inl rfl)
    · exact .ok trivial
    · exact .error (Or.inr (Or.inl rfl))
  | cons token tokens ih =>
    obtain ⟨htoken, htokens⟩ := List.forall_mem_cons.mp h
    rcases htoken with ⟨x, rfl⟩ | ⟨op, hop, rfl⟩
    · exact ih htokens (x :: stack)
    · rcases stack with _ | ⟨right, _ | ⟨left, below⟩⟩
      · exact .error (Or.inl rfl)
      · exact .error (Or.inl rfl)
      · rw [result_run_operator]
        refine ((op.combine_within left right).mono fun e he => ?_).bind ?_
        · exact Or.inr (Or.inr ⟨op, hop, he⟩)
        · intro x _
          exact ih htokens (x :: below)

end Postfix

namespace Registry

/-- The failures of computing a sequence with these tokens in place of its own. -/
inductive ComputingFails (tokens resolved : List Token) : Failure → Prop
  | emptyExpression : tokens = [] → ComputingFails tokens resolved (.of .emptyExpression)
  | order {e} : Postfix.OrderFails resolved e → ComputingFails tokens resolved e
  | stackUnderflow : ComputingFails tokens resolved (.of .stackUnderflow)
  | leftoverOperands : ComputingFails tokens resolved (.of .leftoverOperands)
  | operator {op e} : .operator op ∈ resolved → op.Fails e → ComputingFails tokens resolved e

theorem computed_within (tokens resolved : List Token) :
    Within (ComputingFails tokens resolved) (fun _ => True) (computed tokens resolved).result := by
  rw [result_computed]
  split
  next hempty => exact .error (.emptyExpression (List.isEmpty_iff.mp hempty))
  · have ordered := @Postfix.order_within (fun op => .operator op ∈ resolved) [] resolved
      (fun _ => id) (by simp [Postfix.Waiting])
    refine (ordered.mono fun _ => .order).bind ?_
    intro ps hps
    refine (Postfix.run_within hps []).mono ?_
    rintro e (rfl | rfl | ⟨op, hop, hfails⟩)
    · exact .stackUnderflow
    · exact .leftoverOperands
    · exact .operator hop hfails

/-- Only functions of the host give details. -/
theorem ComputingFails.detail_eq_none {tokens resolved : List Token} {e : Failure}
    (h : ComputingFails tokens resolved e) : e.detail = none := by
  cases h with
  | emptyExpression | stackUnderflow | leftoverOperands => rfl
  | order h => cases h <;> rfl
  | operator _ h => cases h <;> rfl

end Registry

end Reckoner
