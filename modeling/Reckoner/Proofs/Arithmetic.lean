import Reckoner.Postfix

/-! Operations on numbers: what they are worth, and how an infix sequence of them is brought into
postfix order and computed. -/
namespace Reckoner

namespace Operator

def compute : Operator → Float → Float → Float
  | modulo, left, right => Number.remainder left right
  | divide, left, right => left / right
  | multiply, left, right => left * right
  | add, left, right => left + right
  | subtract, left, right => left - right

/-- The result of an operation. There is none for a zero divisor, whatever its sign, and a result
must be finite. -/
def reduce (op : Operator) (left right : Float) : Except Failure Float :=
  if (op = divide ∨ op = modulo) ∧ right == 0.0 then
    .error { cause := .divisionByZero, token := some op.text }
  else if (op.compute left right).isFinite then .ok (op.compute left right)
  else .error { cause := .overflow, token := some op.text }

theorem combine_eq_reduce (op : Operator) (left right : Float) :
    op.combine left right = op.reduce left right := by
  cases op with
  | multiply | add | subtract => rfl
  | modulo | divide =>
    by_cases h : right == 0.0
    · simp [reduce, combine, apply, divisor, h, Functor.map, Except.map]
    · rw [reduce, if_neg fun hz => h hz.2, combine, apply, divisor, if_neg h]
      rfl

end Operator

inductive Arithmetic
  | number (value : Float)
  | operation (op : Operator) (left right : Arithmetic)

namespace Arithmetic

/-- The left side is computed before the right side. -/
def value : Arithmetic → Except Failure Float
  | number x => .ok x
  | operation op left right => do
    let x ← left.value
    let y ← right.value
    op.reduce x y

def postorder : Arithmetic → List Token
  | number x => [.operand x]
  | operation op left right => left.postorder ++ right.postorder ++ [.operator op]

/-- A tree in postfix order leaves its value on the stack, or fails as the tree does. -/
theorem run_postorder (tree : Arithmetic) (stack : List Float) (rest : List Token) :
    (Postfix.run stack (tree.postorder ++ rest)).result =
      tree.value >>= fun x => (Postfix.run (x :: stack) rest).result := by
  induction tree generalizing stack rest with
  | number => rfl
  | operation op left right ihl ihr =>
    have reduced (x y : Float) :
        (Postfix.run (y :: x :: stack) (.operator op :: rest)).result =
          op.reduce x y >>= fun v => (Postfix.run (v :: stack) rest).result := by
      simp only [Postfix.run, Logged.result_bind, Logged.result_ofExcept, Logged.result_emit,
        Operator.combine_eq_reduce]
      rfl
    simp only [postorder, List.append_assoc, ihl, ihr, List.singleton_append, reduced, value,
      bind_assoc]

theorem value_postorder (tree : Arithmetic) :
    (Postfix.value tree.postorder).result = tree.value := by
  have := tree.run_postorder [] []
  rw [List.append_nil] at this
  rw [Postfix.value, this]
  exact bind_pure _

end Arithmetic

/-- Infix sequences without calls, and the trees that they stand for. An operation of equal
precedence may stand on the left of another one, never on the right. -/
inductive Infix : (bond : Nat) → List Token → Arithmetic → Prop
  | number {x} : Infix 4 [.operand x] (.number x)
  | group {bond tokens tree} : Infix bond tokens tree →
      Infix 4 (.leftParen :: (tokens ++ [.rightParen])) tree
  | operation {op : Operator} {b c left right l r} : Infix b left l → Infix c right r →
      op.precedence ≤ b → op.precedence < c →
      Infix op.precedence (left ++ .operator op :: right) (.operation op l r)

namespace Postfix

variable {bond b : Nat} {op : Operator} {ops : List Operator} {pending : List Pending}
  {tokens : List Token} {tree : Arithmetic}

/-- The operator that waits innermost, if any, binds less tightly than `bond`. -/
def Below (bond : Nat) : List Pending → Prop
  | .operator op :: _ => op.precedence < bond
  | _ => True

theorem Below.mono (h : Below bond pending) (hb : bond ≤ b) : Below b pending := by
  cases pending with
  | nil => trivial
  | cons top pending =>
    cases top with
    | paren => trivial
    | operator => exact Nat.lt_of_lt_of_le h hb

theorem release_append (h : ∀ q ∈ ops, op.precedence ≤ q.precedence)
    (hp : Below op.precedence pending) :
    release op (ops.map .operator ++ pending) = (ops.map .operator, pending) := by
  induction ops with
  | nil =>
    cases pending with
    | nil => rfl
    | cons top pending =>
      cases top with
      | paren => rfl
      | operator => exact if_neg (Nat.not_le_of_lt hp)
  | cons q ops ih =>
    obtain ⟨hq, hs⟩ := List.forall_mem_cons.mp h
    rw [List.map_cons, List.cons_append, release, if_pos hq, ih hs]
    rfl

theorem close_append : close (ops.map .operator ++ .paren :: pending) =
    .ok (ops.map .operator, pending) := by
  induction ops with
  | nil => rfl
  | cons q ops ih =>
    rw [List.map_cons, List.cons_append, close, ih]
    rfl

theorem drain_map : drain (ops.map .operator) = .ok (ops.map .operator) := by
  induction ops with
  | nil => rfl
  | cons q ops ih =>
    rw [List.map_cons, drain, ih]
    rfl

/-- Behind an infix sequence its postfix order has come out, up to operators that still wait. They
bind no less tightly than the whole sequence. -/
theorem order_infix (h : Infix bond tokens tree) (hp : Below bond pending) :
    ∃ (out : List Token) (waiting : List Operator),
      tree.postorder = out ++ waiting.map .operator ∧
      (∀ q ∈ waiting, bond ≤ q.precedence) ∧
      ∀ rest, order pending (tokens ++ rest) =
        (out ++ ·) <$> order (waiting.map .operator ++ pending) rest := by
  induction h generalizing pending with
  | @number x => exact ⟨[.operand x], [], rfl, nofun, fun rest => rfl⟩
  | @group bond tokens tree _ ih =>
    have hparen : Below bond (.paren :: pending) := trivial
    obtain ⟨out, waiting, hout, -, hrun⟩ := ih hparen
    refine ⟨tree.postorder, [], by simp, nofun, ?_⟩
    intro rest
    calc order pending (.leftParen :: (tokens ++ [.rightParen]) ++ rest)
        = order (.paren :: pending) (tokens ++ .rightParen :: rest) := by simp [order]
      _ = (out ++ ·) <$> order (waiting.map .operator ++ .paren :: pending)
            (.rightParen :: rest) := hrun _
      _ = (out ++ ·) <$> (waiting.map .operator ++ ·) <$> order pending rest := by
          rw [order, close_append]
          rfl
      _ = (tree.postorder ++ ·) <$> order ([].map .operator ++ pending) rest := by
          simp [hout]
  | @operation op b c left right l r _ _ hb hc ihl ihr =>
    obtain ⟨outl, waitingl, houtl, hwl, hrunl⟩ := ihl (hp.mono hb)
    have hop : Below c (.operator op :: pending) := hc
    obtain ⟨outr, waitingr, houtr, hwr, hrunr⟩ := ihr hop
    have released : release op (waitingl.map .operator ++ pending) =
        (waitingl.map .operator, pending) :=
      release_append (fun q hq => Nat.le_trans hb (hwl q hq)) hp
    refine ⟨outl ++ waitingl.map .operator ++ outr, waitingr ++ [op], ?_, ?_, fun rest => ?_⟩
    · simp [Arithmetic.postorder, houtl, houtr]
    · intro q hq
      rcases List.mem_append.mp hq with hq | hq
      · exact Nat.le_trans (Nat.le_of_lt hc) (hwr q hq)
      · exact List.mem_singleton.mp hq ▸ Nat.le_refl _
    · rw [List.append_assoc, hrunl, List.cons_append, order, released]
      simp [hrunr]

theorem ofInfix_infix (h : Infix bond tokens tree) : ofInfix tokens = .ok tree.postorder := by
  have hnil : Below bond [] := trivial
  obtain ⟨out, waiting, hout, -, hrun⟩ := order_infix h hnil
  have := hrun []
  rw [List.append_nil, List.append_nil, order, drain_map] at this
  rw [ofInfix, this, hout]
  rfl

end Postfix

end Reckoner
