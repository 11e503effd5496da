import Reckoner.Proofs.Finiteness
import Reckoner.Proofs.Records.Tally

/-! Postfix sequences and trees. A sequence has a value just when it is the postorder of a tree
whose operations all have a result. How any other sequence of operands and operators fails is told
by counting both, unless an operation fails first. -/
namespace Reckoner

namespace Operator

variable {op : Operator} {left right x : Float}

/-- No division by zero, and a finite result. -/
def Admits (op : Operator) (left right : Float) : Prop :=
  ¬ ((op = divide ∨ op = modulo) ∧ right == 0.0) ∧ (op.compute left right).isFinite

theorem combine_eq_ok_iff :
    op.combine left right = .ok x ↔ op.Admits left right ∧ op.compute left right = x := by
  rw [combine_eq_reduce, reduce, Admits]
  split
  next hz => simp [hz]
  next hz =>
    split
    next hf => simp [hz, hf]
    next hf => simp [hf]

theorem cause_of_combine {e : Failure} (h : op.combine left right = .error e) :
    e.cause = .divisionByZero ∨ e.cause = .overflow := by
  rw [combine_eq_reduce, reduce] at h
  split at h
  · exact Or.inl (Except.error.inj h ▸ rfl)
  · split at h
    · cases h
    · exact Or.inr (Except.error.inj h ▸ rfl)

end Operator

namespace Arithmetic

variable {tree : Arithmetic} {x : Float}

/-- What a tree is worth if none of its operations fails. -/
def outcome : Arithmetic → Float
  | number x => x
  | operation op left right => op.compute left.outcome right.outcome

/-- Every operation has a result. -/
def Defined : Arithmetic → Prop
  | number _ => True
  | operation op left right =>
    left.Defined ∧ right.Defined ∧ op.Admits left.outcome right.outcome

theorem value_eq_ok_iff : tree.value = .ok x ↔ tree.Defined ∧ tree.outcome = x := by
  induction tree generalizing x with
  | number => simp [value, outcome, Defined]
  | operation op left right ihl ihr =>
    simp only [value, bind_eq_ok_iff, ihl, ihr, ← Operator.combine_eq_reduce,
      Operator.combine_eq_ok_iff, outcome, Defined]
    constructor
    · rintro ⟨_, ⟨hl, rfl⟩, _, ⟨hr, rfl⟩, hop, rfl⟩
      exact ⟨⟨hl, hr, hop⟩, rfl⟩
    · rintro ⟨⟨hl, hr, hop⟩, rfl⟩
      exact ⟨_, ⟨hl, rfl⟩, _, ⟨hr, rfl⟩, hop, rfl⟩

/-- The trees that a postfix sequence builds on top of others, the topmost first. -/
def build (trees : List Arithmetic) : List Token → Option (List Arithmetic)
  | [] => some trees
  | .operand x :: tokens => build (number x :: trees) tokens
  | .operator op :: tokens =>
    match trees with
    | right :: left :: below => build (operation op left right :: below) tokens
    | _ => none
  | _ :: _ => none

theorem build_postorder (tree : Arithmetic) (trees : List Arithmetic) (rest : List Token) :
    build trees (tree.postorder ++ rest) = build (tree :: trees) rest := by
  induction tree generalizing trees rest with
  | number => rfl
  | operation op left right ihl ihr =>
    simp only [postorder, List.append_assoc, ihl, ihr]
    rfl

/-- A tree is told by its postorder. -/
theorem postorder_injective : Function.Injective postorder := by
  intro tree other h
  have built (tree : Arithmetic) : build [] tree.postorder = some [tree] := by
    simpa [build] using build_postorder tree [] []
  have same : some [tree] = some [other] := by rw [← built tree, ← built other, h]
  simpa using same

end Arithmetic

namespace Postfix

open Token (tally)

variable {tokens before rest : List Token} {token : Token} {stack stack' : List Float} {x : Float}

/-- The stack holds the values of trees, and what has been run is their postorder. -/
theorem Reaches.exists_trees (h : Reaches [] tokens stack rest) :
    ∃ trees : List Arithmetic, (∀ tree ∈ trees, tree.Defined) ∧
      trees.map Arithmetic.outcome = stack ∧
        tokens = trees.reverse.flatMap Arithmetic.postorder ++ rest := by
  induction h with
  | start => exact ⟨[], nofun, rfl, rfl⟩
  | @operand st x rest _ ih =>
    obtain ⟨trees, hdefined, rfl, htokens⟩ := ih
    refine ⟨.number x :: trees, List.forall_mem_cons.mpr ⟨trivial, hdefined⟩, rfl, ?_⟩
    simpa [Arithmetic.postorder] using htokens
  | @operator left right below op rest x _ hx ih =>
    obtain ⟨trees, hdefined, hstack, htokens⟩ := ih
    obtain ⟨r, others, rfl, rfl, hothers⟩ := List.map_eq_cons_iff.mp hstack
    obtain ⟨l, trees, rfl, rfl, rfl⟩ := List.map_eq_cons_iff.mp hothers
    obtain ⟨hadmits, rfl⟩ := Operator.combine_eq_ok_iff.mp hx
    obtain ⟨hr, hdefined⟩ := List.forall_mem_cons.mp hdefined
    obtain ⟨hl, hdefined⟩ := List.forall_mem_cons.mp hdefined
    refine ⟨.operation op l r :: trees,
      List.forall_mem_cons.mpr ⟨⟨hl, hr, hadmits⟩, hdefined⟩, rfl, ?_⟩
    simpa [Arithmetic.postorder] using htokens

theorem value_eq_ok_iff :
    (value tokens).result = .ok x ↔
      ∃ tree : Arithmetic, tree.postorder = tokens ∧ tree.Defined ∧ tree.outcome = x := by
  constructor
  · intro h
    have last : Reaches [] tokens [x] [] := Reaches.start.of_ok h
    obtain ⟨trees, hdefined, hstack, rfl⟩ := last.exists_trees
    obtain ⟨tree, rfl, rfl⟩ := List.map_eq_singleton_iff.mp hstack
    exact ⟨tree, by simp, hdefined tree (List.mem_singleton_self tree), rfl⟩
  · rintro ⟨tree, rfl, hdefined⟩
    rw [Arithmetic.value_postorder, Arithmetic.value_eq_ok_iff]
    exact ⟨hdefined.1, hdefined.2⟩

/-- No operation that a run comes to fails. -/
def Sound (tokens : List Token) : Prop :=
  ∀ ⦃right left below op rest⦄, Reaches [] tokens (right :: left :: below) (.operator op :: rest) →
    op.Admits left right

/-- If an operation fails, then the whole run fails for the same reason. -/
theorem sound_of_error {e : Failure} (h : (value tokens).result = .error e)
    (he : e.cause ≠ .divisionByZero ∧ e.cause ≠ .overflow) : Sound tokens := by
  intro right left below op rest hr
  have result := hr.result_eq
  rw [result_run_operator] at result
  cases hc : op.combine left right with
  | ok x => exact (Operator.combine_eq_ok_iff.mp hc).1
  | error e' =>
    rw [hc] at result
    obtain rfl : e = e' := Except.error.inj (h.symm.trans result)
    rcases Operator.cause_of_combine hc with hz | ho
    · exact absurd hz he.1
    · exact absurd ho he.2

/-- Behind these tokens this many values are on the stack, and behind none of them it was empty. -/
structure Counted (before : List Token) (stack : List Float) : Prop where
  height : stack.length + tally .operator before = tally .operand before
  full : ∀ start, start ≠ [] → start <+: before → tally .operator start < tally .operand start

theorem Counted.concat (h : Counted before stack) (hne : stack' ≠ [])
    (height : stack'.length + tally .operator (before ++ [token]) =
      tally .operand (before ++ [token])) : Counted (before ++ [token]) stack' := by
  refine ⟨height, ?_⟩
  intro start hstart hprefix
  rcases List.prefix_concat_iff.mp hprefix with rfl | hprefix
  · have := List.length_pos_iff.mpr hne
    omega
  · exact h.full start hstart hprefix

theorem Reaches.exists_counted (h : Reaches [] tokens stack rest) :
    ∃ before, tokens = before ++ rest ∧ Counted before stack := by
  induction h with
  | start => exact ⟨[], rfl, rfl, fun start hstart hp => absurd (List.prefix_nil.mp hp) hstart⟩
  | @operand st x rest _ ih =>
    obtain ⟨before, rfl, hcounted⟩ := ih
    refine ⟨before ++ [.operand x], by simp, hcounted.concat (List.cons_ne_nil _ _) ?_⟩
    have := hcounted.height
    simp [Token.kind]
    omega
  | @operator left right below op rest x _ _ ih =>
    obtain ⟨before, rfl, hcounted⟩ := ih
    refine ⟨before ++ [.operator op], by simp, hcounted.concat (List.cons_ne_nil _ _) ?_⟩
    have := hcounted.height
    simp [Token.kind] at this ⊢
    omega

/-- A run that cannot go on: nothing is left, or an operator that finds too few values. -/
def Halted (stack : List Float) (rest : List Token) : Prop :=
  rest = [] ∨ ∃ op after, rest = .operator op :: after ∧ stack.length < 2

/-- On operands and operators a run stops nowhere else. -/
theorem Reaches.exists_halted (h : Reaches [] tokens stack rest) (hs : Sound tokens)
    (ht : ∀ token ∈ rest, token.kind = .operand ∨ token.kind = .operator) :
    ∃ stack' rest', Reaches [] tokens stack' rest' ∧ Halted stack' rest' := by
  induction rest generalizing stack with
  | nil => exact ⟨stack, [], h, Or.inl rfl⟩
  | cons token rest ih =>
    obtain ⟨hkind, hrest⟩ := List.forall_mem_cons.mp ht
    cases token with
    | operand x => exact ih h.operand hrest
    | operator op =>
      rcases stack with _ | ⟨right, _ | ⟨left, below⟩⟩
      · exact ⟨[], _, h, Or.inr ⟨op, rest, rfl, Nat.zero_lt_two⟩⟩
      · exact ⟨[right], _, h, Or.inr ⟨op, rest, rfl, Nat.one_lt_two⟩⟩
      · exact ih (h.operator (Operator.combine_eq_ok_iff.mpr ⟨hs h, rfl⟩)) hrest
    | leftParen | rightParen | call => simp [Token.kind] at hkind

/-- Nothing to run, or a beginning with no more operands than operators. -/
def Short (tokens : List Token) : Prop :=
  tokens = [] ∨ ∃ before, before ≠ [] ∧ before <+: tokens ∧
    tally .operand before ≤ tally .operator before

theorem Counted.short_iff (h : Counted tokens stack) : Short tokens ↔ stack = [] := by
  have height := h.height
  constructor
  · rintro (rfl | ⟨before, hne, hprefix, hle⟩)
    · simpa using height
    · exact absurd (h.full before hne hprefix) (Nat.not_lt_of_le hle)
  · rintro rfl
    by_contra hn
    obtain ⟨hne, hbefore⟩ := not_or.mp hn
    exact hbefore ⟨tokens, hne, List.prefix_refl tokens, by simp at height; omega⟩

/-- How a run ends in which no operation fails. -/
theorem ends_of_sound (hs : Sound tokens)
    (ht : ∀ token ∈ tokens, token.kind = .operand ∨ token.kind = .operator) :
    (Short tokens ∧ (value tokens).result = .error (.of .stackUnderflow)) ∨
      (¬ Short tokens ∧ tally .operator tokens + 1 < tally .operand tokens ∧
        (value tokens).result = .error (.of .leftoverOperands)) ∨
      (¬ Short tokens ∧ tally .operator tokens + 1 = tally .operand tokens ∧
        ∃ x, (value tokens).result = .ok x) := by
  obtain ⟨stack, rest, hr, hhalted⟩ := Reaches.start.exists_halted hs ht
  obtain ⟨before, rfl, hcounted⟩ := hr.exists_counted
  have result : (value (before ++ rest)).result = (run stack rest).result := hr.result_eq
  rw [result]
  have height := hcounted.height
  rcases hhalted with rfl | ⟨op, after, rfl, hl⟩
  · rw [List.append_nil, hcounted.short_iff]
    rcases stack with _ | ⟨x, _ | ⟨y, below⟩⟩
    · exact Or.inl ⟨rfl, rfl⟩
    · refine Or.inr (Or.inr ⟨List.cons_ne_nil _ _, ?_, x, rfl⟩)
      simp at height
      omega
    · refine Or.inr (Or.inl ⟨List.cons_ne_nil _ _, ?_, rfl⟩)
      simp at height
      omega
  · refine Or.inl ⟨Or.inr ⟨before ++ [.operator op], by simp, by simp, ?_⟩, ?_⟩
    · simp [Token.kind]
      omega
    · rcases stack with _ | ⟨x, _ | ⟨y, below⟩⟩
      · rfl
      · rfl
      · simp at hl

/-- A sequence has a value just when it is the postorder of a tree, of this one only, in which every
operation has a result. Where no operation fails, operands and operators run short, or operands are
left over, just as their numbers say. -/
theorem value_determined (tokens : List Token) :
    (∀ x, (value tokens).result = .ok x ↔
      ∃ tree : Arithmetic, tree.postorder = tokens ∧ tree.Defined ∧ tree.outcome = x ∧
        ∀ other : Arithmetic, other.postorder = tokens → other = tree) ∧
      ((∀ token ∈ tokens, token.kind = .operand ∨ token.kind = .operator) → Sound tokens →
        ((value tokens).result = .error (.of .stackUnderflow) ↔ Short tokens) ∧
          ((value tokens).result = .error (.of .leftoverOperands) ↔
            ¬ Short tokens ∧ tally .operator tokens + 1 < tally .operand tokens)) := by
  refine ⟨fun x => ?_, fun ht hs => ?_⟩
  · rw [value_eq_ok_iff]
    constructor
    · rintro ⟨tree, rfl, hdefined, hx⟩
      exact ⟨tree, rfl, hdefined, hx, fun other h => Arithmetic.postorder_injective h⟩
    · rintro ⟨tree, hpost, hdefined, hx, -⟩
      exact ⟨tree, hpost, hdefined, hx⟩
  · obtain ⟨hshort, hresult⟩ | ⟨hshort, hless, hresult⟩ | ⟨hshort, hequal, x, hresult⟩ :=
      ends_of_sound hs ht
    · simp [hresult, hshort, Failure.of]
    · simp [hresult, hshort, hless, Failure.of]
    · simp [hresult, hshort, ← hequal]

theorem value_determined_of_unmatched :
    let short : List Token := [.operand 1.0, .operand 2.0, .operator .add, .operator .subtract]
    let long : List Token := [.operand 1.0, .operand 2.0, .operand 3.0, .operator .multiply]
    ((∀ token ∈ short, token.kind = .operand ∨ token.kind = .operator) ∧ Sound short ∧
        Short short) ∧
      (∀ token ∈ long, token.kind = .operand ∨ token.kind = .operator) ∧ Sound long ∧
        ¬ Short long := by
  intro short long
  have termsOfShort : ∀ token ∈ short, token.kind = .operand ∨ token.kind = .operator := by decide
  have termsOfLong : ∀ token ∈ long, token.kind = .operand ∨ token.kind = .operator := by decide
  have failedShort : (fun _ => ()) <$> (value short).result = .error (.of .stackUnderflow) := by
    decide +kernel
  have failedLong : (fun _ => ()) <$> (value long).result = .error (.of .leftoverOperands) := by
    decide +kernel
  have soundShort : Sound short := sound_of_error (map_eq_error_iff.mp failedShort) (by decide)
  have soundLong : Sound long := sound_of_error (map_eq_error_iff.mp failedLong) (by decide)
  obtain ⟨-, ofShort⟩ := value_determined short
  obtain ⟨-, ofLong⟩ := value_determined long
  exact ⟨⟨termsOfShort, soundShort,
      (ofShort termsOfShort soundShort).1.mp (map_eq_error_iff.mp failedShort)⟩,
    termsOfLong, soundLong,
    ((ofLong termsOfLong soundLong).2.mp (map_eq_error_iff.mp failedLong)).1⟩

end Postfix

end Reckoner
