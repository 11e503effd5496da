import Reckoner.Proofs.Evaluation

/-! What can go wrong once a text has been tokenized, whatever the functions of the host do. -/
namespace Reckoner

def arithmeticCauses : List Cause := [.divisionByZero, .overflow]

def callCauses : List Cause := [.unknownFunction, .functionFailed, .nonFiniteResult]

/-- The causes that are left to evaluation. -/
def evaluationCauses : List Cause := arithmeticCauses ++ callCauses

variable {σ α β : Type} {F G : Failure → Prop} {P : α → Prop}

/-- A value with a property, or a failure with another one. -/
inductive Within (F : Failure → Prop) (P : α → Prop) : Except Failure α → Prop
  | ok {a} : P a → Within F P (.ok a)
  | error {failure} : F failure → Within F P (.error failure)

theorem Within.mono {x : Except Failure α} (h : Within F P x) (hF : ∀ e, F e → G e) :
    Within G P x := by
  cases h with
  | ok h => exact .ok h
  | error h => exact .error (hF _ h)

theorem Within.bind {Q : β → Prop} {x : Except Failure α} {f : α → Except Failure β}
    (hx : Within F P x) (hf : ∀ a, P a → Within F Q (f a)) : Within F Q (x >>= f) := by
  cases hx with
  | ok h => exact hf _ h
  | error h => exact .error h

theorem Operator.reduce_within (op : Operator) (left right : Float) :
    Within (fun e => e.cause ∈ arithmeticCauses) (fun _ => True) (op.reduce left right) := by
  rw [reduce]
  split
  · exact .error (by simp [arithmeticCauses])
  · split
    · exact .ok trivial
    · exact .error (by simp [arithmeticCauses])

theorem Arithmetic.value_within (tree : Arithmetic) :
    Within (fun e => e.cause ∈ arithmeticCauses) (fun _ => True) tree.value := by
  induction tree with
  | number => exact .ok trivial
  | operation op left right ihl ihr =>
    refine ihl.bind ?_
    intro x _
    refine ihr.bind ?_
    intro y _
    exact op.reduce_within x y

namespace Run

variable {x : Run σ α} {Q : β → Prop}

theorem Yields.bind_within {f : α → Run σ β} (hx : x.Yields (Within F P))
    (hf : ∀ a, P a → (f a).Yields (Within F Q)) : (x >>= f).Yields (Within F Q) := by
  refine Yields.bind hx ?_ ?_
  · rintro failure ⟨⟩
    exact .error ‹_›
  · rintro a ⟨⟩
    exact hf a ‹_›

theorem mapM_within {xs : List β} {f : β → Run σ α} (h : ∀ b ∈ xs, (f b).Yields (Within F P)) :
    (xs.mapM f).Yields (Within F fun _ => True) := by
  induction xs with
  | nil => exact yields_pure (.ok trivial)
  | cons b xs ih =>
    obtain ⟨hb, hs⟩ := List.forall_mem_cons.mp h
    rw [List.mapM_cons]
    refine hb.bind_within ?_
    intro a _
    refine (ih hs).bind_within ?_
    intro as _
    exact yields_pure (.ok trivial)

def FailsOnly (F : Failure → Prop) (x : Run σ α) : Prop :=
  ∀ s e, (x s).1.result = .error e → F e

theorem Yields.failsOnly (h : x.Yields (Within F P)) : x.FailsOnly F := by
  intro s e he
  have hs := h s
  rw [he] at hs
  cases hs with
  | error hF => exact hF

/-- Any run fails as it fails. -/
theorem yields_within_self (x : Run σ α) :
    x.Yields (Within (fun e => ∃ s, (x s).1.result = .error e) fun _ => True) := by
  intro s
  rcases h : (x s).1.result with failure | a
  · exact .error ⟨s, h⟩
  · exact .ok trivial

end Run

namespace Registry

variable {r : Registry σ} {levels : Nat} {f : Formula} {tokens : List Token}
  {evaluate : Option (List Token → Run σ Float)} {name : String} {arguments : List (List Token)}

/-- A call fails on its own account, or as one of its arguments does. -/
theorem call_within (evaluate : List Token → Run σ Float) (name : String)
    (arguments : List (List Token)) :
    (r.call (some evaluate) name arguments).Yields
      (Within (fun e => e.cause ∈ callCauses ∨ ∃ argument ∈ arguments, ∃ s,
        (evaluate argument s).1.result = .error e) fun _ => True) := by
  cases hname : r.get? name with
  | none =>
    simp only [call, hname]
    exact Run.yields_fail (.error (Or.inl (by simp [callCauses])))
  | some callable =>
    simp only [call, hname]
    refine Run.Yields.bind_within (Run.mapM_within (P := fun _ => True) fun argument ha => ?_)
      fun values _ => ?_
    · exact (Run.yields_within_self (evaluate argument)).mono fun _ h =>
        h.mono fun e he => Or.inr ⟨argument, ha, he⟩
    refine Run.Yields.emit ?_
    refine Run.Yields.bind_within (P := fun _ => True) (fun s => .ok trivial) ?_
    intro answer _
    cases answer with
    | error message => exact Run.yields_fail (.error (Or.inl (by simp [callCauses])))
    | ok x =>
      by_cases hx : x.isFinite
      · simp only [hx, if_true]
        exact Run.Yields.emit (Run.yields_pure (.ok trivial))
      · simp only [hx, if_false, Bool.false_eq_true]
        exact Run.yields_fail (.error (Or.inl (by simp [callCauses])))

/-- When calls fail only in certain ways, so does resolving the tokens of a tree. The result is an
infix sequence without calls. -/
theorem resolveAll_within (hf : f.Grouped)
    (hcall : ∀ ⦃name arguments⦄, .call name arguments ∈ f.tokens →
      (r.call evaluate name arguments).Yields (Within F fun _ => True)) :
    (r.resolveAll evaluate f.tokens).Yields
      (Within F fun ts => ∃ tree, Infix f.bond ts tree) := by
  induction hf with
  | number => exact Run.yields_pure (.ok ⟨_, .number⟩)
  | @group f _ ih =>
    have inside := ih fun name arguments h =>
      hcall (List.mem_cons_of_mem _ (List.mem_append_left _ h))
    rw [resolveAll_group]
    refine inside.bind_within ?_
    rintro ts ⟨tree, h⟩
    exact Run.yields_pure (.ok ⟨tree, .group h⟩)
  | @operation op left right _ _ hl hr ihl ihr =>
    have before := ihl fun name arguments h => hcall (List.mem_append_left _ h)
    have behind := ihr fun name arguments h =>
      hcall (List.mem_append_right _ (List.mem_cons_of_mem _ h))
    rw [Formula.bond_operation] at hl hr ⊢
    rw [resolveAll_operation]
    refine before.bind_within ?_
    rintro ls ⟨l, hls⟩
    refine behind.bind_within ?_
    rintro rs ⟨r, hrs⟩
    exact Run.yields_pure (.ok ⟨_, .operation hls hrs hl hr⟩)
  | @call name fs _ _ =>
    have hmem : .call name (fs.map Formula.tokens) ∈ (Formula.call name fs).tokens := by
      rw [Formula.tokens_call]
      exact List.mem_cons_self
    rw [resolveAll_call]
    refine (hcall hmem).bind_within ?_
    intro x _
    exact Run.yields_pure (.ok ⟨_, .number⟩)

/-- What evaluates the arguments of calls that may be nested `levels` deep. -/
def inner (r : Registry σ) : (levels : Nat) → Option (List Token → Run σ Float)
  | 0 => none
  | levels + 1 => some (r.valueWithin levels)

theorem postfixWithin_eq : r.postfixWithin levels = r.postfixBy (r.inner levels) := by
  cases levels <;> rfl

/-- A failure of some argument of the calls among the tokens. -/
def ArgumentFails (r : Registry σ) (levels : Nat) (tokens : List Token) (e : Failure) : Prop :=
  ∃ name arguments, .call name arguments ∈ tokens ∧
    ∃ argument ∈ arguments, ∃ s, (r.valueWithin levels argument s).1.result = .error e

variable (r) in
theorem resolveAll_inner_within (hf : f.Grouped) (hw : ∀ token ∈ f.tokens, Writable levels token) :
    (r.resolveAll (r.inner levels) f.tokens).Yields
      (Within (fun e => e.cause ∈ callCauses ∨ r.ArgumentFails (levels - 1) f.tokens e)
        fun ts => ∃ tree, Infix f.bond ts tree) := by
  refine resolveAll_within hf ?_
  intro name arguments hmem
  cases levels with
  | zero => nomatch hw _ hmem
  | succ levels =>
    refine (call_within (r.valueWithin levels) name arguments).mono fun _ h => h.mono ?_
    intro e he
    refine he.imp_right ?_
    rintro ⟨argument, ha, s, hs⟩
    exact ⟨name, arguments, hmem, argument, ha, s, hs⟩

variable (r) in
theorem postfixWithin_within (hf : f.Grouped) (hw : ∀ token ∈ f.tokens, Writable levels token) :
    (r.postfixWithin levels f.tokens).Yields
      (Within (fun e => e.cause ∈ callCauses ∨ r.ArgumentFails (levels - 1) f.tokens e)
        fun ts => ∃ tree : Arithmetic, ts = tree.postorder) := by
  have hn : ¬ f.tokens.isEmpty := by simp [f.tokens_ne_nil]
  rw [postfixWithin_eq, postfixBy, if_neg hn]
  refine (resolveAll_inner_within r hf hw).bind_within ?_
  intro ts hts
  obtain ⟨tree, h⟩ := hts
  rw [Postfix.ofInfix_infix h]
  exact Run.yields_pure (.ok ⟨tree, rfl⟩)

theorem callCauses_subset {cause : Cause} (h : cause ∈ callCauses) : cause ∈ evaluationCauses :=
  List.mem_append_right _ h

theorem valueWithin_within (hf : f.Grouped) (hw : ∀ token ∈ f.tokens, Writable levels token)
    (ha : ∀ e, r.ArgumentFails (levels - 1) f.tokens e → e.cause ∈ evaluationCauses) :
    (r.valueWithin levels f.tokens).Yields
      (Within (fun e => e.cause ∈ evaluationCauses) fun _ => True) := by
  rw [valueWithin_eq]
  refine Run.Yields.bind_within (P := fun ts => ∃ tree : Arithmetic, ts = tree.postorder)
    ((postfixWithin_within r hf hw).mono fun _ h => h.mono fun e he => ?_) fun ts hts => ?_
  · exact he.elim callCauses_subset (ha e)
  · obtain ⟨tree, rfl⟩ := hts
    refine Run.yields_lift ?_
    rw [tree.value_postorder]
    exact tree.value_within.mono fun e he => List.mem_append_left _ he

theorem exists_formula (h : Writable (levels + 1) (.call name arguments))
    {argument : List Token} (ha : argument ∈ arguments) :
    ∃ f : Formula, f.Grouped ∧ f.tokens = argument ∧ ∀ token ∈ f.tokens, Writable levels token := by
  cases h with
  | call _ hk hw =>
    obtain ⟨f, hf, rfl⟩ := Formula.exists_of_writable_expression (hk argument ha) (hw argument ha)
    exact ⟨f, hf, rfl, hw f.tokens ha⟩

/-- Arguments fail for the causes left to evaluation, at every depth of nesting. -/
theorem argumentFails_cause (r : Registry σ) (levels : Nat) {tokens : List Token} {e : Failure}
    (hw : ∀ token ∈ tokens, Writable levels token) (h : r.ArgumentFails (levels - 1) tokens e) :
    e.cause ∈ evaluationCauses := by
  obtain ⟨name, arguments, hmem, argument, ha, s, he⟩ := h
  induction levels generalizing tokens name arguments argument s e with
  | zero => nomatch hw _ hmem
  | succ levels ih =>
    obtain ⟨f, hf, rfl, hinner⟩ := exists_formula (hw _ hmem) ha
    refine (valueWithin_within hf hinner fun e he => ?_).failsOnly s e he
    obtain ⟨name, arguments, hmem, argument, ha, s, he⟩ := he
    exact ih hinner name arguments hmem argument ha s he

/-- The sequences that are evaluated on their own: all tokens, and every argument, at the depth of
its nesting. -/
inductive Nested (tokens : List Token) : (depth : Nat) → List Token → Prop
  | self : Nested tokens 0 tokens
  | argument {depth outer name arguments argument} : Nested tokens depth outer →
      .call name arguments ∈ outer → argument ∈ arguments → Nested tokens (depth + 1) argument

theorem Nested.exists_formula {depth : Nat} {inner : List Token} (h : Nested tokens depth inner)
    (hk : Grammar.Expression (tokens.map Token.kind))
    (hw : ∀ token ∈ tokens, Writable nestingLimit token) :
    ∃ f : Formula, f.Grouped ∧ f.tokens = inner ∧
      ∀ token ∈ f.tokens, Writable (nestingLimit - depth) token := by
  induction h with
  | self =>
    obtain ⟨f, hf, rfl⟩ := Formula.exists_of_writable_expression hk hw
    exact ⟨f, hf, rfl, hw⟩
  | @argument depth outer name arguments argument _ hmem ha ih =>
    obtain ⟨f, _, rfl, hinner⟩ := ih
    have hcall := hinner _ hmem
    rcases hl : nestingLimit - depth with _ | levels
    · rw [hl] at hcall
      cases hcall
    · rw [hl] at hcall
      obtain rfl : nestingLimit - (depth + 1) = levels := by omega
      exact Registry.exists_formula hcall ha

/-- How the stages of an evaluation can fail: resolving only for the causes left to evaluation,
reordering what has been resolved not at all, and computing the outcome only as arithmetic does. -/
structure Stages (r : Registry σ) (levels : Nat) (tokens : List Token) : Prop where
  resolving : (r.resolveAll (r.inner levels) tokens).FailsOnly fun e => e.cause ∈ evaluationCauses
  reordering : ∀ s ts, (r.resolveAll (r.inner levels) tokens s).1.result = .ok ts →
    ∃ ps, Postfix.ofInfix ts = .ok ps ∧
      ∀ e, (Postfix.value ps).result = .error e → e.cause ∈ arithmeticCauses
  evaluating : (r.valueWithin levels tokens).FailsOnly fun e => e.cause ∈ evaluationCauses

theorem stages (r : Registry σ) (hf : f.Grouped)
    (hw : ∀ token ∈ f.tokens, Writable levels token) : r.Stages levels f.tokens := by
  have resolved := resolveAll_inner_within r hf hw
  have arguments := fun e => @argumentFails_cause σ r levels f.tokens e hw
  refine ⟨fun s e he => ?_, fun s ts hts => ?_, (valueWithin_within hf hw arguments).failsOnly⟩
  · exact (resolved.failsOnly s e he).elim callCauses_subset (arguments e)
  · have h := resolved s
    rw [hts] at h
    cases h with
    | ok h =>
      obtain ⟨tree, hinfix⟩ := h
      refine ⟨tree.postorder, Postfix.ofInfix_infix hinfix, ?_⟩
      intro e he
      rw [tree.value_postorder] at he
      have within := tree.value_within
      rw [he] at within
      cases within with
      | error h => exact h

/-- What a text is tokenized to can fail in evaluation only for the causes left to it: no stage runs
into a cause that tokenizing has excluded, in the tokens or in any argument nested in them. Putting
a text into postfix order fails as a call does, or as some argument does in arithmetic. -/
theorem evaluation_causes (r : Registry σ) {text : String} {tokens : List Token}
    (ht : (tokenizeExpression text).result = .ok tokens) :
    ((r.evaluateTokens tokens).FailsOnly fun e => e.cause ∈ evaluationCauses) ∧
      ((r.evaluate text).FailsOnly fun e => e.cause ∈ evaluationCauses) ∧
      ((r.toPostfix text).FailsOnly fun e => e.cause ∈ callCauses ∨
        (e.cause ∈ arithmeticCauses ∧ r.ArgumentFails (nestingLimit - 1) tokens e)) ∧
      ∀ depth inner, Nested tokens depth inner → r.Stages (nestingLimit - depth) inner := by
  have expression := Scan.tokenizeExpression_eq_ok_iff.mp ht
  have writable : ∀ token ∈ tokens, Writable nestingLimit token := expression.writable
  have stages_of {depth inner} (h : Nested tokens depth inner) :
      r.Stages (nestingLimit - depth) inner := by
    obtain ⟨f, hf, rfl, hw⟩ := h.exists_formula expression.kinds writable
    exact stages r hf hw
  have evaluating := (stages_of .self).evaluating
  refine ⟨evaluating, fun s e he => ?_, fun s e he => ?_, fun depth inner => stages_of⟩
  · rw [result_evaluate ht] at he
    exact evaluating s e he
  · rw [result_toPostfix ht] at he
    obtain ⟨f, hf, rfl⟩ := Formula.exists_of_writable_expression expression.kinds writable
    rcases (postfixWithin_within r hf writable).failsOnly s e he with h | h
    · exact Or.inl h
    · rcases List.mem_append.mp (argumentFails_cause r nestingLimit writable h) with hc | hc
      · exact Or.inr ⟨hc, h⟩
      · exact Or.inl hc

theorem evaluation_causes_of_quotient :
    ((((empty : Registry Unit).register "f" fun values s => (.ok (values.headD 0), s)).evaluate
        "f(1 / 0) + 2").FailsOnly fun e => e.cause ∈ evaluationCauses) ∧
      ((empty : Registry Unit).register "f" fun values s => (.ok (values.headD 0), s)).Stages 63
        [.operand 1.0, .operator .divide, .operand 0.0] := by
  have zero {levels : Nat} : Writable levels (.operand 0.0) :=
    .operand (by decide +kernel) (by decide +kernel)
  have one {levels : Nat} : Writable levels (.operand 1.0) :=
    .operand (by decide +kernel) (by decide +kernel)
  have two {levels : Nat} : Writable levels (.operand 2.0) :=
    .operand (by decide +kernel) (by decide +kernel)
  have call : Writable 64 (.call "f" [[.operand 1.0, .operator .divide, .operand 0.0]]) := by
    refine .call (by decide) (by decide) ?_
    simp [zero, one, Writable.operator]
  have wellFormed : WellFormed [.call "f" [[.operand 1.0, .operator .divide, .operand 0.0]],
      .operator .add, .operand 2.0] := by
    refine ⟨by decide, ?_⟩
    simp [nestingLimit, call, two, Writable.operator]
  have written : render [.call "f" [[.operand 1.0, .operator .divide, .operand 0.0]],
      .operator .add, .operand 2.0] = "f(1 / 0) + 2" := by
    decide +kernel
  have tokenized := wellFormed.tokenize
  rw [written] at tokenized
  have causes := evaluation_causes
    ((empty : Registry Unit).register "f" fun values s => (.ok (values.headD 0), s))
    (Scan.tokenizeExpression_of_tokenize tokenized (by simp))
  refine ⟨causes.2.1, causes.2.2.2 1 _ ?_⟩
  exact .argument .self List.mem_cons_self List.mem_cons_self

end Registry

end Reckoner
