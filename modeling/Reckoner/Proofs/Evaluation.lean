import Reckoner.Evaluation
import Reckoner.Proofs.Arithmetic
import Reckoner.Proofs.Formula
import Reckoner.Proofs.Run

/-! Evaluation computes the value of the expression tree. -/
namespace Reckoner

/-- Functions of the host that look at their arguments only, by name. -/
abbrev Functions := String → Option (List Float → Except String Float)

namespace Formula

/-- A function may say why it has no value. A value must be finite. -/
def answer (name : String) : Except String Float → Except Failure Float
  | .error message =>
    .error { cause := .functionFailed, token := some name, detail := some message }
  | .ok x =>
    if x.isFinite then .ok x else .error { cause := .nonFiniteResult, token := some name }

mutual

/-- Every call of a tree is replaced by its value, from left to right. The name is looked up before
the arguments are computed. -/
def resolve (functions : Functions) : Formula → Except Failure Arithmetic
  | number x => .ok (.number x)
  | group f => f.resolve functions
  | operation op left right => do
    let l ← left.resolve functions
    let r ← right.resolve functions
    .ok (.operation op l r)
  | call name arguments =>
    match functions name with
    | none => .error { cause := .unknownFunction, token := some name }
    | some f => do
      let values ← valuesOfArguments functions arguments
      let x ← answer name (f values)
      .ok (.number x)

def valuesOfArguments (functions : Functions) : List Formula → Except Failure (List Float)
  | [] => .ok []
  | f :: fs => do
    let tree ← f.resolve functions
    let x ← tree.value
    let xs ← valuesOfArguments functions fs
    .ok (x :: xs)

end

/-- The tree is computed once all its calls have succeeded. -/
def value (functions : Functions) (f : Formula) : Except Failure Float := do
  let tree ← f.resolve functions
  tree.value

theorem valuesOfArguments_eq_mapM (functions : Functions) (fs : List Formula) :
    valuesOfArguments functions fs = fs.mapM (value functions) := by
  induction fs with
  | nil => rfl
  | cons f fs ih =>
    rw [valuesOfArguments, ih, List.mapM_cons, value]
    exact (bind_assoc ..).symm

end Formula

namespace Registry

variable {σ : Type} {r : Registry σ} {functions : Functions} {levels : Nat} {f : Formula}
  {evaluate : Option (List Token → Run σ Float)} {name : String} {fs : List Formula}

/-- The registry holds these functions. What they do to the state is left open. -/
def Serves (r : Registry σ) (functions : Functions) : Prop :=
  ∀ name, Option.Rel (fun callable f => ∀ values s, (callable values s).1 = f values)
    (r.get? name) (functions name)

theorem serves_empty : (empty : Registry σ).Serves fun _ => none := by
  intro name
  rw [get?_empty]
  exact .none

theorem Serves.register (hr : r.Serves functions) (name : String)
    (f : List Float → Except String Float) :
    (r.register name (Callable.ofFunction f)).Serves fun other =>
      if name = other then some f else functions other := by
  intro other
  rw [get?_register]
  by_cases h : name = other
  · simp only [if_pos h]
    exact .some fun _ _ => rfl
  · simp only [if_neg h]
    exact hr other

section Resolution

variable (r) (evaluate)

/-- The tokens of a tree, with every call replaced by the operand that holds its value. -/
def resolveAll (tokens : List Token) : Run σ (List Token) := tokens.mapM (r.resolve evaluate)

theorem resolveAll_group (f : Formula) :
    r.resolveAll evaluate (Formula.group f).tokens = (do
      let ts ← r.resolveAll evaluate f.tokens
      pure (.leftParen :: (ts ++ [.rightParen]))) := by
  simp [resolveAll, Formula.tokens, resolve]

theorem resolveAll_operation (op : Operator) (left right : Formula) :
    r.resolveAll evaluate (Formula.operation op left right).tokens = (do
      let ls ← r.resolveAll evaluate left.tokens
      let rs ← r.resolveAll evaluate right.tokens
      pure (ls ++ .operator op :: rs)) := by
  simp [resolveAll, Formula.tokens, resolve]

theorem resolveAll_call (name : String) (fs : List Formula) :
    r.resolveAll evaluate (Formula.call name fs).tokens = (do
      let x ← r.call evaluate name (fs.map Formula.tokens)
      pure [.operand x]) := by
  simp [resolveAll, Formula.tokens_call, resolve]

end Resolution

section Refinement

/-- The calls among writable tokens have the values that they have in a tree. -/
def Answers (r : Registry σ) (functions : Functions)
    (evaluate : Option (List Token → Run σ Float)) (levels : Nat) : Prop :=
  ∀ ⦃name fs⦄, (∀ f ∈ fs, f.Grouped) → Writable levels (.call name (fs.map Formula.tokens)) →
    (r.call evaluate name (fs.map Formula.tokens)).Refines (fun x tree => tree = .number x)
      ((Formula.call name fs).resolve functions)

/-- Resolving the tokens of a tree gives an infix sequence of the resolved tree. -/
theorem resolveAll_refines (hr : r.Answers functions evaluate levels) (hf : f.Grouped)
    (hw : ∀ token ∈ f.tokens, Writable levels token) :
    (r.resolveAll evaluate f.tokens).Refines (Infix f.bond) (f.resolve functions) := by
  induction hf with
  | number => exact Run.refines_pure .number
  | @group f _ ih =>
    have hinner := (List.forall_mem_append.mp (List.forall_mem_cons.mp hw).2).1
    rw [resolveAll_group, Formula.resolve, ← bind_pure (f.resolve functions)]
    refine (ih hinner).bind ?_
    intro ts tree h
    exact Run.refines_pure (.group h)
  | @operation op left right _ _ hl hr' ihl ihr =>
    obtain ⟨hleft, htail⟩ := List.forall_mem_append.mp hw
    rw [Formula.bond_operation] at hl hr' ⊢
    rw [resolveAll_operation, Formula.resolve]
    refine (ihl hleft).bind ?_
    intro ls l hls
    refine (ihr (List.forall_mem_cons.mp htail).2).bind ?_
    intro rs r hrs
    exact Run.refines_pure (.operation hls hrs hl hr')
  | @call name fs hfs _ =>
    rw [Formula.tokens_call] at hw
    rw [resolveAll_call, ← bind_pure ((Formula.call name fs).resolve functions)]
    refine (hr hfs (hw _ List.mem_cons_self)).bind ?_
    intro x tree h
    subst h
    exact Run.refines_pure .number

theorem postfixBy_refines (hr : r.Answers functions evaluate levels) (hf : f.Grouped)
    (hw : ∀ token ∈ f.tokens, Writable levels token) :
    (r.postfixBy evaluate f.tokens).Refines (fun ts tree => ts = tree.postorder)
      (f.resolve functions) := by
  have hn : ¬ f.tokens.isEmpty := by simp [f.tokens_ne_nil]
  rw [postfixBy, if_neg hn, ← bind_pure (f.resolve functions)]
  refine (resolveAll_refines hr hf hw).bind ?_
  intro ts tree h
  rw [Postfix.ofInfix_infix h]
  exact Run.refines_pure rfl

theorem value_refines (hr : r.Answers functions evaluate levels) (hf : f.Grouped)
    (hw : ∀ token ∈ f.tokens, Writable levels token) :
    (do
      let postfixed ← r.postfixBy evaluate f.tokens
      Postfix.value postfixed : Run σ Float).Refines Eq (f.value functions) := by
  rw [Formula.value]
  refine (postfixBy_refines hr hf hw).bind ?_
  intro ts tree h
  subst h
  exact Run.yields_lift (alike_eq_iff.mpr tree.value_postorder)

theorem call_refines {evaluate : List Token → Run σ Float} (hr : r.Serves functions)
    (h : ∀ f ∈ fs, (evaluate f.tokens).Refines Eq (f.value functions)) :
    (r.call (some evaluate) name (fs.map Formula.tokens)).Refines (fun x tree => tree = .number x)
      ((Formula.call name fs).resolve functions) := by
  have hname := hr name
  rw [Formula.resolve]
  simp only [call]
  generalize r.get? name = callable at hname
  generalize functions name = f at hname
  cases hname with
  | none => exact Run.refines_fail
  | @some callable f hcallable =>
    have hvalues : ((fs.map Formula.tokens).mapM evaluate).Refines (List.Forall₂ Eq)
        (fs.mapM (Formula.value functions)) :=
      Run.refines_mapM (List.forall₂_map_left_iff.mpr (List.forall₂_same.mpr h))
    rw [Formula.valuesOfArguments_eq_mapM]
    refine hvalues.bind ?_
    intro values values' heq
    rw [List.forall₂_eq_eq_eq] at heq
    subst heq
    refine Run.Refines.emit ?_
    have hinvoke : (Run.invoke callable values).Refines Eq (.ok (f values)) :=
      fun s => alike_eq_iff.mpr (congrArg Except.ok (hcallable values s))
    let accept (answer : Except String Float) : Except Failure Arithmetic := do
      let x ← Formula.answer name answer
      .ok (.number x)
    refine Run.Refines.bind (g := accept) hinvoke ?_
    intro answer _ heq
    subst heq
    cases answer with
    | error message => exact Run.refines_fail
    | ok x =>
      by_cases hx : x.isFinite
      · simp only [accept, Formula.answer, hx, if_true]
        exact Run.Refines.emit (Run.refines_pure rfl)
      · simp only [accept, Formula.answer, hx, if_false, Bool.false_eq_true]
        exact Run.refines_fail

theorem valueWithin_refines (hr : r.Serves functions) (levels : Nat) (hf : f.Grouped)
    (hw : ∀ token ∈ f.tokens, Writable levels token) :
    (r.valueWithin levels f.tokens).Refines Eq (f.value functions) := by
  induction levels generalizing f with
  | zero =>
    rw [valueWithin]
    refine value_refines (fun name fs hfs h => ?_) hf hw
    cases h
  | succ levels ih =>
    rw [valueWithin]
    refine value_refines (fun name fs hfs h => ?_) hf hw
    cases h with
    | call _ _ hinner =>
      refine call_refines hr fun g hg => ih (hfs g hg) ?_
      exact hinner g.tokens (List.mem_map_of_mem hg)

end Refinement

theorem result_evaluate {text : String} {tokens : List Token}
    (ht : (tokenizeExpression text).result = .ok tokens) (s : σ) :
    (r.evaluate text s).1.result = (r.evaluateTokens tokens s).1.result := by
  rw [evaluate, Run.result_lift_bind ht]
  rcases h : r.evaluateTokens tokens s with ⟨⟨records, failure | x⟩, t⟩
  · rw [Run.bind_error h]
  · rw [Run.bind_ok h]
    rfl

theorem state_evaluate {text : String} {tokens : List Token}
    (ht : (tokenizeExpression text).result = .ok tokens) (s : σ) :
    (r.evaluate text s).2 = (r.evaluateTokens tokens s).2 := by
  rw [evaluate, Run.state_lift_bind ht]
  rcases h : r.evaluateTokens tokens s with ⟨⟨records, failure | x⟩, t⟩
  · rw [Run.bind_error h]
  · rw [Run.bind_ok h]
    rfl

theorem result_toPostfix {text : String} {tokens : List Token}
    (ht : (tokenizeExpression text).result = .ok tokens) (s : σ) :
    (r.toPostfix text s).1.result = (r.postfixWithin nestingLimit tokens s).1.result :=
  Run.result_lift_bind ht s

theorem result_toPostfix_value {text : String} {tokens : List Token}
    (ht : (tokenizeExpression text).result = .ok tokens) (s : σ) :
    ((do let postfixed ← r.toPostfix text; Postfix.value postfixed : Run σ Float) s).1.result =
      (r.evaluateTokens tokens s).1.result := by
  rw [toPostfix, bind_assoc, Run.result_lift_bind ht, evaluateTokens, valueWithin_eq]

/-- The tokens of a text are the yield of one expression tree only, and all ways to evaluate the
text compute the value of that tree or fail as it does. -/
theorem evaluate_eq_value (hr : r.Serves functions) {text : String} {tokens : List Token}
    (ht : (tokenize text).result = .ok tokens) (hn : tokens ≠ []) :
    ∃ f : Formula, f.Grouped ∧ f.tokens = tokens ∧
      (∀ g : Formula, g.Grouped → g.tokens = tokens → g = f) ∧
      ∀ s, (r.evaluate text s).1.result = f.value functions ∧
        (r.evaluateTokens tokens s).1.result = f.value functions ∧
        ((do let postfixed ← r.toPostfix text; Postfix.value postfixed : Run σ Float) s).1.result =
          f.value functions := by
  have wellFormed := wellFormed_of_tokenize ht
  obtain ⟨f, hf, rfl⟩ := Formula.exists_of_writable_expression
    (wellFormed.shape.resolve_left hn) wellFormed.writable
  refine ⟨f, hf, rfl, fun g hg h => hg.tokens_injective hf h, ?_⟩
  intro s
  have hvalue : (r.evaluateTokens f.tokens s).1.result = f.value functions :=
    alike_eq_iff.mp (valueWithin_refines hr nestingLimit hf wellFormed.writable s)
  have hexpression := Scan.tokenizeExpression_of_tokenize ht hn
  refine ⟨?_, hvalue, ?_⟩
  · rw [result_evaluate hexpression, hvalue]
  · rw [result_toPostfix_value hexpression, hvalue]

theorem evaluate_difference_of_call :
    ((((empty : Registry Unit).register "half"
        (Callable.ofFunction fun values => .ok (values.headD 0 / 2))).evaluate
      "10 - 4 - half(4)") ()).1.result = .ok 4.0 := by
  have ten : Writable 64 (.operand 10.0) := .operand (by decide +kernel) (by decide +kernel)
  have four {levels : Nat} : Writable levels (.operand 4.0) :=
    .operand (by decide +kernel) (by decide +kernel)
  have half : Writable 64 (.call "half" [[.operand 4.0]]) := by
    refine .call (by decide) (by decide) ?_
    simp [four]
  have wellFormed : WellFormed [.operand 10.0, .operator .subtract, .operand 4.0,
      .operator .subtract, .call "half" [[.operand 4.0]]] := by
    refine ⟨by decide, ?_⟩
    simp [nestingLimit, ten, four, half, Writable.operator]
  have written : render [.operand 10.0, .operator .subtract, .operand 4.0,
      .operator .subtract, .call "half" [[.operand 4.0]]] = "10 - 4 - half(4)" := by
    decide +kernel
  have tokenized := wellFormed.tokenize
  rw [written] at tokenized
  obtain ⟨f, -, -, hunique, hvalue⟩ := evaluate_eq_value
    (serves_empty.register "half" fun values => .ok (values.headD 0 / 2)) tokenized (by simp)
  have tree := hunique
    (.operation .subtract (.operation .subtract (.number 10.0) (.number 4.0))
      (.call "half" [.number 4.0]))
    (.operation (.operation .number .number (by decide) (by decide))
      (.call (List.forall_mem_singleton.mpr .number)) (by decide) (by decide)) rfl
  rw [(hvalue ()).1, ← tree]
  rfl

end Registry

end Reckoner
