import Reckoner.Proofs.Failures

/-! The steps of an evaluation in their order. Evaluating a sequence is performing one straight line
of steps, however calls are nested in it. -/
namespace Reckoner

/-- A call, and how many other calls enclose it. -/
structure Site where
  depth : Nat
  name : String
  arguments : List (List Token)

/-- A call is entered before its arguments are computed and invoked behind them. A sequence is
computed behind all its calls. -/
inductive Step
  | enter (site : Site)
  | invoke (site : Site)
  | compute (tokens : List Token)

namespace Step

mutual

def ofToken (depth : Nat) : Token → List Step
  | .call name arguments =>
    .enter ⟨depth, name, arguments⟩ ::
      (ofArguments (depth + 1) arguments ++ [.invoke ⟨depth, name, arguments⟩])
  | _ => []

def ofTokens (depth : Nat) : List Token → List Step
  | [] => []
  | token :: tokens => ofToken depth token ++ ofTokens depth tokens

def ofArguments (depth : Nat) : List (List Token) → List Step
  | [] => []
  | argument :: arguments =>
    ofTokens depth argument ++ .compute argument :: ofArguments depth arguments

end

/-- The steps that evaluate a sequence inside `depth` calls. -/
def ofSequence (depth : Nat) (tokens : List Token) : List Step :=
  ofTokens depth tokens ++ [.compute tokens]

/-- The calls that are invoked, in the order of their invocations. -/
def invoked (steps : List Step) : List Site :=
  steps.filterMap fun | .invoke site => some site | _ => none

/-- What has been done right before a step: the arguments of a call have been computed since it was
entered, or all calls of a sequence have been invoked. -/
def Due (before : List Step) : Step → Prop
  | .enter _ => True
  | .invoke site => .enter site :: ofArguments (site.depth + 1) site.arguments <:+ before
  | .compute tokens => ∃ depth, ofTokens depth tokens <:+ before

/-- Every step is due in its place. -/
def InOrder (steps : List Step) : Prop :=
  ∀ ⦃before step after⦄, steps = before ++ step :: after → Due before step

end Step

namespace Site

mutual

/-- A call behind the calls in its arguments. -/
def ofToken (depth : Nat) : Token → List Site
  | .call name arguments => ofArguments (depth + 1) arguments ++ [⟨depth, name, arguments⟩]
  | _ => []

/-- All calls of a sequence, arguments before their call. -/
def postorder (depth : Nat) : List Token → List Site
  | [] => []
  | token :: tokens => ofToken depth token ++ postorder depth tokens

def ofArguments (depth : Nat) : List (List Token) → List Site
  | [] => []
  | argument :: arguments => postorder depth argument ++ ofArguments depth arguments

end

end Site

namespace Step

variable {depth : Nat} {before before' steps steps' : List Step} {step : Step} {site : Site}
  {xs ys : List Site}

theorem invoked_append : invoked (steps ++ steps') = invoked steps ++ invoked steps' :=
  List.filterMap_append

theorem invoked_enter_cons : invoked (.enter site :: steps) = invoked steps := rfl

theorem exists_of_invoked (h : invoked steps = xs ++ site :: ys) :
    ∃ before after, steps = before ++ .invoke site :: after ∧ invoked before = xs := by
  obtain ⟨before, tail, rfl, hbefore, htail⟩ := List.filterMap_eq_append_iff.mp h
  obtain ⟨gap, step, after, rfl, hgap, hstep, -⟩ := List.filterMap_eq_cons_iff.mp htail
  obtain rfl : step = .invoke site := by
    cases step <;> simp_all
  refine ⟨before ++ gap, after, by simp, ?_⟩
  rw [invoked_append, invoked, invoked, hbefore, List.filterMap_eq_nil_iff.mpr hgap,
    List.append_nil]

mutual

theorem invoked_ofToken (depth : Nat) : (token : Token) →
    invoked (ofToken depth token) = Site.ofToken depth token
  | .call name arguments => by
    rw [Site.ofToken, ← invoked_ofArguments (depth + 1) arguments]
    simp [ofToken, invoked]
  | .operand _ | .operator _ | .leftParen | .rightParen => rfl

theorem invoked_ofTokens (depth : Nat) : (tokens : List Token) →
    invoked (ofTokens depth tokens) = Site.postorder depth tokens
  | [] => rfl
  | token :: tokens => by
    rw [ofTokens, invoked_append, invoked_ofToken depth token, invoked_ofTokens depth tokens,
      Site.postorder]

theorem invoked_ofArguments (depth : Nat) : (arguments : List (List Token)) →
    invoked (ofArguments depth arguments) = Site.ofArguments depth arguments
  | [] => rfl
  | argument :: arguments => by
    rw [ofArguments, invoked_append, invoked_ofTokens depth argument, Site.ofArguments,
      ← invoked_ofArguments depth arguments]
    rfl

end

/-- The functions are invoked in postorder. -/
theorem invoked_ofSequence (depth : Nat) (tokens : List Token) :
    invoked (ofSequence depth tokens) = Site.postorder depth tokens := by
  rw [ofSequence, invoked_append, invoked_ofTokens]
  exact List.append_nil _

theorem Due.append (h : Due before step) (first : List Step) : Due (first ++ before) step := by
  have longer : before <:+ first ++ before := List.suffix_append _ _
  cases step with
  | enter => trivial
  | invoke => exact List.IsSuffix.trans h longer
  | compute =>
    obtain ⟨depth, h⟩ := h
    exact ⟨depth, h.trans longer⟩

theorem InOrder.append (h : InOrder steps) (h' : InOrder steps') : InOrder (steps ++ steps') := by
  intro before step after heq
  obtain ⟨rest, rfl, htail⟩ | ⟨rest, rfl, htail⟩ := List.append_eq_append_iff.mp heq
  · exact (h' htail).append steps
  · cases rest with
    | nil =>
      have first : Due [] step := h' htail.symm
      simpa using first.append before
    | cons next rest =>
      obtain ⟨rfl, rfl⟩ := List.cons.inj htail
      exact h rfl

theorem InOrder.of_append (h : InOrder (steps ++ steps')) : InOrder steps := by
  rintro before step after rfl
  exact h (List.append_assoc ..)

theorem InOrder.concat (h : InOrder steps) (hd : Due steps step) : InOrder (steps ++ [step]) := by
  intro before step' after heq
  rcases List.eq_nil_or_concat after with rfl | ⟨middle, last, rfl⟩
  · obtain ⟨rfl, hlast⟩ := List.append_inj' heq rfl
    obtain rfl := List.singleton_inj.mp hlast
    exact hd
  · rw [List.concat_eq_append, ← List.cons_append, ← List.append_assoc] at heq
    exact h (List.append_inj' heq rfl).1

theorem inOrder_nil : InOrder [] := by
  intro before step after heq
  simp at heq

mutual

theorem inOrder_ofToken (depth : Nat) : (token : Token) → InOrder (ofToken depth token)
  | .call name arguments => by
    have entered : InOrder [.enter ⟨depth, name, arguments⟩] := inOrder_nil.concat trivial
    have inside := entered.append (inOrder_ofArguments (depth + 1) arguments)
    exact inside.concat (List.suffix_refl _)
  | .operand _ | .operator _ | .leftParen | .rightParen => inOrder_nil

theorem inOrder_ofTokens (depth : Nat) : (tokens : List Token) → InOrder (ofTokens depth tokens)
  | [] => inOrder_nil
  | token :: tokens => (inOrder_ofToken depth token).append (inOrder_ofTokens depth tokens)

theorem inOrder_ofArguments (depth : Nat) : (arguments : List (List Token)) →
    InOrder (ofArguments depth arguments)
  | [] => inOrder_nil
  | argument :: arguments => by
    have first : InOrder (ofSequence depth argument) :=
      (inOrder_ofTokens depth argument).concat ⟨depth, List.suffix_refl _⟩
    simpa [ofArguments, ofSequence] using first.append (inOrder_ofArguments depth arguments)

end

theorem inOrder_ofSequence (depth : Nat) (tokens : List Token) :
    InOrder (ofSequence depth tokens) :=
  (inOrder_ofTokens depth tokens).concat ⟨depth, List.suffix_refl _⟩

end Step

namespace Registry

variable {σ : Type} (r : Registry σ)

/-- A function answers. Only a finite value is passed on. -/
def answered (name : String) (f : Callable σ) (values : List Float) : Run σ Float := do
  .emit (.calling name values)
  match ← Run.invoke f values with
  | .error message => .fail { cause := .functionFailed, token := some name, detail := some message }
  | .ok value =>
    if value.isFinite then do
      .emit (.returned name value)
      pure value
    else .fail { cause := .nonFiniteResult, token := some name }

/-- The value of a sequence whose calls have been replaced. -/
def computed (tokens resolved : List Token) : Logged Float :=
  if tokens.isEmpty then .fail (.of .emptyExpression)
  else do
    let postfixed ← .ofExcept (Postfix.ofInfix resolved)
    .emit (.ordered postfixed)
    .emit (.rendered postfixed)
    Postfix.value postfixed

/-- The calls of a sequence, replaced by these values from left to right. -/
def fill : List Token → List Float → List Token
  | .call .. :: tokens, value :: values => .operand value :: fill tokens values
  | token :: tokens, values => token :: fill tokens values
  | [], _ => []

/-- The values of the calls of a sequence. -/
def callValues (evaluate : Option (List Token → Run σ Float)) : List Token → Run σ (List Float)
  | [] => pure []
  | .call name arguments :: tokens => do
    let value ← r.call evaluate name arguments
    let values ← callValues evaluate tokens
    pure (value :: values)
  | _ :: tokens => callValues evaluate tokens

def calls (tokens : List Token) : Nat := tokens.countP fun token => token.kind = .call

/-- Performs a step on a stack of values, the latest last: an invocation takes one value for each
argument, a computation one for each call of its sequence, and both leave the value that they come
to. -/
def perform (stack : List Float) : Step → Run σ (List Float)
  | .enter site =>
    if nestingLimit ≤ site.depth then .fail { cause := .nestingTooDeep, token := some site.name }
    else
      match r.get? site.name with
      | none => .fail { cause := .unknownFunction, token := some site.name }
      | some _ => pure stack
  | .invoke site =>
    match r.get? site.name with
    | none => .fail { cause := .unknownFunction, token := some site.name }
    | some f => do
      let kept := stack.length - site.arguments.length
      let value ← answered site.name f (stack.drop kept)
      pure (stack.take kept ++ [value])
  | .compute tokens => do
    let kept := stack.length - calls tokens
    let value ← computed tokens (fill tokens (stack.drop kept))
    pure (stack.take kept ++ [value])

def performAll (stack : List Float) (steps : List Step) : Run σ (List Float) :=
  steps.foldlM r.perform stack

variable {r} {evaluate : Option (List Token → Run σ Float)} {tokens : List Token}
  {stack : List Float} {levels depth : Nat} {name : String} {arguments : List (List Token)}

theorem performAll_append (stack : List Float) (steps steps' : List Step) :
    r.performAll stack (steps ++ steps') = (do
      let stack' ← r.performAll stack steps
      r.performAll stack' steps') :=
  List.foldlM_append

theorem performAll_cons (stack : List Float) (step : Step) (steps : List Step) :
    r.performAll stack (step :: steps) = (do
      let stack' ← r.perform stack step
      r.performAll stack' steps) :=
  List.foldlM_cons

theorem performAll_concat (stack : List Float) (steps : List Step) (step : Step) :
    r.performAll stack (steps ++ [step]) = (do
      let stack' ← r.performAll stack steps
      r.perform stack' step) := by
  simp [performAll]

theorem performAll_nil (stack : List Float) : r.performAll stack [] = pure stack := rfl

theorem answered_apply (f : Callable σ) (name : String) (values : List Float) (s : σ) :
    (answered name f values s).1.result = Formula.answer name (f values s).1 ∧
      (answered name f values s).2 = (f values s).2 := by
  have invoked : Run.invoke f values s = (pure (f values s).1, (f values s).2) := rfl
  have emitted : Run.emit (.calling name values) s = (Logged.emit (.calling name values), s) := rfl
  rw [answered, Run.bind_ok emitted, Run.bind_ok invoked]
  cases (f values s).1 with
  | error message => exact ⟨rfl, rfl⟩
  | ok x =>
    by_cases hx : x.isFinite
    · simp only [hx, if_true, Formula.answer]
      exact ⟨rfl, rfl⟩
    · simp only [hx, if_false, Formula.answer, Bool.false_eq_true]
      exact ⟨rfl, rfl⟩

theorem answer_eq_ok_iff {answer : Except String Float} {x : Float} :
    Formula.answer name answer = .ok x ↔ answer = .ok x ∧ x.isFinite := by
  cases answer with
  | error => simp [Formula.answer]
  | ok y =>
    by_cases hy : y.isFinite
    · simp only [Formula.answer, hy, if_true, Except.ok.injEq]
      exact ⟨fun h => ⟨h, h ▸ hy⟩, And.left⟩
    · rw [Formula.answer, if_neg hy]
      constructor
      · intro h
        cases h
      · rintro ⟨⟨⟩, hx⟩
        exact absurd hx hy

theorem result_computed (tokens resolved : List Token) :
    (computed tokens resolved).result =
      if tokens.isEmpty then .error (.of .emptyExpression)
      else Postfix.ofInfix resolved >>= fun ps => (Postfix.value ps).result := by
  rw [computed]
  split
  · rfl
  · simp only [Logged.result_bind, Logged.result_ofExcept, Logged.result_emit]
    rfl

/-- Behind its arguments a call is what its function answers. -/
theorem call_eq {f : Callable σ} {evaluate : List Token → Run σ Float} (h : r.get? name = some f) :
    r.call (some evaluate) name arguments = (do
      let values ← arguments.mapM evaluate
      answered name f values) := by
  simp only [call, h]
  rfl

theorem call_of_get?_eq_none {evaluate : List Token → Run σ Float} (h : r.get? name = none) :
    r.call (some evaluate) name arguments =
      .fail { cause := .unknownFunction, token := some name } := by
  simp only [call, h]

theorem mapM_resolve_eq_fill (tokens : List Token) :
    tokens.mapM (r.resolve evaluate) = fill tokens <$> r.callValues evaluate tokens := by
  induction tokens with
  | nil => rfl
  | cons token tokens ih =>
    rw [List.mapM_cons, ih]
    cases token <;> simp [resolve, callValues, fill]

/-- All calls of a sequence are replaced before anything else is done with it. -/
theorem valueWithin_eq_mapM (levels : Nat) (tokens : List Token) :
    r.valueWithin levels tokens = (do
      let resolved ← tokens.mapM (r.resolve (r.inner levels))
      computed tokens resolved) := by
  rw [valueWithin_eq, postfixWithin_eq, postfixBy]
  by_cases h : tokens.isEmpty
  · obtain rfl := List.isEmpty_iff.mp h
    rfl
  · have order (resolved : List Token) :
        (liftM (computed tokens resolved) : Run σ Float) = (do
          let postfixed ← liftM (Logged.ofExcept (Postfix.ofInfix resolved))
          .emit (.ordered postfixed)
          .emit (.rendered postfixed)
          liftM (Postfix.value postfixed)) := by
      rw [computed, if_neg h, Run.lift_bind]
      simp only [Run.lift_bind]
      rfl
    simp [h, order]

theorem valueWithin_eq_computed (levels : Nat) (tokens : List Token) :
    r.valueWithin levels tokens = (do
      let values ← r.callValues (r.inner levels) tokens
      computed tokens (fill tokens values)) := by
  rw [valueWithin_eq_mapM, mapM_resolve_eq_fill, bind_map_left]

theorem length_of_callValues {s t : σ} {values : List Float}
    (h : (r.callValues evaluate tokens).Returns s values t) : values.length = calls tokens := by
  induction tokens generalizing s t values with
  | nil =>
    obtain ⟨rfl, -⟩ := Run.returns_pure_iff.mp h
    rfl
  | cons token tokens ih =>
    cases token with
    | call name arguments =>
      obtain ⟨value, u, -, h⟩ := Run.returns_bind_iff.mp h
      obtain ⟨rest, v, hrest, h⟩ := Run.returns_bind_iff.mp h
      obtain ⟨rfl, -⟩ := Run.returns_pure_iff.mp h
      simpa [calls, Token.kind] using ih hrest
    | operand | operator | leftParen | rightParen => simpa [calls, Token.kind] using ih h

theorem perform_invoke {site : Site} {f : Callable σ} {values : List Float}
    (h : r.get? site.name = some f) (hl : values.length = site.arguments.length) :
    r.perform (stack ++ values) (.invoke site) =
      (fun value => stack ++ [value]) <$> answered site.name f values := by
  simp [perform, h, ← hl]

theorem perform_compute {values : List Float} (hl : values.length = calls tokens) :
    r.perform (stack ++ values) (.compute tokens) =
      (fun value => stack ++ [value]) <$> liftM (computed tokens (fill tokens values)) := by
  simp [perform, ← hl]

section Straight

variable {evaluate : List Token → Run σ Float}

theorem performAll_ofArguments
    (h : ∀ stack tokens, r.performAll stack (Step.ofSequence depth tokens) =
      (fun value => stack ++ [value]) <$> evaluate tokens)
    (stack : List Float) (arguments : List (List Token)) :
    r.performAll stack (Step.ofArguments depth arguments) =
      (stack ++ ·) <$> arguments.mapM evaluate := by
  induction arguments generalizing stack with
  | nil => simp [Step.ofArguments, performAll_nil]
  | cons argument arguments ih =>
    have split : Step.ofArguments depth (argument :: arguments) =
        Step.ofSequence depth argument ++ Step.ofArguments depth arguments := by
      simp [Step.ofArguments, Step.ofSequence]
    rw [split, performAll_append, h, List.mapM_cons]
    simp [ih]

theorem performAll_call
    (hd : depth < nestingLimit)
    (h : ∀ stack tokens, r.performAll stack (Step.ofSequence (depth + 1) tokens) =
      (fun value => stack ++ [value]) <$> evaluate tokens)
    (stack : List Float) (name : String) (arguments : List (List Token)) :
    r.performAll stack (Step.ofToken depth (.call name arguments)) =
      (fun value => stack ++ [value]) <$> r.call (some evaluate) name arguments := by
  rw [Step.ofToken, performAll_cons, perform, if_neg (Nat.not_le_of_lt hd)]
  cases hf : r.get? name with
  | none =>
    rw [call_of_get?_eq_none hf]
    rfl
  | some f =>
    rw [call_eq hf, map_bind]
    simp only [pure_bind]
    rw [performAll_append, performAll_ofArguments h, bind_map_left]
    refine Run.bind_congr_returns ?_
    intro s values t hvalues
    let site : Site := ⟨depth, name, arguments⟩
    have last : r.perform (stack ++ values) (.invoke site) =
        (fun value => stack ++ [value]) <$> answered name f values :=
      perform_invoke hf hvalues.length_mapM
    rw [performAll_cons, last]
    simp [performAll_nil]

end Straight

theorem performAll_ofTokens
    (h : ∀ stack name arguments, r.performAll stack (Step.ofToken depth (.call name arguments)) =
      (fun value => stack ++ [value]) <$> r.call evaluate name arguments)
    (stack : List Float) (tokens : List Token) :
    r.performAll stack (Step.ofTokens depth tokens) =
      (stack ++ ·) <$> r.callValues evaluate tokens := by
  induction tokens generalizing stack with
  | nil => simp [Step.ofTokens, performAll_nil, callValues]
  | cons token tokens ih =>
    rw [Step.ofTokens, performAll_append]
    cases token with
    | call name arguments =>
      rw [h, callValues]
      simp [ih]
    | operand | operator | leftParen | rightParen =>
      simp [Step.ofToken, performAll_nil, callValues, ih]

theorem performAll_ofSequence_of_calls
    (h : ∀ stack name arguments, r.performAll stack (Step.ofToken depth (.call name arguments)) =
      (fun value => stack ++ [value]) <$> r.call (r.inner levels) name arguments)
    (stack : List Float) (tokens : List Token) :
    r.performAll stack (Step.ofSequence depth tokens) =
      (fun value => stack ++ [value]) <$> r.valueWithin levels tokens := by
  rw [Step.ofSequence, performAll_append, performAll_ofTokens h, valueWithin_eq_computed, map_bind,
    bind_map_left]
  refine Run.bind_congr_returns ?_
  intro s values t hvalues
  rw [performAll_cons, perform_compute (length_of_callValues hvalues)]
  simp [performAll_nil]

/-- Evaluating a sequence is performing its steps: the value is put on the stack. -/
theorem performAll_ofSequence (h : depth + levels = nestingLimit) (stack : List Float)
    (tokens : List Token) :
    r.performAll stack (Step.ofSequence depth tokens) =
      (fun value => stack ++ [value]) <$> r.valueWithin levels tokens := by
  induction levels generalizing depth stack tokens with
  | zero =>
    refine performAll_ofSequence_of_calls ?_ stack tokens
    intro stack name arguments
    -- where no level is left, a call fails when it is entered
    have deep : nestingLimit ≤ depth := Nat.le_of_eq h.symm
    rw [Step.ofToken, performAll_cons, perform, if_pos deep]
    rfl
  | succ levels ih =>
    refine performAll_ofSequence_of_calls ?_ stack tokens
    have inner : depth + 1 + levels = nestingLimit := by omega
    exact performAll_call (by omega) (ih inner)

end Registry

end Reckoner
