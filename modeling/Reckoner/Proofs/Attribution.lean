import Reckoner.Proofs.Computing
import Reckoner.Proofs.Fault
import Reckoner.Proofs.Invocations

/-! What the failure of an evaluation says of the tokens, be they well-formed or not. -/
namespace Reckoner

variable {σ α β : Type} {F : Failure → Prop} {P : α → Prop}

/-- The causes that evaluating tokens can fail for, whatever the tokens are. -/
def treeCauses : List Cause :=
  [.emptyExpression, .nestingTooDeep, .unknownFunction, .functionFailed, .nonFiniteResult,
    .stackUnderflow, .unclosedParen, .divisionByZero, .overflow, .leftoverOperands]

/-- A failure and what is to blame for it: a sequence, a call or an operator that stands somewhere in
the tokens. Only the failure of a function has a detail, and that is its message. -/
inductive Registry.Attributed (r : Registry σ) (tokens : List Token) : Failure → Prop
  | emptyExpression {depth} : Nested tokens depth [] →
      Attributed r tokens (.of .emptyExpression)
  | nestingTooDeep {inner name arguments} : Nested tokens nestingLimit inner →
      .call name arguments ∈ inner →
      Attributed r tokens { cause := .nestingTooDeep, token := some name }
  | unknownFunction {depth inner name arguments} : Nested tokens depth inner →
      .call name arguments ∈ inner → r.get? name = none →
      Attributed r tokens { cause := .unknownFunction, token := some name }
  | functionFailed {depth inner name arguments f values s message} : Nested tokens depth inner →
      .call name arguments ∈ inner → r.get? name = some f → values.length = arguments.length →
      (f values s).1 = .error message →
      Attributed r tokens { cause := .functionFailed, token := some name, detail := some message }
  | nonFiniteResult {depth inner name arguments f values s x} : Nested tokens depth inner →
      .call name arguments ∈ inner → r.get? name = some f → values.length = arguments.length →
      (f values s).1 = .ok x → ¬ x.isFinite →
      Attributed r tokens { cause := .nonFiniteResult, token := some name }
  | stackUnderflow : Attributed r tokens (.of .stackUnderflow)
  | unclosedParen : Attributed r tokens (.of .unclosedParen)
  | leftoverOperands : Attributed r tokens (.of .leftoverOperands)
  | divisionByZero {depth inner op} : Nested tokens depth inner → .operator op ∈ inner →
      op = .divide ∨ op = .modulo →
      Attributed r tokens { cause := .divisionByZero, token := some op.text }
  | overflow {depth inner op} : Nested tokens depth inner → .operator op ∈ inner →
      Attributed r tokens { cause := .overflow, token := some op.text }

theorem Run.mapM_within_forall {xs : List β} {f : β → Run σ α}
    (h : ∀ b ∈ xs, (f b).Yields (Within F P)) :
    (xs.mapM f).Yields (Within F fun ys => ys.length = xs.length ∧ ∀ y ∈ ys, P y) := by
  induction xs with
  | nil => exact yields_pure (.ok ⟨rfl, List.forall_mem_nil _⟩)
  | cons b xs ih =>
    obtain ⟨hb, hs⟩ := List.forall_mem_cons.mp h
    rw [List.mapM_cons]
    refine hb.bind_within ?_
    intro a ha
    refine (ih hs).bind_within ?_
    rintro as ⟨hlength, has⟩
    exact yields_pure (.ok ⟨by simp [hlength], List.forall_mem_cons.mpr ⟨ha, has⟩⟩)

namespace Registry

variable {r : Registry σ} {levels depth : Nat} {tokens inner : List Token} {name : String}
  {arguments : List (List Token)} {evaluate : Option (List Token → Run σ Float)} {e : Failure}

theorem answered_attributed {f : Callable σ} {values : List Float} (hn : Nested tokens depth inner)
    (hm : .call name arguments ∈ inner) (hf : r.get? name = some f)
    (hl : values.length = arguments.length) :
    (answered name f values).Yields (Within (r.Attributed tokens) fun _ => True) := by
  intro s
  rw [(answered_apply f name values s).1]
  cases hanswer : (f values s).1 with
  | error message => exact .error (.functionFailed hn hm hf hl hanswer)
  | ok x =>
    rw [Formula.answer]
    split
    · exact .ok trivial
    next hx => exact .error (.nonFiniteResult hn hm hf hl hanswer hx)

theorem call_attributed (hn : Nested tokens depth inner) (hm : .call name arguments ∈ inner)
    (hnone : evaluate = none → depth = nestingLimit)
    (hsome : ∀ f, evaluate = some f → ∀ argument ∈ arguments,
      (f argument).Yields (Within (r.Attributed tokens) fun _ => True)) :
    (r.call evaluate name arguments).Yields (Within (r.Attributed tokens) fun _ => True) := by
  cases evaluate with
  | none =>
    obtain rfl := hnone rfl
    exact Run.yields_fail (.error (.nestingTooDeep hn hm))
  | some evaluate =>
    cases hf : r.get? name with
    | none =>
      rw [call_of_get?_eq_none hf]
      exact Run.yields_fail (.error (.unknownFunction hn hm hf))
    | some f =>
      rw [call_eq hf]
      refine (Run.mapM_within_forall (hsome evaluate rfl)).bind_within ?_
      rintro values ⟨hlength, -⟩
      exact answered_attributed hn hm hf hlength

/-- A token is resolved to one that is no call. Operators stay as they are. -/
theorem resolve_attributed {token : Token} (hm : token ∈ inner)
    (hcall : ∀ name arguments, .call name arguments ∈ inner →
      (r.call evaluate name arguments).Yields (Within (r.Attributed tokens) fun _ => True)) :
    (r.resolve evaluate token).Yields (Within (r.Attributed tokens) fun resolved =>
      resolved.kind ≠ .call ∧ ∀ op, resolved = .operator op → .operator op ∈ inner) := by
  cases token with
  | call name arguments =>
    intro s
    rw [resolve, Run.map_apply, Logged.result_map]
    exact (hcall name arguments hm s).map_imp fun _ _ => by simp [Token.kind]
  | operator op =>
    refine Run.yields_pure (.ok ⟨by simp [Token.kind], ?_⟩)
    rintro _ ⟨⟩
    exact hm
  | operand | leftParen | rightParen => exact Run.yields_pure (.ok (by simp [Token.kind]))

theorem computed_attributed {resolved : List Token} (hn : Nested tokens depth inner)
    (hc : ∀ token ∈ resolved, token.kind ≠ .call)
    (ho : ∀ op, .operator op ∈ resolved → .operator op ∈ inner) :
    Within (r.Attributed tokens) (fun _ => True) (computed inner resolved).result := by
  refine (computed_within inner resolved).mono ?_
  intro e h
  cases h with
  | emptyExpression hempty => exact .emptyExpression (hempty ▸ hn)
  | order h =>
    cases h with
    | stackUnderflow => exact .stackUnderflow
    | unclosedParen => exact .unclosedParen
    | unresolvedCall hm => exact absurd rfl (hc _ hm)
  | stackUnderflow => exact .stackUnderflow
  | leftoverOperands => exact .leftoverOperands
  | operator hop h =>
    cases h with
    | divisionByZero h => exact .divisionByZero hn (ho _ hop) h
    | overflow => exact .overflow hn (ho _ hop)

theorem valueWithin_attributed_of_calls (hn : Nested tokens depth inner)
    (hcall : ∀ name arguments, .call name arguments ∈ inner →
      (r.call (r.inner levels) name arguments).Yields
        (Within (r.Attributed tokens) fun _ => True)) :
    (r.valueWithin levels inner).Yields (Within (r.Attributed tokens) fun _ => True) := by
  rw [valueWithin_eq_mapM]
  refine (Run.mapM_within_forall fun token hm => resolve_attributed hm hcall).bind_within ?_
  rintro resolved ⟨-, hresolved⟩
  refine Run.yields_lift (computed_attributed hn (fun token hm => (hresolved token hm).1) ?_)
  intro op hop
  exact (hresolved _ hop).2 op rfl

/-- By induction on the levels that are left for calls. -/
theorem valueWithin_attributed (r : Registry σ) (hn : Nested tokens depth inner)
    (hd : depth + levels = nestingLimit) :
    (r.valueWithin levels inner).Yields (Within (r.Attributed tokens) fun _ => True) := by
  induction levels generalizing depth inner with
  | zero =>
    refine valueWithin_attributed_of_calls hn ?_
    intro name arguments hm
    exact call_attributed hn hm (fun _ => hd) (by simp [Registry.inner])
  | succ levels ih =>
    refine valueWithin_attributed_of_calls hn ?_
    intro name arguments hm
    refine call_attributed hn hm (by simp [Registry.inner]) ?_
    rintro f ⟨⟩ argument ha
    exact ih (hn.argument hm ha) (by omega)

theorem evaluateTokens_attributed (r : Registry σ) (tokens : List Token) :
    (r.evaluateTokens tokens).FailsOnly (r.Attributed tokens) :=
  (r.valueWithin_attributed .self (Nat.zero_add _)).failsOnly

theorem postfixWithin_attributed (r : Registry σ) (tokens : List Token) :
    (r.postfixWithin nestingLimit tokens).FailsOnly (r.Attributed tokens) := by
  intro s e he
  refine r.evaluateTokens_attributed tokens s e ?_
  rw [evaluateTokens, valueWithin_eq]
  exact (Run.fails_bind_iff.mpr (Or.inl ⟨he, rfl⟩)).1

theorem Attributed.index_eq_none (h : r.Attributed tokens e) : e.index = none := by
  cases h <;> rfl

theorem Attributed.cause_mem (h : r.Attributed tokens e) : e.cause ∈ treeCauses := by
  cases h <;> simp [treeCauses, Failure.of]

theorem Attributed.detail_isSome_iff (h : r.Attributed tokens e) :
    e.detail.isSome ↔ e.cause = .functionFailed := by
  cases h <;> simp [Failure.of]

theorem of_answer_eq_error {answer : Except String Float} {message : String}
    (h : Formula.answer name answer = .error e) (hm : e.detail = some message) :
    e.token = some name ∧ answer = .error message := by
  cases answer with
  | error message' =>
    obtain rfl := Except.error.inj h
    obtain rfl := Option.some.inj hm
    exact ⟨rfl, rfl⟩
  | ok x =>
    rw [Formula.answer] at h
    split at h
    · cases h
    · obtain rfl := Except.error.inj h
      cases hm

/-- A step gives a detail only where it invokes a function, and it is the message of that. -/
theorem perform_detail {stack : List Float} {step : Step} {u v : σ × List (Invocation σ)}
    {message : String} (h : (r.watched.perform stack step).Fails u e v)
    (hm : e.detail = some message) :
    ∃ i, v.2 = u.2 ++ [i] ∧ e.token = some i.name ∧ i.answer = .error message := by
  have state := h.2
  have failed := h.1
  rw [perform_watched] at failed state
  subst state
  cases step with
  | enter site =>
    rw [perform] at failed
    split at failed
    · obtain rfl := Except.error.inj failed
      cases hm
    · cases hf : r.get? site.name with
      | none =>
        rw [hf] at failed
        obtain rfl := Except.error.inj failed
        cases hm
      | some f =>
        rw [hf] at failed
        cases failed
  | invoke site =>
    cases hf : r.get? site.name with
    | none =>
      simp only [perform, hf] at failed
      obtain rfl := Except.error.inj failed
      cases hm
    | some f =>
      simp only [perform, noted, hf, bind_pure_comp, Run.map_apply, Logged.result_map] at failed ⊢
      rw [map_eq_error_iff, (answered_apply ..).1] at failed
      exact ⟨_, rfl, of_answer_eq_error failed hm⟩
  | compute tokens =>
    simp only [perform, bind_pure_comp, Run.map_apply, Logged.result_map, Run.lift_apply] at failed
    have within := computed_within tokens (fill tokens (stack.drop (stack.length - calls tokens)))
    rw [map_eq_error_iff.mp failed] at within
    cases within with
    | error fails =>
      rw [fails.detail_eq_none] at hm
      cases hm

/-- The detail of a failure is the message of the function that was invoked last. -/
theorem evaluateTokens_detail {s : σ} {message : String}
    (h : (r.evaluateTokens tokens s).1.result = .error e) (hm : e.detail = some message) :
    ∃ earlier i, (r.watched.evaluateTokens tokens (s, [])).2.2 = earlier ++ [i] ∧
      e.token = some i.name ∧ i.answer = .error message := by
  rw [← evaluateTokens_mirrors r tokens s []] at h
  obtain ⟨before, step, after, stack, u, -, -, hstep⟩ :=
    performAll_fails_iff.mp (evaluateTokens_fails_iff.mp ⟨h, rfl⟩)
  obtain ⟨i, hlog, hi⟩ := perform_detail hstep hm
  exact ⟨u.2, i, hlog, hi⟩

/-- Tokenizing never blames a call for not having been resolved. -/
theorem tokenizeExpression_cause_ne {text : String}
    (h : (tokenizeExpression text).result = .error e) : e.cause ≠ .unresolvedCall := by
  rw [tokenizeExpression] at h
  split at h
  · obtain rfl := Except.error.inj h
    simp [Failure.of]
  · rw [Scan.result_tokenize] at h
    obtain ⟨depth, fragment, -, hfault, -⟩ := Scan.fragment_fault .whole (Nat.zero_add _) h
    cases hfault <;> simp [Failure.of]

/-- A text fails to be evaluated or reordered because it cannot be tokenized, or as its tokens do. -/
theorem text_failure {text : String} {s : σ}
    (h : (r.evaluate text s).1.result = .error e ∨ (r.toPostfix text s).1.result = .error e) :
    (tokenizeExpression text).result = .error e ∨ ∃ tokens,
      (tokenizeExpression text).result = .ok tokens ∧ r.Attributed tokens e := by
  cases ht : (tokenizeExpression text).result with
  | error e' =>
    refine Or.inl ?_
    rcases h with h | h
    · rw [evaluate, Run.result_lift_bind_error ht] at h
      rw [Except.error.inj h]
    · rw [toPostfix, Run.result_lift_bind_error ht] at h
      rw [Except.error.inj h]
  | ok tokens =>
    refine Or.inr ⟨tokens, rfl, ?_⟩
    rcases h with h | h
    · rw [result_evaluate ht] at h
      exact r.evaluateTokens_attributed tokens s e h
    · rw [result_toPostfix ht] at h
      exact r.postfixWithin_attributed tokens s e h

/-- The failure of an evaluation is well attributed, whatever the tokens. Unresolved calls and
misplaced tokens, which the last stages report of what they are given, never come up: a text is
found to have misplaced tokens when it is tokenized. -/
theorem failures_attributed (r : Registry σ) :
    (∀ tokens s e, (r.evaluateTokens tokens s).1.result = .error e →
        e.index = none ∧ e.cause ∈ treeCauses ∧ (e.detail.isSome ↔ e.cause = .functionFailed) ∧
          r.Attributed tokens e ∧
          ∀ message, e.detail = some message →
            ∃ earlier i, (r.watched.evaluateTokens tokens (s, [])).2.2 = earlier ++ [i] ∧
              e.token = some i.name ∧ i.answer = .error message) ∧
      (∀ text s e,
        (r.evaluate text s).1.result = .error e ∨ (r.toPostfix text s).1.result = .error e →
          e.cause ≠ .unresolvedCall ∧
            (e.cause = .misplacedToken → (tokenizeExpression text).result = .error e)) ∧
      (∀ name arguments rest,
        Postfix.ofInfix (.call name arguments :: rest) =
            .error { cause := .unresolvedCall, token := some name } ∧
          (Postfix.value (.call name arguments :: rest)).result =
            .error { cause := .unresolvedCall, token := some name }) ∧
      ∀ rest, (Postfix.value (.leftParen :: rest)).result =
        .error { cause := .misplacedToken, token := some "(" } := by
  refine ⟨fun tokens s e h => ?_, fun text s e h => ?_, fun _ _ _ => ⟨rfl, rfl⟩, fun _ => rfl⟩
  · have attributed := r.evaluateTokens_attributed tokens s e h
    exact ⟨attributed.index_eq_none, attributed.cause_mem, attributed.detail_isSome_iff, attributed,
      fun _ => evaluateTokens_detail h⟩
  · obtain ht | ⟨tokens, -, attributed⟩ := text_failure h
    · exact ⟨tokenizeExpression_cause_ne ht, fun _ => ht⟩
    · have possible := attributed.cause_mem
      refine ⟨fun hc => ?_, fun hc => ?_⟩
      · simp [hc, treeCauses] at possible
      · simp [hc, treeCauses] at possible

theorem failures_attributed_of_broken_tokens :
    let r := (empty : Registry Unit).register "f" fun _ s => (.error "no luck", s)
    let tokens : List Token := [.rightParen, .operator .divide, .call "f" [[.operand 1.0]]]
    let e : Failure := { cause := .functionFailed, token := some "f", detail := some "no luck" }
    (r.evaluateTokens tokens ()).1.result = .error e ∧ r.Attributed tokens e := by
  intro r tokens e
  have failed : (r.evaluateTokens tokens ()).1.result = .error e := by
    rfl
  exact ⟨failed, (r.failures_attributed.1 tokens () e failed).2.2.2.1⟩

end Registry

end Reckoner
