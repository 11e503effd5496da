import Reckoner.Proofs.Computing
import Reckoner.Proofs.Invocations
import Reckoner.Proofs.Nesting.Scanning

/-! Tokenizing and evaluation agree on how deep calls may be nested, and on the call to blame. -/
namespace Reckoner

variable {σ α β : Type}

/-- The failure is not over the nesting of calls. -/
def Shallow (e : Failure) : Prop := e.cause ≠ .nestingTooDeep

theorem Within.blames {other : Failure → Prop} {P : α → Prop} {x : Except Failure α}
    (h : Within other P x) : Blames other none x := by
  cases h with
  | ok => exact .ok rfl
  | error h => exact .other h

namespace Registry

variable {r : Registry σ} {levels : Nat}

theorem computed_shallow (tokens resolved : List Token) :
    Within Shallow (fun _ => True) (computed tokens resolved).result := by
  refine (computed_within tokens resolved).mono ?_
  intro e h
  cases h with
  | emptyExpression | stackUnderflow | leftoverOperands => simp [Shallow, Failure.of]
  | order h => cases h <;> simp [Shallow, Failure.of]
  | operator _ h => cases h <;> simp [Shallow]

theorem answered_shallow (name : String) (f : Callable σ) (values : List Float) :
    (answered name f values).Yields (Within Shallow fun _ => True) := by
  intro s
  rw [(answered_apply f name values s).1]
  cases (f values s).1 with
  | error message => exact .error (by simp [Shallow])
  | ok x =>
    rw [Formula.answer]
    split
    · exact .ok trivial
    · exact .error (by simp [Shallow])

/-- The arguments of calls put the blame on the calls in them. -/
def InnerBlames : Option (List Token → Run σ Float) → Option (List Token → Option String) → Prop :=
  Option.Rel fun evaluate inside =>
    ∀ tokens, (evaluate tokens).Yields (Blames Shallow (inside tokens))

variable {evaluate : Option (List Token → Run σ Float)}
  {inside : Option (List Token → Option String)}

theorem call_blames (h : InnerBlames evaluate inside) (name : String)
    (arguments : List (List Token)) :
    (r.call evaluate name arguments).Yields
      (Blames Shallow ((Token.call name arguments).blamed inside)) := by
  cases h with
  | none => exact Run.yields_fail (.deep rfl rfl rfl)
  | @some evaluate inside h =>
    -- an unknown name ends the evaluation before any call inside can be blamed
    cases hf : r.get? name with
    | none =>
      rw [call_of_get?_eq_none hf]
      exact Run.yields_fail (.other nofun)
    | some f =>
      have answers (values : List Float) :
          (answered name f values).Yields (Blames Shallow none) :=
        (answered_shallow name f values).mono fun _ h => h.blames
      have blamed := (Run.mapM_blames h arguments).bind_blames answers
      rw [Option.or_none] at blamed
      rw [call_eq hf]
      exact blamed

theorem resolve_blames (r : Registry σ) (h : InnerBlames evaluate inside) (token : Token) :
    (r.resolve evaluate token).Yields (Blames Shallow (token.blamed inside)) := by
  cases token with
  | call name arguments => exact (call_blames h name arguments).map_blames _
  | operand | operator | leftParen | rightParen => exact Run.yields_pure (.ok rfl)

/-- By induction on the levels that are left for calls. -/
theorem inner_blames (r : Registry σ) (levels : Nat) :
    InnerBlames (r.inner levels) (blamedInside levels) := by
  induction levels with
  | zero => exact .none
  | succ levels ih =>
    refine .some fun tokens => ?_
    have computes (resolved : List Token) :
        (liftM (computed tokens resolved) : Run σ Float).Yields (Blames Shallow none) :=
      Run.yields_lift (computed_shallow tokens resolved).blames
    have blamed := (Run.mapM_blames (r.resolve_blames ih) tokens).bind_blames computes
    rw [Option.or_none, ← blamed_eq] at blamed
    rw [valueWithin_eq_mapM]
    exact blamed

theorem evaluateTokens_blames (r : Registry σ) (tokens : List Token) :
    (r.evaluateTokens tokens).Yields (Blames Shallow (blamed nestingLimit tokens)) := by
  cases inner_blames r (nestingLimit + 1) with
  | some h => exact h tokens

end Registry

/-- The failure is over the nesting of calls, by the name of the first call in the text that has as
many calls around it as are allowed at most. -/
structure BlamesFirst (tokens : List Token) (e : Failure) : Prop where
  cause : e.cause = .nestingTooDeep
  token : ∃ site, (Site.preorder 0 tokens).find? (fun site => site.depth = nestingLimit) =
    some site ∧ e.token = some site.name

variable {tokens : List Token} {e : Failure}

theorem blamesFirst_of_blamed {name : String} (h : blamed nestingLimit tokens = some name)
    (hc : e.cause = .nestingTooDeep) (ht : e.token = some name) : BlamesFirst tokens e := by
  have first := @find?_preorder tokens nestingLimit 0
  rw [h, Nat.zero_add] at first
  obtain ⟨site, hsite, rfl⟩ := Option.map_eq_some_iff.mp first
  exact ⟨hc, site, hsite, ht⟩

theorem blamed_eq_none_iff :
    blamed nestingLimit tokens = none ↔ Token.nestingOfSequence tokens ≤ nestingLimit := by
  rw [← not_lt, lt_nestingOfSequence_iff, Option.not_isSome_iff_eq_none]

/-- Written tokens fail to be tokenized just where calls are nested too deeply. -/
theorem Expressible.tokenize_fails_iff (h : Expressible tokens) :
    (∃ e, (tokenize (render tokens)).result = .error e) ↔
      nestingLimit < Token.nestingOfSequence tokens := by
  have blames := h.tokenize_blames
  rw [← not_le, ← blamed_eq_none_iff]
  generalize (tokenize (render tokens)).result = result at blames
  cases blames with
  | ok hn => simp [hn]
  | deep hn => simp [hn]
  | other h => exact h.elim

theorem Expressible.blamesFirst (h : Expressible tokens)
    (he : (tokenize (render tokens)).result = .error e) : BlamesFirst tokens e := by
  have blames := h.tokenize_blames
  rw [he] at blames
  cases blames with
  | deep hn hc ht => exact blamesFirst_of_blamed hn hc ht
  | other h => exact h.elim

namespace Registry

variable {s : σ}

theorem shallow_of_nesting_le (r : Registry σ)
    (h : Token.nestingOfSequence tokens ≤ nestingLimit)
    (he : (r.evaluateTokens tokens s).1.result = .error e) : e.cause ≠ .nestingTooDeep := by
  have blames := r.evaluateTokens_blames tokens s
  rw [he, blamed_eq_none_iff.mpr h] at blames
  cases blames with
  | deep hn => cases hn
  | other he => exact he

theorem not_ok_of_lt_nesting (r : Registry σ)
    (h : nestingLimit < Token.nestingOfSequence tokens) (x : Float) :
    (r.evaluateTokens tokens s).1.result ≠ .ok x := by
  intro hx
  have blames := r.evaluateTokens_blames tokens s
  rw [hx] at blames
  cases blames with
  | ok hn => exact absurd (blamed_eq_none_iff.mp hn) (Nat.not_le_of_lt h)

theorem blamesFirst (r : Registry σ) (he : (r.evaluateTokens tokens s).1.result = .error e)
    (hc : e.cause = .nestingTooDeep) : BlamesFirst tokens e := by
  have blames := r.evaluateTokens_blames tokens s
  rw [he] at blames
  cases blames with
  | deep hn _ ht => exact blamesFirst_of_blamed hn hc ht
  | other h => exact absurd hc h

/-- Only calls that are not nested too deeply are ever invoked. -/
theorem invoked_shallow (r : Registry σ) (tokens : List Token) (s : σ) :
    ∃ done pending, Site.postorder 0 tokens = done ++ pending ∧
      r.Performed s done (r.watched.evaluateTokens tokens (s, [])).2.2 ∧
      ∀ site ∈ done, site.depth < nestingLimit := by
  obtain ⟨done, pending, hcalls, performed, -⟩ := performed_of_evaluateTokens r tokens s
  exact ⟨done, pending, hcalls, performed, performed.shallow⟩

end Registry

/-- Tokenizing what has been written and evaluating it know the same limit for the nesting of calls,
and blame the same call when it is exceeded. -/
theorem nesting_limits_agree (h : Expressible tokens) :
    ((∃ e, (tokenize (render tokens)).result = .error e) ↔
        nestingLimit < Token.nestingOfSequence tokens) ∧
      (∀ e, (tokenize (render tokens)).result = .error e → BlamesFirst tokens e) ∧
      ∀ (σ : Type) (r : Registry σ) (s : σ),
        (Token.nestingOfSequence tokens ≤ nestingLimit → ∀ e,
          (r.evaluateTokens tokens s).1.result = .error e → e.cause ≠ .nestingTooDeep) ∧
        (nestingLimit < Token.nestingOfSequence tokens → ∀ x,
          (r.evaluateTokens tokens s).1.result ≠ .ok x) ∧
        (∀ e, (r.evaluateTokens tokens s).1.result = .error e → e.cause = .nestingTooDeep →
          BlamesFirst tokens e) ∧
        ∃ done pending, Site.postorder 0 tokens = done ++ pending ∧
          r.Performed s done (r.watched.evaluateTokens tokens (s, [])).2.2 ∧
          ∀ site ∈ done, site.depth < nestingLimit := by
  refine ⟨h.tokenize_fails_iff, fun e => h.blamesFirst, ?_⟩
  intro σ r s
  refine ⟨fun hn e => r.shallow_of_nesting_le hn, r.not_ok_of_lt_nesting, ?_, ?_⟩
  · exact fun e => r.blamesFirst
  · exact r.invoked_shallow tokens s

theorem nesting_limits_agree_of_sixty_five :
    Expressible ((fun tokens => [Token.call "f" [tokens]])^[65] [.operand 1.0]) ∧
      ∃ e, (tokenize (render ((fun tokens => [Token.call "f" [tokens]])^[65]
        [.operand 1.0]))).result = .error e ∧ e.cause = .nestingTooDeep ∧ e.token = some "f" := by
  have written (n : Nat) :
      Grammar.Expression
          (((fun tokens => [Token.call "f" [tokens]])^[n] [.operand 1.0]).map Token.kind) ∧
        ∀ token ∈ (fun tokens => [Token.call "f" [tokens]])^[n] [.operand 1.0],
          Writable n token := by
    induction n with
    | zero =>
      have one : Writable 0 (.operand 1.0) := .operand (by decide +kernel) (by decide +kernel)
      exact ⟨.value .operand, List.forall_mem_singleton.mpr one⟩
    | succ n ih =>
      rw [Function.iterate_succ_apply']
      refine ⟨.value .call, List.forall_mem_singleton.mpr (.call (by decide) ?_ ?_)⟩
      · exact List.forall_mem_singleton.mpr ih.1
      · exact List.forall_mem_singleton.mpr ih.2
  have expressible : Expressible ((fun tokens => [Token.call "f" [tokens]])^[65] [.operand 1.0]) :=
    ⟨Or.inr (written 65).1, 65, (written 65).2⟩
  obtain ⟨fails, blames, -⟩ := nesting_limits_agree expressible
  obtain ⟨e, he⟩ := fails.mpr (by decide +kernel)
  obtain ⟨hcause, site, hsite, htoken⟩ := blames e he
  have name : (((Site.preorder 0 ((fun tokens => [Token.call "f" [tokens]])^[65]
      [.operand 1.0])).find? fun site => site.depth = nestingLimit).map Site.name) = some "f" := by
    decide +kernel
  rw [hsite] at name
  exact ⟨expressible, e, he, hcause, htoken.trans name⟩

end Reckoner
