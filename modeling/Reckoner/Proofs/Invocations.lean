import Reckoner.Proofs.Agenda

/-! Which functions an evaluation invokes, on which values and in which order, whatever they do to
the state of the host. -/
namespace Reckoner

variable {σ : Type}

/-- A function has been invoked by this name, on these values and in the state `before`. -/
structure Invocation (σ : Type) where
  name : String
  values : List Float
  before : σ
  answer : Except String Float
  after : σ

/-- The state of the host behind some invocations that began in the state `s`. -/
def Invocation.hostAfter (s : σ) (log : List (Invocation σ)) : σ :=
  (log.getLast?.map after).getD s

/-- The function answered with a finite value. -/
def Invocation.Succeeded (i : Invocation σ) : Prop := ∃ x, i.answer = .ok x ∧ x.isFinite

namespace Callable

def invocation (f : Callable σ) (name : String) (values : List Float) (s : σ) : Invocation σ :=
  ⟨name, values, s, (f values s).1, (f values s).2⟩

/-- The function that also notes its invocations, in a log beside the state of the host. -/
def watched (f : Callable σ) (name : String) : Callable (σ × List (Invocation σ)) :=
  fun values s => ((f values s.1).1, (f values s.1).2, s.2 ++ [f.invocation name values s.1])

end Callable

namespace Registry

def watched (r : Registry σ) : Registry (σ × List (Invocation σ)) :=
  ⟨r.entries.map fun name f => f.watched name⟩

variable {r : Registry σ} {s t : σ} {name : String} {values : List Float}
  {log : List (Invocation σ)} {tokens : List Token} {stack stack' : List Float}
  {before after steps : List Step} {step : Step} {site : Site}

theorem get?_watched : r.watched.get? name = (r.get? name).map fun f => f.watched name := by
  simp [watched, get?, Std.TreeMap.getElem?_map]

section Performing

variable {failure : Failure}

/-- A performance fails at the first step that fails. -/
theorem performAll_fails_iff :
    (r.performAll stack steps).Fails s failure t ↔
      ∃ before step after stack' u, steps = before ++ step :: after ∧
        (r.performAll stack before).Returns s stack' u ∧
        (r.perform stack' step).Fails u failure t := by
  induction steps generalizing stack s with
  | nil =>
    simp [performAll_nil]
  | cons first steps ih =>
    rw [performAll_cons, Run.fails_bind_iff]
    constructor
    · rintro (h | ⟨stack', u, hfirst, h⟩)
      · exact ⟨[], first, steps, stack, s, rfl, by simp [performAll_nil], h⟩
      · obtain ⟨before, step, after, stack'', v, rfl, hbefore, hstep⟩ := ih.mp h
        refine ⟨first :: before, step, after, stack'', v, rfl, ?_, hstep⟩
        rw [performAll_cons]
        exact Run.returns_bind_iff.mpr ⟨stack', u, hfirst, hbefore⟩
    · rintro ⟨before, step, after, stack', u, heq, hbefore, hstep⟩
      cases before with
      | nil =>
        obtain ⟨rfl, rfl⟩ := List.cons.inj heq
        rw [performAll_nil] at hbefore
        obtain ⟨rfl, rfl⟩ := Run.returns_pure_iff.mp hbefore
        exact Or.inl hstep
      | cons _ before =>
        obtain ⟨rfl, rfl⟩ := List.cons.inj heq
        rw [performAll_cons] at hbefore
        obtain ⟨stack'', v, hfirst, hbefore⟩ := Run.returns_bind_iff.mp hbefore
        exact Or.inr ⟨stack'', v, hfirst, ih.mpr ⟨_, _, _, _, _, rfl, hbefore, hstep⟩⟩

theorem fails_append (h : (r.performAll stack steps).Fails s failure t) (steps' : List Step) :
    (r.performAll stack (steps ++ steps')).Fails s failure t := by
  rw [performAll_append]
  exact Run.fails_bind_iff.mpr (Or.inl h)

/-- Where a call is due to be invoked, it has been entered, and its arguments have been evaluated
from there on. -/
theorem exists_arguments (hd : Step.Due before (.invoke site))
    (h : (r.performAll stack before).Returns s stack' t) :
    ∃ settled stack₁ u values f, before = settled ++ .enter site ::
        Step.ofArguments (site.depth + 1) site.arguments ∧
      (r.performAll stack settled).Returns s stack₁ u ∧
      (r.performAll stack₁ (Step.ofArguments (site.depth + 1) site.arguments)).Returns u stack' t ∧
      (site.arguments.mapM (r.valueWithin (nestingLimit - (site.depth + 1)))).Returns u values t ∧
      stack' = stack₁ ++ values ∧ site.depth < nestingLimit ∧ r.get? site.name = some f := by
  obtain ⟨settled, rfl⟩ := hd
  rw [performAll_append] at h
  obtain ⟨stack₁, u, hsettled, h⟩ := Run.returns_bind_iff.mp h
  rw [performAll_cons] at h
  obtain ⟨stack₂, v, henter, harguments⟩ := Run.returns_bind_iff.mp h
  rw [perform] at henter
  split at henter
  · exact absurd henter Run.not_returns_fail
  next hlimit =>
    have limit : site.depth < nestingLimit := Nat.lt_of_not_le hlimit
    split at henter
    · exact absurd henter Run.not_returns_fail
    next f hf =>
      obtain ⟨rfl, rfl⟩ := Run.returns_pure_iff.mp henter
      have inner : site.depth + 1 + (nestingLimit - (site.depth + 1)) = nestingLimit := by omega
      have evaluated := harguments
      rw [performAll_ofArguments (performAll_ofSequence inner)] at evaluated
      obtain ⟨values, hvalues, hstack⟩ := Run.returns_map_iff.mp evaluated
      exact ⟨settled, _, _, values, f, rfl, hsettled, harguments, hvalues, hstack.symm, limit, hf⟩

end Performing

section Watching

/-- The invocation that a step makes. -/
def noted (r : Registry σ) (stack : List Float) (step : Step) (s : σ) : List (Invocation σ) :=
  match step with
  | .invoke site =>
    match r.get? site.name with
    | some f => [f.invocation site.name (stack.drop (stack.length - site.arguments.length)) s]
    | none => []
  | _ => []

theorem answered_watched (f : Callable σ) (name : String) (values : List Float) (s : σ)
    (log : List (Invocation σ)) :
    answered name (f.watched name) values (s, log) =
      ((answered name f values s).1,
        ((answered name f values s).2, log ++ [f.invocation name values s])) := by
  have invoked : Run.invoke f values s = (pure (f values s).1, (f values s).2) := rfl
  have watched : Run.invoke (f.watched name) values (s, log) =
      (pure (f values s).1, ((f values s).2, log ++ [f.invocation name values s])) := rfl
  have emitted {ρ : Type} (u : ρ) :
      Run.emit (.calling name values) u = (Logged.emit (.calling name values), u) := rfl
  rw [answered, answered, Run.bind_ok (emitted _), Run.bind_ok (emitted _), Run.bind_ok invoked,
    Run.bind_ok watched]
  cases (f values s).1 with
  | error message => rfl
  | ok x =>
    by_cases hx : x.isFinite
    · simp only [hx, if_true]
      rfl
    · simp only [hx, if_false, Bool.false_eq_true]
      rfl

/-- Watching changes nothing about a step. -/
theorem perform_watched (stack : List Float) (step : Step) (s : σ) (log : List (Invocation σ)) :
    r.watched.perform stack step (s, log) =
      ((r.perform stack step s).1, ((r.perform stack step s).2, log ++ r.noted stack step s)) := by
  cases step with
  | enter site =>
    simp only [perform, noted, List.append_nil]
    split
    · rfl
    · rw [get?_watched]
      cases r.get? site.name <;> rfl
  | invoke site =>
    simp only [perform, noted, get?_watched]
    cases r.get? site.name with
    | none => simp [Run.fail]
    | some f => simp [Run.map_apply, answered_watched]
  | compute tokens =>
    simp only [perform, noted, List.append_nil]
    generalize computed tokens _ = z
    obtain ⟨records, failure | value⟩ := z <;> rfl

theorem hostAfter_noted {s₀ : σ} (h : Invocation.hostAfter s₀ log = s) :
    Invocation.hostAfter s₀ (log ++ r.noted stack step s) = (r.perform stack step s).2 := by
  cases step with
  | enter site =>
    simp only [perform, noted, List.append_nil]
    split
    · exact h
    · cases r.get? site.name <;> exact h
  | invoke site =>
    simp only [perform, noted]
    cases r.get? site.name with
    | none => simpa [Run.fail] using h
    | some f => simp [Run.map_apply, answered_apply, Invocation.hostAfter, Callable.invocation]
  | compute tokens =>
    simp only [perform, noted, List.append_nil]
    generalize computed tokens _ = z
    obtain ⟨records, failure | value⟩ := z <;> exact h

theorem length_noted (stack : List Float) (step : Step) (s : σ) :
    (r.noted stack step s).length ≤ (Step.invoked [step]).length := by
  cases step with
  | enter | compute => exact Nat.zero_le _
  | invoke site =>
    rw [noted]
    cases r.get? site.name <;> simp [Step.invoked]

/-- The first run does what the second does and keeps a log: of at most `n` invocations, and such
that it tells the state of the host. -/
def Watches (n : Nat) {α : Type} (x : Run (σ × List (Invocation σ)) α) (y : Run σ α) : Prop :=
  ∀ s log, ∃ new, x (s, log) = ((y s).1, ((y s).2, log ++ new)) ∧ new.length ≤ n ∧
    ∀ s₀, Invocation.hostAfter s₀ log = s → Invocation.hostAfter s₀ (log ++ new) = (y s).2

theorem Watches.bind {α β : Type} {m n : Nat} {x : Run (σ × List (Invocation σ)) α} {y : Run σ α}
    {f : α → Run (σ × List (Invocation σ)) β} {g : α → Run σ β} (h : Watches m x y)
    (hf : ∀ a, Watches n (f a) (g a)) : Watches (m + n) (x >>= f) (y >>= g) := by
  intro s log
  obtain ⟨new, hx, hm, hs⟩ := h s log
  rcases hy : y s with ⟨⟨records, failure | a⟩, t⟩
  · rw [hy] at hx hs
    rw [Run.bind_error hx, Run.bind_error hy]
    exact ⟨new, rfl, by omega, hs⟩
  · rw [hy] at hx hs
    rw [Run.bind_ok hx, Run.bind_ok hy]
    obtain ⟨more, hfx, hn, ht⟩ := hf a t (log ++ new)
    refine ⟨new ++ more, ?_, ?_, ?_⟩
    · rw [hfx, List.append_assoc]
    · rw [List.length_append]
      omega
    · intro s₀ h₀
      rw [← List.append_assoc]
      exact ht s₀ (hs s₀ h₀)

theorem perform_watches (stack : List Float) (step : Step) :
    Watches (Step.invoked [step]).length (r.watched.perform stack step) (r.perform stack step) :=
  fun s log => ⟨r.noted stack step s, perform_watched stack step s log, length_noted stack step s,
    fun _ => hostAfter_noted⟩

/-- Watching changes nothing about a performance. -/
theorem performAll_watches (stack : List Float) (steps : List Step) :
    Watches (Step.invoked steps).length (r.watched.performAll stack steps)
      (r.performAll stack steps) := by
  induction steps generalizing stack with
  | nil =>
    intro s log
    exact ⟨[], by simp [performAll_nil, Run.pure_apply], Nat.le_refl _, by
      simp [performAll_nil, Run.pure_apply]⟩
  | cons step steps ih =>
    have split : Step.invoked (step :: steps) = Step.invoked [step] ++ Step.invoked steps :=
      @Step.invoked_append [step] steps
    rw [split, List.length_append, performAll_cons, performAll_cons]
    exact (perform_watches stack step).bind fun stack' => ih stack'

theorem evaluateTokens_eq (r : Registry σ) (tokens : List Token) :
    r.evaluateTokens tokens =
      (fun stack => stack.headD 0) <$> r.performAll [] (Step.ofSequence 0 tokens) := by
  have outside : 0 + nestingLimit = nestingLimit := Nat.zero_add _
  rw [performAll_ofSequence outside, Functor.map_map, evaluateTokens]
  simp

theorem evaluateTokens_fails_iff {failure : Failure} :
    (r.evaluateTokens tokens).Fails s failure t ↔
      (r.performAll [] (Step.ofSequence 0 tokens)).Fails s failure t := by
  rw [evaluateTokens_eq, Run.fails_map_iff]

theorem performAll_of_evaluateTokens {x : Float} (h : (r.evaluateTokens tokens).Returns s x t) :
    ∃ stack, (r.performAll [] (Step.ofSequence 0 tokens)).Returns s stack t := by
  rw [evaluateTokens_eq, Run.returns_map_iff] at h
  obtain ⟨stack, h, -⟩ := h
  exact ⟨stack, h⟩

/-- The first run does what the second does, whatever it notes. -/
def Mirrors {α : Type} (x : Run (σ × List (Invocation σ)) α) (y : Run σ α) : Prop :=
  ∀ s log, ((x (s, log)).1, (x (s, log)).2.1) = y s

section Mirrors

variable {α β : Type} {x : Run (σ × List (Invocation σ)) α} {y : Run σ α}

theorem Watches.mirrors {n : Nat} (h : Watches n x y) : Mirrors x y := by
  intro s log
  obtain ⟨new, hnew, -⟩ := h s log
  rw [hnew]

theorem mirrors_lift (z : Logged α) :
    Mirrors (liftM z : Run (σ × List (Invocation σ)) α) (liftM z) :=
  fun _ _ => rfl

theorem Mirrors.bind {f : α → Run (σ × List (Invocation σ)) β} {g : α → Run σ β}
    (h : Mirrors x y) (hf : ∀ a, Mirrors (f a) (g a)) : Mirrors (x >>= f) (y >>= g) := by
  intro s log
  have hx := h s log
  rcases hxs : x (s, log) with ⟨⟨records, failure | a⟩, t, more⟩
  · rw [hxs] at hx
    rw [Run.bind_error hxs, Run.bind_error hx.symm]
  · rw [hxs] at hx
    have hfa := hf a t more
    rw [Run.bind_ok hxs, Run.bind_ok hx.symm, ← hfa]

theorem Mirrors.map (h : Mirrors x y) (f : α → β) : Mirrors (f <$> x) (f <$> y) := by
  rw [← bind_pure_comp, ← bind_pure_comp]
  exact h.bind fun _ _ _ => rfl

end Mirrors

theorem evaluateTokens_mirrors (r : Registry σ) (tokens : List Token) :
    Mirrors (r.watched.evaluateTokens tokens) (r.evaluateTokens tokens) := by
  rw [evaluateTokens_eq, evaluateTokens_eq]
  exact (performAll_watches [] _).mirrors.map _

theorem evaluate_mirrors (r : Registry σ) (text : String) :
    Mirrors (r.watched.evaluate text) (r.evaluate text) := by
  refine (mirrors_lift _).bind ?_
  intro tokens
  refine (evaluateTokens_mirrors r tokens).bind ?_
  intro value s log
  rfl

theorem performAll_ofTokens_zero (r : Registry σ) (tokens : List Token) :
    r.performAll [] (Step.ofTokens 0 tokens) = r.callValues (r.inner nestingLimit) tokens := by
  have inside : 0 + 1 + 63 = nestingLimit := rfl
  have outermost : 0 < nestingLimit := by decide
  have calls := performAll_call outermost (@performAll_ofSequence σ r 63 (0 + 1) inside)
  rw [performAll_ofTokens calls]
  exact id_map _

theorem postfixWithin_mirrors (r : Registry σ) (tokens : List Token) :
    Mirrors (r.watched.postfixWithin nestingLimit tokens)
      (r.postfixWithin nestingLimit tokens) := by
  rw [postfixWithin_eq, postfixWithin_eq, postfixBy, postfixBy]
  split
  · exact fun _ _ => rfl
  · rw [mapM_resolve_eq_fill, mapM_resolve_eq_fill, ← performAll_ofTokens_zero,
      ← performAll_ofTokens_zero]
    refine ((performAll_watches [] _).mirrors.map _).bind ?_
    intro resolved
    refine (mirrors_lift _).bind ?_
    intro postfixed s log
    rfl

theorem toPostfix_mirrors (r : Registry σ) (text : String) :
    Mirrors (r.watched.toPostfix text) (r.toPostfix text) :=
  (mirrors_lift _).bind (postfixWithin_mirrors r)

end Watching

section Order

/-- An invocation belongs to a call, which is not nested too deeply. It bears the name of the call.
Since the invocations `settled` the arguments of the call were evaluated, from left to right and
without a failure. They were worth the values that the function was invoked on, and they left the
host in the state in which it was invoked. -/
structure Fits (r : Registry σ) (s : σ) (earlier : List (Invocation σ)) (site : Site)
    (i : Invocation σ) : Prop where
  shallow : site.depth < nestingLimit
  name : i.name = site.name
  length : i.values.length = site.arguments.length
  values : ∃ settled, settled <+: earlier ∧
    (site.arguments.mapM (r.watched.valueWithin (nestingLimit - (site.depth + 1)))).Returns
      (Invocation.hostAfter s settled, settled) i.values (i.before, earlier)
  answer : ∃ f, r.get? site.name = some f ∧ f i.values i.before = (i.answer, i.after)

/-- The invocations belong to the calls one by one. -/
inductive Performed (r : Registry σ) (s : σ) : List Site → List (Invocation σ) → Prop
  | nil : Performed r s [] []
  | concat {sites log site i} : Performed r s sites log → r.Fits s log site i →
      Performed r s (sites ++ [site]) (log ++ [i])

theorem Performed.shallow {sites : List Site} (h : r.Performed s sites log) :
    ∀ site ∈ sites, site.depth < nestingLimit := by
  induction h with
  | nil => exact nofun
  | concat _ hf ih =>
    refine List.forall_mem_append.mpr ⟨ih, ?_⟩
    exact List.forall_mem_singleton.mpr hf.shallow

variable {τ : Type} {u v : σ × List (Invocation σ)} {failure : Failure}

theorem hostAfter_of_returns (h : (r.watched.performAll [] steps).Returns (s, []) stack u) :
    Invocation.hostAfter s u.2 = u.1 := by
  obtain ⟨new, hnew, -, hs⟩ := r.performAll_watches [] steps s []
  rw [← h.2, hnew]
  exact hs s rfl

theorem log_isPrefix (stack : List Float) (steps : List Step) (u : σ × List (Invocation σ)) :
    u.2 <+: (r.watched.performAll stack steps u).2.2 := by
  obtain ⟨new, hnew, -⟩ := r.performAll_watches stack steps u.1 u.2
  rw [hnew]
  exact List.prefix_append _ _

/-- Where a call is due to be invoked, its invocation fits. -/
theorem exists_fits (hd : Step.Due before (.invoke site))
    (h : (r.watched.performAll [] before).Returns (s, []) stack u) :
    ∃ i, r.noted stack (.invoke site) u.1 = [i] ∧ r.Fits s u.2 site i ∧
      (r.perform stack (.invoke site) u.1).1.result =
        (fun x => stack.take (stack.length - site.arguments.length) ++ [x]) <$>
          Formula.answer site.name i.answer := by
  obtain ⟨settled, stack₁, w, values, watched, rfl, hsettled, harguments, hvalues, rfl, hd, hf⟩ :=
    exists_arguments hd h
  rw [get?_watched] at hf
  obtain ⟨f, hget, rfl⟩ := Option.map_eq_some_iff.mp hf
  have length : values.length = site.arguments.length := hvalues.length_mapM
  have taken : (stack₁ ++ values).drop ((stack₁ ++ values).length - site.arguments.length) =
      values := by
    simp [← length]
  refine ⟨f.invocation site.name values u.1, ?_,
    ⟨hd, rfl, length, ⟨w.2, ?_, ?_⟩, f, hget, rfl⟩, ?_⟩
  · simp only [noted, hget, taken]
  · rw [← harguments.2]
    exact log_isPrefix stack₁ _ w
  · rw [hostAfter_of_returns hsettled]
    exact hvalues
  · simp only [perform, hget, taken, bind_pure_comp, Run.map_apply, Logged.result_map]
    rw [(answered_apply f site.name values u.1).1]
    rfl

/-- All calls among these steps have been invoked with success. -/
theorem performed_of_returns (ho : Step.InOrder steps)
    (h : (r.watched.performAll [] steps).Returns (s, []) stack u) :
    r.Performed s (Step.invoked steps) u.2 ∧ ∀ i ∈ u.2, i.Succeeded := by
  -- from the last step backwards, since the log grows at its end
  induction steps using List.reverseRecOn generalizing stack u with
  | nil =>
    obtain ⟨-, rfl⟩ := Run.returns_pure_iff.mp h
    exact ⟨.nil, nofun⟩
  | append_singleton steps step ih =>
    rw [performAll_concat] at h
    obtain ⟨stack₁, w, hsteps, hstep⟩ := Run.returns_bind_iff.mp h
    obtain ⟨performed, succeeded⟩ := ih ho.of_append hsteps
    have watched := perform_watched (r := r) stack₁ step w.1 w.2
    have state : u.2 = w.2 ++ r.noted stack₁ step w.1 := by
      rw [← hstep.2, watched]
    rw [Step.invoked_append, state]
    cases step with
    | enter | compute => simpa [Step.invoked, noted] using ⟨performed, succeeded⟩
    | invoke site =>
      obtain ⟨i, hi, fits, hresult⟩ := exists_fits (ho rfl) hsteps
      rw [hi]
      refine ⟨.concat performed fits, List.forall_mem_append.mpr ⟨succeeded, ?_⟩⟩
      have returned := hstep.1
      rw [watched, hresult, map_eq_ok_iff] at returned
      obtain ⟨x, hx, -⟩ := returned
      exact List.forall_mem_singleton.mpr ⟨x, answer_eq_ok_iff.mp hx⟩

/-- The calls up to a step that fails have been invoked, all but the last with success. If it was
an invocation that failed, then it was the last. -/
theorem performed_of_fails (ho : Step.InOrder (before ++ [step]))
    (h : (r.watched.performAll [] before).Returns (s, []) stack u)
    (hf : (r.watched.perform stack step).Fails u failure v) :
    r.Performed s (Step.invoked (before ++ [step])) v.2 ∧
      ∀ earlier i later, v.2 = earlier ++ i :: later →
        i.Succeeded ∨ later = [] ∧ Formula.answer i.name i.answer = .error failure := by
  obtain ⟨performed, succeeded⟩ := performed_of_returns ho.of_append h
  have watched := perform_watched (r := r) stack step u.1 u.2
  have state : v.2 = u.2 ++ r.noted stack step u.1 := by
    rw [← hf.2, watched]
  rw [Step.invoked_append, state]
  cases step with
  | enter | compute =>
    simp only [noted, Step.invoked, List.append_nil]
    refine ⟨by simpa [Step.invoked] using performed, ?_⟩
    intro earlier i later heq
    exact Or.inl (succeeded i (heq ▸ List.mem_append_right _ List.mem_cons_self))
  | invoke site =>
    obtain ⟨i, hi, fits, hresult⟩ := exists_fits (ho rfl) h
    have failed := hf.1
    rw [watched, hresult] at failed
    rw [hi]
    refine ⟨.concat performed fits, ?_⟩
    intro earlier j later heq
    rcases List.eq_nil_or_concat later with rfl | ⟨middle, last, rfl⟩
    · obtain ⟨rfl, hlast⟩ := List.append_inj' heq rfl
      obtain rfl := List.singleton_inj.mp hlast
      refine Or.inr ⟨rfl, ?_⟩
      rw [fits.name]
      exact map_eq_error_iff.mp failed
    · rw [List.concat_eq_append, ← List.cons_append, ← List.append_assoc] at heq
      obtain ⟨hu, -⟩ := List.append_inj' heq rfl
      exact Or.inl (succeeded j (hu ▸ List.mem_append_right _ List.mem_cons_self))

theorem evaluateTokens_state (r : Registry σ) (tokens : List Token) (s : σ) :
    (r.evaluateTokens tokens s).2 = (r.performAll [] (Step.ofSequence 0 tokens) s).2 := by
  rw [evaluateTokens_eq, Run.map_apply]

theorem not_returns_enter {r : Registry τ} {s t : τ}
    (hr : nestingLimit ≤ site.depth ∨ r.get? site.name = none) :
    ¬ (r.perform stack (.enter site)).Returns s stack' t := by
  rw [perform]
  rcases hr with hd | hn
  · rw [if_pos hd]
    exact Run.not_returns_fail
  · rw [hn]
    split <;> exact Run.not_returns_fail

/-- A call that cannot be entered ends the evaluation before anything in its arguments is
invoked. -/
theorem fails_of_refused {xs ys : List Site}
    (h : Site.postorder 0 tokens =
      xs ++ (Site.ofArguments (site.depth + 1) site.arguments ++ site :: ys))
    (hr : nestingLimit ≤ site.depth ∨ r.get? site.name = none) :
    ∃ e u, (r.watched.evaluateTokens tokens).Fails (s, []) e u ∧ u.2.length ≤ xs.length := by
  rw [← List.append_assoc, ← Step.invoked_ofSequence] at h
  obtain ⟨before, after, hsteps, hbefore⟩ := Step.exists_of_invoked h
  obtain ⟨settled, rfl⟩ : Step.Due before (.invoke site) := Step.inOrder_ofSequence 0 tokens hsteps
  rw [Step.invoked_append, Step.invoked_enter_cons, Step.invoked_ofArguments] at hbefore
  have hsettled : Step.invoked settled = xs := List.append_cancel_right hbefore
  have unknown : nestingLimit ≤ site.depth ∨ r.watched.get? site.name = none :=
    hr.imp_right fun hn => by rw [get?_watched, hn, Option.map_none]
  -- so the steps up to its entry fail, and in these only calls before it are invoked
  have ended (stack : List Float) (u : σ × List (Invocation σ)) :
      ¬ (r.watched.performAll [] (settled ++ [.enter site])).Returns (s, []) stack u := by
    rw [performAll_concat, Run.returns_bind_iff]
    rintro ⟨stack', v, -, henter⟩
    exact not_returns_enter unknown henter
  obtain ⟨stack, h⟩ | ⟨e, h⟩ :=
    (r.watched.performAll [] (settled ++ [.enter site])).returns_or_fails (s, [])
  · exact absurd h (ended stack _)
  · refine ⟨e, (r.watched.performAll [] (settled ++ [.enter site]) (s, [])).2,
      evaluateTokens_fails_iff.mpr ?_, ?_⟩
    · rw [hsteps]
      simpa using fails_append h (Step.ofArguments (site.depth + 1) site.arguments ++
        .invoke site :: after)
    · obtain ⟨new, hnew, hlength, -⟩ := r.performAll_watches [] (settled ++ [.enter site]) s []
      rw [Step.invoked_append, hsettled] at hlength
      rw [hnew]
      simpa [Step.invoked] using hlength

/-- What an evaluation has invoked where it computes a sequence. -/
theorem performed_of_compute {inner : List Token}
    (hsteps : Step.ofSequence 0 tokens = before ++ .compute inner :: after)
    (h : (r.watched.performAll [] before).Returns (s, []) stack u) :
    u.2 <+: (r.watched.evaluateTokens tokens (s, [])).2.2 ∧ (∀ i ∈ u.2, i.Succeeded) ∧
      ∃ depth earlier, r.Performed s (earlier ++ Site.postorder depth inner) u.2 := by
  have ordered := Step.inOrder_ofSequence 0 tokens
  have due : Step.Due before (.compute inner) := ordered hsteps
  rw [hsteps] at ordered
  obtain ⟨performed, succeeded⟩ := performed_of_returns ordered.of_append h
  refine ⟨?_, succeeded, ?_⟩
  · rw [evaluateTokens_state, hsteps, performAll_append, Run.bind_apply_of_returns h]
    exact log_isPrefix stack _ u
  · obtain ⟨depth, earlier, rfl⟩ := due
    rw [Step.invoked_append, Step.invoked_ofTokens] at performed
    exact ⟨depth, Step.invoked earlier, performed⟩

/-- An evaluation invokes a first part of its calls, and all of them if it has a value. Only the
last invocation may be without success, and then the evaluation fails as it does. -/
theorem performed_of_evaluateTokens (r : Registry σ) (tokens : List Token) (s : σ) :
    ∃ done pending, Site.postorder 0 tokens = done ++ pending ∧
      r.Performed s done (r.watched.evaluateTokens tokens (s, [])).2.2 ∧
      (∀ x, (r.watched.evaluateTokens tokens (s, [])).1.result = .ok x → pending = []) ∧
      ∀ earlier i later,
        (r.watched.evaluateTokens tokens (s, [])).2.2 = earlier ++ i :: later →
          i.Succeeded ∨ later = [] ∧ ∃ e, Formula.answer i.name i.answer = .error e ∧
            (r.watched.evaluateTokens tokens (s, [])).1.result = .error e := by
  rw [← Step.invoked_ofSequence]
  have ordered := Step.inOrder_ofSequence 0 tokens
  obtain ⟨x, h⟩ | ⟨failure, h⟩ := (r.watched.evaluateTokens tokens).returns_or_fails (s, [])
  · obtain ⟨stack, hall⟩ := performAll_of_evaluateTokens h
    obtain ⟨performed, succeeded⟩ := performed_of_returns ordered hall
    refine ⟨_, [], (List.append_nil _).symm, performed, fun _ _ => rfl, ?_⟩
    intro earlier i later heq
    exact Or.inl (succeeded i (heq ▸ List.mem_append_right _ List.mem_cons_self))
  · obtain ⟨before, step, after, stack, u, hsteps, hbefore, hstep⟩ :=
      performAll_fails_iff.mp (evaluateTokens_fails_iff.mp h)
    have split : Step.ofSequence 0 tokens = (before ++ [step]) ++ after := by
      simp [hsteps]
    rw [split] at ordered
    obtain ⟨performed, last⟩ := performed_of_fails ordered.of_append hbefore hstep
    refine ⟨Step.invoked (before ++ [step]), Step.invoked after, ?_, performed, ?_, ?_⟩
    · rw [split, Step.invoked_append]
    · intro x hx
      cases hx.symm.trans h.1
    · intro earlier i later heq
      refine (last earlier i later heq).imp_right ?_
      rintro ⟨hlater, hi⟩
      exact ⟨hlater, failure, hi, h.1⟩

/-- What is left to say of an evaluation: how its invocations, in the order of the log, and its
outcome go with the steps that it has to perform. -/
structure Orderly (r : Registry σ) (s : σ) (tokens : List Token) (log : List (Invocation σ))
    (outcome : Except Failure Float) : Prop where
  /-- The calls are invoked in postorder, each once and all of them if there is a value. -/
  invoked : ∃ done pending, Site.postorder 0 tokens = done ++ pending ∧ r.Performed s done log ∧
    ∀ x, outcome = .ok x → pending = []
  /-- A function that fails, or answers with no finite number, is the last to be invoked. -/
  answered : ∀ earlier i later, log = earlier ++ i :: later →
    i.Succeeded ∨ later = [] ∧ ∃ e, Formula.answer i.name i.answer = .error e ∧ outcome = .error e
  /-- The outcome is a failure just when it is that of the first step that fails. No function is
  invoked behind it. -/
  failed : ∀ e, outcome = .error e ↔ ∃ before step after stack u t,
    Step.ofSequence 0 tokens = before ++ step :: after ∧
      (r.watched.performAll [] before).Returns (s, []) stack u ∧
      (r.watched.perform stack step).Fails u e (t, log)
  /-- A call that is nested too deeply, or by an unknown name, fails before anything in its
  arguments is invoked. -/
  refused : ∀ site before after, Site.postorder 0 tokens =
      before ++ (Site.ofArguments (site.depth + 1) site.arguments ++ site :: after) →
    nestingLimit ≤ site.depth ∨ r.get? site.name = none →
      log.length ≤ before.length ∧ ∃ e, outcome = .error e
  /-- Where a sequence is computed, all its calls have just been invoked with success. -/
  computed : ∀ before inner after stack u,
    Step.ofSequence 0 tokens = before ++ .compute inner :: after →
      (r.watched.performAll [] before).Returns (s, []) stack u →
        u.2 <+: log ∧ (∀ i ∈ u.2, i.Succeeded) ∧
          ∃ depth earlier, r.Performed s (earlier ++ Site.postorder depth inner) u.2

/-- Whatever the functions of the host do, an evaluation performs its steps and invokes them in
order: watching it changes nothing, and shows each call invoked at most once, behind its arguments
and on their values. -/
theorem evaluateTokens_orderly (r : Registry σ) (tokens : List Token) (s : σ) :
    r.evaluateTokens tokens =
        (fun stack => stack.headD 0) <$> r.performAll [] (Step.ofSequence 0 tokens) ∧
      ((r.watched.evaluateTokens tokens (s, [])).1,
          (r.watched.evaluateTokens tokens (s, [])).2.1) = r.evaluateTokens tokens s ∧
      r.Orderly s tokens (r.watched.evaluateTokens tokens (s, [])).2.2
        (r.evaluateTokens tokens s).1.result := by
  have watched := evaluateTokens_mirrors r tokens s []
  refine ⟨evaluateTokens_eq r tokens, watched, ?_⟩
  rw [← watched]
  obtain ⟨done, pending, hcalls, performed, complete, last⟩ :=
    performed_of_evaluateTokens r tokens s
  refine ⟨⟨done, pending, hcalls, performed, complete⟩, last, ?_, ?_, ?_⟩
  · intro e
    constructor
    · intro h
      obtain ⟨before, step, after, stack, u, hsteps, hbefore, hstep⟩ :=
        performAll_fails_iff.mp (evaluateTokens_fails_iff.mp ⟨h, rfl⟩)
      exact ⟨before, step, after, stack, u, _, hsteps, hbefore, hstep⟩
    · rintro ⟨before, step, after, stack, u, t, hsteps, hbefore, hstep⟩
      have h := performAll_fails_iff.mpr ⟨before, step, after, stack, u, hsteps, hbefore, hstep⟩
      exact (evaluateTokens_fails_iff.mpr h).1
  · intro site before after heq hr
    obtain ⟨e, u, h, hlength⟩ := fails_of_refused heq hr
    rw [← h.2] at hlength
    exact ⟨hlength, e, h.1⟩
  · intro before inner after stack u hsteps hbefore
    exact performed_of_compute hsteps hbefore

end Order

end Registry

end Reckoner
