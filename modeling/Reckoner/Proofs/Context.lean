import Reckoner.Proofs.Agenda

/-! A part of a sequence may be replaced by its value, whatever stands around it. -/
namespace Reckoner

namespace Postfix

variable {op : Operator} {st pending : List Pending} {stack below : List Float} {v : Float}
  {before inner after out released ts us xs ys : List Token} {rest : List Pending}

theorem release_paren (op : Operator) (st pending : List Pending) :
    release op (st ++ .paren :: pending) =
      ((release op st).1, (release op st).2 ++ .paren :: pending) := by
  induction st with
  | nil => rfl
  | cons top st ih =>
    cases top with
    | paren => rfl
    | operator q =>
      by_cases h : op.precedence ≤ q.precedence
      · simp only [List.cons_append, release, h, if_true, ih]
      · simp only [List.cons_append, release, h, if_false]

theorem close_append_of_ok (h : close st = .ok (released, rest)) (pending : List Pending) :
    close (st ++ pending) = .ok (released, rest ++ pending) := by
  induction st generalizing released with
  | nil => cases h
  | cons top st ih =>
    cases top with
    | paren =>
      obtain ⟨rfl, rfl⟩ := Prod.mk.inj (Except.ok.inj h)
      rfl
    | operator q =>
      obtain ⟨⟨_, _⟩, hclose, heq⟩ := map_eq_ok_iff.mp h
      obtain ⟨rfl, rfl⟩ := Prod.mk.inj heq
      rw [List.cons_append, close, ih hclose]
      rfl

theorem close_of_drain (h : drain st = .ok out) (pending : List Pending) :
    close (st ++ .paren :: pending) = .ok (out, pending) := by
  induction st generalizing out with
  | nil =>
    obtain rfl := Except.ok.inj h
    rfl
  | cons top st ih =>
    cases top with
    | paren => cases h
    | operator q =>
      obtain ⟨out, hdrain, rfl⟩ := map_eq_ok_iff.mp h
      rw [List.cons_append, close, ih hdrain]
      rfl

/-- What can be ordered on its own can be ordered inside parentheses. It comes out as one piece, and
what waits outside is left as it is. -/
theorem order_group (h : order st inner = .ok out) (pending : List Pending) (after : List Token) :
    order (st ++ .paren :: pending) (inner ++ .rightParen :: after) =
      (out ++ ·) <$> order pending after := by
  -- the open parenthesis stays below all that the inner tokens leave waiting
  induction inner generalizing st out with
  | nil =>
    rw [order] at h
    rw [List.nil_append, order, close_of_drain h]
    rfl
  | cons token inner ih =>
    cases token with
    | operand x =>
      obtain ⟨out, hinner, rfl⟩ := map_eq_ok_iff.mp h
      rw [List.cons_append, order, ih hinner]
      simp
    | leftParen => exact ih h
    | rightParen =>
      obtain ⟨⟨released, rest⟩, hclose, h⟩ := bind_eq_ok_iff.mp h
      obtain ⟨out, hinner, rfl⟩ := map_eq_ok_iff.mp h
      calc order (st ++ .paren :: pending) (.rightParen :: inner ++ .rightParen :: after)
          = (released ++ ·) <$>
              order (rest ++ .paren :: pending) (inner ++ .rightParen :: after) := by
            rw [List.cons_append, order, close_append_of_ok hclose]
            rfl
        _ = (released ++ out ++ ·) <$> order pending after := by
            rw [ih hinner]
            simp
    | operator op =>
      obtain ⟨out, hinner, rfl⟩ := map_eq_ok_iff.mp h
      calc order (st ++ .paren :: pending) (.operator op :: inner ++ .rightParen :: after)
          = ((release op st).1 ++ ·) <$> order (.operator op :: (release op st).2 ++
              .paren :: pending) (inner ++ .rightParen :: after) := by
            rw [List.cons_append, order, release_paren]
            rfl
        _ = ((release op st).1 ++ out ++ ·) <$> order pending after := by
            rw [ih hinner]
            simp
    | call => cases h

/-- A sequence that has a value leaves it on any stack. -/
theorem run_append_of_ok (h : (run stack ts).result = .ok v) (below : List Float)
    (rest : List Token) :
    (run (stack ++ below) (ts ++ rest)).result = (run (v :: below) rest).result := by
  induction ts generalizing stack with
  | nil =>
    obtain rfl : stack = [v] := by
      rcases stack with _ | ⟨x, _ | _⟩
      · cases h
      · exact congrArg (fun x => [x]) (Except.ok.inj h)
      · cases h
    rfl
  | cons token ts ih =>
    cases token with
    | operand x => exact ih h
    | operator op =>
      rcases stack with _ | ⟨right, _ | ⟨left, stack⟩⟩
      · cases h
      · cases h
      · rw [result_run_operator] at h
        obtain ⟨x, hx, h⟩ := bind_eq_ok_iff.mp h
        rw [List.cons_append, List.cons_append, List.cons_append, result_run_operator, hx]
        exact ih h
    | leftParen | rightParen | call => cases h

/-- From every stack both come to the same. -/
def Equivalent (ts us : List Token) : Prop := ∀ stack, (run stack ts).result = (run stack us).result

theorem Equivalent.append (h : Equivalent ts us) (out : List Token) :
    Equivalent (out ++ ts) (out ++ us) := by
  intro stack
  induction out generalizing stack with
  | nil => exact h stack
  | cons token out ih =>
    cases token with
    | operand x => exact ih (x :: stack)
    | operator op =>
      rcases stack with _ | ⟨right, _ | ⟨left, stack⟩⟩
      · rfl
      · rfl
      · rw [List.cons_append, List.cons_append, result_run_operator, result_run_operator]
        simp only [ih]
    | leftParen | rightParen | call => rfl

/-- Infix sequences that come out equivalent, or fail alike, behind whatever waits. -/
def Interchangeable (xs ys : List Token) : Prop :=
  ∀ pending, Alike Equivalent (order pending xs) (order pending ys)

theorem Interchangeable.refl (xs : List Token) : Interchangeable xs xs := by
  intro pending
  cases order pending xs with
  | error => exact .error
  | ok => exact .ok fun _ => rfl

theorem Interchangeable.append (h : Interchangeable xs ys) (before : List Token) :
    Interchangeable (before ++ xs) (before ++ ys) := by
  intro pending
  induction before generalizing pending with
  | nil => exact h pending
  | cons token before ih =>
    cases token with
    | operand x => exact (ih pending).map fun _ _ he => he.append [.operand x]
    | leftParen => exact ih (.paren :: pending)
    | rightParen =>
      simp only [List.cons_append, order]
      cases close pending with
      | error => exact .error
      | ok closed => exact (ih closed.2).map fun _ _ he => he.append closed.1
    | operator op =>
      have := ih (.operator op :: (release op pending).2)
      exact this.map fun _ _ he => he.append (release op pending).1
    | call => exact .error

theorem Interchangeable.value_eq (h : Interchangeable xs ys) :
    (ofInfix xs >>= fun ps => (value ps).result) = ofInfix ys >>= fun ps => (value ps).result := by
  have ordered := h []
  rw [ofInfix, ofInfix]
  generalize order [] xs = x at ordered
  generalize order [] ys = y at ordered
  cases ordered with
  | error => rfl
  | ok he => exact he []

/-- In parentheses a sequence stands for its value. -/
theorem interchangeable_group {ps : List Token} (ho : ofInfix inner = .ok ps)
    (hv : (value ps).result = .ok v) (after : List Token) :
    Interchangeable (.leftParen :: (inner ++ .rightParen :: after)) (.operand v :: after) := by
  intro pending
  have group : order pending (.leftParen :: (inner ++ .rightParen :: after)) =
      (ps ++ ·) <$> order pending after := order_group ho pending after
  rw [group, order]
  cases order pending after with
  | error => exact .error
  | ok rest => exact .ok fun stack => run_append_of_ok hv stack rest

end Postfix

namespace Run

variable {σ α β : Type} {x y : Run σ α} {f g : α → Run σ β}

/-- Both answer the same, from whatever states. -/
def Agrees (x y : Run σ α) : Prop := ∀ s t, (x s).1.result = (y t).1.result

theorem agrees_pure (a : α) : (pure a : Run σ α).Agrees (pure a) := fun _ _ => rfl

theorem agrees_lift {z w : Logged α} (h : z.result = w.result) :
    (liftM z : Run σ α).Agrees (liftM w) :=
  fun _ _ => h

theorem Agrees.bind (h : x.Agrees y) (hfg : ∀ a, (f a).Agrees (g a)) :
    (x >>= f).Agrees (y >>= g) := by
  intro s t
  have heq := h s t
  rcases hx : x s with ⟨⟨_, failure | a⟩, s'⟩
  all_goals
    rcases hy : y t with ⟨⟨_, failure' | b⟩, t'⟩
    all_goals rw [hx, hy] at heq
  · rw [bind_error hx, bind_error hy, Except.error.inj heq]
  · cases heq
  · cases heq
  · obtain rfl := Except.ok.inj heq
    rw [bind_ok hx, bind_ok hy]
    exact hfg a s' t'

/-- Where the value of the first part is known, it may be left out. -/
theorem Agrees.bind_of_ok {a : α} {z : Run σ β} {s : σ} (h : x.Agrees x)
    (hs : (x s).1.result = .ok a) (hf : (f a).Agrees z) : (x >>= f).Agrees z := by
  intro t u
  have heq := h t s
  rw [hs] at heq
  rcases hx : x t with ⟨⟨_, failure | b⟩, t'⟩
  · rw [hx] at heq
    cases heq
  · rw [hx] at heq
    obtain rfl := Except.ok.inj heq
    rw [bind_ok hx]
    exact hf t' u

theorem Agrees.map (h : x.Agrees y) (f : α → β) : (f <$> x).Agrees (f <$> y) := by
  intro s t
  rw [map_apply, map_apply, Logged.result_map, Logged.result_map, h s t]

theorem agrees_mapM {f : α → Run σ β} (h : ∀ a, (f a).Agrees (f a)) (as : List α) :
    (as.mapM f).Agrees (as.mapM f) := by
  induction as with
  | nil => exact agrees_pure []
  | cons a as ih =>
    rw [List.mapM_cons]
    refine (h a).bind ?_
    intro b
    refine ih.bind ?_
    intro bs
    exact agrees_pure (b :: bs)

end Run

namespace Registry

variable {σ : Type} {r : Registry σ} {functions : Functions} {levels : Nat} {v : Float}
  {evaluate : Option (List Token → Run σ Float)} {inner resolved : List Token}

section Pure

/-- Functions that look at their arguments only give a call one answer. -/
theorem call_agrees (hr : r.Serves functions)
    (h : ∀ f, evaluate = some f → ∀ tokens, (f tokens).Agrees (f tokens)) (name : String)
    (arguments : List (List Token)) :
    (r.call evaluate name arguments).Agrees (r.call evaluate name arguments) := by
  cases evaluate with
  | none => exact fun _ _ => rfl
  | some evaluate =>
    have served := hr name
    cases hname : r.get? name with
    | none =>
      rw [call_of_get?_eq_none hname]
      exact fun _ _ => rfl
    | some callable =>
      rw [hname] at served
      cases hf : functions name with
      | none =>
        rw [hf] at served
        cases served
      | some f =>
        rw [hf] at served
        cases served with
        | some served =>
          rw [call_eq hname]
          refine (Run.agrees_mapM (h evaluate rfl) arguments).bind ?_
          intro values s t
          rw [(answered_apply callable name values s).1, (answered_apply callable name values t).1,
            served values s, served values t]

theorem resolve_agrees (hr : r.Serves functions)
    (h : ∀ f, evaluate = some f → ∀ tokens, (f tokens).Agrees (f tokens)) (token : Token) :
    (r.resolve evaluate token).Agrees (r.resolve evaluate token) := by
  cases token with
  | call name arguments => exact (call_agrees hr h name arguments).map _
  | operand | operator | leftParen | rightParen => exact Run.agrees_pure _

theorem inner_agrees (hr : r.Serves functions) (levels : Nat) :
    ∀ f, r.inner levels = some f → ∀ tokens, (f tokens).Agrees (f tokens) := by
  induction levels with
  | zero => exact nofun
  | succ levels ih =>
    rintro f ⟨⟩ tokens
    rw [valueWithin_eq_mapM]
    refine (Run.agrees_mapM (resolve_agrees hr ih) tokens).bind ?_
    intro resolved
    exact Run.agrees_lift rfl

end Pure

/-- What comes out as a value once its calls are replaced may be replaced by that value. -/
theorem valueWithin_agrees_of_interchangeable (hr : r.Serves functions) {part : List Token}
    {s t : σ} (hp : (part.mapM (r.resolve (r.inner levels))).Returns s resolved t)
    (hn : part ≠ [])
    (hi : ∀ after, Postfix.Interchangeable (resolved ++ after) (.operand v :: after))
    (before after : List Token) :
    (r.valueWithin levels (before ++ (part ++ after))).Agrees
      (r.valueWithin levels (before ++ .operand v :: after)) := by
  have resolving := Run.agrees_mapM (resolve_agrees hr (inner_agrees hr levels))
  simp only [valueWithin_eq_mapM, List.mapM_append, List.mapM_cons, bind_assoc, resolve, pure_bind]
  refine (resolving before).bind ?_
  intro befores
  -- resolving the part may change the state of the host, which no answer behind it depends on
  refine (resolving part).bind_of_ok hp.1 ?_
  refine (resolving after).bind ?_
  intro afters
  refine Run.agrees_lift ?_
  rw [result_computed, result_computed, if_neg (by simp [hn]), if_neg (by simp)]
  exact ((hi afters).append befores).value_eq

theorem ordered_of_computed {tokens : List Token} (h : (computed tokens resolved).result = .ok v) :
    ∃ ps, Postfix.ofInfix resolved = .ok ps ∧ (Postfix.value ps).result = .ok v := by
  rw [result_computed] at h
  split at h
  · cases h
  · exact bind_eq_ok_iff.mp h

theorem exists_resolved_group {s : σ} (h : (r.valueWithin levels inner s).1.result = .ok v) :
    ∃ resolved t,
      ((Token.leftParen :: (inner ++ [.rightParen])).mapM (r.resolve (r.inner levels))).Returns s
        resolved t ∧
      ∀ after, Postfix.Interchangeable (resolved ++ after) (.operand v :: after) := by
  have returned : (r.valueWithin levels inner).Returns s v _ := ⟨h, rfl⟩
  rw [valueWithin_eq_mapM] at returned
  obtain ⟨resolved, t, hresolved, hcomputed⟩ := Run.returns_bind_iff.mp returned
  obtain ⟨ps, hordered, hvalue⟩ := ordered_of_computed hcomputed.1
  have group : (Token.leftParen :: (inner ++ [.rightParen])).mapM (r.resolve (r.inner levels)) =
      (fun ts => .leftParen :: (ts ++ [.rightParen])) <$>
        inner.mapM (r.resolve (r.inner levels)) := by
    simp [resolve]
  refine ⟨.leftParen :: (resolved ++ [.rightParen]), t, ?_, ?_⟩
  · rw [group]
    exact Run.returns_map_iff.mpr ⟨resolved, hresolved, rfl⟩
  · intro after
    simpa using Postfix.interchangeable_group hordered hvalue after

/-- Wherever a sequence in parentheses stands, and be the whole as ungrammatical as it may, it can
be replaced by the value of the sequence, and a call by its value. -/
theorem valueWithin_in_context (hr : r.Serves functions) (levels : Nat) (before after : List Token)
    (v : Float) :
    (∀ inner s₀, (r.valueWithin levels inner s₀).1.result = .ok v → ∀ s,
        (r.valueWithin levels
            (before ++ .leftParen :: (inner ++ .rightParen :: after)) s).1.result =
          (r.valueWithin levels (before ++ .operand v :: after) s).1.result) ∧
      ∀ name arguments s₀,
        (r.resolve (r.inner levels) (.call name arguments) s₀).1.result = .ok (.operand v) → ∀ s,
          (r.valueWithin levels (before ++ .call name arguments :: after) s).1.result =
            (r.valueWithin levels (before ++ .operand v :: after) s).1.result := by
  refine ⟨fun inner s₀ h s => ?_, fun name arguments s₀ h s => ?_⟩
  · obtain ⟨resolved, t, hresolved, hi⟩ := exists_resolved_group h
    have := valueWithin_agrees_of_interchangeable hr hresolved (by simp) hi before after s s
    simpa using this
  · have single : ([Token.call name arguments].mapM (r.resolve (r.inner levels))).Returns s₀
        [.operand v] (r.resolve (r.inner levels) (.call name arguments) s₀).2 := by
      rw [List.mapM_cons, List.mapM_nil]
      exact Run.returns_bind_iff.mpr ⟨_, _, ⟨h, rfl⟩, Run.returns_pure_iff.mpr ⟨rfl, rfl⟩⟩
    have same : ∀ after, Postfix.Interchangeable ([.operand v] ++ after) (.operand v :: after) :=
      fun after => .refl _
    exact valueWithin_agrees_of_interchangeable hr single (by simp) same before after s s

theorem valueWithin_in_context_of_half :
    let r := (empty : Registry Unit).register "half"
      (Callable.ofFunction fun values => .ok (values.headD 0 / 2))
    (r.valueWithin nestingLimit [.operator .multiply, .leftParen, .call "half" [[.operand 5.0]],
          .operator .add, .operand 1.0, .rightParen, .rightParen] ()).1.result =
        (r.valueWithin nestingLimit
          [.operator .multiply, .operand 3.5, .rightParen] ()).1.result ∧
      (r.valueWithin nestingLimit
          [.operator .multiply, .call "half" [[.operand 5.0]], .rightParen] ()).1.result =
        (r.valueWithin nestingLimit
          [.operator .multiply, .operand 2.5, .rightParen] ()).1.result := by
  intro r
  have served : r.Serves _ :=
    serves_empty.register "half" fun values => .ok (values.headD 0 / 2)
  have sum : (r.valueWithin nestingLimit
      [.call "half" [[.operand 5.0]], .operator .add, .operand 1.0] ()).1.result = .ok 3.5 := by
    decide +kernel
  have half : (r.call (r.inner nestingLimit) "half" [[.operand 5.0]] ()).1.result = .ok 2.5 := by
    decide +kernel
  have resolved : (r.resolve (r.inner nestingLimit) (.call "half" [[.operand 5.0]]) ()).1.result =
      .ok (.operand 2.5) := by
    rw [resolve, Run.map_apply, Logged.result_map, half]
    rfl
  have around (v : Float) :=
    valueWithin_in_context served nestingLimit [.operator .multiply] [.rightParen] v
  exact ⟨(around 3.5).1 _ () sum (), (around 2.5).2 _ _ () resolved ()⟩

end Registry

end Reckoner
