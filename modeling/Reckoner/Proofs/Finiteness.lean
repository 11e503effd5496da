import Reckoner.Proofs.Invocations
import Reckoner.Proofs.Ordering.Steps

/-! Only finite numbers are passed on, whatever the functions of the host answer. -/
namespace Reckoner

variable {σ τ α β : Type}

namespace Token

/-- All operands are finite, however deep in calls. -/
inductive IsFinite : Token → Prop
  | operand {x : Float} : x.isFinite → IsFinite (.operand x)
  | operator {op : Operator} : IsFinite (.operator op)
  | leftParen : IsFinite .leftParen
  | rightParen : IsFinite .rightParen
  | call {name : String} {arguments : List (List Token)} :
      (∀ argument ∈ arguments, ∀ token ∈ argument, IsFinite token) →
      IsFinite (.call name arguments)

theorem isFinite_of_writable {levels : Nat} {token : Token} (h : Writable levels token) :
    token.IsFinite := by
  induction h with
  | operand hx => exact .operand hx
  | operator => exact .operator
  | leftParen => exact .leftParen
  | rightParen => exact .rightParen
  | call _ _ _ ih => exact .call ih

theorem IsFinite.operand_isFinite {x : Float} (h : IsFinite (.operand x)) : x.isFinite := by
  cases h with
  | operand h => exact h

theorem isFinite_of_tokenizeExpression {text : String} {tokens : List Token}
    (h : (tokenizeExpression text).result = .ok tokens) : ∀ token ∈ tokens, token.IsFinite :=
  fun token ht => isFinite_of_writable ((Scan.tokenizeExpression_eq_ok_iff.mp h).writable token ht)

theorem isFinite_of_tokenize {text : String} {tokens : List Token}
    (h : (tokenize text).result = .ok tokens) : ∀ token ∈ tokens, token.IsFinite :=
  fun token ht => isFinite_of_writable ((wellFormed_of_tokenize h).writable token ht)

end Token

/-- All operands outside calls are finite. -/
def FiniteOperands (tokens : List Token) : Prop := ∀ x, .operand x ∈ tokens → x.isFinite

theorem Operator.isFinite_of_combine {op : Operator} {left right x : Float}
    (h : op.combine left right = .ok x) : x.isFinite := by
  rw [combine_eq_reduce, reduce] at h
  split at h
  · cases h
  · split at h
    next finite =>
      obtain rfl := Except.ok.inj h
      exact finite
    · cases h

namespace Postfix

variable {tokens ts : List Token} {stack stack' : List Float} {x : Float}

theorem finiteOperands_of_ofInfix (h : ofInfix tokens = .ok ts) (hf : FiniteOperands tokens) :
    FiniteOperands ts :=
  fun x hx => hf x (mem_of_ofInfix h hx)

/-- The stacks that a run comes to, and what is then left to be run. -/
inductive Reaches (stack : List Float) (tokens : List Token) : List Float → List Token → Prop
  | start : Reaches stack tokens stack tokens
  | operand {st x rest} : Reaches stack tokens st (.operand x :: rest) →
      Reaches stack tokens (x :: st) rest
  | operator {left right below op rest x} :
      Reaches stack tokens (right :: left :: below) (.operator op :: rest) →
      op.combine left right = .ok x → Reaches stack tokens (x :: below) rest

/-- A run goes on from every stack that it comes to. -/
theorem Reaches.result_eq (h : Reaches stack tokens stack' ts) :
    (run stack tokens).result = (run stack' ts).result := by
  induction h with
  | start => rfl
  | operand _ ih => exact ih
  | operator _ hx ih =>
    rw [ih, result_run_operator, hx]
    rfl

/-- A run that has a value comes to the stack that holds just this value. -/
theorem Reaches.of_ok (h : Reaches stack tokens stack' ts) (hv : (run stack' ts).result = .ok x) :
    Reaches stack tokens [x] [] := by
  induction ts generalizing stack' with
  | nil =>
    obtain rfl : stack' = [x] := by
      rcases stack' with _ | ⟨y, _ | _⟩
      · cases hv
      · exact congrArg (fun y => [y]) (Except.ok.inj hv)
      · cases hv
    exact h
  | cons token ts ih =>
    cases token with
    | operand y => exact ih h.operand hv
    | operator op =>
      rcases stack' with _ | ⟨right, _ | ⟨left, below⟩⟩
      · cases hv
      · cases hv
      · rw [result_run_operator] at hv
        obtain ⟨y, hy, hv⟩ := bind_eq_ok_iff.mp hv
        exact ih (h.operator hy) hv
    | leftParen | rightParen | call => cases hv

/-- On the stack there are finite numbers only, at every step. -/
theorem Reaches.isFinite (h : Reaches [] tokens stack ts) (hf : FiniteOperands tokens) :
    (∀ x ∈ stack, x.isFinite) ∧ FiniteOperands ts := by
  induction h with
  | start => exact ⟨nofun, hf⟩
  | @operand st x rest _ ih =>
    obtain ⟨hst, hrest⟩ := ih
    refine ⟨List.forall_mem_cons.mpr ⟨hrest x List.mem_cons_self, hst⟩, ?_⟩
    exact fun y hy => hrest y (List.mem_cons_of_mem _ hy)
  | @operator left right below op rest x _ hx ih =>
    obtain ⟨hst, hrest⟩ := ih
    refine ⟨List.forall_mem_cons.mpr ⟨op.isFinite_of_combine hx, ?_⟩, ?_⟩
    · exact fun y hy => hst y (List.mem_cons_of_mem _ (List.mem_cons_of_mem _ hy))
    · exact fun y hy => hrest y (List.mem_cons_of_mem _ hy)

theorem isFinite_of_value (h : (value tokens).result = .ok x) (hf : FiniteOperands tokens) :
    x.isFinite := by
  have last : Reaches [] tokens [x] [] := Reaches.start.of_ok h
  exact (last.isFinite hf).1 x List.mem_cons_self

end Postfix

namespace Run

variable {I : τ → Prop} {P P' : α → Prop} {Q : β → Prop} {x : Run τ α} {f : α → Run τ β}

/-- The invariant `I` of the host is kept, and a value has the property `P`. -/
def Keeps (I : τ → Prop) (P : α → Prop) (x : Run τ α) : Prop :=
  ∀ s, I s → I (x s).2 ∧ ∀ a, (x s).1.result = .ok a → P a

theorem keeps_pure {a : α} (h : P a) : (pure a : Run τ α).Keeps I P := by
  refine fun s hs => ⟨hs, ?_⟩
  rintro a ⟨⟩
  exact h

theorem keeps_fail {failure : Failure} : (Run.fail failure : Run τ α).Keeps I P :=
  fun _ hs => ⟨hs, nofun⟩

theorem keeps_lift {z : Logged α} (h : ∀ a, z.result = .ok a → P a) :
    (liftM z : Run τ α).Keeps I P :=
  fun _ hs => ⟨hs, h⟩

theorem Keeps.mono (h : x.Keeps I P) (hP : ∀ a, P a → P' a) : x.Keeps I P' :=
  fun s hs => ⟨(h s hs).1, fun a ha => hP a ((h s hs).2 a ha)⟩

theorem Keeps.bind (hx : x.Keeps I P) (hf : ∀ a, P a → (f a).Keeps I Q) :
    (x >>= f).Keeps I Q := by
  intro s hs
  obtain ⟨hstate, hvalue⟩ := hx s hs
  rcases h : x s with ⟨⟨records, failure | a⟩, t⟩
  · rw [h] at hstate
    rw [bind_error h]
    exact ⟨hstate, nofun⟩
  · rw [h] at hstate hvalue
    rw [bind_ok h]
    exact hf a (hvalue a rfl) t hstate

theorem Keeps.emit {record : Record} {x : Run τ α} (h : x.Keeps I P) :
    (do Run.emit record; x : Run τ α).Keeps I P := by
  have recorded : (Run.emit record : Run τ Unit).Keeps I fun _ => True :=
    fun _ hs => ⟨hs, fun _ _ => trivial⟩
  exact recorded.bind fun _ _ => h

theorem Keeps.map {g : α → β} (h : x.Keeps I P) (hg : ∀ a, P a → Q (g a)) :
    (g <$> x).Keeps I Q := by
  rw [← bind_pure_comp]
  exact h.bind fun a ha => keeps_pure (hg a ha)

theorem keeps_mapM {g : β → Run τ α} {bs : List β} (h : ∀ b ∈ bs, (g b).Keeps I P) :
    (bs.mapM g).Keeps I fun as => ∀ a ∈ as, P a := by
  induction bs with
  | nil => exact keeps_pure nofun
  | cons b bs ih =>
    obtain ⟨hb, hbs⟩ := List.forall_mem_cons.mp h
    rw [List.mapM_cons]
    refine hb.bind ?_
    intro a ha
    refine (ih hbs).bind ?_
    intro as has
    exact keeps_pure (List.forall_mem_cons.mpr ⟨ha, has⟩)

end Run

namespace Registry

section Stages

variable {r : Registry τ} {I : τ → Prop} {tokens : List Token} {token : Token}
  {evaluate : Option (List Token → Run τ Float)}

/-- What functions do that are invoked on finite values keeps the invariant `I`. -/
def KeepsOnFinite (r : Registry τ) (I : τ → Prop) : Prop :=
  ∀ name f values, r.get? name = some f → (∀ x ∈ values, x.isFinite) →
    (answered name f values).Keeps I fun x => x.isFinite

/-- So does evaluating arguments whose operands are finite, and their values are finite. -/
def EvaluatesFinite (I : τ → Prop) (evaluate : Option (List Token → Run τ Float)) : Prop :=
  ∀ f, evaluate = some f → ∀ tokens, (∀ token ∈ tokens, token.IsFinite) →
    (f tokens).Keeps I fun x => x.isFinite

theorem call_keeps (hr : r.KeepsOnFinite I) (h : EvaluatesFinite I evaluate) {name : String}
    {arguments : List (List Token)}
    (ha : ∀ argument ∈ arguments, ∀ token ∈ argument, token.IsFinite) :
    (r.call evaluate name arguments).Keeps I fun x => x.isFinite := by
  cases evaluate with
  | none => exact Run.keeps_fail
  | some evaluate =>
    cases hf : r.get? name with
    | none =>
      rw [call_of_get?_eq_none hf]
      exact Run.keeps_fail
    | some f =>
      rw [call_eq hf]
      have arguments_keep : (arguments.mapM evaluate).Keeps I fun xs => ∀ x ∈ xs, x.isFinite :=
        Run.keeps_mapM fun argument hmem => h evaluate rfl argument (ha argument hmem)
      refine arguments_keep.bind ?_
      intro values hvalues
      exact hr name f values hf hvalues

theorem resolve_keeps (hr : r.KeepsOnFinite I) (h : EvaluatesFinite I evaluate)
    (ht : token.IsFinite) : (r.resolve evaluate token).Keeps I Token.IsFinite := by
  cases ht with
  | operand hx => exact Run.keeps_pure (.operand hx)
  | operator => exact Run.keeps_pure .operator
  | leftParen => exact Run.keeps_pure .leftParen
  | rightParen => exact Run.keeps_pure .rightParen
  | call ha => exact (call_keeps hr h ha).map fun _ hx => .operand hx

theorem resolveAll_keeps (hr : r.KeepsOnFinite I) (h : EvaluatesFinite I evaluate)
    (ht : ∀ token ∈ tokens, token.IsFinite) :
    (r.resolveAll evaluate tokens).Keeps I FiniteOperands :=
  (Run.keeps_mapM fun token hmem => resolve_keeps hr h (ht token hmem)).mono
    fun _ hts _ hx => (hts _ hx).operand_isFinite

theorem postfixBy_keeps (hr : r.KeepsOnFinite I) (h : EvaluatesFinite I evaluate)
    (ht : ∀ token ∈ tokens, token.IsFinite) :
    (r.postfixBy evaluate tokens).Keeps I FiniteOperands := by
  rw [postfixBy]
  split
  · exact Run.keeps_fail
  · refine (resolveAll_keeps hr h ht).bind ?_
    intro ts hts
    have ordered : (liftM (Logged.ofExcept (Postfix.ofInfix ts)) : Run τ (List Token)).Keeps I
        FiniteOperands :=
      Run.keeps_lift fun ps hps => Postfix.finiteOperands_of_ofInfix hps hts
    refine ordered.bind ?_
    intro ps hps
    exact Run.Keeps.emit (Run.Keeps.emit (Run.keeps_pure hps))

/-- By induction on the levels that are left for calls. -/
theorem inner_keeps (hr : r.KeepsOnFinite I) (levels : Nat) :
    EvaluatesFinite I (r.inner levels) := by
  induction levels with
  | zero => exact nofun
  | succ levels ih =>
    rintro f ⟨⟩ tokens ht
    rw [valueWithin_eq, postfixWithin_eq]
    refine (postfixBy_keeps hr ih ht).bind ?_
    intro ps hps
    exact Run.keeps_lift fun x hx => Postfix.isFinite_of_value hx hps

theorem valueWithin_keeps (hr : r.KeepsOnFinite I) (levels : Nat)
    (ht : ∀ token ∈ tokens, token.IsFinite) :
    (r.valueWithin levels tokens).Keeps I fun x => x.isFinite :=
  inner_keeps hr (levels + 1) _ rfl tokens ht

theorem postfixWithin_keeps (hr : r.KeepsOnFinite I) (levels : Nat)
    (ht : ∀ token ∈ tokens, token.IsFinite) :
    (r.postfixWithin levels tokens).Keeps I FiniteOperands := by
  rw [postfixWithin_eq]
  exact postfixBy_keeps hr (inner_keeps hr levels) ht

theorem tokenizeExpression_keeps (text : String) :
    (liftM (tokenizeExpression text) : Run τ (List Token)).Keeps I
      fun tokens => ∀ token ∈ tokens, token.IsFinite :=
  Run.keeps_lift fun _ => Token.isFinite_of_tokenizeExpression

theorem toPostfix_keeps (hr : r.KeepsOnFinite I) (text : String) :
    (r.toPostfix text).Keeps I FiniteOperands := by
  refine (tokenizeExpression_keeps text).bind ?_
  intro tokens ht
  exact postfixWithin_keeps hr nestingLimit ht

theorem evaluate_keeps (hr : r.KeepsOnFinite I) (text : String) :
    (r.evaluate text).Keeps I fun x => x.isFinite := by
  refine (tokenizeExpression_keeps text).bind ?_
  intro tokens ht
  refine (valueWithin_keeps hr nestingLimit ht).bind ?_
  intro x hx
  exact Run.Keeps.emit (Run.keeps_pure hx)

end Stages

variable {r : Registry σ} {tokens inner : List Token} {depth : Nat}

/-- A function may do to the host what it likes. Only a finite answer is passed on. -/
theorem keepsOnFinite (r : Registry σ) : r.KeepsOnFinite fun _ => True := by
  intro name f values _ _ s _
  refine ⟨trivial, ?_⟩
  intro x hx
  rw [(answered_apply f name values s).1] at hx
  exact (answer_eq_ok_iff.mp hx).2

/-- The functions have been invoked on finite values. -/
def InvokedOnFinite (s : σ × List (Invocation σ)) : Prop :=
  ∀ i ∈ s.2, ∀ x ∈ i.values, x.isFinite

theorem watched_keepsOnFinite (r : Registry σ) : r.watched.KeepsOnFinite InvokedOnFinite := by
  intro name watched values hname hvalues s hs
  rw [get?_watched] at hname
  obtain ⟨f, -, rfl⟩ := Option.map_eq_some_iff.mp hname
  rw [answered_watched]
  refine ⟨List.forall_mem_append.mpr ⟨hs, List.forall_mem_singleton.mpr hvalues⟩, ?_⟩
  intro x hx
  rw [(answered_apply f name values s.1).1] at hx
  exact (answer_eq_ok_iff.mp hx).2

theorem Nested.isFinite (h : Nested tokens depth inner) (ht : ∀ token ∈ tokens, token.IsFinite) :
    ∀ token ∈ inner, token.IsFinite := by
  induction h with
  | self => exact ht
  | argument _ hcall hargument ih =>
    cases ih _ hcall with
    | call h => exact h _ hargument

/-- Watching the run changes nothing, and shows functions invoked on finite values only. -/
def HandsOnFinite (x : Run (σ × List (Invocation σ)) α) (y : Run σ α) : Prop :=
  ∀ s, ((x (s, [])).1, (x (s, [])).2.1) = y s ∧
    ∀ i ∈ (x (s, [])).2.2, ∀ v ∈ i.values, v.isFinite

theorem handsOnFinite_of_keeps {P : α → Prop} {x : Run (σ × List (Invocation σ)) α} {y : Run σ α}
    (h : Mirrors x y) (hx : x.Keeps InvokedOnFinite P) : HandsOnFinite x y :=
  fun s => ⟨h s [], (hx (s, []) nofun).1⟩

/-- Every operand in what a sequence is resolved to and in the postfix order of it is finite, and so
are its value and all numbers on the stacks that computing the value comes to. -/
structure FiniteStages (r : Registry σ) (levels : Nat) (tokens : List Token) : Prop where
  resolving : ∀ s ts, (r.resolveAll (r.inner levels) tokens s).1.result = .ok ts →
    FiniteOperands ts
  reordering : ∀ s ps, (r.postfixWithin levels tokens s).1.result = .ok ps → FiniteOperands ps
  computing : ∀ s ps, (r.postfixWithin levels tokens s).1.result = .ok ps →
    ∀ stack rest, Postfix.Reaches [] ps stack rest →
      (Postfix.value ps).result = (Postfix.run stack rest).result ∧ ∀ x ∈ stack, x.isFinite
  evaluating : ∀ s x, (r.valueWithin levels tokens s).1.result = .ok x → x.isFinite

theorem finiteStages (r : Registry σ) (levels : Nat) (ht : ∀ token ∈ tokens, token.IsFinite) :
    r.FiniteStages levels tokens := by
  have keeps := r.keepsOnFinite
  have ordered := postfixWithin_keeps keeps levels ht
  refine ⟨fun s ts => ?_, fun s ps => (ordered s trivial).2 ps, fun s ps hps stack rest h => ?_,
    fun s x => ?_⟩
  · exact (resolveAll_keeps keeps (inner_keeps keeps levels) ht s trivial).2 ts
  · have finite := (ordered s trivial).2 ps hps
    exact ⟨h.result_eq, (h.isFinite finite).1⟩
  · exact (valueWithin_keeps keeps levels ht s trivial).2 x

/-- No number that is not finite is ever passed on: to a function, to another stage or as a value.
Tokens must have finite operands for that, as those of every text have. -/
theorem passes_only_finite (r : Registry σ) :
    (∀ tokens, (∀ token ∈ tokens, token.IsFinite) →
        HandsOnFinite (r.watched.evaluateTokens tokens) (r.evaluateTokens tokens) ∧
          (∀ s x, (r.evaluateTokens tokens s).1.result = .ok x → x.isFinite) ∧
          ∀ depth inner, Nested tokens depth inner →
            r.FiniteStages (nestingLimit - depth) inner) ∧
      ∀ text, (∀ tokens, (tokenize text).result = .ok tokens → ∀ token ∈ tokens, token.IsFinite) ∧
        HandsOnFinite (r.watched.evaluate text) (r.evaluate text) ∧
        HandsOnFinite (r.watched.toPostfix text) (r.toPostfix text) ∧
        (∀ s x, (r.evaluate text s).1.result = .ok x → x.isFinite) ∧
        ∀ s ps, (r.toPostfix text s).1.result = .ok ps → FiniteOperands ps := by
  have keeps := r.keepsOnFinite
  have watched := r.watched_keepsOnFinite
  constructor
  · intro tokens ht
    have evaluated := valueWithin_keeps keeps nestingLimit ht
    refine ⟨?_, fun s x => (evaluated s trivial).2 x, fun depth inner h => ?_⟩
    · exact handsOnFinite_of_keeps (evaluateTokens_mirrors r tokens)
        (valueWithin_keeps watched nestingLimit ht)
    · exact r.finiteStages (nestingLimit - depth) (h.isFinite ht)
  · intro text
    refine ⟨fun tokens => Token.isFinite_of_tokenize, ?_, ?_, ?_, ?_⟩
    · exact handsOnFinite_of_keeps (evaluate_mirrors r text) (evaluate_keeps watched text)
    · exact handsOnFinite_of_keeps (toPostfix_mirrors r text) (toPostfix_keeps watched text)
    · exact fun s x => (evaluate_keeps keeps text s trivial).2 x
    · exact fun s ps => (toPostfix_keeps keeps text s trivial).2 ps

theorem passes_only_finite_of_infinite_answer :
    let r := (empty : Registry Unit).register "infinity"
      (Callable.ofFunction fun values => .ok (values.headD 0 / 0))
    HandsOnFinite
        (r.watched.evaluateTokens [.call "infinity" [[.operand 1.0]], .operator .add, .operand 2.0])
        (r.evaluateTokens [.call "infinity" [[.operand 1.0]], .operator .add, .operand 2.0]) ∧
      r.FiniteStages 63 [.operand 1.0] := by
  intro r
  have one : Token.IsFinite (.operand 1.0) := .operand (by decide +kernel)
  have two : Token.IsFinite (.operand 2.0) := .operand (by decide +kernel)
  have finite : ∀ token ∈ [Token.call "infinity" [[.operand 1.0]], .operator .add, .operand 2.0],
      token.IsFinite := by
    have call : Token.IsFinite (.call "infinity" [[.operand 1.0]]) := .call (by simp [one])
    simp [call, two, Token.IsFinite.operator]
  obtain ⟨hands, -, stages⟩ := r.passes_only_finite.1 _ finite
  exact ⟨hands, stages 1 _ (.argument .self List.mem_cons_self List.mem_cons_self)⟩

end Registry

end Reckoner
