import Reckoner.Proofs.Invocations

/-! An evaluation depends on the functions that its calls name, and on no others. -/
namespace Reckoner

theorem mapM_congr_mem {m : Type → Type} [Monad m] [LawfulMonad m] {α β : Type} {f g : α → m β}
    {xs : List α} (h : ∀ x ∈ xs, f x = g x) : xs.mapM f = xs.mapM g := by
  induction xs with
  | nil => rfl
  | cons x xs ih =>
    obtain ⟨hx, hs⟩ := List.forall_mem_cons.mp h
    rw [List.mapM_cons, List.mapM_cons, hx, ih hs]

namespace Token

mutual

/-- The names of a call and of the calls in its arguments. -/
def names : Token → List String
  | call name arguments => name :: namesOfArguments arguments
  | _ => []

/-- The names of all calls of a sequence, however deep they are nested. -/
def namesOfSequence : List Token → List String
  | [] => []
  | token :: tokens => token.names ++ namesOfSequence tokens

def namesOfArguments : List (List Token) → List String
  | [] => []
  | argument :: arguments => namesOfSequence argument ++ namesOfArguments arguments

end

variable {token : Token} {tokens argument : List Token} {arguments : List (List Token)}

theorem names_subset (h : token ∈ tokens) : token.names ⊆ namesOfSequence tokens := by
  induction tokens with
  | nil => cases h
  | cons first tokens ih =>
    rw [namesOfSequence]
    rcases List.mem_cons.mp h with rfl | h
    · exact List.subset_append_left _ _
    · exact List.Subset.trans (ih h) (List.subset_append_right _ _)

theorem namesOfSequence_subset (h : argument ∈ arguments) :
    namesOfSequence argument ⊆ namesOfArguments arguments := by
  induction arguments with
  | nil => cases h
  | cons first arguments ih =>
    rw [namesOfArguments]
    rcases List.mem_cons.mp h with rfl | h
    · exact List.subset_append_left _ _
    · exact List.Subset.trans (ih h) (List.subset_append_right _ _)

end Token

namespace Registry

variable {σ : Type} {r r' : Registry σ} {names names' : List String} {levels : Nat} {name : String}
  {tokens : List Token} {text : String}

/-- Under each of these names both hold the same function, or neither holds one. -/
def AgreesOn (r r' : Registry σ) (names : List String) : Prop :=
  ∀ name ∈ names, r.get? name = r'.get? name

theorem AgreesOn.mono (h : r.AgreesOn r' names) (hs : names' ⊆ names) : r.AgreesOn r' names' :=
  fun name hn => h name (hs hn)

theorem AgreesOn.watched (h : r.AgreesOn r' names) : r.watched.AgreesOn r'.watched names := by
  intro name hn
  rw [get?_watched, get?_watched, h name hn]

theorem register_agreesOn (r : Registry σ) (hn : name ∉ names) (f : Callable σ) :
    (r.register name f).AgreesOn r names := by
  intro other ho
  have different : name ≠ other := by
    rintro rfl
    exact hn ho
  rw [get?_register, if_neg different]

theorem unregister_agreesOn (r : Registry σ) (hn : name ∉ names) :
    (r.unregister name).2.AgreesOn r names := by
  intro other ho
  have different : name ≠ other := by
    rintro rfl
    exact hn ho
  rw [get?_unregister, if_neg different]

section Congruence

variable {evaluate evaluate' : Option (List Token → Run σ Float)}

/-- Both evaluate the same arguments, or neither evaluates any. -/
def SameInside (evaluate evaluate' : Option (List Token → Run σ Float))
    (arguments : List (List Token)) : Prop :=
  Option.Rel (fun f g => ∀ argument ∈ arguments, f argument = g argument) evaluate evaluate'

theorem call_congr {arguments : List (List Token)} (hn : r.get? name = r'.get? name)
    (h : SameInside evaluate evaluate' arguments) :
    r.call evaluate name arguments = r'.call evaluate' name arguments := by
  cases h with
  | none => rfl
  | some h =>
    cases hf : r'.get? name with
    | none =>
      rw [hf] at hn
      rw [call_of_get?_eq_none hn, call_of_get?_eq_none hf]
    | some f =>
      rw [hf] at hn
      rw [call_eq hn, call_eq hf, mapM_congr_mem h]

theorem resolve_congr {token : Token} (hn : r.AgreesOn r' token.names)
    (h : ∀ name arguments, token = .call name arguments → SameInside evaluate evaluate' arguments) :
    r.resolve evaluate token = r'.resolve evaluate' token := by
  cases token with
  | call name arguments =>
    have named : r.get? name = r'.get? name := hn name List.mem_cons_self
    rw [resolve, resolve, call_congr named (h name arguments rfl)]
  | operand | operator | leftParen | rightParen => rfl

/-- By induction on the levels that are left for calls. -/
theorem mapM_resolve_congr (levels : Nat) (h : r.AgreesOn r' (Token.namesOfSequence tokens)) :
    tokens.mapM (r.resolve (r.inner levels)) = tokens.mapM (r'.resolve (r'.inner levels)) := by
  induction levels generalizing tokens with
  | zero =>
    apply mapM_congr_mem
    intro token ht
    exact resolve_congr (h.mono (Token.names_subset ht)) fun _ _ _ => .none
  | succ levels ih =>
    apply mapM_congr_mem
    intro token ht
    have named := h.mono (Token.names_subset ht)
    apply resolve_congr named
    rintro name arguments rfl
    refine .some fun argument ha => ?_
    have inside : r.AgreesOn r' (Token.namesOfSequence argument) :=
      named.mono (List.subset_cons_of_subset _ (Token.namesOfSequence_subset ha))
    rw [valueWithin_eq_mapM, valueWithin_eq_mapM, ih inside]

end Congruence

theorem evaluateTokens_congr (h : r.AgreesOn r' (Token.namesOfSequence tokens)) :
    r.evaluateTokens tokens = r'.evaluateTokens tokens := by
  rw [evaluateTokens, evaluateTokens, valueWithin_eq_mapM, valueWithin_eq_mapM,
    mapM_resolve_congr nestingLimit h]

theorem postfixWithin_congr (h : r.AgreesOn r' (Token.namesOfSequence tokens)) :
    r.postfixWithin nestingLimit tokens = r'.postfixWithin nestingLimit tokens := by
  rw [postfixWithin_eq, postfixWithin_eq, postfixBy, postfixBy, mapM_resolve_congr nestingLimit h]

section Text

/-- They agree on the names that the calls of a text have. There are none in a text that cannot be
tokenized. -/
def AgreesOnText (r r' : Registry σ) (text : String) : Prop :=
  ∀ tokens, (tokenize text).result = .ok tokens → r.AgreesOn r' (Token.namesOfSequence tokens)

theorem AgreesOnText.watched (h : r.AgreesOnText r' text) :
    r.watched.AgreesOnText r'.watched text :=
  fun tokens ht => (h tokens ht).watched

theorem tokenize_of_returns {ρ : Type} {u v : ρ}
    (h : (liftM (tokenizeExpression text) : Run ρ (List Token)).Returns u tokens v) :
    (tokenize text).result = .ok tokens := by
  have tokenized := h.1
  rw [Run.lift_apply, tokenizeExpression] at tokenized
  split at tokenized
  · cases tokenized
  · exact tokenized

theorem evaluate_congr (h : r.AgreesOnText r' text) : r.evaluate text = r'.evaluate text := by
  apply Run.bind_congr_returns
  intro s tokens t ht
  rw [evaluateTokens_congr (h tokens (tokenize_of_returns ht))]

theorem toPostfix_congr (h : r.AgreesOnText r' text) : r.toPostfix text = r'.toPostfix text := by
  apply Run.bind_congr_returns
  intro s tokens t ht
  exact postfixWithin_congr (h tokens (tokenize_of_returns ht))

end Text

/-- From every state the tokens come to the same outcome over both, and to the same invocations. -/
structure SameOnTokens (r r' : Registry σ) (tokens : List Token) : Prop where
  value : r.evaluateTokens tokens = r'.evaluateTokens tokens
  invocations : r.watched.evaluateTokens tokens = r'.watched.evaluateTokens tokens

/-- The text is evaluated and put into postfix order over both with the same outcome and the same
invocations. -/
structure SameOnText (r r' : Registry σ) (text : String) : Prop where
  value : r.evaluate text = r'.evaluate text
  invocations : r.watched.evaluate text = r'.watched.evaluate text
  order : r.toPostfix text = r'.toPostfix text
  orderInvocations : r.watched.toPostfix text = r'.watched.toPostfix text

theorem AgreesOn.same (h : r.AgreesOn r' (Token.namesOfSequence tokens)) :
    r.SameOnTokens r' tokens :=
  ⟨evaluateTokens_congr h, evaluateTokens_congr h.watched⟩

theorem AgreesOnText.same (h : r.AgreesOnText r' text) : r.SameOnText r' text :=
  ⟨evaluate_congr h, evaluate_congr h.watched, toPostfix_congr h, toPostfix_congr h.watched⟩

/-- An evaluation depends on the functions that are called by name, and on nothing else that a
registry holds: other names can be registered, replaced and unregistered at will. -/
theorem evaluation_depends_on_names (r : Registry σ) :
    (∀ r' tokens, r.AgreesOn r' (Token.namesOfSequence tokens) → r.SameOnTokens r' tokens) ∧
      (∀ r' text, r.AgreesOnText r' text → r.SameOnText r' text) ∧
      (∀ tokens name, name ∉ Token.namesOfSequence tokens →
        (∀ f, (r.register name f).SameOnTokens r tokens) ∧
          (r.unregister name).2.SameOnTokens r tokens) ∧
      ∀ text name,
        (∀ tokens, (tokenize text).result = .ok tokens → name ∉ Token.namesOfSequence tokens) →
          (∀ f, (r.register name f).SameOnText r text) ∧
            (r.unregister name).2.SameOnText r text := by
  refine ⟨fun r' tokens h => h.same, fun r' text h => h.same, ?_, ?_⟩
  · intro tokens name hn
    exact ⟨fun f => (r.register_agreesOn hn f).same, (r.unregister_agreesOn hn).same⟩
  · intro text name hn
    have registered (f : Callable σ) : (r.register name f).AgreesOnText r text :=
      fun tokens ht => r.register_agreesOn (hn tokens ht) f
    have unregistered : (r.unregister name).2.AgreesOnText r text :=
      fun tokens ht => r.unregister_agreesOn (hn tokens ht)
    exact ⟨fun f => (registered f).same, unregistered.same⟩

theorem evaluation_depends_on_names_of_half :
    let half := (empty : Registry Unit).register "half"
      (Callable.ofFunction fun values => .ok (values.headD 0 / 2))
    let both := half.register "f" (Callable.ofFunction fun _ => .error "no luck")
    let tokens : List Token := [.call "half" [[.call "half" [[.operand 5.0]]]]]
    both.AgreesOn half (Token.namesOfSequence tokens) ∧ both.SameOnTokens half tokens ∧
      both.AgreesOnText half "half(half(5))" ∧ both.SameOnText half "half(half(5))" ∧
      (half.register "f" (Callable.ofFunction fun _ => .ok 1)).SameOnTokens half tokens ∧
      (both.unregister "f").2.SameOnText both "half(half(5))" := by
  intro half both tokens
  have unnamed : "f" ∉ Token.namesOfSequence tokens := by decide
  have named : (tokenize "half(half(5))").result.map Token.namesOfSequence =
      .ok ["half", "half"] := by
    decide +kernel
  have untold : ∀ tokens, (tokenize "half(half(5))").result = .ok tokens →
      "f" ∉ Token.namesOfSequence tokens := by
    intro tokens ht
    rw [ht] at named
    rw [Except.ok.inj named]
    decide
  have agreed := half.register_agreesOn unnamed (Callable.ofFunction fun _ => .error "no luck")
  have agreedOnText : both.AgreesOnText half "half(half(5))" :=
    fun tokens ht => half.register_agreesOn (untold tokens ht) _
  obtain ⟨onTokens, onText, -, otherTexts⟩ := evaluation_depends_on_names both
  obtain ⟨-, -, others, -⟩ := evaluation_depends_on_names half
  exact ⟨agreed, onTokens half tokens agreed, agreedOnText, onText half _ agreedOnText,
    (others tokens "f" unnamed).1 _, (otherTexts _ "f" untold).2⟩

end Registry

end Reckoner
