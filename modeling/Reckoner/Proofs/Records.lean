import Reckoner.Proofs.Records.Scanning
import Reckoner.Proofs.Records.Steps

/-! How the log of an evaluation that succeeds accounts for its tokens, calls and operators. -/
namespace Reckoner

namespace Site

mutual

theorem map_ofToken (depth : Nat) : (token : Token) →
    (ofToken depth token).map (fun site => Token.call site.name site.arguments) =
      token.visits.filter fun token => token.kind = .call
  | .call name arguments => by
    have inner := map_ofArguments (depth + 1) arguments
    simpa [ofToken, Token.visits, Token.kind] using inner
  | .operand _ | .operator _ | .leftParen | .rightParen => rfl

/-- The calls in postorder are those among all tokens as they are found. -/
theorem map_postorder (depth : Nat) : (tokens : List Token) →
    (postorder depth tokens).map (fun site => Token.call site.name site.arguments) =
      (Token.visitsOfSequence tokens).filter fun token => token.kind = .call
  | [] => rfl
  | token :: tokens => by
    rw [postorder, Token.visitsOfSequence, List.map_append, List.filter_append,
      map_ofToken depth token, map_postorder depth tokens]

theorem map_ofArguments (depth : Nat) : (arguments : List (List Token)) →
    (ofArguments depth arguments).map (fun site => Token.call site.name site.arguments) =
      (Token.visitsOfArguments arguments).filter fun token => token.kind = .call
  | [] => rfl
  | argument :: arguments => by
    rw [ofArguments, Token.visitsOfArguments, List.map_append, List.filter_append,
      map_postorder depth argument, map_ofArguments depth arguments]

end

end Site

theorem Reported.ofKind_scannedCall {tokens : List Token} {lines : List Line} {sites : List Site}
    (h : Reported tokens lines)
    (hs : sites.map (fun site => Token.call site.name site.arguments) =
      tokens.filter fun token => token.kind = .call) :
    Line.ofKind .scannedCall lines =
      sites.map fun site => .scannedCall site.name site.arguments.length := by
  induction h generalizing sites with
  | nil =>
    obtain rfl := List.map_eq_nil_iff.mp hs
    rfl
  | call _ ih =>
    obtain ⟨site, later, rfl, hsite, hlater⟩ := List.map_eq_cons_iff.mp hs
    obtain ⟨rfl, rfl⟩ := Token.call.inj hsite
    simpa [Record.kind] using ih hlater
  | other hk _ ih =>
    have hs' := hs
    simp [hk] at hs'
    simpa [Record.kind] using ih hs'

namespace Step

/-- How many lines of a kind the evaluation logs for these tokens. -/
def share (kind : Record.Kind) (visited : List Token) : Nat :=
  match kind with
  | .calling | .returned => Token.tally .call visited
  | .ordered | .rendered => Token.arities visited
  | .reduced => Token.tally .operator visited
  | _ => 0

/-- How many it logs for a sequence as a whole. -/
def whole : Record.Kind → Nat
  | .ordered | .rendered => 1
  | _ => 0

variable {kind : Record.Kind} {token : Token} {tokens visited visited' : List Token}

@[simp]
theorem share_append : share kind (visited ++ visited') = share kind visited + share kind visited' := by
  cases kind <;> simp [share]

theorem emits_compute_cons : emits kind (.compute (token :: tokens)) =
    emits kind (.compute tokens) + if kind = .reduced ∧ token.kind = .operator then 1 else 0 := by
  cases kind <;> simp [emits]

theorem share_call (site : Site) : share kind [.call site.name site.arguments] =
    emits kind (.invoke site) + site.arguments.length * whole kind := by
  cases kind <;> simp [share, whole, emits, Token.kind, Token.arity]

mutual

theorem emitted_ofToken (kind : Record.Kind) (depth : Nat) : (token : Token) →
    emitted kind (ofToken depth token) +
        (if kind = .reduced ∧ token.kind = .operator then 1 else 0) = share kind token.visits
  | .call name arguments => by
    have inner := emitted_ofArguments kind (depth + 1) arguments
    have call : share kind [.call name arguments] =
        emits kind (.invoke ⟨depth, name, arguments⟩) + arguments.length * whole kind :=
      share_call ⟨depth, name, arguments⟩
    have entered : emits kind (.enter ⟨depth, name, arguments⟩) = 0 := rfl
    simp [ofToken, Token.visits, inner, call, entered, Token.kind]
    omega
  | .operand _ | .operator _ | .leftParen | .rightParen => by
    cases kind <;> simp [ofToken, Token.visits, share, Token.kind, Token.arity]

/-- A sequence is evaluated as a whole, and so is each argument of its calls. -/
theorem emitted_ofSequence (kind : Record.Kind) (depth : Nat) : (tokens : List Token) →
    emitted kind (ofSequence depth tokens) =
      share kind (Token.visitsOfSequence tokens) + whole kind
  | [] => by
    cases kind <;> rfl
  | token :: tokens => by
    have first := emitted_ofToken kind depth token
    have later := emitted_ofSequence kind depth tokens
    -- the operators of a sequence are counted where it is computed, behind all its calls
    simp [ofSequence, ofTokens, Token.visitsOfSequence, emits_compute_cons] at later ⊢
    omega

theorem emitted_ofArguments (kind : Record.Kind) (depth : Nat) : (arguments : List (List Token)) →
    emitted kind (ofArguments depth arguments) =
      share kind (Token.visitsOfArguments arguments) + arguments.length * whole kind
  | [] => by
    cases kind <;> rfl
  | argument :: arguments => by
    have first := emitted_ofSequence kind depth argument
    have later := emitted_ofArguments kind depth arguments
    simp [ofSequence, ofArguments, Token.visitsOfArguments, Nat.add_mul] at first ⊢
    omega

end

end Step

/-- How many lines of a kind there are for a text with these tokens. -/
def Record.Kind.census (tokens : List Token) : Record.Kind → Nat
  | .tokenizing | .tokenized | .evaluated => 1
  | .scanned => (Token.visitsOfSequence tokens).length
  | .scannedCall | .calling | .returned => Token.tally .call (Token.visitsOfSequence tokens)
  | .ordered | .rendered => Token.arities (Token.visitsOfSequence tokens) + 1
  | .reduced => Token.tally .operator (Token.visitsOfSequence tokens)

namespace Registry

variable {σ : Type} {r : Registry σ} {s t : σ} {text : String} {value : Float}
  {tokens : List Token} {log : List (Invocation σ)} {lines : List Line} {stack : List Float}

/-- Each call has its lines: those of its arguments, and right behind them those of its
invocation. -/
theorem AccountsAll.exists_of_call {earlier later : List Site} {site : Site}
    (h : AccountsAll [] (Step.ofSequence 0 tokens) log lines stack)
    (hs : Site.postorder 0 tokens = earlier ++ site :: later) :
    ∃ before inner after i x, lines = before ++ (inner ++
        .calling site.name i.values :: .returned site.name x :: after) ∧
      log[earlier.length]? = some i ∧
      Line.tally .calling (before ++ inner) = earlier.length ∧
      ∃ stack₁ stack₂ made, made <:+ log.take earlier.length ∧ AccountsAll stack₁
        (Step.ofArguments (site.depth + 1) site.arguments) made inner stack₂ ∧
        i.values = stack₂.drop (stack₂.length - site.arguments.length) := by
  rw [← Step.invoked_ofSequence] at hs
  obtain ⟨steps, steps', hsteps, hinvoked⟩ := Step.exists_of_invoked hs
  obtain ⟨done, rfl⟩ : Step.Due steps (.invoke site) := Step.inOrder_ofSequence 0 tokens hsteps
  rw [hsteps] at h
  obtain ⟨log₁, log₂, first, second, middle, rfl, rfl, hfirst, hsecond⟩ := h.exists_of_append
  have length : log₁.length = earlier.length := by
    have names := congrArg List.length hfirst.calls.2.2
    simpa [hinvoked] using names
  have callings : Line.tally .calling first = earlier.length := by
    rw [Line.tally, hfirst.calls.1, List.length_map, length]
  obtain ⟨_, _, before, _, middle', rfl, rfl, -, hinner⟩ := hfirst.exists_of_append
  cases hinner with
  | @cons _ _ _ _ _ _ made inner _ henter hinner =>
    cases henter
    cases hsecond with
    | @cons _ _ _ _ _ _ _ after _ hinvoke _ =>
      cases hinvoke with
      | @invoke _ i _ x hn hkept hvalues =>
        refine ⟨before, inner, after, i, x, ?_, ?_, callings, middle', middle, made, ?_, hinner, ?_⟩
        · rw [← hn]
          simp
        · simp [← length]
        · rw [← length, List.take_left]
          exact List.suffix_append _ _
        · rw [hvalues, hkept]

theorem accountsAll_of_evaluateTokens (h : (r.evaluateTokens tokens).Returns s value t) :
    AccountsAll [] (Step.ofSequence 0 tokens) (r.watched.evaluateTokens tokens (s, [])).2.2
      (r.evaluateTokens tokens s).1.lines [value] := by
  have outside : 0 + nestingLimit = nestingLimit := Nat.zero_add _
  have performed : (r.performAll [] (Step.ofSequence 0 tokens)).Returns s [value] t := by
    rw [performAll_ofSequence outside]
    exact Run.returns_map_iff.mpr ⟨value, h, rfl⟩
  obtain ⟨made, hmade, accounts⟩ := accountsAll_of_performAll performed []
  rw [List.nil_append] at hmade
  rw [evaluateTokens_eq, evaluateTokens_eq, Run.map_apply, Run.map_apply, Logged.lines_map, hmade]
  exact accounts

/-- What a text, its tokens, its value and the invocations that were made for it have to do with
the log. -/
structure Accounted (text : String) (tokens : List Token) (value : Float)
    (log : List (Invocation σ)) (lines : List Line) : Prop where
  /-- The text is scanned and then evaluated, to its value. -/
  parts : ∃ scanning evaluation, lines = .tokenizing text ::
      (scanning ++ .tokenized text tokens.length :: (evaluation ++ [.evaluated text value])) ∧
    Reported (Token.visitsOfSequence tokens) scanning ∧
    AccountsAll [] (Step.ofSequence 0 tokens) log evaluation [value]
  /-- Counting the lines of a kind counts lines with the level and the words of that kind. -/
  faithful : ∀ line ∈ lines, line.Faithful
  /-- An answer follows its invocation at once, as the rendered form of a postfix sequence follows
  the sequence. -/
  settled : Line.Settled lines
  /-- Calls are announced in postorder. -/
  announced : Line.ofKind .scannedCall lines =
    (Site.postorder 0 tokens).map fun site => .scannedCall site.name site.arguments.length
  /-- The calls are invoked in the same order, each once. -/
  invoked : log.map Invocation.name = (Site.postorder 0 tokens).map Site.name
  calling : Line.ofKind .calling lines = log.map fun i => .calling i.name i.values
  returned : List.Forall₂ (fun i line => ∃ x, i.answer = .ok x ∧ line = .returned i.name x) log
    (Line.ofKind .returned lines)
  /-- Right before a call is invoked its arguments have been evaluated, with all calls in them. -/
  called : ∀ earlier site later, Site.postorder 0 tokens = earlier ++ site :: later →
    ∃ before inner after i x, lines = before ++ (inner ++
        .calling site.name i.values :: .returned site.name x :: after) ∧
      log[earlier.length]? = some i ∧
      Line.tally .calling (before ++ inner) = earlier.length ∧
      Line.tally .rendered inner = Token.arities (Token.call site.name site.arguments).visits ∧
      ∃ stack₁ stack₂ made, made <:+ log.take earlier.length ∧ AccountsAll stack₁
        (Step.ofArguments (site.depth + 1) site.arguments) made inner stack₂ ∧
        i.values = stack₂.drop (stack₂.length - site.arguments.length)
  census : ∀ kind, Line.tally kind lines = kind.census tokens
  levels : ∀ level, (lines.filter fun line => line.level = level).length =
    match level with
    | .debug => 3 * Token.tally .call (Token.visitsOfSequence tokens) +
        Token.arities (Token.visitsOfSequence tokens) + 4
    | .trace => (Token.visitsOfSequence tokens).length +
        (Token.arities (Token.visitsOfSequence tokens) + 1) +
        Token.tally .operator (Token.visitsOfSequence tokens)

/-- Scanning and evaluation share out the lines among them. -/
theorem tally_of_parts (text : String) {scanning evaluation : List Line}
    (hs : Reported (Token.visitsOfSequence tokens) scanning)
    (he : AccountsAll [] (Step.ofSequence 0 tokens) log evaluation [value]) (kind : Record.Kind) :
    Line.tally kind (.tokenizing text ::
        (scanning ++ .tokenized text tokens.length :: (evaluation ++ [.evaluated text value]))) =
      Record.Kind.census tokens kind := by
  have scanned := hs.tally_eq kind
  have evaluated := he.tally_eq kind
  rw [Step.emitted_ofSequence] at evaluated
  cases kind <;>
    simp [Record.kind, Record.Kind.census, scanned, evaluated, Step.share, Step.whole]

theorem accounted_of_parts {records : List Record} {scanning evaluation : List Line}
    (hr : records.map Record.line = .tokenizing text ::
      (scanning ++ .tokenized text tokens.length :: (evaluation ++ [.evaluated text value])))
    (hs : Reported (Token.visitsOfSequence tokens) scanning)
    (he : AccountsAll [] (Step.ofSequence 0 tokens) log evaluation [value]) :
    Accounted text tokens value log (records.map Record.line) := by
  obtain ⟨calling, returned, names⟩ := he.calls
  have scans {kind : Record.Kind} (h : kind ≠ .scanned) (h' : kind ≠ .scannedCall) :
      Line.ofKind kind scanning = [] := by
    have tally := hs.tally_eq kind
    cases kind <;> simp_all [Line.tally]
  have announces : Line.ofKind .scannedCall evaluation = [] := by
    have tally := he.tally_eq .scannedCall
    rw [Step.emitted_ofSequence] at tally
    exact List.length_eq_zero_iff.mp tally
  have census := tally_of_parts text hs he
  rw [← hr] at census
  refine ⟨⟨scanning, evaluation, hr, hs, he⟩, ?_, ?_, ?_, ?_, ?_, ?_, ?_, census, ?_⟩
  · exact List.forall_mem_map.mpr fun record _ => record.line_faithful
  · have last : Line.Settled [.evaluated text value] := ⟨trivial, trivial⟩
    rw [hr]
    exact ⟨trivial, hs.settled.append ⟨trivial, he.settled.append last⟩⟩
  · simp [hr, Record.kind, announces, hs.ofKind_scannedCall (Site.map_postorder 0 tokens)]
  · rw [names, Step.invoked_ofSequence]
  · simp [hr, Record.kind, scans, calling]
  · simpa [hr, Record.kind, scans] using returned
  · intro earlier site later hsites
    obtain ⟨before, inner, after, i, x, rfl, hi, callings, stack₁, stack₂, made, hmade, hinner,
      hvalues⟩ := he.exists_of_call hsites
    refine ⟨.tokenizing text :: (scanning ++ .tokenized text tokens.length :: before), inner,
      after ++ [.evaluated text value], i, x, by simp [hr], hi, ?_, ?_, stack₁, stack₂, made, hmade,
      hinner, hvalues⟩
    · have none := hs.tally_eq .calling
      simp [Record.kind] at callings none ⊢
      omega
    · rw [hinner.tally_eq, Step.emitted_ofArguments]
      simp [Step.share, Step.whole, Token.visits, Token.arity]
  · intro level
    rw [Line.length_level]
    simp only [census, Record.Kind.census]
    cases level with
    | debug =>
      simp only
      omega
    | trace => rfl

theorem returns_lift_tokenizeExpression (ht : (tokenizeExpression text).result = .ok tokens)
    (s : σ) : (liftM (tokenizeExpression text) : Run σ (List Token)).Returns s tokens s :=
  ⟨ht, rfl⟩

theorem lines_evaluate (ht : (tokenizeExpression text).result = .ok tokens)
    (hx : (r.evaluateTokens tokens).Returns s value t) :
    (r.evaluate text s).1.lines = (tokenizeExpression text).lines ++
      ((r.evaluateTokens tokens s).1.lines ++ [.evaluated text value]) := by
  rw [evaluate, Run.lines_bind_of_returns (returns_lift_tokenizeExpression ht s),
    Run.lines_bind_of_returns hx]
  rfl

/-- The log of an evaluation with a value accounts for every token of the text, for every call
with its arguments and for every operator. -/
theorem evaluate_accounted (r : Registry σ) {text : String} {s : σ} {value : Float}
    (h : (r.evaluate text s).1.result = .ok value) :
    ∃ tokens, (tokenize text).result = .ok tokens ∧
      (r.watched.evaluate text (s, [])).1 = (r.evaluate text s).1 ∧
      Accounted text tokens value (r.watched.evaluate text (s, [])).2.2
        (r.evaluate text s).1.lines := by
  cases ht : (tokenizeExpression text).result with
  | error e =>
    rw [evaluate, Run.result_lift_bind_error ht] at h
    cases h
  | ok tokens =>
    rw [result_evaluate ht] at h
    have evaluated : (r.evaluateTokens tokens).Returns s value (r.evaluateTokens tokens s).2 :=
      ⟨h, rfl⟩
    obtain ⟨hscan, scanning, scanned, reported⟩ := Scan.lines_tokenizeExpression ht
    refine ⟨tokens, hscan, congrArg Prod.fst (evaluate_mirrors r text s []), ?_⟩
    rw [state_evaluate ht]
    have logged := lines_evaluate ht evaluated
    rw [scanned, List.cons_append, List.append_assoc, List.singleton_append] at logged
    exact accounted_of_parts logged reported (accountsAll_of_evaluateTokens evaluated)

theorem evaluate_accounted_of_half :
    let r := (empty : Registry Unit).register "half"
      (Callable.ofFunction fun values => .ok (values.headD 0 / 2))
    let lines := (r.evaluate "half(8 - 2) + 1" ()).1.lines
    (r.evaluate "half(8 - 2) + 1" ()).1.result = .ok 4.0 ∧
      Line.tally .scanned lines = 6 ∧ Line.tally .calling lines = 1 ∧
      Line.tally .rendered lines = 2 ∧ Line.tally .reduced lines = 2 ∧
      lines.getLast?.map (fun line => (line.level, line.text)) =
        some (.debug, "half(8 - 2) + 1 = 4") := by
  intro r lines
  have value : (r.evaluate "half(8 - 2) + 1" ()).1.result = .ok 4.0 := by
    decide +kernel
  have counted : (match (tokenize "half(8 - 2) + 1").result with
      | .ok tokens => decide (Record.Kind.census tokens .scanned = 6 ∧
          Record.Kind.census tokens .calling = 1 ∧ Record.Kind.census tokens .rendered = 2 ∧
          Record.Kind.census tokens .reduced = 2)
      | .error _ => false) = true := by
    decide +kernel
  obtain ⟨tokens, ht, -, account⟩ := evaluate_accounted r value
  rw [ht] at counted
  obtain ⟨scanned, calling, rendered, reduced⟩ := of_decide_eq_true counted
  refine ⟨value, ?_, ?_, ?_, ?_, ?_⟩
  · rw [account.census, scanned]
  · rw [account.census, calling]
  · rw [account.census, rendered]
  · rw [account.census, reduced]
  · obtain ⟨scanning, evaluation, logged, -, -⟩ := account.parts
    have last : lines.getLast? = some (.evaluated "half(8 - 2) + 1" 4.0) := by
      simp [lines, logged, List.getLast?_cons]
    have shown : Layout.plain.text 4.0 = "4" := by
      decide +kernel
    rw [last, Option.map_some, Line.evaluated, shown]
    rfl

end Registry

end Reckoner
