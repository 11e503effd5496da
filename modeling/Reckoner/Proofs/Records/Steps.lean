import Reckoner.Proofs.Invocations
import Reckoner.Proofs.Ordering.Steps

/-! What an evaluation that succeeds logs, step by step. -/
namespace Reckoner

namespace Postfix

/-- A postfix sequence comes to a value, on a stack with the topmost value first. Whatever an
operator is applied to is logged, with the value that it leaves. -/
inductive Reduces : List Float → List Token → List Line → Float → Prop
  | done {value} : Reduces [value] [] [] value
  | operand {stack x tokens lines value} : Reduces (x :: stack) tokens lines value →
      Reduces stack (.operand x :: tokens) lines value
  | operator {below left right op x tokens lines value} : op.combine left right = .ok x →
      Reduces (x :: below) tokens lines value →
      Reduces (right :: left :: below) (.operator op :: tokens)
        (.reduced left op right x :: lines) value

variable {stack : List Float} {tokens : List Token} {lines : List Line} {value : Float}

theorem reduces_of_run (h : (run stack tokens).result = .ok value) :
    Reduces stack tokens (run stack tokens).lines value := by
  induction tokens generalizing stack with
  | nil =>
    rcases stack with _ | ⟨x, _ | _⟩
    · cases h
    · obtain rfl := Except.ok.inj h
      exact .done
    · cases h
  | cons token tokens ih =>
    cases token with
    | operand x => exact .operand (ih h)
    | operator op =>
      rcases stack with _ | ⟨right, _ | ⟨left, below⟩⟩
      · cases h
      · cases h
      · rw [result_run_operator] at h
        obtain ⟨x, hx, h⟩ := bind_eq_ok_iff.mp h
        have lines : (run (right :: left :: below) (.operator op :: tokens)).lines =
            .reduced left op right x :: (run (x :: below) tokens).lines := by
          simp only [run]
          rw [Logged.lines_ofExcept_bind hx, Logged.lines_emit_bind]
          rfl
        rw [lines]
        exact .operator hx (ih h)
    | leftParen | rightParen | call => cases h

theorem Reduces.settled (h : Reduces stack tokens lines value) : Line.Settled lines := by
  induction h with
  | done => trivial
  | operand _ ih => exact ih
  | operator _ _ ih => exact ⟨trivial, ih⟩

theorem Reduces.ofKind_eq_nil (h : Reduces stack tokens lines value) {kind : Record.Kind}
    (hk : kind ≠ .reduced) : Line.ofKind kind lines = [] := by
  induction h with
  | done => rfl
  | operand _ ih => exact ih
  | operator _ _ ih => simpa [Record.kind, hk.symm] using ih

theorem Reduces.tally_reduced (h : Reduces stack tokens lines value) :
    Line.tally .reduced lines = Token.tally .operator tokens := by
  induction h with
  | done => rfl
  | operand _ ih => simpa [Token.kind] using ih
  | operator _ _ ih => simpa [Token.kind, Record.kind] using ih

end Postfix

namespace Step

/-- How many lines of a kind a step logs. -/
def emits (kind : Record.Kind) : Step → Nat
  | .enter _ => 0
  | .invoke _ =>
    match kind with
    | .calling | .returned => 1
    | _ => 0
  | .compute tokens =>
    match kind with
    | .ordered | .rendered => 1
    | .reduced => Token.tally .operator tokens
    | _ => 0

def emitted (kind : Record.Kind) : List Step → Nat
  | [] => 0
  | step :: steps => step.emits kind + emitted kind steps

variable {kind : Record.Kind} {step : Step} {steps steps' : List Step}

@[simp]
theorem emitted_nil : emitted kind [] = 0 := rfl

@[simp]
theorem emitted_cons : emitted kind (step :: steps) = step.emits kind + emitted kind steps := rfl

@[simp]
theorem emitted_append :
    emitted kind (steps ++ steps') = emitted kind steps + emitted kind steps' := by
  induction steps with
  | nil => simp
  | cons step steps ih => simp [ih, Nat.add_assoc]

end Step

namespace Registry

open Postfix (Reduces)

variable {σ : Type}

/-- A step succeeds on a stack, the latest value last. It makes these invocations, logs these
lines and leaves the second stack. -/
inductive Accounts (stack : List Float) :
    Step → List (Invocation σ) → List Line → List Float → Prop
  | enter {site} : Accounts stack (.enter site) [] [] stack
  | invoke {site i kept x} : i.name = site.name → kept = stack.length - site.arguments.length →
      i.values = stack.drop kept → i.answer = .ok x →
      Accounts stack (.invoke site) [i] [.calling i.name i.values, .returned i.name x]
        (stack.take kept ++ [x])
  | compute {tokens kept postfixed reductions x} : kept = stack.length - calls tokens →
      Postfix.ofInfix (fill tokens (stack.drop kept)) = .ok postfixed →
      Reduces [] postfixed reductions x →
      Accounts stack (.compute tokens) [] (.ordered postfixed :: .rendered postfixed :: reductions)
        (stack.take kept ++ [x])

inductive AccountsAll :
    List Float → List Step → List (Invocation σ) → List Line → List Float → Prop
  | nil {stack} : AccountsAll stack [] [] [] stack
  | cons {stack step made lines stack' steps log lines' stack''} :
      Accounts stack step made lines stack' → AccountsAll stack' steps log lines' stack'' →
      AccountsAll stack (step :: steps) (made ++ log) (lines ++ lines') stack''

variable {r : Registry σ} {s t : σ} {name : String} {values stack stack' : List Float} {x : Float}
  {tokens resolved : List Token} {log : List (Invocation σ)} {lines before after : List Line}
  {step : Step} {steps steps' : List Step} {site : Site}

section Performing

theorem lines_answered {f : Callable σ} (h : (answered name f values).Returns s x t) :
    (f values s).1 = .ok x ∧ (answered name f values s).1.lines =
      [.calling name values, .returned name x] := by
  have invoked : Run.invoke f values s = (pure (f values s).1, (f values s).2) := rfl
  have emitted : Run.emit (.calling name values) s = (Logged.emit (.calling name values), s) := rfl
  have answer := h.1
  rw [(answered_apply f name values s).1] at answer
  obtain ⟨ok, finite⟩ := answer_eq_ok_iff.mp answer
  refine ⟨ok, ?_⟩
  rw [ok] at invoked
  rw [answered, Run.bind_ok emitted, Run.bind_ok invoked]
  simp only [finite, if_true]
  rfl

theorem lines_computed (h : (computed tokens resolved).result = .ok x) :
    ∃ postfixed reductions, Postfix.ofInfix resolved = .ok postfixed ∧
      Reduces [] postfixed reductions x ∧
      (computed tokens resolved).lines =
        .ordered postfixed :: .rendered postfixed :: reductions := by
  rw [computed] at h ⊢
  split at h
  · cases h
  next hn =>
    rw [if_neg hn]
    simp only [Logged.result_bind, Logged.result_ofExcept, Logged.result_emit] at h
    obtain ⟨postfixed, ho, h⟩ := bind_eq_ok_iff.mp h
    refine ⟨postfixed, _, ho, Postfix.reduces_of_run h, ?_⟩
    rw [Logged.lines_ofExcept_bind ho, Logged.lines_emit_bind, Logged.lines_emit_bind]
    rfl

theorem accounts_of_perform (h : (r.perform stack step).Returns s stack' t) :
    Accounts stack step (r.noted stack step s) (r.perform stack step s).1.lines stack' := by
  cases step with
  | enter site =>
    rw [perform] at h ⊢
    split at h
    · exact absurd h Run.not_returns_fail
    next hd =>
      rw [if_neg hd]
      split at h
      · exact absurd h Run.not_returns_fail
      next f hf =>
        obtain ⟨rfl, rfl⟩ := Run.returns_pure_iff.mp h
        rw [hf]
        exact .enter
  | invoke site =>
    cases hf : r.get? site.name with
    | none =>
      simp only [perform, hf] at h
      exact absurd h Run.not_returns_fail
    | some f =>
      simp only [perform, noted, hf] at h ⊢
      obtain ⟨x, u, hanswered, h⟩ := Run.returns_bind_iff.mp h
      obtain ⟨rfl, rfl⟩ := Run.returns_pure_iff.mp h
      obtain ⟨answer, lines⟩ := lines_answered hanswered
      rw [Run.lines_bind_of_returns hanswered, lines]
      exact .invoke rfl rfl rfl answer
  | compute tokens =>
    simp only [perform, noted] at h ⊢
    obtain ⟨x, u, hcomputed, h⟩ := Run.returns_bind_iff.mp h
    obtain ⟨rfl, rfl⟩ := Run.returns_pure_iff.mp h
    obtain ⟨postfixed, reductions, ho, reduces, lines⟩ := lines_computed hcomputed.1
    rw [Run.lines_bind_of_returns hcomputed, Run.lift_apply, lines]
    simpa [Run.pure_apply] using Accounts.compute rfl ho reduces

/-- By induction on the steps, each with the lines and the invocation of its own. -/
theorem accountsAll_of_performAll (h : (r.performAll stack steps).Returns s stack' t)
    (log : List (Invocation σ)) :
    ∃ made, (r.watched.performAll stack steps (s, log)).2.2 = log ++ made ∧
      AccountsAll stack steps made (r.performAll stack steps s).1.lines stack' := by
  induction steps generalizing stack s log with
  | nil =>
    obtain ⟨rfl, rfl⟩ := Run.returns_pure_iff.mp h
    exact ⟨[], by simp [performAll_nil, Run.pure_apply], .nil⟩
  | cons step steps ih =>
    rw [performAll_cons] at h
    obtain ⟨stack₁, u, hstep, hsteps⟩ := Run.returns_bind_iff.mp h
    have watched : (r.watched.perform stack step).Returns (s, log) stack₁
        (u, log ++ r.noted stack step s) := by
      rw [Run.Returns, perform_watched]
      exact ⟨hstep.1, by rw [hstep.2]⟩
    obtain ⟨made, hmade, accounts⟩ := ih hsteps (log ++ r.noted stack step s)
    refine ⟨r.noted stack step s ++ made, ?_, ?_⟩
    · rw [performAll_cons, Run.bind_apply_of_returns watched, hmade, List.append_assoc]
    · rw [performAll_cons, Run.lines_bind_of_returns hstep]
      exact .cons (accounts_of_perform hstep) accounts

end Performing

section Counting

theorem tally_fill (tokens : List Token) (values : List Float) :
    Token.tally .operator (fill tokens values) = Token.tally .operator tokens := by
  fun_induction fill tokens values with
  | case1 | case2 => simp_all [Token.kind]
  | case3 => rfl

theorem Accounts.settled (h : Accounts stack step log lines stack') : Line.Settled lines := by
  cases h with
  | enter => trivial
  | invoke => exact ⟨⟨_, _, rfl⟩, trivial, trivial⟩
  | compute _ _ reduces => exact ⟨⟨_, rfl⟩, trivial, reduces.settled⟩

theorem Accounts.tally_eq (h : Accounts stack step log lines stack') (kind : Record.Kind) :
    Line.tally kind lines = step.emits kind := by
  cases h with
  | enter => rfl
  | invoke => cases kind <;> rfl
  | compute _ ordered reduces =>
    have operators := Postfix.tally_of_ofInfix ordered
    rw [tally_fill] at operators
    by_cases hk : kind = .reduced
    · subst hk
      simpa [Record.kind, Step.emits, operators] using reduces.tally_reduced
    · have none := reduces.ofKind_eq_nil hk
      cases kind <;> simp_all [Line.tally, Record.kind, Step.emits]

theorem Accounts.calls (h : Accounts stack step log lines stack') :
    Line.ofKind .calling lines = log.map (fun i => .calling i.name i.values) ∧
      List.Forall₂ (fun i line => ∃ x, i.answer = .ok x ∧ line = .returned i.name x) log
        (Line.ofKind .returned lines) ∧
      log.map Invocation.name = (Step.invoked [step]).map Site.name := by
  cases h with
  | enter => exact ⟨rfl, .nil, rfl⟩
  | invoke hn _ _ ha => exact ⟨rfl, .cons ⟨_, ha, rfl⟩ .nil, by simp [Step.invoked, hn]⟩
  | compute _ _ reduces =>
    simp [Record.kind, reduces.ofKind_eq_nil, Step.invoked]

theorem AccountsAll.settled (h : AccountsAll stack steps log lines stack') :
    Line.Settled lines := by
  induction h with
  | nil => trivial
  | cons hstep _ ih => exact hstep.settled.append ih

theorem AccountsAll.tally_eq (h : AccountsAll stack steps log lines stack') (kind : Record.Kind) :
    Line.tally kind lines = Step.emitted kind steps := by
  induction h with
  | nil => rfl
  | cons hstep _ ih => simp [hstep.tally_eq, ih]

/-- Invocations and their answers are logged one behind the other. -/
theorem AccountsAll.calls (h : AccountsAll stack steps log lines stack') :
    Line.ofKind .calling lines = log.map (fun i => .calling i.name i.values) ∧
      List.Forall₂ (fun i line => ∃ x, i.answer = .ok x ∧ line = .returned i.name x) log
        (Line.ofKind .returned lines) ∧
      log.map Invocation.name = (Step.invoked steps).map Site.name := by
  induction h with
  | nil => exact ⟨rfl, .nil, rfl⟩
  | @cons _ step _ _ _ steps _ _ _ hstep _ ih =>
    obtain ⟨calling, returned, names⟩ := hstep.calls
    obtain ⟨callings, answers, later⟩ := ih
    have split : Step.invoked (step :: steps) = Step.invoked [step] ++ Step.invoked steps :=
      @Step.invoked_append [step] steps
    refine ⟨?_, ?_, ?_⟩
    · rw [Line.ofKind_append, calling, callings, List.map_append]
    · rw [Line.ofKind_append]
      exact List.rel_append returned answers
    · rw [split, List.map_append, List.map_append, names, later]

end Counting

/-- The lines of a first part of the steps come first. -/
theorem AccountsAll.exists_of_append
    (h : AccountsAll stack (steps ++ steps') log lines stack') :
    ∃ log₁ log₂ first second middle, log = log₁ ++ log₂ ∧ lines = first ++ second ∧
      AccountsAll stack steps log₁ first middle ∧ AccountsAll middle steps' log₂ second stack' := by
  induction steps generalizing stack log lines with
  | nil => exact ⟨[], log, [], lines, stack, rfl, rfl, .nil, h⟩
  | cons step steps ih =>
    cases h with
    | @cons _ _ made first₀ _ _ _ _ _ hstep hsteps =>
      obtain ⟨log₁, log₂, first, second, middle, rfl, rfl, h₁, h₂⟩ := ih hsteps
      exact ⟨made ++ log₁, log₂, first₀ ++ first, second, middle, by simp, by simp,
        .cons hstep h₁, h₂⟩

end Registry

end Reckoner
