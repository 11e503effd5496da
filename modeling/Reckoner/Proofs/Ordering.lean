import Reckoner.Proofs.Arithmetic
import Reckoner.Proofs.Formula
import Reckoner.Proofs.Ordering.Steps

/-! What comes of putting any sequence into postfix order, be it an infix expression or not. -/
namespace Reckoner

namespace Formula

variable {f : Formula} {tokens : List Token}

/-- The operands and operators of a tree, each operator behind both its sides. -/
def postorder : Formula → List Token
  | number x => [.operand x]
  | group f => f.postorder
  | operation op left right => left.postorder ++ right.postorder ++ [.operator op]
  | call name arguments => (call name arguments).tokens

/-- Without calls a tree is the tree of an infix sequence. -/
theorem exists_infix (hf : f.Grouped) (hc : ∀ token ∈ f.tokens, token.kind ≠ .call) :
    ∃ tree, Infix f.bond f.tokens tree ∧ tree.postorder = f.postorder := by
  induction hf with
  | @number x => exact ⟨.number x, .number, rfl⟩
  | @group f _ ih =>
    have inside := (List.forall_mem_append.mp (List.forall_mem_cons.mp hc).2).1
    obtain ⟨tree, hinfix, hpost⟩ := ih inside
    exact ⟨tree, .group hinfix, hpost⟩
  | @operation op left right _ _ hl hr ihl ihr =>
    obtain ⟨hleft, htail⟩ := List.forall_mem_append.mp hc
    obtain ⟨l, hinfixl, hpostl⟩ := ihl hleft
    obtain ⟨r, hinfixr, hpostr⟩ := ihr (List.forall_mem_cons.mp htail).2
    rw [bond_operation] at hl hr ⊢
    refine ⟨.operation op l r, .operation hinfixl hinfixr hl hr, ?_⟩
    rw [Arithmetic.postorder, postorder, hpostl, hpostr]
  | @call name arguments =>
    rw [tokens_call] at hc
    exact absurd rfl (hc _ List.mem_cons_self)

theorem ofInfix_tokens (hf : f.Grouped) (hc : ∀ token ∈ f.tokens, token.kind ≠ .call) :
    Postfix.ofInfix f.tokens = .ok f.postorder := by
  obtain ⟨tree, hinfix, hpost⟩ := exists_infix hf hc
  rw [Postfix.ofInfix_infix hinfix, hpost]

theorem known_of_no_call (hc : ∀ token ∈ tokens, token.kind ≠ .call) : Known tokens := by
  intro token ht hk
  have operand : token.kind = .operand := hk.resolve_right (hc token ht)
  cases token with
  | operand x => exact ⟨number x, ⟨.number, rfl⟩, rfl⟩
  | operator | leftParen | rightParen | call => cases operand

end Formula

namespace Postfix

open Token (tally)

variable {tokens out : List Token}

/-- The operands and operators of a sequence in some order, and the operands in theirs. -/
structure Rearranged (tokens out : List Token) : Prop where
  noParens : ∀ token ∈ out, token.kind ≠ .leftParen ∧ token.kind ≠ .rightParen
  perm : out.Perm (Token.terms tokens)
  operands : Token.operands out = Token.operands tokens

theorem rearranged_of_perm (hp : out.Perm (Token.terms tokens))
    (ho : Token.operands out = Token.operands tokens) : Rearranged tokens out := by
  refine ⟨?_, hp, ho⟩
  intro token ht
  have term : token ∈ Token.terms tokens := hp.mem_iff.mp ht
  have kept := List.of_mem_filter term
  simp only [decide_eq_true_eq] at kept
  rcases kept with hk | hk <;> simp [hk]

theorem no_call_of_clear (h : Clear 0 tokens) : ∀ token ∈ tokens, token.kind ≠ .call := by
  intro token ht hk
  obtain ⟨before, after, rfl⟩ := List.append_of_mem ht
  exact h rfl (Or.inl hk)

/-- What comes of ordering is known for every sequence. A call, or a parenthesis that closes none,
ends it at the first such token. Otherwise a parenthesis may be left open. Otherwise all operands
and operators come out, and in postorder where the sequence is an expression. -/
theorem ofInfix_determined (tokens : List Token) :
    (∀ before token after, tokens = before ++ token :: after → Clear 0 before →
        Halts 0 before token → ofInfix tokens = .error (halt token)) ∧
      (Clear 0 tokens → tally .rightParen tokens < tally .leftParen tokens →
        ofInfix tokens = .error (.of .unclosedParen)) ∧
      (Clear 0 tokens → tally .leftParen tokens ≤ tally .rightParen tokens →
        ∃ out, ofInfix tokens = .ok out ∧ Rearranged tokens out) ∧
      ∀ out, ofInfix tokens = .ok out → Grammar.Expression (tokens.map Token.kind) →
        ∃ f : Formula, f.Grouped ∧ f.tokens = tokens ∧
          (∀ g : Formula, g.Grouped → g.tokens = tokens → g = f) ∧ out = f.postorder := by
  refine ⟨?_, ?_, ?_, ?_⟩
  · rintro before token after rfl hclear hhalts
    exact @order_of_halts [] token before hclear hhalts after
  · intro hclear more
    obtain ⟨fails, -⟩ := @order_of_clear [] tokens hclear
    exact fails (by simpa using more)
  · intro hclear less
    obtain ⟨-, succeeds⟩ := @order_of_clear [] tokens hclear
    obtain ⟨out, hout, hperm, hoperands⟩ := succeeds (by simpa using less)
    rw [operators, List.append_nil] at hperm
    exact ⟨out, hout, rearranged_of_perm hperm hoperands⟩
  · intro out hout hexpression
    have noCall := no_call_of_clear (clear_of_order hout)
    obtain ⟨f, hf, rfl⟩ :=
      Formula.exists_of_expression hexpression rfl (Formula.known_of_no_call noCall)
    rw [Formula.ofInfix_tokens hf noCall] at hout
    exact ⟨f, hf, rfl, fun g hg h => hg.tokens_injective hf h, (Except.ok.inj hout).symm⟩

theorem ofInfix_determined_of_stray_parens :
    ofInfix [.operand 1.0, .rightParen, .call "f" []] = .error (.of .stackUnderflow) ∧
      ofInfix [.leftParen, .operator .add] = .error (.of .unclosedParen) ∧
      (∃ out, ofInfix [.operator .add, .leftParen, .operand 1.0, .rightParen] = .ok out ∧
        Rearranged [.operator .add, .leftParen, .operand 1.0, .rightParen] out) ∧
      ∃ f : Formula, f.Grouped ∧
        f.tokens = [.operand 2.0, .operator .multiply, .operand 3.0, .operator .modulo,
          .operand 4.0] ∧
        f.postorder = [.operand 2.0, .operand 3.0, .operand 4.0, .operator .modulo,
          .operator .multiply] := by
  have one : Clear 0 [.operand 1.0] := by
    simp [clear_cons_iff, clear_nil, Halts, Token.kind]
  have stray : Halts 0 [.operand 1.0] .rightParen := by
    simp [Halts, Token.kind]
  have opening : Clear 0 [.leftParen, .operator .add] := by
    simp [clear_cons_iff, clear_nil, Halts, Token.kind]
  have balanced : Clear 0 [.operator .add, .leftParen, .operand 1.0, .rightParen] := by
    simp [clear_cons_iff, clear_nil, Halts, Token.kind, Grammar.openedBehind]
  have product : Grammar.Expression (List.map Token.kind [.operand 2.0, .operator .multiply,
      .operand 3.0, .operator .modulo, .operand 4.0]) := by
    decide
  obtain ⟨halts, -⟩ := ofInfix_determined [.operand 1.0, .rightParen, .call "f" []]
  obtain ⟨-, unclosed, -⟩ := ofInfix_determined [.leftParen, .operator .add]
  obtain ⟨-, -, succeeds, -⟩ :=
    ofInfix_determined [.operator .add, .leftParen, .operand 1.0, .rightParen]
  obtain ⟨-, -, -, expression⟩ := ofInfix_determined [.operand 2.0, .operator .multiply,
    .operand 3.0, .operator .modulo, .operand 4.0]
  refine ⟨halts [.operand 1.0] .rightParen [.call "f" []] rfl one stray,
    unclosed opening (by decide), succeeds balanced (by decide), ?_⟩
  obtain ⟨f, hf, htokens, -, hpost⟩ := expression _ rfl product
  exact ⟨f, hf, htokens, hpost.symm⟩

end Postfix

end Reckoner
