import Reckoner.Proofs.Rendering

/-! Expression trees. A well-formed sequence of tokens is the yield of exactly one tree in which
operations are grouped by how tightly they bind. -/
namespace Reckoner

inductive Formula
  | number (value : Float)
  | group (inner : Formula)
  | operation (op : Operator) (left right : Formula)
  | call (name : String) (arguments : List Formula)

namespace Formula

mutual

def tokens : Formula → List Token
  | number x => [.operand x]
  | group f => .leftParen :: (f.tokens ++ [.rightParen])
  | operation op left right => left.tokens ++ .operator op :: right.tokens
  | call name arguments => [.call name (tokensOfArguments arguments)]

def tokensOfArguments : List Formula → List (List Token)
  | [] => []
  | f :: fs => f.tokens :: tokensOfArguments fs

end

/-- How tightly a tree holds together: least as a sum or a difference, then as a product or a
quotient, then as a remainder, and most as anything else. -/
def bond : Formula → Nat
  | operation .add _ _ | operation .subtract _ _ => 1
  | operation .multiply _ _ | operation .divide _ _ => 2
  | operation .modulo _ _ => 3
  | _ => 4

/-- Nothing looser stands below an operation without parentheses, and on the right nothing that
binds equally. -/
inductive Grouped : Formula → Prop
  | number {x} : Grouped (number x)
  | group {f} : Grouped f → Grouped (group f)
  | operation {op left right} : Grouped left → Grouped right →
      (operation op left right).bond ≤ left.bond → (operation op left right).bond < right.bond →
      Grouped (operation op left right)
  | call {name arguments} : (∀ f ∈ arguments, Grouped f) → Grouped (call name arguments)

variable {f g a b left right : Formula} {op : Operator} {k : Nat} {name : String}
  {fs gs : List Formula} {ps qs : List (Operator × Formula)}

theorem tokensOfArguments_eq_map (fs : List Formula) : tokensOfArguments fs = fs.map tokens := by
  induction fs with
  | nil => rfl
  | cons f fs ih => rw [tokensOfArguments, ih, List.map_cons]

theorem tokens_call : (call name fs).tokens = [.call name (fs.map tokens)] := by
  rw [tokens, tokensOfArguments_eq_map]

theorem tokens_ne_nil (f : Formula) : f.tokens ≠ [] := by
  cases f with
  | operation => exact List.append_ne_nil_of_right_ne_nil _ nofun
  | number | group | call => nofun

theorem bond_operation : (operation op left right).bond = op.precedence := by
  cases op <;> rfl

theorem precedence_lt (op : Operator) : op.precedence < 4 := by
  cases op <;> decide

/-- Puts an operator and its right side behind a tree, below whatever is looser. -/
def attach : Formula → Operator → Formula → Formula
  | operation q left right, op, a =>
    if op.precedence ≤ q.precedence then operation op (operation q left right) a
    else operation q left (right.attach op a)
  | f, op, a => operation op f a

theorem attach_of_le (h : op.precedence ≤ f.bond) : f.attach op a = operation op f a := by
  cases f with
  | operation =>
    rw [bond_operation] at h
    exact if_pos h
  | number | group | call => rfl

theorem attach_of_lt {q : Operator} (h : q.precedence < op.precedence) :
    (operation q left right).attach op a = operation q left (right.attach op a) :=
  if_neg (Nat.not_le_of_lt h)

theorem tokens_attach : (f : Formula) →
    (f.attach op a).tokens = f.tokens ++ .operator op :: a.tokens
  | operation q left right => by
    by_cases h : op.precedence ≤ q.precedence
    · rw [attach_of_le (by rwa [bond_operation]), tokens]
    · rw [attach_of_lt (Nat.lt_of_not_le h), tokens, tokens_attach right, tokens]
      simp
  | number _ | group _ | call _ _ => rfl

theorem lt_bond_attach (hf : k < f.bond) (ho : k < op.precedence) : k < (f.attach op a).bond := by
  cases f with
  | operation q left right =>
    rw [bond_operation] at hf
    rw [attach]
    split
    · rwa [bond_operation]
    · rwa [bond_operation]
  | number | group | call =>
    change k < (operation op _ a).bond
    rwa [bond_operation]

theorem Grouped.attach_of_le (hf : Grouped f) (ha : Grouped a) (hb : a.bond = 4)
    (h : op.precedence ≤ f.bond) : Grouped (f.attach op a) := by
  rw [Formula.attach_of_le h]
  refine .operation hf ha ?_ ?_
  · rwa [bond_operation]
  · rw [bond_operation, hb]
    exact precedence_lt op

theorem Grouped.attach (hf : Grouped f) (ha : Grouped a) (hb : a.bond = 4) :
    Grouped (f.attach op a) := by
  have tightest : op.precedence ≤ 4 := Nat.le_of_lt (precedence_lt op)
  induction hf with
  | number => exact Grouped.number.attach_of_le ha hb tightest
  | group h => exact h.group.attach_of_le ha hb tightest
  | call h => exact (Grouped.call h).attach_of_le ha hb tightest
  | @operation q left right hl hr hlq hrq _ ihr =>
    by_cases h : op.precedence ≤ q.precedence
    · exact (Grouped.operation hl hr hlq hrq).attach_of_le ha hb (by rwa [bond_operation])
    · have hq : q.precedence < op.precedence := Nat.lt_of_not_le h
      rw [attach_of_lt hq]
      refine .operation hl ihr (by rwa [bond_operation] at hlq ⊢) ?_
      rw [bond_operation] at hrq ⊢
      exact lt_bond_attach hrq hq

section Spine

/-- The leftmost part of a tree that is no operation. -/
def first : Formula → Formula
  | operation _ left _ => left.first
  | f => f

/-- The parts behind the first one, each with the operator before it. -/
def rest : Formula → List (Operator × Formula)
  | operation op left right => left.rest ++ (op, right.first) :: right.rest
  | _ => []

def restTokens (ps : List (Operator × Formula)) : List Token :=
  ps.flatMap fun p => .operator p.1 :: p.2.tokens

def grow (f : Formula) (ps : List (Operator × Formula)) : Formula :=
  ps.foldl (fun f p => f.attach p.1 p.2) f

theorem tokens_eq_first_rest : (f : Formula) → f.tokens = f.first.tokens ++ restTokens f.rest
  | operation op left right => by
    rw [tokens, tokens_eq_first_rest left, tokens_eq_first_rest right, first, rest]
    simp [restTokens]
  | number _ | group _ | call _ _ => (List.append_nil _).symm

theorem bond_le_of_mem_rest (hf : Grouped f) : ∀ p ∈ f.rest, f.bond ≤ p.1.precedence := by
  induction hf with
  | number | group | call => nofun
  | operation _ _ hl hr ihl ihr =>
    rw [bond_operation] at hl hr ⊢
    intro p hp
    rcases List.mem_append.mp hp with hp | hp
    · exact Nat.le_trans hl (ihl p hp)
    rcases List.mem_cons.mp hp with rfl | hp
    · exact Nat.le_refl _
    · exact Nat.le_trans (Nat.le_of_lt hr) (ihr p hp)

theorem grow_operation (h : ∀ p ∈ ps, op.precedence < p.1.precedence) :
    grow (operation op left right) ps = operation op left (grow right ps) := by
  induction ps generalizing right with
  | nil => rfl
  | cons p ps ih =>
    obtain ⟨hp, hs⟩ := List.forall_mem_cons.mp h
    calc grow (operation op left right) (p :: ps)
        = grow (operation op left (right.attach p.1 p.2)) ps :=
          congrArg (grow · ps) (attach_of_lt hp)
      _ = operation op left (grow right (p :: ps)) := ih hs

/-- A tree grows from its parts: they say how it is grouped. -/
theorem grow_first_rest (hf : Grouped f) : grow f.first f.rest = f := by
  induction hf with
  | number | group | call => rfl
  | @operation op left right _ hr hlq hrq ihl ihr =>
    rw [bond_operation] at hlq hrq
    have tighter : ∀ p ∈ right.rest, op.precedence < p.1.precedence :=
      fun p hp => Nat.lt_of_lt_of_le hrq (bond_le_of_mem_rest hr p hp)
    calc grow left.first (left.rest ++ (op, right.first) :: right.rest)
        = grow ((grow left.first left.rest).attach op right.first) right.rest := by
          simp [grow]
      _ = grow (operation op left right.first) right.rest := by
          rw [ihl, attach_of_le hlq]
      _ = operation op left right := by
          rw [grow_operation tighter, ihr]

/-- Number, group or call: a part that no operator takes apart. -/
def Part (f : Formula) : Prop := Grouped f ∧ f.bond = 4

theorem Part.cases (h : Part b) :
    (∃ x, b = number x) ∨ (∃ g, Grouped g ∧ b = group g) ∨
      ∃ name gs, (∀ g ∈ gs, Grouped g) ∧ b = call name gs := by
  obtain ⟨hb, h4⟩ := h
  cases hb with
  | number => exact Or.inl ⟨_, rfl⟩
  | group hg => exact Or.inr (Or.inl ⟨_, hg, rfl⟩)
  | call hg => exact Or.inr (Or.inr ⟨_, _, hg, rfl⟩)
  | @operation op =>
    rw [bond_operation] at h4
    exact absurd h4 (Nat.ne_of_lt (precedence_lt op))

theorem Grouped.parts (hf : Grouped f) : Part f.first ∧ ∀ p ∈ f.rest, Part p.2 := by
  induction hf with
  | number => exact ⟨⟨.number, rfl⟩, nofun⟩
  | group h => exact ⟨⟨.group h, rfl⟩, nofun⟩
  | call h => exact ⟨⟨.call h, rfl⟩, nofun⟩
  | operation _ _ _ _ ihl ihr =>
    exact ⟨ihl.1, List.forall_mem_append.mpr ⟨ihl.2, List.forall_mem_cons.mpr ihr⟩⟩

end Spine

section Uniqueness

variable {xs ys : List Token}

/-- No other part has tokens that begin, or go on, like those of this one. -/
def Readable (a : Formula) : Prop :=
  ∀ ⦃b⦄, Part b → ∀ ⦃xs ys⦄, a.tokens ++ xs = b.tokens ++ ys → a = b ∧ xs = ys

theorem rest_injective (hp : ∀ p ∈ ps, Readable p.2) (hq : ∀ q ∈ qs, Part q.2)
    (h : restTokens ps = restTokens qs) : ps = qs := by
  induction ps generalizing qs with
  | nil =>
    cases qs with
    | nil => rfl
    | cons q qs => cases h
  | cons p ps ih =>
    cases qs with
    | nil => cases h
    | cons q qs =>
      obtain ⟨hp, hps⟩ := List.forall_mem_cons.mp hp
      obtain ⟨hq, hqs⟩ := List.forall_mem_cons.mp hq
      obtain ⟨hop, htail⟩ := List.cons.inj h
      obtain ⟨ha, hrest⟩ := hp hq htail
      rw [ih hps hqs hrest, Prod.ext (Token.operator.inj hop) ha]

theorem eq_of_tokens_eq (hr : Readable f.first ∧ ∀ p ∈ f.rest, Readable p.2) (hf : Grouped f)
    (hg : Grouped g) (h : f.tokens = g.tokens) : f = g := by
  obtain ⟨hfirst, hrest⟩ := hg.parts
  rw [tokens_eq_first_rest f, tokens_eq_first_rest g] at h
  obtain ⟨ha, hps⟩ := hr.1 hfirst h
  rw [← grow_first_rest hf, ← grow_first_rest hg, ha, rest_injective hr.2 hrest hps]

/-- The tokens before the parenthesis that closes around them, with `depth` inner ones open. -/
def inside (depth : Nat) : List Token → List Token
  | [] => []
  | .leftParen :: ts => .leftParen :: inside (depth + 1) ts
  | .rightParen :: ts =>
    match depth with
    | 0 => []
    | depth + 1 => .rightParen :: inside depth ts
  | t :: ts => t :: inside depth ts

theorem inside_tokens : (f : Formula) → ∀ depth xs,
    inside depth (f.tokens ++ xs) = f.tokens ++ inside depth xs
  | number _, _, _ => rfl
  | call _ _, _, _ => rfl
  | group f, depth, xs => by
    simp [tokens, inside, inside_tokens f]
  | operation _ left right, depth, xs => by
    simp [tokens, inside, inside_tokens left, inside_tokens right]

theorem group_tokens_injective
    (h : (group f).tokens ++ xs = (group g).tokens ++ ys) : f.tokens = g.tokens ∧ xs = ys := by
  have opened : f.tokens ++ .rightParen :: xs = g.tokens ++ .rightParen :: ys := by
    simpa [tokens] using h
  have closed := congrArg (inside 0) opened
  rw [inside_tokens, inside_tokens] at closed
  have same : f.tokens = g.tokens := by simpa [inside] using closed
  rw [same] at opened
  exact ⟨same, (List.cons.inj (List.append_cancel_left opened)).2⟩

theorem map_tokens_injective (hf : ∀ f ∈ fs, ∀ ⦃g⦄, Grouped g → f.tokens = g.tokens → f = g)
    (hg : ∀ g ∈ gs, Grouped g) (h : fs.map tokens = gs.map tokens) : fs = gs := by
  induction fs generalizing gs with
  | nil => exact (List.map_eq_nil_iff.mp h.symm).symm
  | cons f fs ih =>
    obtain ⟨g, gs, rfl, hfg, hs⟩ := List.map_eq_cons_iff.mp h.symm
    obtain ⟨hf, hfs⟩ := List.forall_mem_cons.mp hf
    obtain ⟨hg, hgs⟩ := List.forall_mem_cons.mp hg
    rw [hf hg hfg.symm, ih hfs hgs hs.symm]

theorem Grouped.readable (hf : Grouped f) :
    Readable f.first ∧ ∀ p ∈ f.rest, Readable p.2 := by
  induction hf with
  | number =>
    refine ⟨fun b hb xs ys h => ?_, nofun⟩
    obtain ⟨y, rfl⟩ | ⟨g, -, rfl⟩ | ⟨name, gs, -, rfl⟩ := hb.cases
    · obtain ⟨hxy, hrest⟩ := List.cons.inj h
      exact ⟨congrArg Formula.number (Token.operand.inj hxy), hrest⟩
    · cases (List.cons.inj h).1
    · cases (List.cons.inj h).1
  | group hf ih =>
    refine ⟨fun b hb xs ys h => ?_, nofun⟩
    obtain ⟨y, rfl⟩ | ⟨g, hg, rfl⟩ | ⟨name, gs, -, rfl⟩ := hb.cases
    · cases (List.cons.inj h).1
    · obtain ⟨hfg, hrest⟩ := group_tokens_injective h
      exact ⟨congrArg Formula.group (eq_of_tokens_eq ih hf hg hfg), hrest⟩
    · cases (List.cons.inj h).1
  | @call name fs hfs ih =>
    refine ⟨fun b hb xs ys h => ?_, nofun⟩
    obtain ⟨y, rfl⟩ | ⟨g, -, rfl⟩ | ⟨name', gs, hgs, rfl⟩ := hb.cases
    · cases (List.cons.inj h).1
    · cases (List.cons.inj h).1
    · change (Formula.call name fs).tokens ++ xs = _ at h
      rw [tokens_call, tokens_call] at h
      obtain ⟨hcall, hrest⟩ := List.cons.inj h
      obtain ⟨rfl, harguments⟩ := Token.call.inj hcall
      have same : fs = gs := map_tokens_injective
        (fun f hf g hg => eq_of_tokens_eq (ih f hf) (hfs f hf) hg) hgs harguments
      exact ⟨congrArg (Formula.call name) same, hrest⟩
  | operation _ _ _ _ ihl ihr =>
    exact ⟨ihl.1, List.forall_mem_append.mpr ⟨ihl.2, List.forall_mem_cons.mpr ihr⟩⟩

/-- Trees with the same yield are the same. -/
theorem Grouped.tokens_injective (hf : Grouped f) (hg : Grouped g) (h : f.tokens = g.tokens) :
    f = g :=
  eq_of_tokens_eq hf.readable hf hg h

end Uniqueness

section Existence

variable {ts : List Token} {token : Token} {levels : Nat}

/-- Tokens that are values on their own are the yield of a part. -/
def Known (ts : List Token) : Prop :=
  ∀ token ∈ ts, token.kind = .operand ∨ token.kind = .call → ∃ a, Part a ∧ a.tokens = [token]

mutual

/-- An expression in known tokens is the yield of a tree. -/
theorem exists_of_expression : {ks : List Token.Kind} → Grammar.Expression ks →
    ∀ {ts : List Token}, ts.map Token.kind = ks → Known ts → ∃ f, Grouped f ∧ f.tokens = ts
  | _, .value h, _, hk, hts => by
    obtain ⟨a, ha, rfl⟩ := exists_of_value h hk hts
    exact ⟨a, ha.1, rfl⟩
  | _, .operation h hv, _, hk, hts => by
    obtain ⟨ts, tail, rfl, hleft, htail⟩ := List.map_eq_append_iff.mp hk
    obtain ⟨token, us, rfl, hop, hright⟩ := List.map_eq_cons_iff.mp htail
    obtain ⟨op, rfl⟩ := Language.eq_operator hop
    obtain ⟨hl, hr⟩ := List.forall_mem_append.mp hts
    obtain ⟨f, hf, rfl⟩ := exists_of_expression h hleft hl
    obtain ⟨a, ha, rfl⟩ := exists_of_value hv hright (List.forall_mem_cons.mp hr).2
    exact ⟨f.attach op a, hf.attach ha.1 ha.2, tokens_attach f⟩

theorem exists_of_value : {ks : List Token.Kind} → Grammar.Value ks →
    ∀ {ts : List Token}, ts.map Token.kind = ks → Known ts → ∃ a, Part a ∧ a.tokens = ts
  | _, .operand, _, hk, hts => by
    obtain ⟨token, rfl, hoperand⟩ := List.map_eq_singleton_iff.mp hk
    exact hts token List.mem_cons_self (Or.inl hoperand)
  | _, .call, _, hk, hts => by
    obtain ⟨token, rfl, hcall⟩ := List.map_eq_singleton_iff.mp hk
    exact hts token List.mem_cons_self (Or.inr hcall)
  | _, .group h, _, hk, hts => by
    obtain ⟨left, tail, rfl, hleft, htail⟩ := List.map_eq_cons_iff.mp hk
    obtain ⟨ts, last, rfl, hinner, hlast⟩ := List.map_eq_append_iff.mp htail
    obtain ⟨right, rfl, hright⟩ := List.map_eq_singleton_iff.mp hlast
    obtain rfl := Language.eq_leftParen hleft
    obtain rfl := Language.eq_rightParen hright
    have known := (List.forall_mem_append.mp (List.forall_mem_cons.mp hts).2).1
    obtain ⟨f, hf, rfl⟩ := exists_of_expression h hinner known
    exact ⟨group f, ⟨.group hf, rfl⟩, rfl⟩

end

theorem exists_map_tokens {arguments : List (List Token)}
    (h : ∀ argument ∈ arguments, ∃ f, Grouped f ∧ f.tokens = argument) :
    ∃ fs : List Formula, (∀ f ∈ fs, Grouped f) ∧ fs.map tokens = arguments := by
  induction arguments with
  | nil => exact ⟨[], nofun, rfl⟩
  | cons argument arguments ih =>
    obtain ⟨⟨f, hf, rfl⟩, hs⟩ := List.forall_mem_cons.mp h
    obtain ⟨fs, hfs, rfl⟩ := ih hs
    exact ⟨f :: fs, List.forall_mem_cons.mpr ⟨hf, hfs⟩, rfl⟩

theorem exists_of_writable (h : Writable levels token) :
    token.kind = .operand ∨ token.kind = .call → ∃ a, Part a ∧ a.tokens = [token] := by
  induction h with
  | @operand _ x => exact fun _ => ⟨number x, ⟨.number, rfl⟩, rfl⟩
  | operator | leftParen | rightParen => exact fun h => absurd h (by simp [Token.kind])
  | @call _ name arguments _ hk _ ih =>
    intro _
    obtain ⟨fs, hfs, rfl⟩ := exists_map_tokens fun argument ha =>
      exists_of_expression (hk argument ha) rfl (ih argument ha)
    exact ⟨call name fs, ⟨.call hfs, rfl⟩, tokens_call⟩

/-- Writable tokens whose kinds form an expression are the yield of a tree. -/
theorem exists_of_writable_expression (hk : Grammar.Expression (ts.map Token.kind))
    (h : ∀ token ∈ ts, Writable levels token) : ∃ f, Grouped f ∧ f.tokens = ts :=
  exists_of_expression hk rfl fun token ht => exists_of_writable (h token ht)

end Existence

end Formula

end Reckoner
