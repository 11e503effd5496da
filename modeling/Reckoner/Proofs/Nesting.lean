import Reckoner.Proofs.Agenda

/-! How deep calls are nested in each other, and which call is to blame where that is too deep. -/
namespace Reckoner

namespace Token

mutual

/-- How many calls are nested in each other. -/
def nesting : Token → Nat
  | call _ arguments => nestingOfArguments arguments + 1
  | _ => 0

def nestingOfSequence : List Token → Nat
  | [] => 0
  | token :: tokens => max token.nesting (nestingOfSequence tokens)

def nestingOfArguments : List (List Token) → Nat
  | [] => 0
  | argument :: arguments => max (nestingOfSequence argument) (nestingOfArguments arguments)

end

/-- The name of a call, or of the first one that `inside` finds in its arguments. -/
def blamed (inside : Option (List Token → Option String)) : Token → Option String
  | call name arguments =>
    match inside with
    | none => some name
    | some inside => arguments.findSome? inside
  | _ => none

end Token

namespace Site

mutual

/-- A call before the calls in its arguments. -/
def preorderOfToken (depth : Nat) : Token → List Site
  | .call name arguments => ⟨depth, name, arguments⟩ :: preorderOfArguments (depth + 1) arguments
  | _ => []

/-- All calls of a sequence, in the order in which their names stand in its text. -/
def preorder (depth : Nat) : List Token → List Site
  | [] => []
  | token :: tokens => preorderOfToken depth token ++ preorder depth tokens

def preorderOfArguments (depth : Nat) : List (List Token) → List Site
  | [] => []
  | argument :: arguments => preorder depth argument ++ preorderOfArguments depth arguments

end

end Site

/-- The name of the first call of a sequence that is inside `levels` others. -/
def blamed : (levels : Nat) → List Token → Option String
  | 0, tokens => tokens.findSome? (Token.blamed none)
  | levels + 1, tokens => tokens.findSome? (Token.blamed (some (blamed levels)))

/-- What finds the call to blame in arguments, if calls may stand there. -/
def blamedInside : (levels : Nat) → Option (List Token → Option String)
  | 0 => none
  | levels + 1 => some (blamed levels)

theorem blamed_eq (levels : Nat) (tokens : List Token) :
    blamed levels tokens = tokens.findSome? (Token.blamed (blamedInside levels)) := by
  cases levels <;> rfl

theorem findSome?_cons_eq_or {α β : Type} (f : α → Option β) (a : α) (as : List α) :
    (a :: as).findSome? f = (f a).or (as.findSome? f) := by
  rw [List.findSome?_cons]
  cases f a <;> rfl

theorem blamed_cons (levels : Nat) (token : Token) (tokens : List Token) :
    blamed levels (token :: tokens) =
      (token.blamed (blamedInside levels)).or (blamed levels tokens) := by
  rw [blamed_eq, blamed_eq, findSome?_cons_eq_or]

section Sites

variable {levels depth : Nat}

mutual

theorem find?_preorderOfToken : (token : Token) → {levels depth : Nat} →
    ((Site.preorderOfToken depth token).find? fun site => site.depth = depth + levels).map
      Site.name = token.blamed (blamedInside levels)
  | .call name arguments, levels, depth => by
    cases levels with
    | zero => simp [Site.preorderOfToken, Token.blamed, blamedInside]
    | succ levels =>
      have inside := @find?_preorderOfArguments arguments levels (depth + 1)
      rw [Nat.add_right_comm] at inside
      simp [Site.preorderOfToken, Token.blamed, blamedInside, ← inside, Nat.add_assoc]
  | .operand _, _, _ | .operator _, _, _ | .leftParen, _, _ | .rightParen, _, _ => rfl

/-- The call to blame is the first one in the text that has `levels` calls around it. -/
theorem find?_preorder : (tokens : List Token) → {levels depth : Nat} →
    ((Site.preorder depth tokens).find? fun site => site.depth = depth + levels).map Site.name =
      blamed levels tokens
  | [], levels, _ => by cases levels <;> rfl
  | token :: tokens, levels, depth => by
    rw [Site.preorder, List.find?_append, Option.map_or, find?_preorderOfToken token,
      find?_preorder tokens, blamed_cons]

theorem find?_preorderOfArguments : (arguments : List (List Token)) → {levels depth : Nat} →
    ((Site.preorderOfArguments depth arguments).find? fun site => site.depth = depth + levels).map
      Site.name = arguments.findSome? (blamed levels)
  | [], _, _ => rfl
  | argument :: arguments, levels, depth => by
    rw [Site.preorderOfArguments, List.find?_append, Option.map_or, find?_preorder argument,
      find?_preorderOfArguments arguments, findSome?_cons_eq_or]

end

mutual

theorem lt_nesting_iff : (token : Token) → {levels : Nat} →
    (levels < token.nesting ↔ (token.blamed (blamedInside levels)).isSome)
  | .call name arguments, levels => by
    cases levels with
    | zero => simp [Token.nesting, Token.blamed, blamedInside]
    | succ levels =>
      simp [Token.nesting, Token.blamed, blamedInside, lt_nestingOfArguments_iff arguments]
  | .operand _, _ | .operator _, _ | .leftParen, _ | .rightParen, _ => by
    simp [Token.nesting, Token.blamed]

/-- There is a call to blame just where calls are nested more than `levels` deep. -/
theorem lt_nestingOfSequence_iff : (tokens : List Token) → {levels : Nat} →
    (levels < Token.nestingOfSequence tokens ↔ (blamed levels tokens).isSome)
  | [], levels => by cases levels <;> simp [Token.nestingOfSequence, blamed]
  | token :: tokens, levels => by
    rw [Token.nestingOfSequence, lt_max_iff, lt_nesting_iff token,
      lt_nestingOfSequence_iff tokens, blamed_cons, Option.isSome_or, Bool.or_eq_true]

theorem lt_nestingOfArguments_iff : (arguments : List (List Token)) → {levels : Nat} →
    (levels < Token.nestingOfArguments arguments ↔ (arguments.findSome? (blamed levels)).isSome)
  | [], _ => by simp [Token.nestingOfArguments]
  | argument :: arguments, levels => by
    rw [Token.nestingOfArguments, lt_max_iff, lt_nestingOfSequence_iff argument,
      lt_nestingOfArguments_iff arguments, findSome?_cons_eq_or, Option.isSome_or,
      Bool.or_eq_true]

end

end Sites

/-- A computation succeeds only if no call is to blame. It fails over the nesting of calls only by
the name of the call to blame, and else as `other` allows it. -/
inductive Blames {α : Type} (other : Failure → Prop) (culprit : Option String) :
    Except Failure α → Prop
  | ok {a} : culprit = none → Blames other culprit (.ok a)
  | deep {e name} : culprit = some name → e.cause = .nestingTooDeep → e.token = some name →
      Blames other culprit (.error e)
  | other {e} : other e → Blames other culprit (.error e)

namespace Blames

variable {α β : Type} {other : Failure → Prop} {m n : Option String} {e : Failure}
  {x : Except Failure α} {f : α → Except Failure β}

theorem or_right (h : Blames other m (.error e : Except Failure α)) (n : Option String) :
    Blames other (m.or n) (.error e : Except Failure β) := by
  cases h with
  | deep hm hc ht => exact .deep (by rw [hm, Option.some_or]) hc ht
  | other h => exact .other h

/-- The first call to blame is found first. -/
theorem bind (hx : Blames other m x) (hf : ∀ a, x = .ok a → Blames other n (f a)) :
    Blames other (m.or n) (x >>= f) := by
  cases x with
  | error => exact hx.or_right n
  | ok a =>
    cases hx with
    | ok hm =>
      rw [hm, Option.none_or]
      exact hf a rfl

theorem map (h : Blames other m x) (g : α → β) : Blames other m (g <$> x) := by
  cases h with
  | ok hm => exact .ok hm
  | deep hm hc ht => exact .deep hm hc ht
  | other h => exact .other h

/-- Of all the calls to blame in a list, the first is found. -/
theorem mapM {ι κ : Type} {culprit : κ → Option String} {g : ι → Except Failure β} {is : List ι}
    {ks : List κ} (h : List.Forall₂ (fun i k => Blames other (culprit k) (g i)) is ks) :
    Blames other (ks.findSome? culprit) (is.mapM g) := by
  induction h with
  | nil => exact .ok rfl
  | cons hi _ ih =>
    rw [List.mapM_cons, findSome?_cons_eq_or]
    refine hi.bind ?_
    intro b _
    rw [bind_pure_comp]
    exact ih.map _

end Blames

namespace Run

variable {σ α β : Type} {other : Failure → Prop} {m n : Option String} {x : Run σ α}
  {f : α → Run σ β}

theorem Yields.bind_blames (hx : x.Yields (Blames other m))
    (hf : ∀ a, (f a).Yields (Blames other n)) : (x >>= f).Yields (Blames other (m.or n)) := by
  refine hx.bind (fun failure h => h.or_right n) ?_
  rintro a ⟨rfl⟩
  exact hf a

theorem Yields.map_blames (hx : x.Yields (Blames other m)) (g : α → β) :
    (g <$> x).Yields (Blames other m) := by
  intro s
  rw [map_apply, Logged.result_map]
  exact (hx s).map g

theorem mapM_blames {culprit : α → Option String} {g : α → Run σ β}
    (h : ∀ a, (g a).Yields (Blames other (culprit a))) (as : List α) :
    (as.mapM g).Yields (Blames other (as.findSome? culprit)) := by
  induction as with
  | nil => exact yields_pure (.ok rfl)
  | cons a as ih =>
    rw [List.mapM_cons, findSome?_cons_eq_or]
    refine (h a).bind_blames ?_
    intro b
    rw [bind_pure_comp]
    exact ih.map_blames _

end Run

end Reckoner
