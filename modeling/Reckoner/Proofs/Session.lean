import Reckoner.Proofs.Evaluation
import Reckoner.Stock

/-! Many evaluators side by side, and what each of them holds after any sequence of operations. -/
namespace Reckoner

/-- What a host can do. Its evaluators are numbered in the order in which they are made. -/
inductive Operation (σ : Type)
  | new
  | withStock
  | withRegistry (r : Registry σ)
  | clone (source : Nat)
  | register (e : Nat) (name : String) (f : Callable σ)
  | unregister (e : Nat) (name : String)
  | tokenize (e : Nat) (text : String)
  | evaluate (e : Nat) (text : String)
  | evaluateTokens (e : Nat) (tokens : List Token)

inductive Answer (σ : Type)
  | made (e : Nat)
  | registered
  | unregistered (f : Option (Callable σ))
  | tokens (result : Except Failure (List Token))
  | value (result : Except Failure Float)

abbrev Event (σ : Type) := Operation σ × Answer σ

/-- The evaluators of a host, and its state, which the functions of all of them may change. -/
structure Session (σ : Type) where
  evaluators : List (Registry σ)
  state : σ

namespace Operation

variable {σ : Type}

/-- The evaluator that has to exist. -/
def subject : Operation σ → Option Nat
  | new | withStock | withRegistry _ => none
  | clone e | register e _ _ | unregister e _ | tokenize e _ | evaluate e _ | evaluateTokens e _ =>
    some e

/-- What a new evaluator begins with that is no clone. -/
def contents : Operation σ → Option (Registry σ)
  | new => some .empty
  | withStock => some .stock
  | withRegistry r => some r
  | _ => none

def Reads : Operation σ → Prop
  | tokenize _ _ | evaluate _ _ | evaluateTokens _ _ => True
  | _ => False

/-- The operation puts a function under the name in that evaluator, or removes the one there. -/
def Touches (e : Nat) (name : String) : Operation σ → Prop
  | register e' name' _ | unregister e' name' => e' = e ∧ name' = name
  | _ => False

def Changes (e : Nat) (op : Operation σ) : Prop := ∃ name, op.Touches e name

variable {op : Operation σ} {r : Registry σ}

theorem begins_only (op : Operation σ) (h : op.contents = some r) :
    (∀ e name f, op ≠ .register e name f) ∧ (∀ source, op ≠ .clone source) ∧
      ∀ e name, ¬ op.Touches e name := by
  cases op <;> simp_all [contents, Touches]

end Operation

namespace Registry

variable {σ : Type}

/-- What a registry tells of the names in it. -/
structure Listed (r : Registry σ) : Prop where
  increasing : r.names.Pairwise fun a b => a.toList < b.toList
  size : r.size = r.names.length
  contains : ∀ name, r.contains name ↔ name ∈ r.names
  found : ∀ name, r.contains name ↔ ∃ f, r.get? name = some f
  isEmpty : r.isEmpty ↔ r.names = []

theorem listed (r : Registry σ) : r.Listed where
  increasing := r.names_increase.imp fun h => String.lt_iff.mp (compare_lt_iff_lt.mp h)
  size := r.length_names.symm
  contains _ := r.mem_names.symm
  found name := by rw [r.contains_eq_isSome, Option.isSome_iff_exists]
  isEmpty := r.isEmpty_iff

end Registry

namespace Session

variable {σ : Type}

def start (state : σ) : Session σ := ⟨[], state⟩

def add (s : Session σ) (r : Registry σ) : Session σ :=
  { s with evaluators := s.evaluators ++ [r] }

def replace (s : Session σ) (e : Nat) (r : Registry σ) : Session σ :=
  { s with evaluators := s.evaluators.set e r }

def made (s : Session σ) (r : Registry σ) : Answer σ × Session σ :=
  (.made s.evaluators.length, s.add r)

def computed (s : Session σ) (x : Run σ Float) : Answer σ × Session σ :=
  (.value (x s.state).1.result, { s with state := (x s.state).2 })

/-- One operation, which needs the evaluator that it is about. -/
def perform (s : Session σ) : Operation σ → Option (Answer σ × Session σ)
  | .new => some (s.made .empty)
  | .withStock => some (s.made .stock)
  | .withRegistry r => some (s.made r)
  | .clone source => s.evaluators[source]?.map s.made
  | .register e name f =>
    s.evaluators[e]?.map fun r => (.registered, s.replace e (r.register name f))
  | .unregister e name =>
    s.evaluators[e]?.map fun r =>
      (.unregistered (r.unregister name).1, s.replace e (r.unregister name).2)
  | .tokenize e text => s.evaluators[e]?.map fun _ => (.tokens (tokenizeExpression text).result, s)
  | .evaluate e text => s.evaluators[e]?.map fun r => s.computed (r.evaluate text)
  | .evaluateTokens e tokens => s.evaluators[e]?.map fun r => s.computed (r.evaluateTokens tokens)

/-- A session goes on, one operation after the other. -/
inductive Runs (s : Session σ) : List (Event σ) → Session σ → Prop
  | nil : Runs s [] s
  | concat {history t op answer u} : Runs s history t → t.perform op = some (answer, u) →
      Runs s (history ++ [(op, answer)]) u

/-- All that an operation can do. -/
inductive Step (s : Session σ) : Operation σ → Answer σ → Session σ → Prop
  | made {op r} : op.contents = some r → Step s op (.made s.evaluators.length) (s.add r)
  | cloned {source r} : s.evaluators[source]? = some r →
      Step s (.clone source) (.made s.evaluators.length) (s.add r)
  | registered {e name f r} : s.evaluators[e]? = some r →
      Step s (.register e name f) .registered (s.replace e (r.register name f))
  | unregistered {e name r} : s.evaluators[e]? = some r →
      Step s (.unregister e name) (.unregistered (r.unregister name).1)
        (s.replace e (r.unregister name).2)
  | read {op answer t} : op.Reads → t.evaluators = s.evaluators → Step s op answer t

/-- Nothing is done to the name in that evaluator. -/
def Untouched (e : Nat) (name : String) (later : List (Event σ)) : Prop :=
  ∀ event ∈ later, ¬ event.1.Touches e name

/-- After these events the function is found under the name in that evaluator: it has been
registered there, or the evaluator began with it, or it was found in another evaluator when that
one was cloned; and nothing has been done to the name since. -/
inductive HasAfter : List (Event σ) → Nat → String → Callable σ → Prop
  | registered {before later e name f} : Untouched e name later →
      HasAfter (before ++ (.register e name f, .registered) :: later) e name f
  | given {before later op r e name f} : op.contents = some r → r.get? name = some f →
      Untouched e name later → HasAfter (before ++ (op, .made e) :: later) e name f
  | cloned {before later source e name f} : HasAfter before source name f →
      Untouched e name later → HasAfter (before ++ (.clone source, .made e) :: later) e name f

/-- The function is found under the name in that evaluator. -/
def Has (s : Session σ) (e : Nat) (name : String) (f : Callable σ) : Prop :=
  ∃ r, s.evaluators[e]? = some r ∧ r.get? name = some f

variable {s t u : Session σ} {r r' : Registry σ} {e e' : Nat} {name text : String} {f : Callable σ}
  {op : Operation σ} {answer : Answer σ} {history before later : List (Event σ)}
  {tokens : List Token}

theorem perform_isSome_iff : (s.perform op).isSome ↔ ∀ e ∈ op.subject, e < s.evaluators.length := by
  cases op <;> simp [perform, Operation.subject]

theorem step_of_perform (h : s.perform op = some (answer, t)) : Step s op answer t := by
  cases op with
  | new | withStock | withRegistry =>
    cases h
    exact .made rfl
  | clone source =>
    obtain ⟨r, hr, h⟩ := Option.map_eq_some_iff.mp h
    cases h
    exact .cloned hr
  | register e name f =>
    obtain ⟨r, hr, h⟩ := Option.map_eq_some_iff.mp h
    cases h
    exact .registered hr
  | unregister e name =>
    obtain ⟨r, hr, h⟩ := Option.map_eq_some_iff.mp h
    cases h
    exact .unregistered hr
  | tokenize | evaluate | evaluateTokens =>
    obtain ⟨r, hr, h⟩ := Option.map_eq_some_iff.mp h
    cases h
    exact .read trivial rfl

theorem untouched_nil : Untouched e name ([] : List (Event σ)) :=
  fun _ h => absurd h List.not_mem_nil

theorem untouched_concat_iff :
    Untouched e name (later ++ [(op, answer)]) ↔ Untouched e name later ∧ ¬ op.Touches e name := by
  simp [Untouched, or_imp, forall_and]

theorem concat_eq_append_cons {event last : Event σ}
    (h : history ++ [last] = before ++ event :: later) :
    (later = [] ∧ before = history ∧ event = last) ∨
      ∃ rest, later = rest ++ [last] ∧ history = before ++ event :: rest := by
  rcases List.eq_nil_or_concat' later with rfl | ⟨rest, last', rfl⟩
  · obtain ⟨rfl, hlast⟩ := List.append_inj' h rfl
    exact Or.inl ⟨rfl, rfl, (List.cons.inj hlast).1.symm⟩
  · rw [← List.cons_append, ← List.append_assoc] at h
    obtain ⟨rfl, hlast⟩ := List.append_inj' h rfl
    exact Or.inr ⟨rest, by rw [hlast], rfl⟩

/-- What the last event does to what is found. -/
theorem hasAfter_concat_iff :
    HasAfter (history ++ [(op, answer)]) e name f ↔
      (op = .register e name f ∧ answer = .registered) ∨
      (∃ r, op.contents = some r ∧ answer = .made e ∧ r.get? name = some f) ∨
      (∃ source, op = .clone source ∧ answer = .made e ∧ HasAfter history source name f) ∨
      (¬ op.Touches e name ∧ HasAfter history e name f) := by
  constructor
  · intro h
    -- either the function has been put there by the last event, or that one leaves it untouched
    generalize hall : history ++ [(op, answer)] = all at h
    cases h with
    | registered hu =>
      obtain ⟨-, rfl, hlast⟩ | ⟨rest, rfl, rfl⟩ := concat_eq_append_cons hall
      · cases hlast
        exact Or.inl ⟨rfl, rfl⟩
      · obtain ⟨hu, ht⟩ := untouched_concat_iff.mp hu
        exact Or.inr (Or.inr (Or.inr ⟨ht, .registered hu⟩))
    | given hc hf hu =>
      obtain ⟨-, rfl, hlast⟩ | ⟨rest, rfl, rfl⟩ := concat_eq_append_cons hall
      · cases hlast
        exact Or.inr (Or.inl ⟨_, hc, rfl, hf⟩)
      · obtain ⟨hu, ht⟩ := untouched_concat_iff.mp hu
        exact Or.inr (Or.inr (Or.inr ⟨ht, .given hc hf hu⟩))
    | cloned hs hu =>
      obtain ⟨-, rfl, hlast⟩ | ⟨rest, rfl, rfl⟩ := concat_eq_append_cons hall
      · cases hlast
        exact Or.inr (Or.inr (Or.inl ⟨_, rfl, rfl, hs⟩))
      · obtain ⟨hu, ht⟩ := untouched_concat_iff.mp hu
        exact Or.inr (Or.inr (Or.inr ⟨ht, .cloned hs hu⟩))
  · rintro (⟨rfl, rfl⟩ | ⟨r, hc, rfl, hf⟩ | ⟨source, rfl, rfl, hs⟩ | ⟨ht, h⟩)
    · exact .registered untouched_nil
    · exact .given hc hf untouched_nil
    · exact .cloned hs untouched_nil
    · cases h with
      | registered hu =>
        rw [List.append_assoc]
        exact .registered (untouched_concat_iff.mpr ⟨hu, ht⟩)
      | given hc hf hu =>
        rw [List.append_assoc]
        exact .given hc hf (untouched_concat_iff.mpr ⟨hu, ht⟩)
      | cloned hs hu =>
        rw [List.append_assoc]
        exact .cloned hs (untouched_concat_iff.mpr ⟨hu, ht⟩)

theorem not_hasAfter_nil : ¬ HasAfter ([] : List (Event σ)) e name f := by
  intro h
  generalize hall : ([] : List (Event σ)) = all at h
  cases h <;> simp at hall

theorem has_iff (h : s.evaluators[e]? = some r) : s.Has e name f ↔ r.get? name = some f := by
  simp [Has, h]

theorem has_add_iff :
    (s.add r).Has e name f ↔ (s.evaluators.length = e ∧ r.get? name = some f) ∨ s.Has e name f := by
  rcases Nat.lt_trichotomy e s.evaluators.length with h | rfl | h
  · simp [Has, add, List.getElem?_append_left h, h.ne']
  · simp [Has, add]
  · simp [Has, add, List.getElem?_append_right h.le, h.le, h.ne, Nat.sub_ne_zero_of_lt h]

theorem has_replace_iff (h : s.evaluators[e]? = some r) :
    (s.replace e r').Has e' name f ↔
      (e = e' ∧ r'.get? name = some f) ∨ (e ≠ e' ∧ s.Has e' name f) := by
  obtain ⟨he, -⟩ := List.getElem?_eq_some_iff.mp h
  by_cases same : e = e'
  · subst same
    simp [Has, replace, he]
  · simp [Has, replace, List.getElem?_set_ne same, same]

theorem has_register_iff {name' : String} {f' : Callable σ} (h : s.evaluators[e]? = some r) :
    (s.replace e (r.register name f)).Has e' name' f' ↔
      (e = e' ∧ name = name' ∧ f = f') ∨ (¬ (e = e' ∧ name = name') ∧ s.Has e' name' f') := by
  rw [has_replace_iff h, Registry.get?_register]
  by_cases same : e = e'
  · subst same
    rw [has_iff h]
    by_cases hn : name = name' <;> simp [hn]
  · simp [same]

theorem has_unregister_iff {name' : String} {f' : Callable σ} (h : s.evaluators[e]? = some r) :
    (s.replace e (r.unregister name).2).Has e' name' f' ↔
      ¬ (e = e' ∧ name = name') ∧ s.Has e' name' f' := by
  rw [has_replace_iff h, Registry.get?_unregister]
  by_cases same : e = e'
  · subst same
    rw [has_iff h]
    by_cases hn : name = name' <;> simp [hn]
  · simp [same]

/-- A step does to an evaluator what the event tells of it. -/
theorem hasAfter_step (hs : Step s op answer t)
    (h : ∀ e name f, HasAfter history e name f ↔ s.Has e name f) (e : Nat) (name : String)
    (f : Callable σ) : HasAfter (history ++ [(op, answer)]) e name f ↔ t.Has e name f := by
  rw [hasAfter_concat_iff]
  cases hs with
  | made hc =>
    have begins := op.begins_only hc
    rw [has_add_iff, h]
    simp [hc, begins.1, begins.2.1, begins.2.2]
  | cloned hr =>
    rw [has_add_iff]
    simp [Operation.contents, Operation.Touches, h, has_iff hr]
  | registered hr =>
    rw [has_register_iff hr, h]
    simp [Operation.contents, Operation.Touches]
  | unregistered hr =>
    rw [has_unregister_iff hr, h]
    simp [Operation.contents, Operation.Touches]
  | read ho he =>
    have same : t.Has e name f ↔ s.Has e name f := by rw [Has, he, Has]
    rw [same, h]
    cases op <;> simp_all [Operation.contents, Operation.Touches, Operation.Reads]

/-- By induction on the run, operation by operation. -/
theorem hasAfter_iff {state : σ} (h : Runs (start state) history s) :
    HasAfter history e name f ↔ s.Has e name f := by
  induction h generalizing e name f with
  | nil => simp [not_hasAfter_nil, Has, start]
  | concat _ hp ih => exact hasAfter_step (step_of_perform hp) (fun _ _ _ => ih) e name f

theorem unchanged_of_step (hs : Step s op answer t) (hc : ¬ op.Changes e)
    (hr : s.evaluators[e]? = some r) : t.evaluators[e]? = some r := by
  obtain ⟨he, -⟩ := List.getElem?_eq_some_iff.mp hr
  cases hs with
  | made | cloned => rw [add, List.getElem?_append_left he, hr]
  | @registered e' name =>
    have other : e' ≠ e := fun same => hc ⟨name, same, rfl⟩
    rw [replace, List.getElem?_set_ne other, hr]
  | @unregistered e' name =>
    have other : e' ≠ e := fun same => hc ⟨name, same, rfl⟩
    rw [replace, List.getElem?_set_ne other, hr]
  | read _ he => rw [he, hr]

/-- Nothing but registering in an evaluator, and unregistering there, changes what it holds. -/
theorem unchanged_of_runs (h : Runs s later t) (hc : ∀ event ∈ later, ¬ event.1.Changes e)
    (hr : s.evaluators[e]? = some r) : t.evaluators[e]? = some r := by
  induction h with
  | nil => exact hr
  | concat _ hp ih =>
    obtain ⟨hearlier, hlast⟩ := List.forall_mem_append.mp hc
    exact unchanged_of_step (step_of_perform hp) (hlast _ (List.mem_singleton_self _)) (ih hearlier)

theorem tokenized_of_runs {result : Except Failure (List Token)} (h : Runs s history t)
    (hm : (.tokenize e text, .tokens result) ∈ history) :
    (tokenizeExpression text).result = result := by
  induction h with
  | nil => cases hm
  | concat _ hp ih =>
    rcases List.mem_append.mp hm with hm | hm
    · exact ih hm
    · cases List.mem_singleton.mp hm
      obtain ⟨_, -, h⟩ := Option.map_eq_some_iff.mp hp
      exact Answer.tokens.inj (Prod.mk.inj h).1

theorem computed_evaluateTokens (ht : (tokenizeExpression text).result = .ok tokens)
    (s : Session σ) (r : Registry σ) :
    s.computed (r.evaluateTokens tokens) = s.computed (r.evaluate text) := by
  rw [computed, computed, Registry.result_evaluate ht, Registry.state_evaluate ht]

/-- Registries are finite maps, each of them for itself: what an evaluator holds is told by the
history of what has been done to it, and by that of its source up to the cloning. Tokens that have
been kept come to what their text comes to. -/
theorem registries_follow_history (state : σ) (history : List (Event σ)) (s : Session σ)
    (h : Runs (start state) history s) :
    (∀ op, (s.perform op).isSome ↔ ∀ e ∈ op.subject, e < s.evaluators.length) ∧
      (∀ e name f, s.Has e name f ↔ HasAfter history e name f) ∧
      (∀ later t, Runs s later t → ∀ e r, s.evaluators[e]? = some r →
        (∀ event ∈ later, ¬ event.1.Changes e) → t.evaluators[e]? = some r) ∧
      (∀ e name answer t, s.perform (.unregister e name) = some (answer, t) →
        ∃ removed, answer = .unregistered removed ∧
          ∀ f, removed = some f ↔ HasAfter history e name f) ∧
      (∀ r ∈ s.evaluators, r.Listed) ∧
      ∀ e text tokens, (.tokenize e text, .tokens (.ok tokens)) ∈ history →
        ∀ e', s.perform (.evaluateTokens e' tokens) = s.perform (.evaluate e' text) := by
  refine ⟨fun op => perform_isSome_iff, fun e name f => (hasAfter_iff h).symm, ?_, ?_,
    fun r _ => r.listed, ?_⟩
  · intro later t hlater e r hr hc
    exact unchanged_of_runs hlater hc hr
  · intro e name answer t hp
    obtain ⟨r, hr, hp⟩ := Option.map_eq_some_iff.mp hp
    cases hp
    refine ⟨(r.unregister name).1, rfl, ?_⟩
    intro f
    rw [hasAfter_iff h, has_iff hr, r.unregister_fst]
  · intro e text tokens hm e'
    have tokenized := tokenized_of_runs h hm
    simp only [perform, computed_evaluateTokens tokenized]

theorem registries_follow_history_of_clone :
    let f : Callable Unit := Callable.ofFunction fun _ => .ok 7
    let r := (Registry.empty : Registry Unit).register "f" f
    let s : Session Unit := ⟨[(r.unregister "f").2, r], ()⟩
    ∃ tokens, Runs (start ()) [(.new, .made 0), (.register 0 "f" f, .registered),
        (.clone 0, .made 1), (.unregister 0 "f", .unregistered (some f)),
        (.tokenize 1 "f()", .tokens (.ok tokens))] s ∧
      s.Has 1 "f" f ∧
      s.perform (.evaluateTokens 1 tokens) = s.perform (.evaluate 1 "f()") := by
  intro f r s
  have kinds : (List.map Token.kind) <$> (tokenizeExpression "f()").result = .ok [.call] := by
    decide +kernel
  obtain ⟨tokens, htokens, -⟩ := map_eq_ok_iff.mp kinds
  have held : r.get? "f" = some f := by rw [Registry.get?_register, if_pos rfl]
  have removed : (⟨[r, r], ()⟩ : Session Unit).perform (.unregister 0 "f") =
      some (.unregistered (some f), s) := by
    rw [← held]
    rfl
  have stored : s.perform (.tokenize 1 "f()") = some (.tokens (.ok tokens), s) := by
    rw [← htokens]
    rfl
  have made : Runs (start ()) [(.new, .made 0)] ⟨[.empty], ()⟩ := .concat .nil rfl
  have registered : Runs (start ()) [(.new, .made 0), (.register 0 "f" f, .registered)] ⟨[r], ()⟩ :=
    made.concat rfl
  have cloned : Runs (start ()) [(.new, .made 0), (.register 0 "f" f, .registered),
      (.clone 0, .made 1)] ⟨[r, r], ()⟩ := registered.concat rfl
  have run := (cloned.concat removed).concat stored
  obtain ⟨-, hhas, -, -, -, htokenized⟩ := registries_follow_history () _ s run
  have inherited : HasAfter [(.new, .made 0), (.register 0 "f" f, .registered)] 0 "f" f :=
    @HasAfter.registered Unit [(.new, .made 0)] [] 0 "f" f untouched_nil
  have kept : Untouched (σ := Unit) 1 "f" [(.unregister 0 "f", .unregistered (some f)),
      (.tokenize 1 "f()", .tokens (.ok tokens))] := by
    simp [Untouched, Operation.Touches]
  refine ⟨tokens, run, (hhas 1 "f" f).mpr (.cloned inherited kept), ?_⟩
  exact htokenized 1 "f()" tokens (by simp) 1

end Session

end Reckoner
