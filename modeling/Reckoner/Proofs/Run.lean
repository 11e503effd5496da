import Mathlib.Data.List.Forall2
import Reckoner.Run

/-! What a run answers whatever the state of the host. -/
namespace Reckoner

variable {σ α β γ δ : Type}

/-- Both fail alike, or both succeed with related values. -/
inductive Alike (R : α → β → Prop) : Except Failure α → Except Failure β → Prop
  | error {failure} : Alike R (.error failure) (.error failure)
  | ok {a b} : R a b → Alike R (.ok a) (.ok b)

theorem alike_eq_iff {x y : Except Failure α} : Alike Eq x y ↔ x = y := by
  constructor
  · rintro (_ | rfl) <;> rfl
  · rintro rfl
    cases x with
    | error => exact .error
    | ok => exact .ok rfl

theorem Alike.map {R : α → β → Prop} {S : γ → δ → Prop} {x : Except Failure α}
    {y : Except Failure β} {f : α → γ} {g : β → δ} (h : Alike R x y)
    (hfg : ∀ a b, R a b → S (f a) (g b)) : Alike S (f <$> x) (g <$> y) := by
  cases h with
  | error => exact .error
  | ok h => exact .ok (hfg _ _ h)

namespace Run

variable {x : Run σ α} {f : α → Run σ β} {P : Except Failure α → Prop}
  {Q : Except Failure β → Prop} {R : α → γ → Prop} {S : β → δ → Prop} {y : Except Failure γ}

/-- The answer has the property, from every state. -/
def Yields (P : Except Failure α → Prop) (x : Run σ α) : Prop := ∀ s, P (x s).1.result

/-- The answer is that of a pure computation, up to a relation of values. -/
def Refines (R : α → γ → Prop) (x : Run σ α) (y : Except Failure γ) : Prop :=
  x.Yields (Alike R · y)

theorem Yields.bind (hx : x.Yields P) (herror : ∀ failure, P (.error failure) → Q (.error failure))
    (hok : ∀ a, P (.ok a) → (f a).Yields Q) : (x >>= f).Yields Q := by
  intro s
  have hs := hx s
  rcases h : x s with ⟨⟨records, failure | a⟩, t⟩
  · rw [h] at hs
    rw [bind_error h]
    exact herror failure hs
  · rw [h] at hs
    rw [bind_ok h]
    exact hok a hs t

theorem Yields.mono {P' : Except Failure α → Prop} (hx : x.Yields P) (h : ∀ a, P a → P' a) :
    x.Yields P' :=
  fun s => h _ (hx s)

theorem yields_pure {a : α} (h : P (.ok a)) : (pure a : Run σ α).Yields P := fun _ => h

theorem yields_fail {failure : Failure} (h : P (.error failure)) :
    (Run.fail failure : Run σ α).Yields P :=
  fun _ => h

theorem yields_lift {z : Logged α} (h : P z.result) : (liftM z : Run σ α).Yields P := fun _ => h

theorem lift_apply (z : Logged α) (s : σ) : (liftM z : Run σ α) s = (z, s) := rfl

theorem result_lift_bind {z : Logged α} {a : α} (h : z.result = .ok a) (s : σ) :
    ((liftM z >>= f) s).1.result = (f a s).1.result := by
  obtain ⟨records, result⟩ := z
  obtain rfl : result = .ok a := h
  rw [bind_ok (lift_apply _ s)]

theorem state_lift_bind {z : Logged α} {a : α} (h : z.result = .ok a) (s : σ) :
    ((liftM z >>= f) s).2 = (f a s).2 := by
  obtain ⟨records, result⟩ := z
  obtain rfl : result = .ok a := h
  rw [bind_ok (lift_apply _ s)]

theorem result_lift_bind_error {z : Logged α} {failure : Failure} (h : z.result = .error failure)
    (s : σ) : ((liftM z >>= f) s).1.result = .error failure := by
  obtain ⟨records, result⟩ := z
  obtain rfl : result = .error failure := h
  rw [bind_error (lift_apply _ s)]

/-- A record changes no answer. -/
theorem Yields.emit {record : Record} {x : Run σ β} (h : x.Yields Q) :
    (do Run.emit record; x : Run σ β).Yields Q :=
  fun s => h s

theorem Refines.bind {g : γ → Except Failure δ} (hx : x.Refines R y)
    (hf : ∀ a c, R a c → (f a).Refines S (g c)) : (x >>= f).Refines S (y >>= g) := by
  refine Yields.bind hx ?_ ?_
  · rintro failure ⟨⟩
    exact .error
  · rintro a ⟨⟩
    exact hf _ _ ‹_›

theorem Refines.emit {record : Record} (h : x.Refines R y) :
    (do Run.emit record; x : Run σ α).Refines R y :=
  Yields.emit h

theorem refines_pure {a : α} {c : γ} (h : R a c) : (pure a : Run σ α).Refines R (.ok c) :=
  yields_pure (.ok h)

theorem refines_fail {failure : Failure} :
    (Run.fail failure : Run σ α).Refines R (.error failure) :=
  yields_fail .error

/-- A traversal from left to right refines step by step. -/
theorem refines_mapM {xs : List β} {zs : List δ} {f : β → Run σ α} {g : δ → Except Failure γ}
    (h : List.Forall₂ (fun b d => (f b).Refines R (g d)) xs zs) :
    (xs.mapM f).Refines (List.Forall₂ R) (zs.mapM g) := by
  induction h with
  | nil => exact refines_pure .nil
  | cons hb _ ih =>
    rw [List.mapM_cons, List.mapM_cons]
    refine hb.bind ?_
    intro a c hac
    refine ih.bind ?_
    intro as cs hs
    exact refines_pure (.cons hac hs)

section Outcome

variable {s t u : σ} {a : α} {b : β} {failure : Failure}

/-- From the state `s` the run has the value `a` and leaves the state `t`. -/
def Returns (x : Run σ α) (s : σ) (a : α) (t : σ) : Prop := (x s).1.result = .ok a ∧ (x s).2 = t

/-- From the state `s` the run fails and leaves the state `t`. -/
def Fails (x : Run σ α) (s : σ) (failure : Failure) (t : σ) : Prop :=
  (x s).1.result = .error failure ∧ (x s).2 = t

theorem returns_or_fails (x : Run σ α) (s : σ) :
    (∃ a, x.Returns s a (x s).2) ∨ ∃ failure, x.Fails s failure (x s).2 := by
  cases h : (x s).1.result with
  | error failure => exact Or.inr ⟨failure, h, rfl⟩
  | ok a => exact Or.inl ⟨a, h, rfl⟩

theorem returns_bind_iff :
    (x >>= f).Returns s b u ↔ ∃ a t, x.Returns s a t ∧ (f a).Returns t b u := by
  rcases h : x s with ⟨⟨records, failure | a⟩, t⟩
  · simp [Returns, bind_error h, h]
  · simp [Returns, bind_ok h, h]

theorem bind_of_returns (h : x.Returns s a t) : (x >>= f) s =
    (⟨(x s).1.records ++ (f a t).1.records, (f a t).1.result⟩, (f a t).2) := by
  rcases hx : x s with ⟨⟨records, failure | b⟩, u⟩
  · cases hx ▸ h.1
  · obtain ⟨hb, rfl⟩ := h
    rw [hx] at hb
    obtain rfl := Except.ok.inj hb
    rw [bind_ok hx, hx]

theorem bind_apply_of_returns (h : x.Returns s a t) : ((x >>= f) s).2 = (f a t).2 := by
  rw [bind_of_returns h]

/-- A run that fails early goes no further. -/
theorem fails_bind_iff :
    (x >>= f).Fails s failure u ↔
      x.Fails s failure u ∨ ∃ a t, x.Returns s a t ∧ (f a).Fails t failure u := by
  rcases h : x s with ⟨⟨records, failure | a⟩, t⟩
  · simp [Fails, Returns, bind_error h, h]
  · simp [Fails, Returns, bind_ok h, h]

@[simp]
theorem returns_pure_iff {a' : α} : (pure a : Run σ α).Returns s a' t ↔ a = a' ∧ s = t := by
  simp [Returns, pure_apply]

@[simp]
theorem not_fails_pure : ¬ (pure a : Run σ α).Fails s failure t := nofun

@[simp]
theorem not_returns_fail : ¬ (Run.fail failure : Run σ α).Returns s a t := nofun

theorem returns_map_iff {g : α → β} :
    (g <$> x).Returns s b t ↔ ∃ a, x.Returns s a t ∧ g a = b := by
  simp only [Returns, map_apply, Logged.result_map]
  cases (x s).1.result <;> simp [Functor.map, Except.map, and_comm]

theorem fails_map_iff {g : α → β} : (g <$> x).Fails s failure t ↔ x.Fails s failure t := by
  simp only [Fails, map_apply, Logged.result_map]
  cases (x s).1.result <;> simp [Functor.map, Except.map]

/-- A traversal has as many values as it has places to go to. -/
theorem Returns.length_mapM {xs : List β} {g : β → Run σ α} {ys : List α}
    (h : (xs.mapM g).Returns s ys t) : ys.length = xs.length := by
  induction xs generalizing s t ys with
  | nil =>
    obtain ⟨rfl, -⟩ := returns_pure_iff.mp h
    rfl
  | cons x xs ih =>
    rw [List.mapM_cons, returns_bind_iff] at h
    obtain ⟨y, u, -, h⟩ := h
    obtain ⟨zs, v, hs, h⟩ := returns_bind_iff.mp h
    obtain ⟨rfl, -⟩ := returns_pure_iff.mp h
    simp [ih hs]

theorem bind_congr_returns {g : α → Run σ β} (h : ∀ s a t, x.Returns s a t → f a = g a) :
    x >>= f = x >>= g := by
  funext s
  rcases hx : x s with ⟨⟨records, failure | a⟩, t⟩
  · rw [bind_error hx, bind_error hx]
  · rw [bind_ok hx, bind_ok hx, h s a t (by simp [Returns, hx])]

theorem lift_bind (z : Logged α) (g : α → Logged β) :
    (liftM (z >>= g) : Run σ β) = liftM z >>= fun a => liftM (g a) := by
  obtain ⟨records, failure | a⟩ := z <;> rfl

end Outcome

end Run

end Reckoner
