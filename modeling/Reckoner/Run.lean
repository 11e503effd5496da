import Reckoner.Logged
import Reckoner.Registry

/-! Computations that invoke functions of the host. -/
namespace Reckoner

/-- A logged computation over the state of the host, which failures do not undo. -/
def Run (σ α : Type) := σ → Logged α × σ

namespace Run

variable {σ α β γ : Type}

instance : Monad (Run σ) where
  pure a s := (pure a, s)
  map f x s :=
    let (y, t) := x s
    (f <$> y, t)
  bind x f s :=
    let (y, t) := x s
    match y.result with
    | .error failure => (⟨y.records, .error failure⟩, t)
    | .ok a =>
      let (z, u) := f a t
      (⟨y.records ++ z.records, z.result⟩, u)

instance : MonadLift Logged (Run σ) := ⟨fun x s => (x, s)⟩

def fail (failure : Failure) : Run σ α := fun s => (.fail failure, s)

def emit (record : Record) : Run σ Unit := fun s => (.emit record, s)

/-- What a function of the host answers is no failure yet. -/
def invoke (f : Callable σ) (values : List Float) : Run σ (Except String Float) := fun s =>
  let (answer, t) := f values s
  (pure answer, t)

theorem map_apply (f : α → β) (x : Run σ α) (s : σ) : (f <$> x) s = (f <$> (x s).1, (x s).2) :=
  rfl

theorem pure_apply (a : α) (s : σ) : (pure a : Run σ α) s = (pure a, s) := rfl

theorem bind_error {x : Run σ α} {s t : σ} {records : List Record} {failure : Failure}
    (h : x s = (⟨records, .error failure⟩, t)) (f : α → Run σ β) :
    (x >>= f) s = (⟨records, .error failure⟩, t) := by
  simp [bind, h]

theorem bind_ok {x : Run σ α} {s t : σ} {records : List Record} {a : α}
    (h : x s = (⟨records, .ok a⟩, t)) (f : α → Run σ β) :
    (x >>= f) s = (⟨records ++ (f a t).1.records, (f a t).1.result⟩, (f a t).2) := by
  simp [bind, h]

theorem bind_assoc (x : Run σ α) (f : α → Run σ β) (g : β → Run σ γ) :
    x >>= f >>= g = x >>= fun a => f a >>= g := by
  funext s
  rcases hx : x s with ⟨⟨_, _ | a⟩, t⟩
  · rw [bind_error hx, bind_error (bind_error hx f)]
  · rcases hf : f a t with ⟨⟨_, _ | b⟩, u⟩
    · have hb := bind_ok hx f
      rw [hf] at hb
      rw [bind_ok hx, bind_error hb, bind_error hf]
    · have hb := bind_ok hx f
      rw [hf] at hb
      rw [bind_ok hx, bind_ok hb, bind_ok hf]
      simp

theorem bind_pure_map (f : α → β) (x : Run σ α) : (do let a ← x; pure (f a)) = f <$> x := by
  funext s
  rcases hx : x s with ⟨⟨_, _ | a⟩, t⟩
  · rw [bind_error hx, map_apply, hx]
    rfl
  · rw [bind_ok hx, map_apply, hx]
    simp [pure, Functor.map, Except.map]

instance : LawfulMonad (Run σ) :=
  LawfulMonad.mk' (Run σ)
    (fun x => by funext s; rw [map_apply, id_map])
    (fun a f => by funext s; rw [bind_ok (pure_apply a s)]; simp)
    bind_assoc
    (fun _ _ => rfl)
    (fun x y => by
      funext s
      rcases hx : x s with ⟨⟨_, _ | a⟩, t⟩
      · rw [bind_error hx]; simp [SeqLeft.seqLeft, hx]
      · rw [bind_ok hx, bind_pure_map]
        rcases hy : y t with ⟨⟨_, _ | b⟩, u⟩
        · simp only [SeqLeft.seqLeft, hx, hy, map_apply]
          rfl
        · simp only [SeqLeft.seqLeft, hx, hy, map_apply]
          simp [Functor.map, Except.map, pure])
    (fun x y => by
      funext s
      rcases hx : x s with ⟨⟨_, _ | a⟩, t⟩
      · rw [bind_error hx]; simp [SeqRight.seqRight, hx]
      · rw [bind_ok hx]; simp [SeqRight.seqRight, hx])
    bind_pure_map

end Run

end Reckoner
