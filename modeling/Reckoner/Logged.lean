import Reckoner.Record

/-! Computations that may fail and keep records either way. -/
namespace Reckoner

structure Logged (α : Type) where
  records : List Record
  result : Except Failure α

namespace Logged

variable {α β γ : Type}

/-- Nothing is recorded after a failure. -/
instance : Monad Logged where
  pure a := ⟨[], .ok a⟩
  map f x := ⟨x.records, x.result.map f⟩
  bind x f :=
    match x.result with
    | .error failure => ⟨x.records, .error failure⟩
    | .ok a =>
      let next := f a
      ⟨x.records ++ next.records, next.result⟩

def emit (record : Record) : Logged Unit := ⟨[record], .ok ()⟩

def ofExcept (result : Except Failure α) : Logged α := ⟨[], result⟩

def fail (failure : Failure) : Logged α := ofExcept (.error failure)

theorem map_id (x : Logged α) : id <$> x = x := by
  obtain ⟨_, _ | _⟩ := x <;> rfl

theorem bind_error {records : List Record} {failure : Failure} (f : α → Logged β) :
    (⟨records, .error failure⟩ : Logged α) >>= f = ⟨records, .error failure⟩ := rfl

theorem bind_ok {records : List Record} {a : α} (f : α → Logged β) :
    (⟨records, .ok a⟩ : Logged α) >>= f = ⟨records ++ (f a).records, (f a).result⟩ := rfl

theorem bind_assoc (x : Logged α) (f : α → Logged β) (g : β → Logged γ) :
    x >>= f >>= g = x >>= fun a => f a >>= g := by
  obtain ⟨_, _ | a⟩ := x
  · rfl
  · rw [bind_ok, bind_ok]
    rcases f a with ⟨_, _ | b⟩
    · rfl
    · simp [bind_ok]

theorem bind_pure_map (f : α → β) (x : Logged α) : (do let a ← x; pure (f a)) = f <$> x := by
  obtain ⟨_, _ | _⟩ := x <;> simp [bind_error, bind_ok, pure, Functor.map, Except.map]

instance : LawfulMonad Logged :=
  LawfulMonad.mk' Logged map_id
    (fun a f => by simp [pure, bind_ok]) bind_assoc
    (fun _ _ => rfl)
    (fun x y => by
      obtain ⟨_, _ | _⟩ := x
      · rfl
      · obtain ⟨_, _ | _⟩ := y <;> simp [SeqLeft.seqLeft, bind, pure])
    (fun x y => by rfl)
    bind_pure_map

@[simp]
theorem result_pure (a : α) : (pure a : Logged α).result = .ok a := rfl

@[simp]
theorem result_map (f : α → β) (x : Logged α) : (f <$> x).result = f <$> x.result := rfl

/-- Records aside, logged computations are computed like any others that may fail. -/
@[simp]
theorem result_bind (x : Logged α) (f : α → Logged β) :
    (x >>= f).result = x.result >>= fun a => (f a).result := by
  obtain ⟨_, _ | _⟩ := x <;> rfl

@[simp]
theorem result_emit (record : Record) : (emit record).result = .ok () := rfl

@[simp]
theorem result_ofExcept (result : Except Failure α) : (ofExcept result).result = result := rfl

@[simp]
theorem result_fail (failure : Failure) : (fail failure : Logged α).result = .error failure := rfl

end Logged

end Reckoner
