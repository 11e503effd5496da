import Reckoner.Stock
import Reckoner.Proofs.Agenda
import Reckoner.Proofs.Number.Integral

/-! The stock functions by name. Rounding to decimal places has a finite value as long as the number
scaled up does not overflow, and the mean of numbers as long as their sum does not. -/
namespace Reckoner

namespace Stock

open Number

variable {x : Float} {word : Int64} {values : List Float}

theorem roundTo_eq (hl : 0 ≤ word.toInt) (hu : word.toInt ≤ 15) :
    roundTo x word = .ok (round (x * Float.ofNat (10 ^ word.toInt.toNat))
      / Float.ofNat (10 ^ word.toInt.toNat)) := by
  have hbounds : 0 ≤ word ∧ word ≤ 15 := by
    rw [Int64.le_iff_toInt_le, Int64.le_iff_toInt_le]
    exact ⟨hl, hu⟩
  rw [roundTo, if_pos hbounds]
  rfl

/-- Scaling down again leaves no number infinite. -/
theorem roundTo_finite (hl : 0 ≤ word.toInt) (hu : word.toInt ≤ 15)
    (hx : (x * Float.ofNat (10 ^ word.toInt.toNat)).isFinite) :
    ∃ y, roundTo x word = .ok y ∧ y.isFinite := by
  have hscale : 10 ^ word.toInt.toNat ≠ 0 := (Nat.pow_pos (by decide)).ne'
  exact ⟨_, roundTo_eq hl hu, isFinite_div (isFinite_round hx) (atLeastOne_ofNat hscale)⟩

theorem avg_finite (hn : values ≠ []) (hs : (sum values).isFinite) :
    ∃ y, avg values = .ok y ∧ y.isFinite := by
  cases values with
  | nil => exact absurd rfl hn
  | cons v vs =>
    exact ⟨_, rfl, isFinite_div hs (atLeastOne_ofNat (Nat.succ_ne_zero vs.length))⟩

end Stock

namespace Registry

variable {σ : Type} {r : Registry σ} {name : String} {values : List Float}

/-- Of several functions of one name the last one stays. -/
theorem get?_registerAll (r : Registry σ) (functions : List (String × Callable σ)) :
    (r.registerAll functions).get? name =
      ((functions.reverse.find? fun p => p.1 = name).map Prod.snd).or (r.get? name) := by
  induction functions generalizing r with
  | nil => rfl
  | cons p functions ih =>
    have cons : r.registerAll (p :: functions) = (r.register p.1 p.2).registerAll functions := rfl
    rw [cons, ih, get?_register, List.reverse_cons, List.find?_append]
    by_cases hp : p.1 = name
    · cases functions.reverse.find? fun q => q.1 = name <;> simp [hp]
    · simp [hp]

theorem get?_stock_avg : (stock : Registry σ).get? "avg" = some (.ofFunction Stock.avg) := by
  rw [stock, withStock, withElementary, withAggregates, get?_registerAll, get?_registerAll]
  rfl

theorem get?_stock_roundTo : (stock : Registry σ).get? "round_to" =
    some (.ofFunction (Procedure.invoke ⟨"round_to", [.number, .word], Stock.roundTo⟩)) := by
  rw [stock, withStock, withElementary, withAggregates, get?_registerAll, get?_registerAll]
  rfl

/-- A sequence that is one call has the value of the call. -/
theorem valueWithin_call {levels : Nat} {arguments : List (List Token)} {s u : σ} {x : Float}
    (h : (r.call (r.inner levels) name arguments).Returns s x u) :
    (r.valueWithin levels [.call name arguments]).Returns s x u := by
  have resolved : ([Token.call name arguments].mapM (r.resolve (r.inner levels))).Returns s
      [.operand x] u := by
    have single : [Token.call name arguments].mapM (r.resolve (r.inner levels)) = (do
        let x ← r.call (r.inner levels) name arguments
        pure [.operand x]) := by
      simp [resolve]
    rw [single, Run.returns_bind_iff]
    exact ⟨x, u, h, Run.returns_pure_iff.mpr ⟨rfl, rfl⟩⟩
  rw [valueWithin_eq_mapM, Run.returns_bind_iff]
  exact ⟨_, u, resolved, rfl, rfl⟩

/-- On these values the function of that name has a finite answer. So has a call of it, nested
however deeply, behind arguments that have these values, and so has an expression that is such a
call. -/
structure FiniteOn (r : Registry σ) (name : String) (values : List Float) : Prop where
  answer : ∃ f, r.get? name = some f ∧ ∀ s, ∃ x : Float, (f values s).1 = .ok x ∧ x.isFinite
  call : ∀ levels arguments s t, (arguments.mapM (r.valueWithin levels)).Returns s values t →
    ∃ (x : Float) (u : σ), x.isFinite ∧
      (r.call (r.inner (levels + 1)) name arguments).Returns s x u ∧
      (r.valueWithin (levels + 1) [.call name arguments]).Returns s x u

theorem finiteOn_of_get? {f : Callable σ} (hr : r.get? name = some f)
    (hf : ∀ s, ∃ x : Float, (f values s).1 = .ok x ∧ x.isFinite) : r.FiniteOn name values := by
  refine ⟨⟨f, hr, hf⟩, ?_⟩
  intro levels arguments s t h
  obtain ⟨x, hx, hfinite⟩ := hf t
  have answered : (answered name f values).Returns t x (f values t).2 := by
    obtain ⟨hresult, hstate⟩ := answered_apply f name values t
    exact ⟨hresult.trans (answer_eq_ok_iff.mpr ⟨hx, hfinite⟩), hstate⟩
  have called : (r.call (r.inner (levels + 1)) name arguments).Returns s x (f values t).2 := by
    rw [inner, call_eq hr, Run.returns_bind_iff]
    exact ⟨values, t, h, answered⟩
  exact ⟨x, _, hfinite, called, valueWithin_call called⟩

/-- Rounding has a finite value unless the number scaled up overflows, and the mean unless the sum
does. Other functions may have been registered beside these two. -/
theorem stock_finite_unless_overflow (r : Registry σ)
    (hround : r.get? "round_to" = stock.get? "round_to") (havg : r.get? "avg" = stock.get? "avg") :
    (∀ x digits : Float, digits.isFinite →
        0 ≤ Number.truncated digits → Number.truncated digits ≤ 15 →
        (x * Float.ofNat (10 ^ (Number.truncated digits).toNat)).isFinite →
        r.FiniteOn "round_to" [x, digits]) ∧
      ∀ values, values ≠ [] → (Stock.sum values).isFinite → r.FiniteOn "avg" values := by
  constructor
  · intro x digits hd hl hu hx
    have hword := Number.toInt_toWord hd (by omega) (by omega)
    rw [← hword] at hl hu hx
    exact finiteOn_of_get? (hround.trans get?_stock_roundTo)
      fun _ => Stock.roundTo_finite hl hu hx
  · intro values hn hs
    exact finiteOn_of_get? (havg.trans get?_stock_avg) fun _ => Stock.avg_finite hn hs

theorem stock_finite_unless_overflow_of_large_numbers :
    (stock : Registry Unit).FiniteOn "round_to" [1.7e293, 15.9] ∧
      (stock : Registry Unit).FiniteOn "avg" [1.7e308, -1.7e308, 1.7e308] := by
  obtain ⟨round, avg⟩ := stock_finite_unless_overflow (stock : Registry Unit) rfl rfl
  refine ⟨round _ _ ?_ ?_ ?_ ?_, avg _ ?_ ?_⟩
  all_goals decide +kernel

/-- The scaled number and the sum overflow on the way, though the rounded number and the mean would
both be `1.7e308`. -/
theorem stock_overflows_on_the_way :
    (1.7e308 : Float).isFinite ∧ (15.0 : Float).isFinite ∧ Number.truncated 15.0 = 15 ∧
      (∃ y, Stock.roundTo 1.7e308 (Number.toWord 15.0) = .ok y ∧ ¬ y.isFinite) ∧
      (∃ y, Stock.avg [1.7e308, 1.7e308] = .ok y ∧ ¬ y.isFinite) ∧
      ((stock : Registry Unit).evaluateTokens
          [.call "round_to" [[.operand 1.7e308], [.operand 15.0]]] ()).1.result =
        .error { cause := .nonFiniteResult, token := some "round_to" } ∧
      ((stock : Registry Unit).evaluateTokens
          [.call "avg" [[.operand 1.7e308], [.operand 1.7e308]]] ()).1.result =
        .error { cause := .nonFiniteResult, token := some "avg" } := by
  refine ⟨?_, ?_, ?_, ⟨_, Stock.roundTo_eq ?_ ?_, ?_⟩, ⟨_, rfl, ?_⟩,
    (map_eq_error_iff (f := fun _ => ())).mp ?_, (map_eq_error_iff (f := fun _ => ())).mp ?_⟩
  all_goals decide +kernel

end Registry

end Reckoner
