import Reckoner.Evaluation
import Reckoner.Stock.Aggregate
import Reckoner.Stock.Elementary

/-! The functions that every expression can be given. -/
namespace Reckoner

namespace Registry

variable {σ : Type} (r : Registry σ)

def withAggregates : Registry σ :=
  r.registerAll (Stock.aggregates.map fun (name, f) => (name, .ofFunction f))

def withElementary : Registry σ :=
  r.registerAll (Stock.elementary.map fun p => (p.name, .ofFunction p.invoke))

def withStock : Registry σ := r.withAggregates.withElementary

def stock : Registry σ := empty.withStock

end Registry

/-- The value of an expression over the stock functions. -/
def evaluate (expression : String) : Except Failure Float :=
  ((Registry.stock.evaluate expression : Run Unit Float) ()).1.result

end Reckoner
