import Std.Data.TreeMap.Lemmas
import Reckoner.Token.Inspection

/-! The functions that an expression may call, by name. -/
namespace Reckoner

/-- A function of the host: from argument values, in the order of the call, to a value or a message
that says why there is none. It may read and change a state `σ` of the host. -/
abbrev Callable (σ : Type) := List Float → σ → Except String Float × σ

/-- A function that leaves the state alone. -/
def Callable.ofFunction {σ : Type} (f : List Float → Except String Float) : Callable σ :=
  fun values s => (f values, s)

structure Registry (σ : Type) where
  entries : Std.TreeMap String (Callable σ)

namespace Registry

variable {σ : Type} (r : Registry σ)

def empty : Registry σ := ⟨∅⟩

/-- Replaces an earlier function of that name. -/
def register (name : String) (f : Callable σ) : Registry σ := ⟨r.entries.insert name f⟩

def get? (name : String) : Option (Callable σ) := r.entries[name]?

/-- The function that is removed, if there is one, and what is left. -/
def unregister (name : String) : Option (Callable σ) × Registry σ :=
  (r.get? name, ⟨r.entries.erase name⟩)

def contains (name : String) : Bool := r.entries.contains name

/-- Names in the order of their code points. -/
def names : List String := r.entries.keys

def size : Nat := r.entries.size

def isEmpty : Bool := r.entries.isEmpty

def registerAll (functions : List (String × Callable σ)) : Registry σ :=
  functions.foldl (fun r (name, f) => r.register name f) r

def inspect : String :=
  "FunctionRegistry \x7b functions: " ++ bracketed (r.names.map Text.quoted) ++ " \x7d"

variable {name other : String} {f : Callable σ}

@[simp]
theorem get?_empty : (empty : Registry σ).get? name = none := by
  simp [empty, get?]

theorem get?_register :
    (r.register name f).get? other = if name = other then some f else r.get? other := by
  simp [register, get?, Std.TreeMap.getElem?_insert]

theorem unregister_fst : (r.unregister name).1 = r.get? name := rfl

theorem get?_unregister :
    (r.unregister name).2.get? other = if name = other then none else r.get? other := by
  simp [unregister, get?, Std.TreeMap.getElem?_erase]

theorem contains_eq_isSome : r.contains name = (r.get? name).isSome := by
  simp [contains, get?]

theorem mem_names : name ∈ r.names ↔ r.contains name := by
  simp [names, contains]

theorem names_increase : r.names.Pairwise (fun a b => compare a b = .lt) :=
  Std.TreeMap.ordered_keys

theorem length_names : r.names.length = r.size := by
  simp [names, size]

theorem isEmpty_iff : r.isEmpty ↔ r.names = [] := by
  rw [isEmpty, names, ← Std.TreeMap.isEmpty_keys, List.isEmpty_iff]

end Registry

end Reckoner
