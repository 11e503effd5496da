import Mathlib.Tactic.Simps.Basic
import Reckoner.Proofs.Run

/-! Records as a host logs them, line by line. The lines of each kind are spelled out here, with their
levels and their words. -/
namespace Reckoner

structure Line where
  record : Record
  level : Level
  text : String

/-- The line under which a record is logged. -/
def Record.line (record : Record) : Line := ⟨record, record.level, record.text⟩

namespace Line

@[simps record]
def tokenizing (expression : String) : Line :=
  ⟨.tokenizing expression, .debug, "Tokenizing expression: " ++ expression⟩

@[simps record]
def scanned (token : Token) (stop : Nat) : Line :=
  ⟨.scanned token stop, .trace, "Token " ++ token.inspect ++ " ends at " ++ toString stop⟩

@[simps record]
def scannedCall (name : String) (arguments : Nat) : Line :=
  ⟨.scannedCall name arguments, .debug,
    "Function call " ++ name ++ " with " ++ toString arguments ++ " argument(s)"⟩

@[simps record]
def tokenized (expression : String) (tokens : Nat) : Line :=
  ⟨.tokenized expression tokens, .debug,
    "Tokenized " ++ Text.quoted expression ++ " into " ++ toString tokens ++ " token(s)"⟩

@[simps record]
def calling (name : String) (values : List Float) : Line :=
  ⟨.calling name values, .debug,
    "Calling " ++ name ++ bracketed (values.map Layout.inspected.text)⟩

@[simps record]
def returned (name : String) (value : Float) : Line :=
  ⟨.returned name value, .debug, name ++ " returned " ++ Layout.plain.text value⟩

@[simps record]
def ordered (postfixed : List Token) : Line :=
  ⟨.ordered postfixed, .trace, "Postfix: " ++ bracketed (postfixed.map Token.inspect)⟩

@[simps record]
def rendered (postfixed : List Token) : Line :=
  ⟨.rendered postfixed, .debug, "Postfix: " ++ render postfixed⟩

@[simps record]
def reduced (left : Float) (op : Operator) (right value : Float) : Line :=
  ⟨.reduced left op right value, .trace,
    Layout.plain.text left ++ " " ++ op.text ++ " " ++ Layout.plain.text right ++ " = " ++
      Layout.plain.text value⟩

@[simps record]
def evaluated (expression : String) (value : Float) : Line :=
  ⟨.evaluated expression value, .debug, expression ++ " = " ++ Layout.plain.text value⟩

def ofRecord : Record → Line
  | .tokenizing expression => tokenizing expression
  | .scanned token stop => scanned token stop
  | .scannedCall name arguments => scannedCall name arguments
  | .tokenized expression tokens => tokenized expression tokens
  | .calling name values => calling name values
  | .returned name value => returned name value
  | .ordered postfixed => ordered postfixed
  | .rendered postfixed => rendered postfixed
  | .reduced left op right value => reduced left op right value
  | .evaluated expression value => evaluated expression value

/-- The line says what it should say for its record, at the level at which it should. -/
def Faithful (line : Line) : Prop := line = ofRecord line.record

end Line

theorem Record.line_eq (record : Record) : record.line = .ofRecord record := by
  cases record <;> rfl

theorem Record.line_faithful (record : Record) : record.line.Faithful :=
  record.line_eq

namespace Logged

variable {α β : Type}

/-- What a host reads in the log. -/
def lines (x : Logged α) : List Line := x.records.map Record.line

@[simp]
theorem lines_pure (a : α) : (pure a : Logged α).lines = [] := rfl

@[simp]
theorem lines_map (f : α → β) (x : Logged α) : (f <$> x).lines = x.lines := rfl

@[simp]
theorem lines_emit (record : Record) : (emit record).lines = [record.line] := rfl

theorem lines_bind_of_ok {x : Logged α} {a : α} (h : x.result = .ok a) (f : α → Logged β) :
    (x >>= f).lines = x.lines ++ (f a).lines := by
  obtain ⟨records, result⟩ := x
  obtain rfl : result = .ok a := h
  exact List.map_append

theorem lines_emit_bind (record : Record) (f : Unit → Logged β) :
    (emit record >>= f).lines = record.line :: (f ()).lines :=
  lines_bind_of_ok (result_emit record) f

theorem lines_ofExcept_bind {result : Except Failure α} {a : α} (h : result = .ok a)
    (f : α → Logged β) : (ofExcept result >>= f).lines = (f a).lines :=
  lines_bind_of_ok h f

end Logged

theorem Run.lines_bind_of_returns {σ α β : Type} {x : Run σ α} {f : α → Run σ β} {s t : σ} {a : α}
    (h : x.Returns s a t) : ((x >>= f) s).1.lines = (x s).1.lines ++ (f a t).1.lines := by
  rw [bind_of_returns h]
  exact List.map_append

end Reckoner
