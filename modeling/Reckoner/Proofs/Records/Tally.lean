import Reckoner.Proofs.Records.Line

/-! Tokens and the lines of a log counted by their kinds, and the lines that belong together. -/
namespace Reckoner

namespace Token

/-- The number of tokens of a kind. -/
def tally (kind : Kind) (tokens : List Token) : Nat :=
  tokens.countP fun token => token.kind = kind

def arity : Token → Nat
  | call _ arguments => arguments.length
  | _ => 0

/-- The number of arguments of the calls among these tokens. -/
def arities : List Token → Nat
  | [] => 0
  | token :: tokens => token.arity + arities tokens

variable {kind : Kind} {token : Token} {tokens tokens' : List Token}

@[simp]
theorem tally_nil : tally kind [] = 0 := rfl

@[simp]
theorem tally_cons :
    tally kind (token :: tokens) = tally kind tokens + if token.kind = kind then 1 else 0 := by
  simp [tally, List.countP_cons]

@[simp]
theorem tally_append : tally kind (tokens ++ tokens') = tally kind tokens + tally kind tokens' :=
  List.countP_append

@[simp]
theorem arities_nil : arities [] = 0 := rfl

@[simp]
theorem arities_cons : arities (token :: tokens) = token.arity + arities tokens := rfl

@[simp]
theorem arities_append : arities (tokens ++ tokens') = arities tokens + arities tokens' := by
  induction tokens with
  | nil => simp
  | cons token tokens ih => simp [ih, Nat.add_assoc]

end Token

namespace Record

inductive Kind
  | tokenizing
  | scanned
  | scannedCall
  | tokenized
  | calling
  | returned
  | ordered
  | rendered
  | reduced
  | evaluated
  deriving DecidableEq

def kind : Record → Kind
  | tokenizing _ => .tokenizing
  | scanned .. => .scanned
  | scannedCall .. => .scannedCall
  | tokenized .. => .tokenized
  | calling .. => .calling
  | returned .. => .returned
  | ordered _ => .ordered
  | rendered _ => .rendered
  | reduced .. => .reduced
  | evaluated .. => .evaluated

end Record

namespace Line

/-- The lines of a kind, in their order. -/
def ofKind (kind : Record.Kind) (lines : List Line) : List Line :=
  lines.filter fun line => line.record.kind = kind

def tally (kind : Record.Kind) (lines : List Line) : Nat := (ofKind kind lines).length

/-- What stands right behind a line to which another one belongs. -/
def Precedes (line : Line) (after : List Line) : Prop :=
  match line.record with
  | .calling name _ => ∃ x rest, after = returned name x :: rest
  | .ordered postfixed => ∃ rest, after = rendered postfixed :: rest
  | .scannedCall name count => ∃ arguments stop rest, arguments.length = count ∧
      after = scanned (.call name arguments) stop :: rest
  | _ => True

/-- Lines that belong together follow each other at once. -/
def Settled : List Line → Prop
  | [] => True
  | line :: lines => line.Precedes lines ∧ Settled lines

variable {kind : Record.Kind} {line : Line} {lines lines' : List Line}

@[simp]
theorem ofKind_nil : ofKind kind [] = [] := rfl

@[simp]
theorem ofKind_cons : ofKind kind (line :: lines) =
    if line.record.kind = kind then line :: ofKind kind lines else ofKind kind lines := by
  simp [ofKind, List.filter_cons]

@[simp]
theorem ofKind_append : ofKind kind (lines ++ lines') = ofKind kind lines ++ ofKind kind lines' :=
  List.filter_append ..

@[simp]
theorem tally_nil : tally kind [] = 0 := rfl

@[simp]
theorem tally_cons :
    tally kind (line :: lines) = tally kind lines + if line.record.kind = kind then 1 else 0 := by
  by_cases h : line.record.kind = kind <;> simp [tally, h]

@[simp]
theorem tally_append : tally kind (lines ++ lines') = tally kind lines + tally kind lines' := by
  simp [tally]

/-- The lines of a level are those of its kinds. -/
theorem length_level (level : Level) (records : List Record) :
    ((records.map Record.line).filter fun line => line.level = level).length =
      let tally := fun kind => tally kind (records.map Record.line)
      match level with
      | .debug => tally .tokenizing + tally .scannedCall + tally .tokenized + tally .calling +
          tally .returned + tally .rendered + tally .evaluated
      | .trace => tally .scanned + tally .ordered + tally .reduced := by
  induction records with
  | nil => cases level <;> rfl
  | cons record records ih =>
    cases level <;> cases record <;> simp [Record.line, Record.level, Record.kind] at ih ⊢ <;> omega

theorem Precedes.append (h : line.Precedes lines) (lines' : List Line) :
    line.Precedes (lines ++ lines') := by
  obtain ⟨record, level, text⟩ := line
  cases record with
  | calling =>
    obtain ⟨x, rest, rfl⟩ := h
    exact ⟨x, rest ++ lines', rfl⟩
  | ordered =>
    obtain ⟨rest, rfl⟩ := h
    exact ⟨rest ++ lines', rfl⟩
  | scannedCall =>
    obtain ⟨arguments, stop, rest, hl, rfl⟩ := h
    exact ⟨arguments, stop, rest ++ lines', hl, rfl⟩
  | _ => trivial

theorem Settled.append (h : Settled lines) (h' : Settled lines') : Settled (lines ++ lines') := by
  induction lines with
  | nil => exact h'
  | cons line lines ih => exact ⟨h.1.append lines', ih h.2⟩

end Line

end Reckoner
