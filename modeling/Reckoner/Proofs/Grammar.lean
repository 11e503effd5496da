import Reckoner.Token.Scan

/-! The adjacency of kinds and a count of open parentheses accept exactly the sequences of kinds
that form an expression. -/
namespace Reckoner.Grammar

open Token (Kind)

mutual

/-- Values joined by operators. -/
inductive Expression : List Kind → Prop
  | value {ks} : Value ks → Expression ks
  | operation {ks ls} : Expression ks → Value ls → Expression (ks ++ .operator :: ls)

inductive Value : List Kind → Prop
  | operand : Value [.operand]
  | call : Value [.call]
  | group {ks} : Expression ks → Value (.leftParen :: ks ++ [.rightParen])

end

variable {ks ls rest : List Kind} {kind : Kind} {place : Place} {opened : Nat}

/-- The parentheses open behind a kind of token. -/
def openedBehind (opened : Nat) : Kind → Nat
  | .leftParen => opened + 1
  | .rightParen => opened - 1
  | _ => opened

/-- Kinds that may follow at a place inside `opened` parentheses, up to the end. -/
def Accepted (opened : Nat) (place : Place) : List Kind → Prop
  | [] => opened = 0 ∧ place.finish = .ok ()
  | kind :: ks =>
    place.accepts kind ∧ (kind = .rightParen → opened ≠ 0) ∧
      Accepted (openedBehind opened kind) (.after kind) ks

theorem accepts_iff :
    place.accepts kind ↔ (place.expectsValue ↔ kind ≠ .operator ∧ kind ≠ .rightParen) := by
  rw [Place.accepts, Place.allowed]
  cases kind <;> by_cases h : place.expectsValue <;> simp [h]

theorem finish_iff : place.finish = .ok () ↔ place = .start ∨ ¬ place.expectsValue := by
  rw [Place.finish]
  by_cases h : place ≠ .start ∧ place.expectsValue
  · simp [h]
  · rw [if_neg h]
    exact iff_of_true rfl (Decidable.or_iff_not_not_and_not.mpr (by simpa using h))

theorem finish_after_iff :
    (Place.after kind).finish = .ok () ↔ ¬ (Place.after kind).expectsValue := by
  rw [finish_iff, or_iff_right nofun]

/-- Behind a value it does not matter of which kind the value was. -/
theorem accepted_behind_value (hk : ¬ (Place.after kind).expectsValue) :
    Accepted opened (.after kind) ks ↔ Accepted opened (.after .operand) ks := by
  have ho : ¬ (Place.after .operand).expectsValue := by decide
  cases ks with
  | nil => simp only [Accepted, finish_after_iff, hk, ho]
  | cons l ks => simp only [Accepted, accepts_iff, hk, ho]

mutual

/-- Where a value is due, a whole expression takes the automaton behind a value. -/
theorem Expression.accepted_append : {ks : List Kind} → Expression ks →
    ∀ {place opened rest}, place.expectsValue →
      (Accepted opened place (ks ++ rest) ↔ Accepted opened (.after .operand) rest)
  | _, .value h, _, _, _, hp => h.accepted_append hp
  | _, @Expression.operation ks ls h hv, place, opened, rest, hp => by
    have behind := @Value.accepted_append ls hv (.after .operator) opened rest rfl
    rw [List.append_assoc, List.cons_append, h.accepted_append hp, Accepted]
    simpa [accepts_iff, Place.expectsValue, openedBehind] using behind

theorem Value.accepted_append : {ks : List Kind} → Value ks →
    ∀ {place opened rest}, place.expectsValue →
      (Accepted opened place (ks ++ rest) ↔ Accepted opened (.after .operand) rest)
  | _, .operand, _, _, _, hp => by simp [Accepted, accepts_iff, hp, openedBehind]
  | _, .call, place, opened, rest, hp => by
    have behind : Accepted opened (.after .call) rest ↔ Accepted opened (.after .operand) rest :=
      accepted_behind_value (by decide)
    simp [Accepted, accepts_iff, hp, openedBehind, behind]
  | _, @Value.group ks h, place, opened, rest, hp => by
    have inside :=
      @Expression.accepted_append ks h (.after .leftParen) (opened + 1) (.rightParen :: rest) rfl
    have behind :
        Accepted opened (.after .rightParen) rest ↔ Accepted opened (.after .operand) rest :=
      accepted_behind_value (by decide)
    simp only [List.cons_append, List.append_assoc, List.nil_append, Accepted, accepts_iff, hp,
      openedBehind, inside]
    simp [Place.expectsValue, behind]

end

/-- Two expressions make one when an operator joins them. -/
theorem Expression.join : {ks ls : List Kind} → Expression ks → Expression ls →
    Expression (ks ++ .operator :: ls)
  | _, _, h, .value hv => .operation h hv
  | _, _, h, .operation h' hv => by
    rw [← List.cons_append, ← List.append_assoc]
    exact .operation (h.join h') hv

/-- The end of an expression: the end of the text, or the parenthesis that closes around it. -/
def Ends (opened : Nat) (rest : List Kind) : Prop :=
  (opened = 0 ∧ rest = []) ∨
    ∃ outer behind, opened = outer + 1 ∧ rest = .rightParen :: behind ∧
      Accepted outer (.after .operand) behind

/-- What continues any expression to a longer one. -/
def Extends (tail : List Kind) : Prop := ∀ ⦃ks⦄, Expression ks → Expression (ks ++ tail)

theorem extends_nil : Extends [] := by
  intro ks h
  rwa [List.append_nil]

theorem extends_operator (h : Expression ks) : Extends (.operator :: ks) :=
  fun _ hl => hl.join h

theorem exists_extends {opened : Nat} {ks : List Kind}
    (h : Accepted opened (.after .operand) ks)
    (value : ∀ ls, ls.length < ks.length → Accepted opened (.after .operator) ls →
      ∃ es rest, ls = es ++ rest ∧ Expression es ∧ Ends opened rest) :
    ∃ tail rest, ks = tail ++ rest ∧ Extends tail ∧ Ends opened rest := by
  cases ks with
  | nil => exact ⟨[], [], rfl, extends_nil, Or.inl ⟨h.1, rfl⟩⟩
  | cons kind ks =>
    obtain ⟨ha, hr, hk⟩ := h
    have hkind : kind = .operator ∨ kind = .rightParen := by
      revert ha
      cases kind <;> decide
    rcases hkind with rfl | rfl
    · obtain ⟨es, rest, rfl, he, hrest⟩ := value ks (by simp) hk
      exact ⟨.operator :: es, rest, rfl, extends_operator he, hrest⟩
    · obtain ⟨outer, rfl⟩ := Nat.exists_eq_succ_of_ne_zero (hr rfl)
      refine ⟨[], _, rfl, extends_nil, Or.inr ⟨outer, ks, rfl, rfl, ?_⟩⟩
      exact (accepted_behind_value (by decide)).mp hk

/-- Accepted kinds begin with a whole expression, wherever a value is due and the text goes on. -/
theorem exists_expression {opened : Nat} {place : Place} (ks : List Kind)
    (hp : place.expectsValue) (hn : place = .start → ks ≠ [])
    (h : Accepted opened place ks) :
    ∃ es rest, ks = es ++ rest ∧ Expression es ∧ Ends opened rest := by
  have behind : ∀ ls, ls.length < ks.length → ∀ {opened}, Accepted opened (.after .operand) ls →
      ∃ tail rest, ls = tail ++ rest ∧ Extends tail ∧ Ends opened rest := by
    intro ls hl opened ha
    refine exists_extends ha ?_
    intro ms hm ha'
    have hp : (Place.after .operator).expectsValue := rfl
    exact exists_expression ms hp nofun ha'
  cases ks with
  | nil =>
    cases place with
    | start => exact absurd rfl (hn rfl)
    | after kind => exact absurd hp (finish_after_iff.mp h.2)
  | cons kind ks =>
    obtain ⟨ha, -, hk⟩ := h
    have single (hv : Value [kind]) (ho : Accepted opened (.after .operand) ks) :
        ∃ es rest, kind :: ks = es ++ rest ∧ Expression es ∧ Ends opened rest := by
      obtain ⟨tail, rest, rfl, ht, hrest⟩ := behind ks (by simp) ho
      exact ⟨kind :: tail, rest, rfl, ht (.value hv), hrest⟩
    cases kind with
    | operand => exact single .operand hk
    | call => exact single .call ((accepted_behind_value (by decide)).mp hk)
    | leftParen =>
      have hp : (Place.after .leftParen).expectsValue := rfl
      obtain ⟨es, rest, rfl, he, ⟨h0, -⟩ | ⟨outer, inner, ho, rfl, hi⟩⟩ :=
        exists_expression ks hp nofun hk
      · simp [openedBehind] at h0
      · obtain rfl : outer = opened := by simpa [openedBehind] using ho.symm
        obtain ⟨tail, rest, rfl, ht, hrest⟩ := behind inner (by simp; omega) hi
        exact ⟨_, rest, by simp, ht (.value (.group he)), hrest⟩
    | operator => simp [accepts_iff, hp] at ha
    | rightParen => simp [accepts_iff, hp] at ha
termination_by ks.length

theorem accepted_iff : Accepted 0 .start ks ↔ ks = [] ∨ Expression ks := by
  constructor
  · intro h
    by_cases hk : ks = []
    · exact Or.inl hk
    obtain ⟨es, rest, rfl, he, ⟨-, rfl⟩ | ⟨outer, -, ho, -⟩⟩ := exists_expression ks rfl
      (fun _ => hk) h
    · exact Or.inr (by rwa [List.append_nil])
    · omega
  · rintro (rfl | h)
    · exact ⟨rfl, rfl⟩
    · have hp : Place.start.expectsValue := rfl
      have behind : Accepted 0 (.after .operand) [] := ⟨rfl, rfl⟩
      simpa using (h.accepted_append hp).mpr behind

theorem Value.ne_nil (h : Value ks) : ks ≠ [] := by
  cases h <;> nofun

theorem Expression.ne_nil (h : Expression ks) : ks ≠ [] := by
  cases h with
  | value hv => exact hv.ne_nil
  | operation => exact List.append_ne_nil_of_right_ne_nil _ nofun

theorem expression_iff_accepted : Expression ks ↔ ks ≠ [] ∧ Accepted 0 .start ks := by
  rw [accepted_iff]
  constructor
  · intro h
    exact ⟨h.ne_nil, Or.inr h⟩
  · rintro ⟨hn, h⟩
    exact h.resolve_left hn

instance Accepted.decidable : (opened : Nat) → (place : Place) → (ks : List Kind) →
    Decidable (Accepted opened place ks)
  | opened, place, [] =>
    decidable_of_iff (opened = 0 ∧ (place = .start ∨ ¬ place.expectsValue))
      (and_congr_right fun _ => finish_iff.symm)
  | opened, place, kind :: ks =>
    have := Accepted.decidable (openedBehind opened kind) (.after kind) ks
    inferInstanceAs (Decidable (place.accepts kind ∧ (kind = .rightParen → opened ≠ 0) ∧
      Accepted (openedBehind opened kind) (.after kind) ks))

instance : DecidablePred Expression := fun _ => decidable_of_iff _ expression_iff_accepted.symm

end Reckoner.Grammar
