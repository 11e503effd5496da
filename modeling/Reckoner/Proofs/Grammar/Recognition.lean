import Reckoner.Proofs.Grammar

/-! Kinds taken one after another, each of them where it may stand, with a count of parentheses.
What is recognized so are the expressions, and from nothing that can be taken so far is there no way
on to an expression. -/
namespace Reckoner.Grammar

open Token (Kind)

variable {ks ls : List Kind} {kind : Kind} {place next : Place} {opened outer : Nat}

/-- The place behind a sequence of kinds, if each of them may stand where it does. -/
def Place.advanceAll (place : Place) (ks : List Kind) : Except Failure Place :=
  ks.foldlM Place.advance place

/-- Inside `opened` parentheses, no beginning of the sequence closes more than it finds open. -/
def Nested (opened : Nat) (ks : List Kind) : Prop :=
  ∀ before, before <+: ks → before.count .rightParen ≤ opened + before.count .leftParen

/-- Each kind stands where it may, the last one where an expression may end, and the parentheses
are balanced. -/
structure Recognized (ks : List Kind) : Prop where
  advances : ∃ place, Place.start.advanceAll ks = .ok place ∧ place.finish = .ok ()
  nested : Nested 0 ks
  balanced : ks.count .rightParen = ks.count .leftParen

/-- A sequence leads from one place to the next one, and from `opened` parentheses to `outer`. -/
structure Leads (opened : Nat) (place : Place) (ks : List Kind) (outer : Nat) (next : Place) :
    Prop where
  advances : place.advanceAll ks = .ok next
  nested : Nested opened ks
  counted : outer + ks.count .rightParen = opened + ks.count .leftParen

theorem advanceAll_cons_iff :
    place.advanceAll (kind :: ks) = .ok next ↔
      place.accepts kind ∧ (Place.after kind).advanceAll ks = .ok next := by
  rw [Place.advanceAll, List.foldlM_cons, Place.advance]
  split
  next h =>
    rw [and_iff_right h]
    rfl
  next h => exact ⟨nofun, fun h' => absurd h'.1 h⟩

/-- What one kind does to the count. -/
theorem count_cons (ho : kind = .rightParen → opened ≠ 0) (ks : List Kind) :
    openedBehind opened kind + ks.count .leftParen + (kind :: ks).count .rightParen =
      opened + (kind :: ks).count .leftParen + ks.count .rightParen := by
  cases kind with
  | rightParen =>
    have := ho rfl
    simp [openedBehind]
    omega
  | leftParen =>
    simp [openedBehind]
    omega
  | operand | operator | call => simp [openedBehind]

theorem nested_nil : Nested opened [] := by
  intro before h
  simp [List.prefix_nil.mp h]

theorem nested_cons_iff :
    Nested opened (kind :: ks) ↔
      (kind = .rightParen → opened ≠ 0) ∧ Nested (openedBehind opened kind) ks := by
  constructor
  · intro h
    have ho : kind = .rightParen → opened ≠ 0 := by
      rintro rfl rfl
      have := h [.rightParen] (by simp)
      simp at this
    refine ⟨ho, ?_⟩
    intro before hb
    have whole := h (kind :: before) (List.cons_prefix_cons.mpr ⟨rfl, hb⟩)
    have := count_cons ho before
    omega
  · rintro ⟨ho, h⟩ before hb
    rcases List.prefix_cons_iff.mp hb with rfl | ⟨before, rfl, hrest⟩
    · simp
    · have rest := h before hrest
      have := count_cons ho before
      omega

theorem leads_cons_iff :
    Leads opened place (kind :: ks) outer next ↔
      place.accepts kind ∧ (kind = .rightParen → opened ≠ 0) ∧
        Leads (openedBehind opened kind) (.after kind) ks outer next := by
  constructor
  · rintro ⟨hadvances, hnested, hcounted⟩
    obtain ⟨ha, hrest⟩ := advanceAll_cons_iff.mp hadvances
    obtain ⟨ho, hn⟩ := nested_cons_iff.mp hnested
    have := count_cons ho ks
    exact ⟨ha, ho, hrest, hn, by omega⟩
  · rintro ⟨ha, ho, hrest, hn, hcounted⟩
    have := count_cons ho ks
    exact ⟨advanceAll_cons_iff.mpr ⟨ha, hrest⟩, nested_cons_iff.mpr ⟨ho, hn⟩, by omega⟩

theorem leads_nil_iff : Leads opened place [] outer next ↔ place = next ∧ opened = outer := by
  constructor
  · rintro ⟨hadvances, -, hcounted⟩
    exact ⟨Except.ok.inj hadvances, by simpa using hcounted.symm⟩
  · rintro ⟨rfl, rfl⟩
    exact ⟨rfl, nested_nil, rfl⟩

/-- Kinds that lead somewhere may be followed by what may follow there. -/
theorem Leads.accepted_append_iff (h : Leads opened place ks outer next) :
    Accepted opened place (ks ++ ls) ↔ Accepted outer next ls := by
  induction ks generalizing opened place with
  | nil =>
    obtain ⟨rfl, rfl⟩ := leads_nil_iff.mp h
    rfl
  | cons kind ks ih =>
    obtain ⟨ha, ho, hrest⟩ := leads_cons_iff.mp h
    rw [List.cons_append, Accepted, and_iff_right ha, and_iff_right ho, ih hrest]

theorem accepted_iff_leads :
    Accepted opened place ks ↔ ∃ next, Leads opened place ks 0 next ∧ next.finish = .ok () := by
  induction ks generalizing opened place with
  | nil => simp [Accepted, leads_nil_iff, and_assoc]
  | cons kind ks ih => simp only [Accepted, leads_cons_iff, ih, exists_and_left, and_assoc]

theorem recognized_iff_accepted : Recognized ks ↔ Accepted 0 .start ks := by
  rw [accepted_iff_leads]
  constructor
  · rintro ⟨⟨place, hadvances, hfinish⟩, hnested, hbalanced⟩
    exact ⟨place, ⟨hadvances, hnested, by rw [hbalanced]⟩, hfinish⟩
  · rintro ⟨place, ⟨hadvances, hnested, hcounted⟩, hfinish⟩
    exact ⟨⟨place, hadvances, hfinish⟩, hnested, by simpa using hcounted⟩

/-- Behind a value the open parentheses can be closed. -/
theorem accepted_replicate (opened : Nat) :
    Accepted opened (.after .operand) (List.replicate opened .rightParen) := by
  induction opened with
  | zero => exact ⟨rfl, rfl⟩
  | succ opened ih =>
    have behind : ¬ (Place.after .rightParen).expectsValue := by decide
    exact ⟨rfl, fun _ => Nat.succ_ne_zero opened, (accepted_behind_value behind).mpr ih⟩

/-- From every place there is a way on to the end of an expression. -/
theorem exists_accepted (opened : Nat) (place : Place) : ∃ ks, Accepted opened place ks := by
  by_cases hp : place.expectsValue
  · refine ⟨.operand :: List.replicate opened .rightParen, ?_, nofun, accepted_replicate opened⟩
    simp [accepts_iff, hp]
  · cases place with
    | start => exact absurd rfl hp
    | after kind => exact ⟨_, (accepted_behind_value hp).mpr (accepted_replicate opened)⟩

/-- Recognized are the empty sequence and the expressions. What can be taken kind by kind, without a
parenthesis that closes none, is the beginning of something recognized. -/
theorem recognized_iff (ks : List Kind) :
    (Recognized ks ↔ ks = [] ∨ Expression ks) ∧
      ∀ place, Place.start.advanceAll ks = .ok place → Nested 0 ks →
        ∃ more, Recognized (ks ++ more) := by
  refine ⟨recognized_iff_accepted.trans accepted_iff, ?_⟩
  intro place hadvances hnested
  have below := hnested ks (List.prefix_refl ks)
  obtain ⟨more, hmore⟩ := exists_accepted (ks.count .leftParen - ks.count .rightParen) place
  have leads : Leads 0 .start ks (ks.count .leftParen - ks.count .rightParen) place :=
    ⟨hadvances, hnested, by omega⟩
  exact ⟨more, recognized_iff_accepted.mpr (leads.accepted_append_iff.mpr hmore)⟩

theorem recognized_iff_of_open_group :
    Place.start.advanceAll [.leftParen, .leftParen, .call, .operator] = .ok (.after .operator) ∧
      Nested 0 [.leftParen, .leftParen, .call, .operator] ∧
      ∃ more, Recognized ([.leftParen, .leftParen, .call, .operator] ++ more) := by
  have nested : Nested 0 [.leftParen, .leftParen, .call, .operator] := by
    simp [nested_cons_iff, nested_nil]
  obtain ⟨-, goesOn⟩ := recognized_iff [.leftParen, .leftParen, .call, .operator]
  exact ⟨rfl, nested, goesOn _ rfl nested⟩

end Reckoner.Grammar
