import Mathlib.Tactic.Common

/-! Outcomes of computations that can fail, taken apart: a sequence succeeds when each part does,
and fails with its first failure. -/
namespace TableLR

variable {ε δ α β : Type}

@[simp] theorem throw_eq (e : ε) : (throw e : Except ε α) = .error e := rfl

@[simp] theorem pure_eq (a : α) : (pure a : Except ε α) = .ok a := rfl

theorem bind_eq_ok {first : Except ε α} {next : α → Except ε β} {b : β} :
    first >>= next = .ok b ↔ ∃ a, first = .ok a ∧ next a = .ok b := by
  cases first with
  | error e => simp [bind, Except.bind]
  | ok a => simp [bind, Except.bind]

theorem bind_eq_error {first : Except ε α} {next : α → Except ε β} {e : ε} :
    first >>= next = .error e ↔ first = .error e ∨ ∃ a, first = .ok a ∧ next a = .error e := by
  cases first with
  | error e' => simp [bind, Except.bind]
  | ok a => simp [bind, Except.bind]

/-- What comes next only matters for results that there are. -/
theorem bind_congr_ok {first : Except ε α} {next next' : α → Except ε β}
    (h : ∀ a, first = .ok a → next a = next' a) : first >>= next = first >>= next' := by
  cases first with
  | error e => rfl
  | ok a => exact h a rfl

theorem map_eq_ok {first : Except ε α} {f : α → β} {b : β} :
    first.map f = .ok b ↔ ∃ a, first = .ok a ∧ f a = b := by
  cases first with
  | error e => simp [Except.map]
  | ok a => simp [Except.map]

theorem map_eq_error {first : Except ε α} {f : α → β} {e : ε} :
    first.map f = .error e ↔ first = .error e := by
  cases first with
  | error e' => simp [Except.map]
  | ok a => simp [Except.map]

theorem mapError_eq_ok {first : Except ε α} {describe : ε → δ} {a : α} :
    first.mapError describe = .ok a ↔ first = .ok a := by
  cases first with
  | error e => simp [Except.mapError]
  | ok a => simp [Except.mapError]

theorem mapError_eq_error {first : Except ε α} {describe : ε → δ} {d : δ} :
    first.mapError describe = .error d ↔ ∃ e, first = .error e ∧ describe e = d := by
  cases first with
  | error e => simp [Except.mapError]
  | ok a => simp [Except.mapError]

theorem exists_ok_of_toOption_any {outcome : Except ε α} {test : α → Bool}
    (h : outcome.toOption.any test = true) : ∃ a, outcome = .ok a ∧ test a = true := by
  cases outcome with
  | error e => cases h
  | ok a => exact ⟨a, rfl, h⟩

/-- A computation that may also not end has a result with a property that can be tested. -/
theorem exists_ok_of_any {outcome : Option (Except ε α)} {test : α → Bool}
    (h : (outcome.any fun result => result.toOption.any test) = true) :
    ∃ a, outcome = some (.ok a) ∧ test a = true := by
  obtain ⟨result, hresult, h⟩ := (Option.any_eq_true _ _).mp h
  obtain ⟨a, ha, htest⟩ := exists_ok_of_toOption_any h
  exact ⟨a, by rw [hresult, ha], htest⟩

end TableLR
