import TableLR.Proofs.Frontend

/-! Expected terminals. A state expects the terminals whose cells the bit map marks, while the code
in a cell tells its action; the two agree except in marked cells whose code stands for no action.
Packing marks no such cell, but loading accepts them. -/
namespace TableLR

theorem Action.ofCode_eq_error {code : UInt16} : ofCode code = .error ↔ codeTag code = 0 := by
  have hlt : codeTag code < 4 := by
    unfold codeTag
    have hcode := code.toNat_lt
    omega
  unfold ofCode
  generalize codeTag code = tag at hlt ⊢
  have htag : tag = 0 ∨ tag = 1 ∨ tag = 2 ∨ tag = 3 := by omega
  rcases htag with rfl | rfl | rfl | rfl <;> simp

namespace Tables

variable {g : Grammar} {m : Manifest} {t : Tables} {s : StateId} {a : TerminalId}

/-- The cell of a state and a terminal holds a code, but one that stands for no action. -/
def Idle (t : Tables) (s : StateId) (a : TerminalId) : Prop :=
  t.action.isVacant s a = false ∧ codeTag (t.actionCode s a) = 0

instance (t : Tables) (s : StateId) (a : TerminalId) : Decidable (t.Idle s a) :=
  inferInstanceAs (Decidable (_ ∧ _))

theorem lt_of_marked (h : t.action.isVacant s a = false) : s < t.stateCount ∧ a < t.action.cols := by
  simp only [SparseTable.isVacant, Bool.or_eq_false_iff, decide_eq_false_iff_not, Nat.not_le] at h
  exact h.1

theorem mem_expectedAt : a ∈ t.expectedAt s ↔ t.action.isVacant s a = false := by
  simp only [expectedAt, List.mem_filter, List.mem_range, Bool.not_eq_true']
  exact ⟨fun h => h.2, fun h => ⟨(lt_of_marked h).2, h⟩⟩

theorem pairwise_expectedAt (t : Tables) (s : StateId) : (t.expectedAt s).Pairwise (· < ·) :=
  List.pairwise_lt_range.filter _

/-- A cell that is not marked reads as the sentinel, which is no action. -/
theorem marked_of_actionAt (hsentinel : t.action.sentinel = 0) (h : t.actionAt s a ≠ .error) :
    t.action.isVacant s a = false := by
  by_contra hmarked
  have hvacant : t.action.isVacant s a = true := by simpa using hmarked
  refine h ?_
  simp only [actionAt, actionCode, SparseTable.get_of_vacant hvacant, hsentinel]
  rfl

theorem mem_expectedAt_or_idle (hsentinel : t.action.sentinel = 0) :
    a ∈ t.expectedAt s ↔ t.actionAt s a ≠ .error ∨ t.Idle s a := by
  rw [mem_expectedAt]
  constructor
  · intro hmarked
    by_cases haction : t.actionAt s a = .error
    · exact .inr ⟨hmarked, Action.ofCode_eq_error.mp haction⟩
    · exact .inl haction
  · rintro (haction | hidle)
    · exact marked_of_actionAt hsentinel haction
    · exact hidle.1

theorem Idle.actionAt (h : t.Idle s a) : t.actionAt s a = .error := Action.ofCode_eq_error.mpr h.2

/-- A state expects just the terminals with an action if none of its cells is idle. -/
theorem expectedAt_exact_iff (hsentinel : t.action.sentinel = 0) :
    (∀ a, a ∈ t.expectedAt s ↔ t.actionAt s a ≠ .error) ↔ ∀ a, ¬t.Idle s a := by
  constructor
  · intro hexact a hidle
    have hmem := (mem_expectedAt_or_idle hsentinel).mpr (.inr hidle)
    exact (hexact a).mp hmem hidle.actionAt
  · intro hnone a
    rw [mem_expectedAt_or_idle hsentinel]
    exact or_iff_left (hnone a)

end Tables

/-- Plain tables expect the terminals with an action, and packing keeps that. -/
theorem PlainTables.Packs.mem_expectedAt {g : Grammar} {d : PlainTables} (h : d.Packs) {s : StateId}
    {a : TerminalId} :
    a ∈ (d.loaded g).expectedAt s ↔ (d.loaded g).actionAt s a ≠ .error := by
  rw [h.expectedAt_loaded, h.actionAt_loaded]
  cases hrow : d.action[s]? with
  | none => simp [automaton, hrow]
  | some row =>
    by_cases ha : a < row.size
    · simp [automaton, hrow, ha]
    · simp [automaton, hrow, ha]

/-- A loaded state expects, in order, the terminals with an action and those with an idle cell.
Tables that were packed from plain ones have no idle cell. -/
theorem expected_terminals_are_marked {g : Grammar} {m : Manifest} {t : Tables} (hg : g.Built)
    (hload : Tables.load g m = .ok t) :
    (∀ s, (t.expectedAt s).Pairwise (· < ·) ∧
      (∀ a ∈ t.expectedAt s, s < t.stateCount ∧ a < g.terminalCount) ∧
      (∀ a, a ∈ t.expectedAt s ↔ t.actionAt s a ≠ .error ∨ t.Idle s a) ∧
      ((∀ a, a ∈ t.expectedAt s ↔ t.actionAt s a ≠ .error) ↔ ∀ a, ¬t.Idle s a)) ∧
    (g.terminalCount ≤ 2 ^ 32 → ∀ d, Manifest.ofPlain d = .ok m →
      ∀ s a, a ∈ t.expectedAt s ↔ t.actionAt s a ≠ .error) := by
  obtain ⟨haction, _, _, _, hfault⟩ := Tables.load_eq_ok.mp hload
  have hsentinel := SparseTable.sentinel_of_decode haction
  have hshape := (Tables.fault?_eq_none.mp hfault).1
  have hcols := (Tables.shapeFault?_eq_none.mp hshape).2.1
  refine ⟨fun s => ⟨t.pairwise_expectedAt s, fun a ha => ?_,
    fun a => Tables.mem_expectedAt_or_idle hsentinel, Tables.expectedAt_exact_iff hsentinel⟩, ?_⟩
  · rw [← hcols]
    exact Tables.lt_of_marked (Tables.mem_expectedAt.mp ha)
  · intro hterminals d hpacked s a
    have hnonterminals : g.nonterminalCount ≤ 2 ^ 32 :=
      (hg.nonterminalCount_le.trans hg.size_productions_le).trans (by decide)
    have hplain : Tables.ofPlain g d = .ok t := bind_eq_ok.mpr ⟨m, hpacked, hload⟩
    obtain ⟨hpacks, rfl, _⟩ := PlainTables.loaded_of_ofPlain_of_le hterminals hnonterminals hplain
    exact hpacks.mem_expectedAt

/-- The first state of the language of statements expects a name, as its packed tables say. -/
theorem first_state_expects_a_name : ∃ t,
    Tables.ofPlain Statements.grammar Statements.plain = .ok t ∧ t.expectedAt 0 = [0] ∧
      t.actionAt 0 0 = .shift 1 ∧ ∀ a, a ∈ t.expectedAt 0 ↔ t.actionAt 0 a ≠ .error := by
  have hfault : (Statements.plain.loaded Statements.grammar).fault? Statements.grammar = none := by
    decide +kernel
  have hplain := PlainTables.ofPlain_loaded Statements.plain_packs hfault
  obtain ⟨m, hpacked, hload⟩ := bind_eq_ok.mp hplain
  obtain ⟨_, hexact⟩ := expected_terminals_are_marked Statements.built hload
  exact ⟨_, hplain, by decide +kernel, by decide +kernel,
    hexact (by decide +kernel) Statements.plain hpacked 0⟩

def Statements.idleAction : Array (Array Int) :=
  #[#[0x8001, 5, 0], #[0, 0x8002, 0], #[0, 0, 0x4000], #[0, 0, 0xc000]]

/-- They are loaded, and the first state expects a semicolon although it has no action for one. -/
theorem first_state_expects_an_error : ∃ t, Statements.grammar.Built ∧
    Tables.load Statements.grammar
      (.ofDense Statements.idleAction Statements.goto Statements.recovery) = .ok t ∧
    0 < t.stateCount ∧ 1 < Statements.grammar.terminalCount ∧ 1 ∈ t.expectedAt 0 ∧
    t.actionAt 0 1 = .error := by
  have hload := Tables.load_ofDense (g := Statements.grammar)
    (Statements.packable (by decide) (by decide) (by decide) :
      SparseTable.Packable 0 Statements.idleAction)
    (Statements.packable (by decide) (by decide) (by decide) :
      SparseTable.Packable (-1) Statements.goto)
    (Statements.packable (by decide) (by decide) (by decide) :
      SparseTable.Packable 0 Statements.recovery) (by decide +kernel)
  exact ⟨_, Statements.built, hload, by decide +kernel, by decide +kernel, by decide +kernel,
    by decide +kernel⟩

end TableLR
