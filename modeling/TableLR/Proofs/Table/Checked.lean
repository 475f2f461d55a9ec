import TableLR.Table.Loaded
import TableLR.Proofs.Outcome

/-! What tables that were loaded for a grammar guarantee about their cells. Cells outside of a table
hold no code, so the guarantees are about all states and symbols. -/
namespace TableLR

namespace SparseTable

theorem get_of_vacant {t : SparseTable} {row col : Nat} (h : t.isVacant row col = true) :
    t.get row col = t.sentinel := by
  simp [get, h]

theorem lt_of_get {t : SparseTable} {row col : Nat} (h : t.get row col ≠ t.sentinel) :
    row < t.rows ∧ col < t.cols := by
  have hmarked : t.isVacant row col = false := by
    by_contra hvacant
    exact h (get_of_vacant (by simpa using hvacant))
  simp only [isVacant, Bool.or_eq_false_iff, decide_eq_false_iff_not, Nat.not_le] at hmarked
  exact hmarked.1

theorem parts_eq_ok {e : Encoded} {p : Parts} : e.parts = .ok p ↔
    decodeBlob e.sigmap = .ok p.sigmap ∧ decodeBlob e.rowmap = .ok p.rowmap ∧
      decodeBlob e.columnmap = .ok p.columnmap ∧ decodeBlob e.value = .ok p.value := by
  constructor
  · intro h
    obtain ⟨sigmap, hsigmap, h⟩ := bind_eq_ok.mp h
    obtain ⟨rowmap, hrowmap, h⟩ := bind_eq_ok.mp h
    obtain ⟨columnmap, hcolumnmap, h⟩ := bind_eq_ok.mp h
    obtain ⟨value, hvalue, h⟩ := bind_eq_ok.mp h
    obtain rfl := Except.ok.inj h
    exact ⟨hsigmap, hrowmap, hcolumnmap, hvalue⟩
  · rintro ⟨hsigmap, hrowmap, hcolumnmap, hvalue⟩
    simp only [Encoded.parts, hsigmap, hrowmap, hcolumnmap, hvalue]
    rfl

theorem decode_eq_ok {name : String} {e : Encoded} {sentinel : Int} {t : SparseTable}
    (h : decode name e sentinel = .ok t) :
    ∃ parts, e.parts = .ok parts ∧ parts.inconsistency? = none ∧
      t = { parts with name, sentinel } := by
  obtain ⟨parts, hparts, h⟩ := bind_eq_ok.mp h
  refine ⟨parts, hparts, ?_⟩
  split at h
  · cases h
  · rename_i hconsistent
    exact ⟨hconsistent, (Except.ok.inj h).symm⟩

theorem sentinel_of_decode {name : String} {e : Encoded} {sentinel : Int} {t : SparseTable}
    (h : decode name e sentinel = .ok t) : t.sentinel = sentinel := by
  obtain ⟨_, _, _, rfl⟩ := decode_eq_ok h
  rfl

end SparseTable

/-- Cells that a parse can follow. -/
structure Tables.Checked (t : Tables) (g : Grammar) : Prop where
  stateCount_pos : 0 < t.stateCount
  shift {s : StateId} {a : TerminalId} {next : StateId} (h : t.actionAt s a = .shift next) :
    next < t.stateCount ∧ a ≠ g.eof
  reduce {s : StateId} {a : TerminalId} {p : ProductionId} (h : t.actionAt s a = .reduce p) :
    p < g.productions.size
  accept {s : StateId} {a : TerminalId} (h : t.actionAt s a = .accept) : a = g.eof
  recover {s : StateId} {a : TerminalId} {p : ProductionId}
    (h : t.recoveryAt s a = .recover p) :
    (∃ production, g.production? p = some production ∧ production.recovery = true) ∧ a ≠ g.eof
  goto {s : StateId} {n : NonterminalId} {next : StateId} (h : t.gotoAt s n = some next) :
    next < t.stateCount

structure Automaton.SparesEnd (a : Automaton) (eof : TerminalId) : Prop where
  shift (s next : StateId) : a.action s eof ≠ .shift next
  recover (s : StateId) (p : ProductionId) : a.recovery s eof ≠ .recover p

theorem Tables.Checked.sparesEnd {t : Tables} {g : Grammar} (h : t.Checked g) :
    t.automaton.SparesEnd g.eof :=
  ⟨fun _ _ hcell => (h.shift hcell).2 rfl, fun _ _ hcell => (h.recover hcell).2 rfl⟩

namespace Tables

variable {t : Tables} {g : Grammar}

theorem load_eq_ok {m : Manifest} : load g m = .ok t ↔
    SparseTable.decode "action" m.action 0 = .ok t.action ∧
      SparseTable.decode "goto" m.goto (-1) = .ok t.goto ∧
      SparseTable.decode "recovery" m.recovery 0 = .ok t.recovery ∧ t.eof = g.eof ∧
      t.fault? g = none := by
  constructor
  · intro h
    obtain ⟨action, haction, h⟩ := bind_eq_ok.mp h
    obtain ⟨goto, hgoto, h⟩ := bind_eq_ok.mp h
    obtain ⟨recovery, hrecovery, h⟩ := bind_eq_ok.mp h
    dsimp only at h
    split at h
    · cases h
    · rename_i hfault
      obtain rfl := Except.ok.inj h
      exact ⟨haction, hgoto, hrecovery, rfl, hfault⟩
  · rintro ⟨haction, hgoto, hrecovery, heof, hfault⟩
    refine bind_eq_ok.mpr ⟨_, haction, bind_eq_ok.mpr ⟨_, hgoto, bind_eq_ok.mpr ⟨_, hrecovery, ?_⟩⟩⟩
    dsimp only
    rw [← heof, hfault]
    rfl

theorem shapeFault?_eq_none : t.shapeFault? g = none ↔
    (0 < t.stateCount ∧ t.stateCount ≤ maxCellNumber + 1) ∧ t.action.cols = g.terminalCount ∧
      (t.recovery.rows = t.stateCount ∧ t.recovery.cols = g.terminalCount) ∧
      t.goto.rows = t.stateCount ∧ t.goto.cols = g.nonterminalCount := by
  unfold shapeFault?
  simp only [ite_eq_iff, reduceCtorEq, and_false, false_or, and_true, not_or, ne_eq,
    Decidable.not_not, Nat.not_lt, Nat.pos_iff_ne_zero]

theorem fault?_eq_none : t.fault? g = none ↔ t.shapeFault? g = none ∧ ∀ s < t.stateCount,
    (∀ a < g.terminalCount, t.actionFault? g s a = none ∧ t.recoveryFault? g s a = none) ∧
      ∀ n < t.goto.cols, t.gotoFault? s n = none := by
  simp only [fault?, stateFault?, Option.or_eq_none_iff, List.findSome?_eq_none_iff,
    List.mem_range]

theorem actionFault?_eq_none {s : StateId} {a : TerminalId} : t.actionFault? g s a = none ↔
    (∀ next, t.actionAt s a = .shift next → next < t.stateCount ∧ a ≠ t.eof) ∧
      (∀ p, t.actionAt s a = .reduce p → p < g.productions.size) ∧
      (t.actionAt s a = .accept → a = t.eof) := by
  unfold actionFault?
  cases t.actionAt s a <;> simp

theorem recoveryFault?_eq_none {s : StateId} {a : TerminalId} :
    t.recoveryFault? g s a = none ↔ ∃ cell, Recovery.ofCode? (t.recoveryCode s a) = some cell ∧
      ∀ p, cell = .recover p →
        (∃ production, g.production? p = some production ∧ production.recovery = true) ∧
          a ≠ t.eof := by
  unfold recoveryFault?
  rcases Recovery.ofCode? (t.recoveryCode s a) with _ | _ | _ | p
  all_goals simp [Option.any_eq_true]

theorem gotoFault?_eq_none {s : StateId} {n : NonterminalId} : t.gotoFault? s n = none ↔
    t.gotoNumber s n = -1 ∨ t.gotoNumber s n < t.stateCount := by
  simp only [gotoFault?, ite_eq_right_iff, reduceCtorEq, imp_false, not_and, Int.not_le]
  exact or_iff_not_imp_left.symm

/-- An action cell that holds an action is a cell of the table. -/
theorem lt_of_actionAt (hsentinel : t.action.sentinel = 0) {s : StateId} {a : TerminalId}
    (h : t.actionAt s a ≠ .error) : s < t.stateCount ∧ a < t.action.cols := by
  apply SparseTable.lt_of_get
  intro hget
  refine h ?_
  simp only [actionAt, actionCode, hget, hsentinel]
  rfl

theorem lt_of_recoveryAt (hsentinel : t.recovery.sentinel = 0) {s : StateId} {a : TerminalId}
    (h : t.recoveryAt s a ≠ .discardState) : s < t.recovery.rows ∧ a < t.recovery.cols := by
  apply SparseTable.lt_of_get
  intro hget
  refine h ?_
  simp only [recoveryAt, recoveryCode, hget, hsentinel]
  rfl

theorem lt_of_gotoAt (hsentinel : t.goto.sentinel = -1) {s : StateId} {n : NonterminalId}
    (h : t.gotoAt s n ≠ none) : s < t.goto.rows ∧ n < t.goto.cols := by
  apply SparseTable.lt_of_get
  intro hget
  refine h ?_
  simp [gotoAt, gotoNumber, hget, hsentinel]

theorem checked_of_load {m : Manifest} (h : load g m = .ok t) : t.Checked g := by
  obtain ⟨haction, hgoto, hrecovery, heof, hfault⟩ := load_eq_ok.mp h
  have haction := SparseTable.sentinel_of_decode haction
  have hgoto := SparseTable.sentinel_of_decode hgoto
  have hrecovery := SparseTable.sentinel_of_decode hrecovery
  obtain ⟨hshape, hcells⟩ := fault?_eq_none.mp hfault
  obtain ⟨⟨hpos, _⟩, hcols, ⟨hrrows, hrcols⟩, hgrows, _⟩ := shapeFault?_eq_none.mp hshape
  have hactionCell {s : StateId} {a : TerminalId} (hne : t.actionAt s a ≠ .error) := by
    obtain ⟨hs, ha⟩ := lt_of_actionAt haction hne
    exact actionFault?_eq_none.mp ((hcells s hs).1 a (hcols ▸ ha)).1
  refine ⟨hpos, ?_, ?_, ?_, ?_, ?_⟩
  · intro s a next hshift
    exact heof ▸ (hactionCell (by rw [hshift]; simp)).1 next hshift
  · intro s a p hreduce
    exact (hactionCell (by rw [hreduce]; simp)).2.1 p hreduce
  · intro s a haccept
    exact heof ▸ (hactionCell (by rw [haccept]; simp)).2.2 haccept
  · intro s a p hrecover
    obtain ⟨hs, ha⟩ := lt_of_recoveryAt hrecovery (by rw [hrecover]; simp)
    obtain ⟨cell, hcode, hok⟩ :=
      recoveryFault?_eq_none.mp ((hcells s (hrrows ▸ hs)).1 a (hrcols ▸ ha)).2
    rw [recoveryAt, hcode, Option.getD_some] at hrecover
    exact heof ▸ hok p hrecover
  · intro s n next hnext
    obtain ⟨hs, hn⟩ := lt_of_gotoAt hgoto (by rw [hnext]; simp)
    have hok := gotoFault?_eq_none.mp ((hcells s (hgrows ▸ hs)).2 n hn)
    unfold gotoAt at hnext
    split at hnext
    · cases hnext
    · rename_i htarget
      obtain rfl := Option.some.inj hnext
      have hless : (t.gotoNumber s n).toNat < t.stateCount := by omega
      exact hless

end Tables

end TableLR
