import TableLR.Proofs.Grammar.Built
import TableLR.Proofs.Table.Checked
import TableLR.Proofs.Table.RoundTrip

/-! Loading packed tables. Three dense tables that can be packed are loaded as they are, if the
checks against the grammar find no fault; a small language shows all of it at work. -/
namespace TableLR

open SparseTable

def Tables.ofDense (g : Grammar) (action goto recovery : Array (Array Int)) : Tables where
  action := repacked 0 action "action" 0
  goto := repacked (-1) goto "goto" (-1)
  recovery := repacked 0 recovery "recovery" 0
  eof := g.eof

def Manifest.ofDense (action goto recovery : Array (Array Int)) : Manifest where
  action := (Parts.ofRows 0 action).encode "action"
  goto := (Parts.ofRows (-1) goto).encode "goto"
  recovery := (Parts.ofRows 0 recovery).encode "recovery"

theorem Tables.load_ofDense {g : Grammar} {action goto recovery : Array (Array Int)}
    (haction : Packable 0 action) (hgoto : Packable (-1) goto) (hrecovery : Packable 0 recovery)
    (hfault : (Tables.ofDense g action goto recovery).fault? g = none) :
    Tables.load g (Manifest.ofDense action goto recovery) =
      .ok (Tables.ofDense g action goto recovery) := by
  exact load_eq_ok.mpr ⟨decode_ofRows haction _ _ _, decode_ofRows hgoto _ _ _,
    decode_ofRows hrecovery _ _ _, rfl, hfault⟩

-- A statement is a name and a semicolon; whatever else stands before a semicolon is skipped.
namespace Statements

def steps : List Grammar.Step :=
  [.terminal "name", .terminal ";", .nonterminal "statement",
    .production 0 [.terminal 0, .terminal 1], .recoveryProduction 0 [.error, .terminal 1]]

def draft : Grammar.Draft := Grammar.Draft.empty.applyAll steps

def grammar : Grammar :=
  ⟨(draft.terminals.intern endName).1, draft.nonterminals, draft.productions,
    (draft.terminals.intern endName).2, 0⟩

theorem built : grammar.Built := by
  have hfault : draft.fault? 0 = none := by decide +kernel
  refine ⟨steps, 0, ?_⟩
  change draft.build 0 = .ok grammar
  unfold Grammar.Draft.build
  rw [hfault]
  rfl

def action : Array (Array Int) :=
  #[#[0x8001, 0, 0], #[0, 0x8002, 0], #[0, 0, 0x4000], #[0, 0, 0xc000]]

def goto : Array (Array Int) := #[#[3], #[-1], #[-1], #[-1]]

def recovery : Array (Array Int) :=
  #[#[0x4000, 0x8001, 0x4000], #[0, 0, 0], #[0, 0, 0], #[0, 0, 0]]

def tables : Tables := .ofDense grammar action goto recovery

theorem packable {sentinel : Int} {dense : Array (Array Int)} (hrows : dense.size < 2 ^ 31)
    (hcols : columnCount dense < 2 ^ 31)
    (hcells : ∀ row ∈ dense, row.size = columnCount dense ∧
      ∀ v ∈ row, v = sentinel ∨ 0 ≤ v ∧ v ≤ 65535) : Packable sentinel dense :=
  ⟨by omega, by omega, bytes_lt_of_lt hrows hcols, fun h => (hcells _ h).1,
    fun h hv hne => ((hcells _ h).2 _ hv).resolve_left hne⟩

theorem load : Tables.load grammar (.ofDense action goto recovery) = .ok tables := by
  apply Tables.load_ofDense
  · exact packable (by decide) (by decide) (by decide)
  · exact packable (by decide) (by decide) (by decide)
  · exact packable (by decide) (by decide) (by decide)
  · decide +kernel

def symbolsUnder (s : StateId) : List Symbol :=
  match s with
  | 1 => [.terminal 0]
  | 2 => [.terminal 0, .terminal 1]
  | 3 => [.nonterminal 0]
  | _ => []

theorem checked : tables.Checked grammar := Tables.checked_of_load load

theorem lt_of_action {s : StateId} {a : TerminalId} (h : tables.actionAt s a ≠ .error) :
    s < 4 ∧ a < 3 :=
  Tables.lt_of_actionAt rfl h

theorem reduce_cell {s : StateId} {a : TerminalId} {p : ProductionId}
    (h : tables.actionAt s a = .reduce p) : s = 2 ∧ p = 0 := by
  have hcells : ∀ s < 4, ∀ a < 3, ∀ p < 2, tables.actionAt s a = .reduce p → s = 2 ∧ p = 0 := by
    decide +kernel
  obtain ⟨hs, ha⟩ := lt_of_action (by rw [h]; simp)
  exact hcells s hs a ha p (checked.reduce h) h

theorem recover_cell {s : StateId} {a : TerminalId} {p : ProductionId}
    (h : tables.recoveryAt s a = .recover p) : s = 0 ∧ a = 1 ∧ p = 1 := by
  have hcells : ∀ s < 4, ∀ a < 3, ∀ p < 2, tables.recoveryAt s a = .recover p →
      [s, a, p] = [0, 1, 1] := by
    decide +kernel
  obtain ⟨hs, ha⟩ := Tables.lt_of_recoveryAt rfl (by rw [h]; simp)
  obtain ⟨production, hrule, _⟩ := (checked.recover h).1
  simpa using hcells s hs a ha p (Array.getElem?_eq_some_iff.mp hrule).1 h

end Statements

end TableLR
