import TableLR.Frontend
import TableLR.Proofs.Parse.Nodes
import TableLR.Proofs.Table.Written

/-! A front end made of packed tables parses as the plain tables would. Packing, the text, reading
it and loading keep every cell, and it does not matter when the tables are loaded. -/
namespace TableLR

variable {g : Grammar} {d : PlainTables} {t : Tables} {m : Manifest}

theorem Action.eq_error_of_code {cell : Action}
    (h : ∀ v, cell.value? = some v → v ≤ maxCellNumber) : cell.code.toNat = 0 ↔ cell = .error := by
  constructor
  · intro hcode
    have hzero : cell.code = 0 := UInt16.toNat_inj.mp hcode
    rw [← ofCode_code h, hzero]
    rfl
  · rintro rfl
    rfl

namespace PlainTables.Packs

open SparseTable

theorem isVacant_loaded (h : d.Packs) {s : StateId} {a : TerminalId} {row : Array Action}
    {cell : Action} (hrow : d.action[s]? = some row) (hcell : row[a]? = some cell) :
    (d.loaded g).action.isVacant s a = true ↔ cell = .error := by
  have hnarrow := h.action_narrow row (Array.mem_of_getElem? hrow) cell
    (Array.mem_of_getElem? hcell)
  have hrow' : d.actionNumbers[s]? = some (row.map fun cell => (cell.code.toNat : Int)) := by
    simp [actionNumbers, hrow]
  have hcell' : (row.map fun cell => (cell.code.toNat : Int))[a]? =
      some (cell.code.toNat : Int) := by
    simp [hcell]
  have hvacant := (h.action.cell_repacked "action" 0 hrow' hcell').2
  rw [Int.natCast_eq_zero, Action.eq_error_of_code hnarrow] at hvacant
  exact hvacant

/-- The terminals that the bit map marks are those whose cells are not errors. -/
theorem expectedAt_loaded (h : d.Packs) (s : StateId) :
    (d.loaded g).expectedAt s = d.automaton.expected s := by
  have hcols : (d.loaded g).action.cols = columnCount d.actionNumbers := rfl
  by_cases hs : s < d.action.size
  · have hrow : d.action.getD s #[] = d.action[s] := by simp [hs]
    have hsize : d.action[s].size = columnCount d.actionNumbers :=
      row_size_of_packable h.action (Array.getElem_mem hs)
    simp only [Tables.expectedAt, automaton, hcols, hrow, hsize]
    apply List.filter_congr
    intro a ha
    have ha : a < d.action[s].size := hsize ▸ List.mem_range.mp ha
    have hvacant := h.isVacant_loaded (g := g) (Array.getElem?_eq_getElem hs)
      (Array.getElem?_eq_getElem ha)
    have hcell : d.action[s].getD a .error = d.action[s][a] := by simp [ha]
    rw [hcell, Bool.eq_iff_iff, Bool.not_eq_true', ← Bool.not_eq_true, hvacant, decide_eq_true_eq]
  · have hrow : d.action.getD s #[] = #[] := by simp [hs]
    have hvacant : ∀ a, (d.loaded g).action.isVacant s a = true := by
      intro a
      have hout : (d.loaded g).action.rows ≤ s := by
        rw [← Tables.stateCount, stateCount_loaded]
        exact Nat.le_of_not_lt hs
      simp [isVacant, hout]
    simp only [Tables.expectedAt, automaton, hrow, hvacant]
    simp

theorem automaton_loaded (h : d.Packs) : (d.loaded g).automaton = d.automaton := by
  have haction : (d.loaded g).actionAt = d.automaton.action :=
    funext fun s => funext fun a => h.actionAt_loaded s a
  have hgoto : (d.loaded g).gotoAt = d.automaton.goto :=
    funext fun s => funext fun n => h.gotoAt_loaded s n
  have hrecovery : (d.loaded g).recoveryAt = d.automaton.recovery :=
    funext fun s => funext fun a => h.recoveryAt_loaded s a
  have hexpected : (d.loaded g).expectedAt = d.automaton.expected := funext h.expectedAt_loaded
  rw [Tables.automaton, haction, hgoto, hrecovery, hexpected]

end PlainTables.Packs

namespace Frontend

inductive Call where
  | tables
  | parse (options : Options) (fuel : Nat) (tokens : TokenStream)

def after (f : Frontend) : Call → Frontend
  | .tables => f.used
  | .parse _ _ _ => f.used

def afterAll (f : Frontend) (calls : List Call) : Frontend := calls.foldl after f

/-- A front end that has loaded nothing yet, or the tables of its text. -/
def Holds (f : Frontend) (g : Grammar) (m : Manifest) (t : Tables) : Prop :=
  ∃ loaded, f = ⟨g, m, loaded⟩ ∧ (loaded = none ∨ loaded = some t)

theorem Holds.after {f : Frontend} (h : f.Holds g m t) (hload : Tables.load g m = .ok t)
    (call : Call) : (f.after call).Holds g m t := by
  have hused : f.used.Holds g m t := by
    obtain ⟨loaded, rfl, hloaded⟩ := h
    cases hloaded with
    | inl h =>
      rw [h, used, tables, hload]
      exact ⟨some t, rfl, Or.inr rfl⟩
    | inr h =>
      rw [h]
      exact ⟨some t, rfl, Or.inr rfl⟩
  cases call with
  | tables => exact hused
  | parse options fuel tokens => exact hused

theorem Holds.afterAll {f : Frontend} (h : f.Holds g m t) (hload : Tables.load g m = .ok t)
    (calls : List Call) : (f.afterAll calls).Holds g m t := by
  induction calls generalizing f with
  | nil => exact h
  | cons call rest ih => exact ih (h.after hload call)

/-- Loaded or not, the front end parses by the tables of its text. -/
theorem parse_eq {loaded : Option Tables} (hload : Tables.load g m = .ok t)
    (hloaded : loaded = none ∨ loaded = some t) (options : Options) (fuel : Nat)
    (tokens : TokenStream) : parse ⟨g, m, loaded⟩ options fuel tokens =
      (parseTree g t.automaton options fuel tokens).map (Except.mapError .parse) := by
  cases hloaded with
  | inl h =>
    rw [h, parse, tables, hload]
    rfl
  | inr h =>
    rw [h]
    rfl

theorem ofText_eq {text : String} (h : Manifest.ofText text = .ok m) :
    ofText g text = .ok ⟨g, m, none⟩ := by
  rw [ofText, h]
  rfl

end Frontend

/-- Tables that load have a text that is read again: the check bounds their shape, and with it the
numbers of their blobs. -/
theorem PlainTables.ofText_toText_of_shape (hshape : (d.loaded g).shapeFault? g = none)
    (hterminals : g.terminalCount ≤ 2 ^ 32) (hnonterminals : g.nonterminalCount ≤ 2 ^ 32)
    (hm : Manifest.ofPlain d = .ok m) : Manifest.ofText m.toText = .ok m := by
  obtain ⟨⟨_, hcount⟩, hcols, ⟨hrrows, hrcols⟩, hgrows, hgcols⟩ := shapeFault?_loaded.mp hshape
  have haction : d.actionNumbers.size ≤ 16384 := by rwa [actionNumbers, Array.size_map]
  have hgoto : d.gotoNumbers.size ≤ 16384 := by rwa [gotoNumbers, Array.size_map, hgrows]
  have hrecovery : d.recoveryNumbers.size ≤ 16384 := by
    rwa [recoveryNumbers, Array.size_map, hrrows]
  have hsmall : ∀ matrix ∈ d.matrices, matrix.Small := by
    apply small_of_numbers
    simp only [numbers, List.forall_mem_cons, hcols, hgcols, hrcols]
    exact ⟨⟨haction, hterminals⟩, ⟨hgoto, hnonterminals⟩, ⟨hrecovery, hterminals⟩, by simp⟩
  apply Manifest.ofText_toText
  exact Manifest.writable_of_ofPlain hm (Manifest.sized_of_ofPlain hm hsmall)

/-- A front end made of the text of packed tables parses, after whatever calls, as the machine
that reads the cells of the plain tables does. The numbers of terminals have 32 bits. -/
theorem packed_front_end_parses_as_plain (hg : g.Built) (hterminals : g.terminalCount ≤ 2 ^ 32)
    (h : Tables.ofPlain g d = .ok t) :
    ∃ m f, Manifest.ofPlain d = .ok m ∧ Frontend.ofText g m.toText = .ok f ∧
      ∀ calls, ∃ loaded, f.afterAll calls = ⟨g, m, loaded⟩ ∧
        ∀ options fuel tokens, Frontend.parse ⟨g, m, loaded⟩ options fuel tokens =
          (parseTree g d.automaton options fuel tokens).map (Except.mapError .parse) := by
  obtain ⟨m, hm, hload⟩ := bind_eq_ok.mp h
  have hnonterminals : g.nonterminalCount ≤ 2 ^ 32 :=
    (hg.nonterminalCount_le.trans hg.size_productions_le).trans (by decide)
  obtain ⟨hpacks, rfl, -, hshape⟩ :=
    PlainTables.loaded_of_ofPlain_of_le hterminals hnonterminals h
  have htext := PlainTables.ofText_toText_of_shape hshape hterminals hnonterminals hm
  refine ⟨m, ⟨g, m, none⟩, hm, Frontend.ofText_eq htext, ?_⟩
  intro calls
  have hholds : Frontend.Holds ⟨g, m, none⟩ g m (d.loaded g) := ⟨none, rfl, Or.inl rfl⟩
  obtain ⟨loaded, hafter, hloaded⟩ := hholds.afterAll hload calls
  refine ⟨loaded, hafter, ?_⟩
  intro options fuel tokens
  rw [Frontend.parse_eq hload hloaded, hpacks.automaton_loaded]

/-- A statement with one name too many is parsed after a call for the tables and another parse. -/
theorem statement_front_end_parses_as_plain : ∃ m f,
    Manifest.ofPlain Statements.plain = .ok m ∧
      Frontend.ofText Statements.grammar m.toText = .ok f ∧
      ∃ loaded, f.afterAll [.tables, .parse {} 20 []] = ⟨Statements.grammar, m, loaded⟩ ∧
        ∃ r, Frontend.parse ⟨Statements.grammar, m, loaded⟩ {} 20 Statements.input =
          some (.ok r) := by
  have hfault : (Statements.plain.loaded Statements.grammar).fault? Statements.grammar = none := by
    decide +kernel
  have hload := PlainTables.ofPlain_loaded Statements.plain_packs hfault
  obtain ⟨m, f, hm, hf, hparse⟩ :=
    packed_front_end_parses_as_plain Statements.built (by decide +kernel) hload
  obtain ⟨loaded, hafter, hparse⟩ := hparse [.tables, .parse {} 20 []]
  have hends : (parseTree Statements.grammar Statements.plain.automaton {} 20
      Statements.input).map Except.toBool = some true := by
    decide +kernel
  obtain ⟨outcome, hrun, hok⟩ := Option.map_eq_some_iff.mp hends
  cases outcome with
  | error e => cases hok
  | ok r => exact ⟨m, f, hm, hf, loaded, hafter, r, by rw [hparse, hrun]; rfl⟩

end TableLR
