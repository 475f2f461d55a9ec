import TableLR.Proofs.Blob.Consistent
import TableLR.Proofs.Table.Loading

/-! Loading plain tables. The three tables of a parser are packed with codes and sentinels of their
own; they are accepted exactly if a parse can follow their cells, and then every cell is read as
it was written. -/
namespace TableLR

theorem toNat_packCode {tag value : Nat} (htag : tag < 4) (hvalue : value ≤ maxCellNumber) :
    (packCode tag value).toNat = tag * 16384 + value := by
  unfold maxCellNumber at hvalue
  rw [packCode, UInt16.toNat_ofNat', Nat.mod_eq_of_lt (by omega : value < 16384)]
  exact Nat.mod_eq_of_lt (by omega)

theorem codeTag_packCode {tag value : Nat} (htag : tag < 4) (hvalue : value ≤ maxCellNumber) :
    codeTag (packCode tag value) = tag := by
  rw [codeTag, toNat_packCode htag hvalue]
  unfold maxCellNumber at hvalue
  omega

theorem codeValue_packCode {tag value : Nat} (htag : tag < 4) (hvalue : value ≤ maxCellNumber) :
    codeValue (packCode tag value) = value := by
  rw [codeValue, toNat_packCode htag hvalue]
  unfold maxCellNumber at hvalue
  omega

theorem Action.ofCode_code {cell : Action} (h : ∀ v, cell.value? = some v → v ≤ maxCellNumber) :
    ofCode cell.code = cell := by
  cases cell with
  | shift s => simp [ofCode, code, codeTag_packCode, codeValue_packCode, h s rfl]
  | reduce p => simp [ofCode, code, codeTag_packCode, codeValue_packCode, h p rfl]
  | accept => rfl
  | error => rfl

theorem Recovery.ofCode?_code {cell : Recovery}
    (h : ∀ v, cell.value? = some v → v ≤ maxCellNumber) : ofCode? cell.code = some cell := by
  cases cell with
  | discardState => rfl
  | discardTerminal => rfl
  | recover p => simp [ofCode?, code, codeTag_packCode, codeValue_packCode, h p rfl]

namespace PlainTables

variable {α : Type}

def Narrow (value? : α → Option Nat) (cells : Array (Array α)) : Prop :=
  ∀ row ∈ cells, ∀ cell ∈ row, ∀ v, value? cell = some v → v ≤ maxCellNumber

theorem wideValue?_eq_none {value? : α → Option Nat} {cells : Array (Array α)} :
    wideValue? value? cells = none ↔ Narrow value? cells := by
  have hcell : ∀ (cell : α) (r c : Nat), ((value? cell).bind fun v =>
      if maxCellNumber < v then some (r, c, v) else none) = none ↔
        ∀ v, value? cell = some v → v ≤ maxCellNumber := by
    intro cell r c
    cases value? cell <;> simp
  simp only [wideValue?, SparseTable.findSome?_zipIdx_eq_none, hcell, Narrow,
    Array.mem_iff_getElem?]
  constructor
  · rintro h row ⟨r, hrow⟩ cell ⟨c, hc⟩
    exact h r row hrow c cell hc
  · intro h r row hrow c cell hc
    exact h row ⟨r, hrow⟩ cell ⟨c, hc⟩

theorem codes_eq_ok {table : String} {value? : α → Option Nat} {code : α → UInt16}
    {cells : Array (Array α)} {dense : Array (Array Int)} :
    codes table value? code cells = .ok dense ↔ Narrow value? cells ∧
      dense = cells.map (Array.map fun cell => ((code cell).toNat : Int)) := by
  unfold codes
  rw [← wideValue?_eq_none]
  cases wideValue? value? cells with
  | some cell => simp
  | none => simp [eq_comm]

end PlainTables

theorem Blob.shape_of_decode {b : Blob} {m : WordMatrix} (h : b.decode = .ok m) :
    m.rows = b.rows ∧ m.cols = b.cols := by
  obtain ⟨-, _, _, -, -, -, hm⟩ := decode_eq_ok_iff.mp h
  exact ⟨hm.rows_eq, hm.cols_eq⟩

namespace SparseTable

variable {α : Type} {sentinel : Int} {f : α → Int} {cells : Array (Array α)} {width : Nat}

theorem shape_of_decode {name name' : String} {dense : Array (Array Int)} {read : Int}
    {t : SparseTable}
    (h : decode name' ((Parts.ofRows sentinel dense).encode name) read = .ok t) :
    t.rows = dense.size ∧ t.cols = columnCount dense := by
  obtain ⟨parts, hparts, _, rfl⟩ := decode_eq_ok h
  obtain ⟨-, hrowmap, hcolumnmap, -⟩ := parts_eq_ok.mp hparts
  exact ⟨(Blob.shape_of_decode (mapError_eq_ok.mp hrowmap)).2,
    (Blob.shape_of_decode (mapError_eq_ok.mp hcolumnmap)).2⟩

theorem repacked_of_decode {name name' : String} {dense : Array (Array Int)} {read : Int}
    {e : Encoded} {t : SparseTable} (he : encode name dense sentinel = .ok e)
    (h : decode name' e read = .ok t) (hrows : t.rows ≤ 16384) (hcols : t.cols ≤ 2 ^ 32) :
    Packable sentinel dense ∧ t = repacked sentinel dense name' read := by
  obtain ⟨hrect, hcodes, rfl⟩ := encode_eq_ok.mp he
  obtain ⟨hsize, hcount⟩ := shape_of_decode h
  rw [hsize] at hrows
  rw [hcount] at hcols
  have hbytes : dense.size * ((columnCount dense + 1) / 2) * 4 < sizeLimit := by
    have hhalf : (columnCount dense + 1) / 2 ≤ 2 ^ 31 := by omega
    have hcells := Nat.mul_le_mul hrows hhalf
    rw [sizeLimit]
    omega
  have hpack : Packable sentinel dense :=
    ⟨by omega, hcols, hbytes, fun hrow => hrect _ hrow, fun hrow hv hne => hcodes _ hrow _ hv hne⟩
  exact ⟨hpack, Except.ok.inj (h.symm.trans (decode_ofRows hpack name name' read))⟩

theorem columnCount_map (hrect : ∀ row ∈ cells, row.size = width) (hpos : 0 < cells.size) :
    columnCount (cells.map (Array.map f)) = width := by
  simp [columnCount, hpos, hrect]

theorem packable_map (hrows : cells.size < 2 ^ 31) (hwidth : width < 2 ^ 31)
    (hrect : ∀ row ∈ cells, row.size = width)
    (hcode : ∀ row ∈ cells, ∀ cell ∈ row, f cell ≠ sentinel → 0 ≤ f cell ∧ f cell ≤ 65535) :
    Packable sentinel (cells.map (Array.map f)) := by
  have hcols : ∀ row ∈ cells, row.size = columnCount (cells.map (Array.map f)) := by
    intro row hrow
    rw [columnCount_map hrect (Array.size_pos_of_mem hrow), hrect row hrow]
  have hcount : columnCount (cells.map (Array.map f)) < 2 ^ 31 := by
    by_cases hpos : 0 < cells.size
    · rwa [columnCount_map hrect hpos]
    · have hempty : cells = #[] := by simpa using hpos
      simp [hempty, columnCount]
  have hsize : (cells.map (Array.map f)).size < 2 ^ 31 := by rwa [Array.size_map]
  refine ⟨by omega, by omega, bytes_lt_of_lt hsize hcount, ?_, ?_⟩
  · intro row hrow
    obtain ⟨source, hsource, rfl⟩ := Array.mem_map.mp hrow
    rw [Array.size_map, hcols source hsource]
  · intro row v hrow hv hne
    obtain ⟨source, hsource, rfl⟩ := Array.mem_map.mp hrow
    obtain ⟨cell, hcell, rfl⟩ := Array.mem_map.mp hv
    exact hcode source hsource cell hcell hne

/-- A table of cells that were packed as numbers is read cell by cell, and as the sentinel outside
of it. -/
theorem Packable.get_map (h : Packable sentinel (cells.map (Array.map f))) (name : String)
    (s c : Nat) : (repacked sentinel (cells.map (Array.map f)) name sentinel).get s c =
      ((cells[s]?.bind fun row => row[c]?).map f).getD sentinel := by
  cases hat : cells[s]?.bind fun row => row[c]? with
  | some cell =>
    obtain ⟨row, hrow, hcell⟩ := Option.bind_eq_some_iff.mp hat
    have hrow' : (cells.map (Array.map f))[s]? = some (row.map f) := by simp [hrow]
    have hcell' : (row.map f)[c]? = some (f cell) := by simp [hcell]
    rw [(h.cell_repacked name sentinel hrow' hcell').1, Option.map_some, Option.getD_some]
    split
    · exact Eq.symm ‹_›
    · rfl
  | none =>
    by_contra hcode
    obtain ⟨hs, hc⟩ := lt_of_get hcode
    rw [rows_repacked, Array.size_map] at hs
    rw [cols_repacked] at hc
    have hwidth : (cells[s].map f).size = columnCount (cells.map (Array.map f)) :=
      h.rect (Array.mem_map.mpr ⟨_, Array.getElem_mem hs, rfl⟩)
    rw [Array.size_map] at hwidth
    simp [hs, hwidth ▸ hc] at hat

end SparseTable

/-- Tables for `g` with `n` states, whose cells name states, productions and recovery productions
that there are and treat the end of the input as such. -/
structure PlainTables.Fits (d : PlainTables) (g : Grammar) (n : Nat) : Prop where
  count : 1 ≤ n ∧ n ≤ 16384
  action_rows : d.action.size = n
  goto_rows : d.goto.size = n
  recovery_rows : d.recovery.size = n
  action_row : ∀ row ∈ d.action, row.size = g.terminalCount
  goto_row : ∀ row ∈ d.goto, row.size = g.nonterminalCount
  recovery_row : ∀ row ∈ d.recovery, row.size = g.terminalCount
  shift {s : StateId} {a : TerminalId} {next : StateId}
    (h : d.automaton.action s a = .shift next) : next < n ∧ a ≠ g.eof
  reduce {s : StateId} {a : TerminalId} {p : ProductionId}
    (h : d.automaton.action s a = .reduce p) : p < g.productions.size
  accept {s : StateId} {a : TerminalId} (h : d.automaton.action s a = .accept) : a = g.eof
  recover {s : StateId} {a : TerminalId} {p : ProductionId}
    (h : d.automaton.recovery s a = .recover p) :
    (∃ production, g.production? p = some production ∧ production.recovery = true) ∧ a ≠ g.eof
  goto {s : StateId} {k : NonterminalId} {next : StateId} (h : d.automaton.goto s k = some next) :
    next < n

structure Tables.Reads (t : Tables) (d : PlainTables) (g : Grammar) : Prop where
  action {s : StateId} {a : TerminalId} {row : Array Action} {cell : Action}
    (hrow : d.action[s]? = some row) (hcell : row[a]? = some cell) : t.actionAt s a = cell
  goto {s : StateId} {k : NonterminalId} {row : Array (Option StateId)} {cell : Option StateId}
    (hrow : d.goto[s]? = some row) (hcell : row[k]? = some cell) : t.gotoAt s k = cell
  recovery {s : StateId} {a : TerminalId} {row : Array Recovery} {cell : Recovery}
    (hrow : d.recovery[s]? = some row) (hcell : row[a]? = some cell) : t.recoveryAt s a = cell
  action_outside {s : StateId} {a : TerminalId}
    (h : d.action.size ≤ s ∨ g.terminalCount ≤ a) : t.actionAt s a = .error
  goto_outside {s : StateId} {k : NonterminalId}
    (h : d.goto.size ≤ s ∨ g.nonterminalCount ≤ k) : t.gotoAt s k = none
  recovery_outside {s : StateId} {a : TerminalId}
    (h : d.recovery.size ≤ s ∨ g.terminalCount ≤ a) : t.recoveryAt s a = .discardState

namespace PlainTables

open SparseTable

variable {d : PlainTables} {g : Grammar} {t : Tables}

def actionNumbers (d : PlainTables) : Array (Array Int) :=
  d.action.map (Array.map fun cell => (cell.code.toNat : Int))

def gotoNumbers (d : PlainTables) : Array (Array Int) := d.goto.map (Array.map gotoCode)

def recoveryNumbers (d : PlainTables) : Array (Array Int) :=
  d.recovery.map (Array.map fun cell => (cell.code.toNat : Int))

def loaded (d : PlainTables) (g : Grammar) : Tables :=
  .ofDense g d.actionNumbers d.gotoNumbers d.recoveryNumbers

structure Packs (d : PlainTables) : Prop where
  action_narrow : Narrow Action.value? d.action
  recovery_narrow : Narrow Recovery.value? d.recovery
  action : Packable 0 d.actionNumbers
  goto : Packable (-1) d.gotoNumbers
  recovery : Packable 0 d.recoveryNumbers

namespace Packs

theorem actionAt_loaded (h : d.Packs) (s : StateId) (a : TerminalId) :
    (d.loaded g).actionAt s a = d.automaton.action s a := by
  have hget : (d.loaded g).action.get s a = _ := h.action.get_map "action" s a
  simp only [Tables.actionAt, Tables.actionCode, hget, automaton]
  cases hat : d.action[s]?.bind fun row => row[a]? with
  | none => rfl
  | some cell =>
    obtain ⟨row, hrow, hcell⟩ := Option.bind_eq_some_iff.mp hat
    have hnarrow := h.action_narrow row (Array.mem_of_getElem? hrow) cell
      (Array.mem_of_getElem? hcell)
    simpa using Action.ofCode_code hnarrow

theorem ofCode?_loaded (h : d.Packs) (s : StateId) (a : TerminalId) :
    Recovery.ofCode? ((d.loaded g).recoveryCode s a) = some (d.automaton.recovery s a) := by
  have hget : (d.loaded g).recovery.get s a = _ := h.recovery.get_map "recovery" s a
  simp only [Tables.recoveryCode, hget, automaton]
  cases hat : d.recovery[s]?.bind fun row => row[a]? with
  | none => rfl
  | some cell =>
    obtain ⟨row, hrow, hcell⟩ := Option.bind_eq_some_iff.mp hat
    have hnarrow := h.recovery_narrow row (Array.mem_of_getElem? hrow) cell
      (Array.mem_of_getElem? hcell)
    simpa using Recovery.ofCode?_code hnarrow

theorem recoveryAt_loaded (h : d.Packs) (s : StateId) (a : TerminalId) :
    (d.loaded g).recoveryAt s a = d.automaton.recovery s a := by
  rw [Tables.recoveryAt, h.ofCode?_loaded, Option.getD_some]

theorem gotoNumber_loaded (h : d.Packs) (s : StateId) (k : NonterminalId) :
    (d.loaded g).gotoNumber s k = gotoCode (d.automaton.goto s k) := by
  have hget : (d.loaded g).goto.get s k = _ := h.goto.get_map "goto" s k
  simp only [Tables.gotoNumber, hget, automaton]
  cases d.goto[s]?.bind fun row => row[k]? <;> rfl

theorem gotoAt_loaded (h : d.Packs) (s : StateId) (k : NonterminalId) :
    (d.loaded g).gotoAt s k = d.automaton.goto s k := by
  rw [Tables.gotoAt, h.gotoNumber_loaded]
  cases d.automaton.goto s k with
  | none => rfl
  | some next =>
    have hne : (next : Int) ≠ -1 := by omega
    simp [gotoCode, hne]

end Packs

theorem ofPlain_eq_ok {m : Manifest} : Manifest.ofPlain d = .ok m ↔
    Narrow Action.value? d.action ∧ Narrow Recovery.value? d.recovery ∧
      encode "action" d.actionNumbers 0 = .ok m.action ∧
      encode "goto" d.gotoNumbers (-1) = .ok m.goto ∧
      encode "recovery" d.recoveryNumbers 0 = .ok m.recovery := by
  constructor
  · intro h
    obtain ⟨action, haction, h⟩ := bind_eq_ok.mp h
    obtain ⟨recovery, hrecovery, h⟩ := bind_eq_ok.mp h
    obtain ⟨action', haction', h⟩ := bind_eq_ok.mp h
    obtain ⟨goto', hgoto', h⟩ := bind_eq_ok.mp h
    obtain ⟨recovery', hrecovery', h⟩ := bind_eq_ok.mp h
    obtain rfl := Except.ok.inj h
    obtain ⟨hnarrow, rfl⟩ := codes_eq_ok.mp haction
    obtain ⟨hnarrow', rfl⟩ := codes_eq_ok.mp hrecovery
    exact ⟨hnarrow, hnarrow', haction', hgoto', hrecovery'⟩
  · rintro ⟨hnarrow, hnarrow', haction, hgoto, hrecovery⟩
    exact bind_eq_ok.mpr ⟨_, codes_eq_ok.mpr ⟨hnarrow, rfl⟩,
      bind_eq_ok.mpr ⟨_, codes_eq_ok.mpr ⟨hnarrow', rfl⟩,
        bind_eq_ok.mpr ⟨_, haction, bind_eq_ok.mpr ⟨_, hgoto, bind_eq_ok.mpr ⟨_, hrecovery, rfl⟩⟩⟩⟩⟩

/-- Tables for symbols with numbers of 32 bits are loaded as they were packed. -/
theorem loaded_of_ofPlain_of_le (hterminals : g.terminalCount ≤ 2 ^ 32)
    (hnonterminals : g.nonterminalCount ≤ 2 ^ 32) (h : Tables.ofPlain g d = .ok t) :
    d.Packs ∧ t = d.loaded g ∧ t.Checked g ∧ t.shapeFault? g = none := by
  obtain ⟨m, hm, hload⟩ := bind_eq_ok.mp h
  obtain ⟨hnarrow, hnarrow', haction, hgoto, hrecovery⟩ := ofPlain_eq_ok.mp hm
  obtain ⟨haction', hgoto', hrecovery', heof, hfault⟩ := Tables.load_eq_ok.mp hload
  have hshape := (Tables.fault?_eq_none.mp hfault).1
  obtain ⟨⟨_, hstates⟩, hcols, ⟨hrrows, hrcols⟩, hgrows, hgcols⟩ :=
    Tables.shapeFault?_eq_none.mp hshape
  -- only tables of a bounded shape are known to be read back, and the check bounds the shape
  obtain ⟨hpack, haction⟩ := repacked_of_decode haction haction' hstates (hcols ▸ hterminals)
  obtain ⟨hgpack, hgoto⟩ :=
    repacked_of_decode hgoto hgoto' (hgrows ▸ hstates) (hgcols ▸ hnonterminals)
  obtain ⟨hrpack, hrecovery⟩ :=
    repacked_of_decode hrecovery hrecovery' (hrrows ▸ hstates) (hrcols ▸ hterminals)
  refine ⟨⟨hnarrow, hnarrow', hpack, hgpack, hrpack⟩, ?_, Tables.checked_of_load hload, hshape⟩
  obtain ⟨action, goto, recovery, eof⟩ := t
  obtain rfl := haction
  obtain rfl := hgoto
  obtain rfl := hrecovery
  obtain rfl := heof
  rfl

theorem loaded_of_ofPlain (hterminals : g.terminalCount < 2 ^ 31)
    (hnonterminals : g.nonterminalCount < 2 ^ 31) (h : Tables.ofPlain g d = .ok t) :
    d.Packs ∧ t = d.loaded g ∧ t.Checked g ∧ t.shapeFault? g = none :=
  loaded_of_ofPlain_of_le (by omega) (by omega) h

/-- The packed form of tables that can be packed. -/
theorem ofPlain_of_packs (h : d.Packs) : Manifest.ofPlain d =
    .ok (.ofDense d.actionNumbers d.gotoNumbers d.recoveryNumbers) := by
  refine ofPlain_eq_ok.mpr ⟨h.action_narrow, h.recovery_narrow, ?_, ?_, ?_⟩
  · exact encode_eq_ok.mpr ⟨fun row => h.action.rect, fun row hrow v => h.action.code hrow, rfl⟩
  · exact encode_eq_ok.mpr ⟨fun row => h.goto.rect, fun row hrow v => h.goto.code hrow, rfl⟩
  · exact encode_eq_ok.mpr ⟨fun row => h.recovery.rect, fun row hrow v => h.recovery.code hrow, rfl⟩

theorem ofPlain_loaded (h : d.Packs) (hfault : (d.loaded g).fault? g = none) :
    Tables.ofPlain g d = .ok (d.loaded g) :=
  bind_eq_ok.mpr ⟨_, ofPlain_of_packs h, Tables.load_ofDense h.action h.goto h.recovery hfault⟩

theorem row_size_of_packable {α : Type} {sentinel : Int} {f : α → Int} {cells : Array (Array α)}
    (h : Packable sentinel (cells.map (Array.map f))) {row : Array α} (hrow : row ∈ cells) :
    row.size = columnCount (cells.map (Array.map f)) := by
  have hrect := h.rect (Array.mem_map.mpr ⟨row, hrow, rfl⟩)
  rwa [Array.size_map] at hrect

theorem stateCount_loaded : (d.loaded g).stateCount = d.action.size := Array.size_map ..

/-- The shape that is checked is that of the plain tables. -/
theorem shapeFault?_loaded : (d.loaded g).shapeFault? g = none ↔
    (0 < d.action.size ∧ d.action.size ≤ maxCellNumber + 1) ∧
      columnCount d.actionNumbers = g.terminalCount ∧
      (d.recovery.size = d.action.size ∧ columnCount d.recoveryNumbers = g.terminalCount) ∧
      d.goto.size = d.action.size ∧ columnCount d.gotoNumbers = g.nonterminalCount := by
  rw [Tables.shapeFault?_eq_none]
  simp only [Tables.stateCount, loaded, Tables.ofDense, rows_repacked, cols_repacked,
    actionNumbers, gotoNumbers, recoveryNumbers, Array.size_map]

theorem fits_of_ofPlain (hterminals : g.terminalCount < 2 ^ 31)
    (hnonterminals : g.nonterminalCount < 2 ^ 31) (h : Tables.ofPlain g d = .ok t) :
    d.Fits g d.action.size := by
  obtain ⟨hpacks, rfl, hcheck, hshape⟩ := loaded_of_ofPlain hterminals hnonterminals h
  obtain ⟨hcount, hcols, ⟨hrrows, hrcols⟩, hgrows, hgcols⟩ := shapeFault?_loaded.mp hshape
  refine ⟨hcount, rfl, hgrows, hrrows, ?_, ?_, ?_, ?_, ?_, ?_, ?_, ?_⟩
  · intro row hrow
    exact (row_size_of_packable hpacks.action hrow).trans hcols
  · intro row hrow
    exact (row_size_of_packable hpacks.goto hrow).trans hgcols
  · intro row hrow
    exact (row_size_of_packable hpacks.recovery hrow).trans hrcols
  · intro s a next hcell
    rw [← hpacks.actionAt_loaded (g := g)] at hcell
    exact stateCount_loaded (g := g) ▸ hcheck.shift hcell
  · intro s a p hcell
    rw [← hpacks.actionAt_loaded (g := g)] at hcell
    exact hcheck.reduce hcell
  · intro s a hcell
    rw [← hpacks.actionAt_loaded (g := g)] at hcell
    exact hcheck.accept hcell
  · intro s a p hcell
    rw [← hpacks.recoveryAt_loaded (g := g)] at hcell
    exact hcheck.recover hcell
  · intro s k next hcell
    rw [← hpacks.gotoAt_loaded (g := g)] at hcell
    exact stateCount_loaded (g := g) ▸ hcheck.goto hcell

namespace Fits

variable {n : Nat}

theorem action_narrow (hg : g.Built) (h : d.Fits g n) : Narrow Action.value? d.action := by
  intro row hrow cell hcell v hv
  obtain ⟨s, hs⟩ := Array.mem_iff_getElem?.mp hrow
  obtain ⟨a, ha⟩ := Array.mem_iff_getElem?.mp hcell
  have hat : d.automaton.action s a = cell := by simp [automaton, hs, ha]
  cases cell with
  | shift next =>
    obtain rfl := Option.some.inj hv
    exact Nat.le_of_lt_succ (Nat.lt_of_lt_of_le (h.shift hat).1 h.count.2)
  | reduce p =>
    obtain rfl := Option.some.inj hv
    exact Nat.le_of_lt_succ (Nat.lt_of_lt_of_le (h.reduce hat) hg.size_productions_le)
  | accept => cases hv
  | error => cases hv

theorem recovery_narrow (hg : g.Built) (h : d.Fits g n) : Narrow Recovery.value? d.recovery := by
  intro row hrow cell hcell v hv
  obtain ⟨s, hs⟩ := Array.mem_iff_getElem?.mp hrow
  obtain ⟨a, ha⟩ := Array.mem_iff_getElem?.mp hcell
  have hat : d.automaton.recovery s a = cell := by simp [automaton, hs, ha]
  cases cell with
  | discardState => cases hv
  | discardTerminal => cases hv
  | recover p =>
    obtain rfl := Option.some.inj hv
    obtain ⟨⟨production, hrule, _⟩, _⟩ := h.recover hat
    have hless := (Array.getElem?_eq_some_iff.mp hrule).1
    exact Nat.le_of_lt_succ (Nat.lt_of_lt_of_le hless hg.size_productions_le)

theorem gotoCode_le (h : d.Fits g n) {row : Array (Option StateId)} (hrow : row ∈ d.goto)
    {cell : Option StateId} (hcell : cell ∈ row) (hne : gotoCode cell ≠ -1) :
    0 ≤ gotoCode cell ∧ gotoCode cell ≤ 65535 := by
  obtain ⟨s, hs⟩ := Array.mem_iff_getElem?.mp hrow
  obtain ⟨k, hk⟩ := Array.mem_iff_getElem?.mp hcell
  have hat : d.automaton.goto s k = cell := by simp [automaton, hs, hk]
  cases cell with
  | none => exact absurd rfl hne
  | some next =>
    obtain ⟨_, hcount⟩ := h.count
    have hless : (next : Int) < n := Int.ofNat_lt.mpr (h.goto hat)
    exact ⟨Int.natCast_nonneg next, by simp only [gotoCode]; omega⟩

theorem packs (hg : g.Built) (hterminals : g.terminalCount < 2 ^ 31)
    (hnonterminals : g.nonterminalCount < 2 ^ 31) (h : d.Fits g n) : d.Packs := by
  obtain ⟨_, hcount⟩ := h.count
  have hrows : n < 2 ^ 31 := by omega
  have hcode (code : UInt16) (_ : (code.toNat : Int) ≠ 0) :
      0 ≤ (code.toNat : Int) ∧ (code.toNat : Int) ≤ 65535 := by
    have hlt := code.toNat_lt
    omega
  refine ⟨h.action_narrow hg, h.recovery_narrow hg, ?_, ?_, ?_⟩
  · exact packable_map (h.action_rows ▸ hrows) hterminals h.action_row
      fun row _ cell _ hne => hcode cell.code hne
  · exact packable_map (h.goto_rows ▸ hrows) hnonterminals h.goto_row
      fun row hrow cell hcell hne => h.gotoCode_le hrow hcell hne
  · exact packable_map (h.recovery_rows ▸ hrows) hterminals h.recovery_row
      fun row _ cell _ hne => hcode cell.code hne

theorem fault?_loaded (h : d.Fits g n) (hpacks : d.Packs) : (d.loaded g).fault? g = none := by
  obtain ⟨hpos, hcount⟩ := h.count
  have hstates : (d.loaded g).stateCount = n := stateCount_loaded.trans h.action_rows
  refine Tables.fault?_eq_none.mpr ⟨?_, fun s _ => ⟨fun a _ => ⟨?_, ?_⟩, fun k _ => ?_⟩⟩
  · rw [shapeFault?_loaded, h.action_rows, h.goto_rows, h.recovery_rows]
    exact ⟨⟨hpos, hcount⟩, columnCount_map h.action_row (h.action_rows ▸ hpos),
      ⟨rfl, columnCount_map h.recovery_row (h.recovery_rows ▸ hpos)⟩,
      rfl, columnCount_map h.goto_row (h.goto_rows ▸ hpos)⟩
  · rw [Tables.actionFault?_eq_none, hpacks.actionAt_loaded, hstates]
    exact ⟨fun next => h.shift, fun p => h.reduce, h.accept⟩
  · exact Tables.recoveryFault?_eq_none.mpr ⟨_, hpacks.ofCode?_loaded s a, fun p => h.recover⟩
  · rw [Tables.gotoFault?_eq_none, hpacks.gotoNumber_loaded, hstates]
    cases hcell : d.automaton.goto s k with
    | none => exact .inl rfl
    | some next => exact .inr (Int.ofNat_lt.mpr (h.goto hcell))

theorem lookup_outside {α : Type} {cells : Array (Array α)} {width s c : Nat}
    (hrect : ∀ row ∈ cells, row.size = width) (h : cells.size ≤ s ∨ width ≤ c) :
    (cells[s]?.bind fun row => row[c]?) = none := by
  rcases h with h | h
  · simp [h]
  · refine Option.bind_eq_none_iff.mpr fun row hrow => ?_
    simp [hrect row (Array.mem_of_getElem? hrow), h]

theorem reads (h : d.Fits g n) (hpacks : d.Packs) : (d.loaded g).Reads d g := by
  refine ⟨?_, ?_, ?_, ?_, ?_, ?_⟩
  · intro s a row cell hrow hcell
    simp [hpacks.actionAt_loaded, automaton, hrow, hcell]
  · intro s k row cell hrow hcell
    simp [hpacks.gotoAt_loaded, automaton, hrow, hcell]
  · intro s a row cell hrow hcell
    simp [hpacks.recoveryAt_loaded, automaton, hrow, hcell]
  · intro s a hout
    simp [hpacks.actionAt_loaded, automaton, lookup_outside h.action_row hout]
  · intro s k hout
    simp [hpacks.gotoAt_loaded, automaton, lookup_outside h.goto_row hout]
  · intro s a hout
    simp [hpacks.recoveryAt_loaded, automaton, lookup_outside h.recovery_row hout]

end Fits

end PlainTables

/-- Plain tables are loaded exactly if they fit the grammar, and then all their cells are kept. -/
theorem plain_tables_load_exactly {g : Grammar} (hg : g.Built)
    (hterminals : g.terminalCount < 2 ^ 31) (hnonterminals : g.nonterminalCount < 2 ^ 31)
    (d : PlainTables) :
    ((∃ t, Tables.ofPlain g d = .ok t) ↔ ∃ n, d.Fits g n) ∧
      ∀ t, Tables.ofPlain g d = .ok t → t.Reads d g := by
  refine ⟨⟨?_, ?_⟩, ?_⟩
  · rintro ⟨t, h⟩
    exact ⟨d.action.size, PlainTables.fits_of_ofPlain hterminals hnonterminals h⟩
  · rintro ⟨n, hfits⟩
    have hpacks := hfits.packs hg hterminals hnonterminals
    exact ⟨d.loaded g, PlainTables.ofPlain_loaded hpacks (hfits.fault?_loaded hpacks)⟩
  · intro t h
    have hfits := PlainTables.fits_of_ofPlain hterminals hnonterminals h
    obtain ⟨hpacks, rfl, _⟩ := PlainTables.loaded_of_ofPlain hterminals hnonterminals h
    exact hfits.reads hpacks

namespace Statements

def plain : PlainTables where
  action := #[#[.shift 1, .error, .error], #[.error, .shift 2, .error],
    #[.error, .error, .reduce 0], #[.error, .error, .accept]]
  goto := #[#[some 3], #[none], #[none], #[none]]
  recovery := #[#[.discardTerminal, .recover 1, .discardTerminal],
    #[.discardState, .discardState, .discardState], #[.discardState, .discardState, .discardState],
    #[.discardState, .discardState, .discardState]]

theorem plain_packs : plain.Packs where
  action_narrow := PlainTables.wideValue?_eq_none.mp (by decide)
  recovery_narrow := PlainTables.wideValue?_eq_none.mp (by decide)
  action := packable (by decide +kernel) (by decide +kernel) (by decide +kernel)
  goto := packable (by decide +kernel) (by decide +kernel) (by decide +kernel)
  recovery := packable (by decide +kernel) (by decide +kernel) (by decide +kernel)

end Statements

/-- The tables for statements fit, and a repair, a missing goto and a state that is not there are
read back. -/
theorem statement_tables_load_exactly : ∃ t,
    Tables.ofPlain Statements.grammar Statements.plain = .ok t ∧
      (∃ n, Statements.plain.Fits Statements.grammar n) ∧ t.recoveryAt 0 1 = .recover 1 ∧
      t.gotoAt 1 0 = none ∧ t.actionAt 4 0 = .error := by
  have hfault : (Statements.plain.loaded Statements.grammar).fault? Statements.grammar = none := by
    decide +kernel
  have hload := PlainTables.ofPlain_loaded Statements.plain_packs hfault
  obtain ⟨hiff, hreads⟩ := plain_tables_load_exactly Statements.built (by decide +kernel)
    (by decide +kernel) Statements.plain
  have hcells := hreads _ hload
  exact ⟨_, hload, hiff.mp ⟨_, hload⟩, hcells.recovery rfl rfl, hcells.goto rfl rfl,
    hcells.action_outside (.inl (by decide))⟩

end TableLR
