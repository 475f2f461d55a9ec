import TableLR.Proofs.Grammar.Names

/-! Well-formed grammars. What a grammar has to be is said once, without the order in which it is
checked; each check on a draft is then seen to ask for one part of it, and nothing is left out. -/
namespace TableLR

structure LinkShape.Fits (shape : LinkShape) (p : Production) : Prop where
  recursive {r : Nat} (h : shape.recursive = some r) : p.rhs[r]? = some (.nonterminal p.lhs)
  payload {i : Nat} (h : shape.payload = some i) : i < p.length ∧ shape.recursive ≠ some i

structure Production.Recovers (p : Production) : Prop where
  once : p.rhs.count .error = 1
  place : p.rhs[p.frontLength]? = some .error
  sync : ∃ a, p.rhs[p.frontLength + 1]? = some (.terminal a)
  length : p.frontLength + 2 = p.length

namespace Grammar

def Knows (g : Grammar) : Symbol → Prop
  | .terminal t => t < g.terminalCount ∧ t ≠ g.eof
  | .nonterminal n => n < g.nonterminalCount
  | .error => True

structure Admits (g : Grammar) (p : Production) : Prop where
  lhs : p.lhs < g.nonterminalCount
  rhs {s : Symbol} (h : s ∈ p.rhs) : g.Knows s
  rules : p.rules.length = p.length
  plain (h : p.recovery = false) : .error ∉ p.rhs
  recovers (h : p.recovery = true) : p.Recovers
  list {shape : LinkShape} (h : p.list = some shape) : shape.Fits p

structure WellFormed (g : Grammar) : Prop where
  id {i : ProductionId} {p : Production} (h : g.production? i = some p) : p.id = i
  start : g.start < g.nonterminalCount
  admits {p : Production} (h : p ∈ g.productions) : g.Admits p
  eof : g.eof + 1 = g.terminalCount ∧ g.terminalName g.eof = endName
  defined {n : NonterminalId} (h : n < g.nonterminalCount) : ∃ p ∈ g.productions, p.lhs = n
  size : g.productions.size ≤ 16384

namespace Draft

theorem symbolFault?_eq_none {d : Draft} {eof : TerminalId} {s : Symbol} :
    d.symbolFault? eof s = none ↔
      match s with
      | .terminal t => t < eof
      | .nonterminal n => n < d.nonterminals.size
      | .error => True := by
  cases s with
  | terminal t => simp [symbolFault?]
  | nonterminal n => simp [symbolFault?]
  | error => simp [symbolFault?]

theorem exists_terminal_iff {s : Option Symbol} :
    s.any Symbol.isTerminal = true ↔ ∃ a, s = some (.terminal a) := by
  rcases s with _ | _ | _ | _ <;> simp [Symbol.isTerminal]

theorem frontLength_of_placeholder {p : Production} {i : Nat} (h : p.placeholder? = some i) :
    p.frontLength = i ∧ p.rhs[i]? = some .error := by
  obtain ⟨hlt, herror, _⟩ := List.idxOf?_eq_some_iff.mp h
  exact ⟨by simp [Production.frontLength, h], List.getElem?_eq_some_iff.mpr ⟨hlt, herror⟩⟩

theorem recovers_iff {p : Production} {i : Nat} (h : p.placeholder? = some i) :
    p.Recovers ↔
      p.rhs.count .error = 1 ∧ i + 2 = p.rhs.length ∧ p.rhs[i + 1]?.any Symbol.isTerminal := by
  obtain ⟨rfl, herror⟩ := frontLength_of_placeholder h
  rw [exists_terminal_iff]
  exact ⟨fun hp => ⟨hp.once, hp.length, hp.sync⟩, fun hp => ⟨hp.1, herror, hp.2.2, hp.2.1⟩⟩

theorem not_recovers {p : Production} (h : p.placeholder? = none) : ¬p.Recovers := by
  intro hp
  have hmissing : .error ∉ p.rhs := List.idxOf?_eq_none_iff.mp h
  rw [← List.count_eq_zero, hp.once] at hmissing
  cases hmissing

theorem placeholderFault?_eq_none {p : Production} :
    placeholderFault? p = none ↔
      (p.recovery = false → .error ∉ p.rhs) ∧ (p.recovery = true → p.Recovers) := by
  cases hrecovery : p.recovery with
  | false => simp [placeholderFault?, hrecovery, List.count_eq_zero]
  | true =>
    cases hplace : p.placeholder? with
    | none => simp [placeholderFault?, hrecovery, hplace, not_recovers hplace]
    | some i => simp [placeholderFault?, hrecovery, hplace, recovers_iff hplace]

theorem listFault?_eq_none {p : Production} :
    listFault? p = none ↔ ∀ shape, p.list = some shape → shape.Fits p := by
  cases hlist : p.list with
  | none => simp [listFault?, hlist]
  | some shape =>
    simp only [listFault?, hlist]
    constructor
    · intro h held hheld
      cases hheld
      split at h
      · cases h
      rename_i hrest
      split at h
      · cases h
      rename_i hitem
      refine ⟨fun hr => ?_, fun hi => ?_⟩
      · simpa [hr] using hrest
      · simpa [hi, Production.length] using hitem
    · intro h
      obtain ⟨hrest, hitem⟩ := h shape rfl
      rw [if_neg, if_neg]
      · cases hpayload : shape.payload with
        | none => simp
        | some i => simpa [Production.length] using hitem hpayload
      · cases hrecursive : shape.recursive with
        | none => simp
        | some r => simpa using hrest hrecursive

theorem productionFault?_eq_none {d : Draft} {eof : TerminalId} {p : Production} :
    d.productionFault? eof p = none ↔
      p.lhs < d.nonterminals.size ∧ (∀ s ∈ p.rhs, d.symbolFault? eof s = none) ∧
        p.rules.length = p.length ∧ placeholderFault? p = none ∧ listFault? p = none := by
  unfold productionFault?
  split
  · rename_i hlhs
    exact iff_of_false (by simp) fun h => Nat.not_lt_of_le hlhs h.1
  · rename_i hlhs
    have hlhs : p.lhs < d.nonterminals.size := Nat.lt_of_not_le hlhs
    rw [Option.or_eq_none_iff, List.findSome?_eq_none_iff, Option.map_eq_none_iff]
    refine Iff.trans ?_ (and_iff_right hlhs).symm
    refine and_congr_right fun _ => ?_
    split
    · rename_i hrules
      exact iff_of_false (by simp) fun h => hrules h.1
    · rename_i hrules
      rw [Option.or_eq_none_iff]
      exact (and_iff_right (Decidable.not_not.mp hrules)).symm

theorem undefined?_eq_none {d : Draft} :
    d.undefined? = none ↔ ∀ n < d.nonterminals.size, ∃ p ∈ d.productions, p.lhs = n := by
  rw [undefined?, List.findSome?_eq_none_iff]
  constructor
  · intro h n hn
    have hname : (d.nonterminals.names[n], n) ∈ d.nonterminals.names.toList.zipIdx :=
      List.mem_zipIdx_iff_getElem?.mpr (Array.getElem?_toList.trans (Array.getElem?_eq_getElem hn))
    simpa [Array.mem_iff_getElem] using h _ hname
  · rintro h ⟨name, n⟩ hname
    have hn : n < d.nonterminals.size := by
      have hlt := (List.getElem?_eq_some_iff.mp (List.mem_zipIdx_iff_getElem?.mp hname)).1
      simpa [NameTable.size] using hlt
    simpa [Array.mem_iff_getElem] using h n hn

theorem fault?_eq_none {d : Draft} {start : NonterminalId} :
    d.fault? start = none ↔
      (∀ name ∈ d.terminals.names, name ∉ d.nonterminals.names) ∧
        endName ∉ d.terminals.names ∧ start < d.nonterminals.size ∧
        d.productions.size ≤ 16384 ∧
        (∀ p ∈ d.productions, d.productionFault? d.terminals.size p = none) ∧
        d.undefined? = none := by
  unfold fault?
  split
  · rename_i name hfind
    have hmem := Array.mem_of_find?_eq_some hfind
    have hboth := NameTable.contains_eq_true.mp (Array.find?_some hfind)
    exact iff_of_false (by simp) fun h => h.1 name hmem hboth
  rename_i hfind
  have hapart : ∀ name ∈ d.terminals.names, name ∉ d.nonterminals.names := fun name hmem hboth =>
    Array.find?_eq_none.mp hfind name hmem (NameTable.contains_eq_true.mpr hboth)
  rw [and_iff_right hapart]
  split
  · rename_i hend
    exact iff_of_false (by simp) fun h => h.1 (NameTable.contains_eq_true.mp hend)
  rename_i hend
  rw [NameTable.contains_eq_true] at hend
  rw [and_iff_right hend]
  split
  · rename_i hstart
    exact iff_of_false (by simp) fun h => Nat.not_lt_of_le hstart h.1
  rename_i hstart
  rw [and_iff_right (Nat.lt_of_not_le hstart)]
  split
  · rename_i hsize
    exact iff_of_false (by simp) fun h => Nat.not_lt_of_le h.1 hsize
  rename_i hsize
  rw [and_iff_right (show d.productions.size ≤ 16384 from Nat.le_of_not_lt hsize),
    Option.or_eq_none_iff, List.findSome?_eq_none_iff, Option.map_eq_none_iff]
  simp only [Array.mem_toList_iff]

def Numbered (d : Draft) : Prop :=
  ∀ (i : Nat) (p : Production), d.productions[i]? = some p → p.id = i

theorem empty_numbered : Draft.empty.Numbered := by
  intro i p h
  simp [Draft.empty] at h

theorem push_numbered {d : Draft} (hd : d.Numbered) (lhs : NonterminalId) (rhs : List Symbol)
    (rules : List SlotRule) (list : Option LinkShape) (recovery : Bool) :
    (d.push lhs rhs rules list recovery).1.Numbered := by
  intro i p h
  simp only [push, Array.getElem?_push] at h
  split at h
  · obtain rfl := Option.some.inj h
    exact Eq.symm ‹_›
  · exact hd i p h

theorem setRule_numbered {d : Draft} (hd : d.Numbered) (production : ProductionId) (index : Nat)
    (rule : SlotRule) : (d.setRule production index rule).Numbered := by
  intro i p h
  simp only [setRule, Array.getElem?_modify] at h
  split at h
  · obtain ⟨q, hq, rfl⟩ := Option.map_eq_some_iff.mp h
    exact hd i q hq
  · exact hd i p h

theorem apply_numbered {d : Draft} (hd : d.Numbered) (step : Step) : (d.apply step).1.Numbered := by
  cases step with
  | terminal name => exact hd
  | nonterminal name => exact hd
  | production lhs rhs => exact push_numbered hd _ _ _ _ _
  | productionWith lhs rhs rules => exact push_numbered hd _ _ _ _ _
  | listProduction lhs rhs shape => exact push_numbered hd _ _ _ _ _
  | recoveryProduction lhs rhs => exact push_numbered hd _ _ _ _ _
  | childRule production index rule => exact setRule_numbered hd _ _ _

theorem applyAll_numbered {d : Draft} (hd : d.Numbered) (steps : List Step) :
    (d.applyAll steps).Numbered := by
  induction steps generalizing d with
  | nil => exact hd
  | cons step steps ih => exact ih (apply_numbered hd step)

def finished (d : Draft) (start : NonterminalId) : Grammar :=
  ⟨(d.terminals.intern endName).1, d.nonterminals, d.productions,
    (d.terminals.intern endName).2, start⟩

theorem build_eq_ok {d : Draft} {start : NonterminalId} {g : Grammar} :
    d.build start = .ok g ↔ d.fault? start = none ∧ g = d.finished start := by
  unfold build
  cases d.fault? start with
  | none => simp [finished, eq_comm]
  | some e => simp

theorem build_eq_error {d : Draft} {start : NonterminalId} :
    (∃ e, d.build start = .error e) ↔ d.fault? start ≠ none := by
  unfold build
  cases d.fault? start with
  | none => simp
  | some e => simp

section fresh

variable {d : Draft} {start : NonterminalId} (hfresh : endName ∉ d.terminals.names)
include hfresh

theorem eof_finished : (d.finished start).eof = d.terminals.size :=
  NameTable.intern_snd_of_notMem hfresh

theorem terminalCount_finished : (d.finished start).terminalCount = d.terminals.size + 1 :=
  NameTable.size_intern_of_notMem hfresh

theorem knows_finished {s : Symbol} :
    (d.finished start).Knows s ↔ d.symbolFault? d.terminals.size s = none := by
  rw [symbolFault?_eq_none]
  cases s with
  | terminal t =>
    rw [Knows, terminalCount_finished hfresh, eof_finished hfresh]
    constructor
    · rintro ⟨hlt, hne⟩
      exact Nat.lt_of_le_of_ne (Nat.le_of_lt_succ hlt) hne
    · intro hlt
      exact ⟨Nat.lt_succ_of_lt hlt, Nat.ne_of_lt hlt⟩
  | nonterminal n => exact Iff.rfl
  | error => exact Iff.rfl

theorem admits_finished {p : Production} :
    (d.finished start).Admits p ↔ d.productionFault? d.terminals.size p = none := by
  rw [productionFault?_eq_none, placeholderFault?_eq_none, listFault?_eq_none]
  constructor
  · intro h
    exact ⟨h.lhs, fun s hs => (knows_finished hfresh).mp (h.rhs hs), h.rules,
      ⟨h.plain, h.recovers⟩, fun shape => h.list⟩
  · rintro ⟨hlhs, hrhs, hrules, ⟨hplain, hrecovers⟩, hlist⟩
    exact ⟨hlhs, fun hs => (knows_finished hfresh).mpr (hrhs _ hs), hrules, hplain, hrecovers,
      fun h => hlist _ h⟩

theorem wellFormed_finished (hnumbered : d.Numbered) :
    (d.finished start).WellFormed ↔
      start < d.nonterminals.size ∧ d.productions.size ≤ 16384 ∧
        (∀ p ∈ d.productions, d.productionFault? d.terminals.size p = none) ∧
        d.undefined? = none := by
  rw [undefined?_eq_none]
  constructor
  · intro h
    exact ⟨h.start, h.size, fun p hp => (admits_finished hfresh).mp (h.admits hp),
      fun n hn => h.defined hn⟩
  · rintro ⟨hstart, hsize, hproductions, hdefined⟩
    refine ⟨fun h => hnumbered _ _ h, hstart, fun hp => ?_, ⟨?_, ?_⟩, fun hn => hdefined _ hn, hsize⟩
    · exact (admits_finished hfresh).mpr (hproductions _ hp)
    · rw [eof_finished hfresh, terminalCount_finished hfresh]
    · exact NameTable.nameOrMark_of_name? (NameTable.name?_intern_snd d.terminals endName)

end fresh

/-- The checks find no fault exactly if names are apart and the finished grammar is well-formed. -/
theorem fault?_eq_none_iff {d : Draft} {start : NonterminalId} (hnumbered : d.Numbered) :
    d.fault? start = none ↔
      ((∀ name ∈ d.terminals.names, name ∉ d.nonterminals.names) ∧
        endName ∉ d.terminals.names) ∧ (d.finished start).WellFormed := by
  rw [fault?_eq_none, and_assoc]
  refine and_congr_right fun _ => and_congr_right fun hfresh => ?_
  exact (wellFormed_finished hfresh hnumbered).symm

end Draft

def NamesApart (steps : List Step) : Prop :=
  (∀ name, .terminal name ∈ steps → .nonterminal name ∉ steps) ∧ .terminal endName ∉ steps

/-- Numbers that were given out for names stand for them, and the names for the numbers. -/
structure Resolves (g : Grammar) (steps : List Step) : Prop where
  terminal {before after : List Step} {name : String}
    (h : steps = before ++ .terminal name :: after) :
    ∃ t, ((Draft.empty.applyAll before).apply (.terminal name)).2 = some t ∧
      g.terminalName t = name ∧ g.terminal? name = some t
  nonterminal {before after : List Step} {name : String}
    (h : steps = before ++ .nonterminal name :: after) :
    ∃ n, ((Draft.empty.applyAll before).apply (.nonterminal name)).2 = some n ∧
      g.nonterminalName n = name ∧ g.nonterminal? name = some n

namespace Draft

theorem mem_terminals {steps : List Step} {name : String} :
    name ∈ (empty.applyAll steps).terminals.names ↔ .terminal name ∈ steps := by
  have hstep : ∀ step : Step, step.name? .terminal = some name ↔ step = .terminal name := by
    intro step
    cases step <;> simp [Step.name?]
  refine (mem_names_applyAll .terminal steps).trans ?_
  simp [hstep, table, empty, NameTable.empty]

theorem mem_nonterminals {steps : List Step} {name : String} :
    name ∈ (empty.applyAll steps).nonterminals.names ↔ .nonterminal name ∈ steps := by
  have hstep : ∀ step : Step, step.name? .nonterminal = some name ↔ step = .nonterminal name := by
    intro step
    cases step <;> simp [Step.name?]
  refine (mem_names_applyAll .nonterminal steps).trans ?_
  simp [hstep, table, empty, NameTable.empty]

theorem fault?_applyAll {steps : List Step} {start : NonterminalId} :
    (empty.applyAll steps).fault? start = none ↔
      NamesApart steps ∧ ((empty.applyAll steps).finished start).WellFormed := by
  rw [fault?_eq_none_iff (applyAll_numbered empty_numbered steps)]
  simp only [mem_terminals, mem_nonterminals, NamesApart]

theorem resolves_finished (steps : List Step) (start : NonterminalId) :
    ((empty.applyAll steps).finished start).Resolves steps := by
  constructor
  · rintro before after name rfl
    obtain ⟨t, ht, hname⟩ := exists_name?_applyAll empty .terminal (.terminal name) before after rfl
    have hname := NameTable.name?_intern endName hname
    exact ⟨t, ht, NameTable.nameOrMark_of_name? hname, NameTable.index?_eq_some.mpr hname⟩
  · rintro before after name rfl
    obtain ⟨n, hn, hname⟩ := exists_name?_applyAll empty .nonterminal (.nonterminal name) before
      after rfl
    exact ⟨n, hn, NameTable.nameOrMark_of_name? hname, NameTable.index?_eq_some.mpr hname⟩

end Draft

/-- What comes out of a sequence of additions is a well-formed grammar in which all numbers given
out on the way hold. It fails exactly if names are mixed up or what was added is not
well-formed. -/
theorem built_exactly_if_well_formed (steps : List Step) (start : NonterminalId) :
    (∀ g, (Draft.empty.applyAll steps).build start = .ok g →
      g = (Draft.empty.applyAll steps).finished start ∧ NamesApart steps ∧ g.WellFormed ∧
        g.Resolves steps) ∧
    ((∃ e, (Draft.empty.applyAll steps).build start = .error e) ↔
      ¬(NamesApart steps ∧ ((Draft.empty.applyAll steps).finished start).WellFormed)) := by
  refine ⟨fun g hbuild => ?_, ?_⟩
  · obtain ⟨hfault, rfl⟩ := Draft.build_eq_ok.mp hbuild
    obtain ⟨hapart, hwell⟩ := Draft.fault?_applyAll.mp hfault
    exact ⟨rfl, hapart, hwell, Draft.resolves_finished steps start⟩
  · rw [Draft.build_eq_error, ne_eq, Draft.fault?_applyAll]

-- The first production is there before its symbols, a name comes twice, and a rule is replaced.
namespace Listing

def steps : List Step :=
  [.listProduction 0 [.nonterminal 0, .nonterminal 1] .left, .terminal "id", .terminal "semi",
    .nonterminal "list", .nonterminal "statement", .listProduction 0 [.nonterminal 1] .single,
    .production 1 [.terminal 0, .terminal 1], .recoveryProduction 1 [.error, .terminal 1],
    .terminal "semi", .childRule 0 1 (.named .keep "last")]

def grammar : Grammar := (Draft.empty.applyAll steps).finished 0

end Listing

/-- With one more terminal that has the name of the list, there is no grammar. -/
theorem list_of_statements_is_well_formed :
    (Draft.empty.applyAll Listing.steps).build 0 = .ok Listing.grammar ∧
      Listing.grammar.WellFormed ∧ Listing.grammar.Resolves Listing.steps ∧
      ∃ e, (Draft.empty.applyAll (Listing.steps ++ [.terminal "list"])).build 0 = .error e := by
  have hbuild : (Draft.empty.applyAll Listing.steps).build 0 = .ok Listing.grammar :=
    Draft.build_eq_ok.mpr ⟨by decide +kernel, rfl⟩
  obtain ⟨hbuilt, _⟩ := built_exactly_if_well_formed Listing.steps 0
  obtain ⟨_, hfails⟩ := built_exactly_if_well_formed (Listing.steps ++ [.terminal "list"]) 0
  obtain ⟨_, _, hwell, hresolves⟩ := hbuilt _ hbuild
  refine ⟨hbuild, hwell, hresolves, hfails.mpr fun ⟨hapart, _⟩ => ?_⟩
  exact hapart.1 "list" (by decide) (by decide)

section build

variable {steps : List Step} {start : NonterminalId} {g : Grammar}
  (h : (Draft.empty.applyAll steps).build start = .ok g)
include h

theorem exists_terminal_of_build {name : String} :
    (∃ t, g.terminal? name = some t) ↔ .terminal name ∈ steps ∨ name = endName := by
  obtain ⟨_, rfl⟩ := Draft.build_eq_ok.mp h
  simp only [terminal?, NameTable.index?_eq_some, ← NameTable.mem_names]
  rw [← Draft.mem_terminals]
  exact NameTable.mem_intern

theorem exists_nonterminal_of_build {name : String} :
    (∃ n, g.nonterminal? name = some n) ↔ .nonterminal name ∈ steps := by
  obtain ⟨_, rfl⟩ := Draft.build_eq_ok.mp h
  simp only [nonterminal?, NameTable.index?_eq_some, ← NameTable.mem_names]
  exact Draft.mem_nonterminals

/-- A name of a terminal that is also one of a nonterminal is the name of the end of the input. -/
theorem named_twice_iff {name : String} :
    (∃ t, g.terminal? name = some t) ∧ (∃ n, g.nonterminal? name = some n) ↔
      name = endName ∧ .nonterminal endName ∈ steps := by
  rw [exists_terminal_of_build h, exists_nonterminal_of_build h]
  obtain ⟨hapart, _⟩ := Draft.fault?_applyAll.mp (Draft.build_eq_ok.mp h).1
  constructor
  · rintro ⟨hterminal | rfl, hnonterminal⟩
    · exact absurd hnonterminal (hapart.1 name hterminal)
    · exact ⟨rfl, hnonterminal⟩
  · rintro ⟨rfl, hnonterminal⟩
    exact ⟨.inr rfl, hnonterminal⟩

end build

/-- The end of the input is known by its name. No other name stands for two symbols, and this one
does exactly if it was also given to a nonterminal. -/
theorem only_the_end_can_share_its_name {steps : List Step} {start : NonterminalId} {g : Grammar}
    (h : (Draft.empty.applyAll steps).build start = .ok g) :
    g.terminal? endName = some g.eof ∧
    (∀ name, (∃ t, g.terminal? name = some t) ∧ (∃ n, g.nonterminal? name = some n) ↔
      name = endName ∧ .nonterminal endName ∈ steps) ∧
    ((∀ name, g.terminal? name = none ∨ g.nonterminal? name = none) ↔
      .nonterminal endName ∉ steps) := by
  refine ⟨?_, fun name => named_twice_iff h, fun hone hnamed => ?_, fun hfree name => ?_⟩
  · obtain ⟨_, rfl⟩ := Draft.build_eq_ok.mp h
    exact NameTable.index?_eq_some.mpr (NameTable.name?_intern_snd _ endName)
  · obtain ⟨⟨t, ht⟩, ⟨n, hn⟩⟩ := (named_twice_iff h).mpr ⟨rfl, hnamed⟩
    rcases hone endName with hnone | hnone
    · cases hnone.symm.trans ht
    · cases hnone.symm.trans hn
  · cases ht : g.terminal? name with
    | none => exact .inl rfl
    | some t =>
      cases hn : g.nonterminal? name with
      | none => exact .inr rfl
      | some n => exact absurd ((named_twice_iff h).mp ⟨⟨t, ht⟩, ⟨n, hn⟩⟩).2 hfree

theorem list_of_statements_names_each_symbol_once :
    (Draft.empty.applyAll Listing.steps).build 0 = .ok Listing.grammar ∧
      ∀ name, Listing.grammar.terminal? name = none ∨ Listing.grammar.nonterminal? name = none := by
  have hbuild : (Draft.empty.applyAll Listing.steps).build 0 = .ok Listing.grammar :=
    Draft.build_eq_ok.mpr ⟨by decide +kernel, rfl⟩
  exact ⟨hbuild, (only_the_end_can_share_its_name hbuild).2.2.mpr (by decide)⟩

/-- A nonterminal may have the name of the end of the input, and then it is a name of both. -/
theorem end_shares_its_name_with_a_nonterminal :
    ∃ g, (Draft.empty.applyAll [.nonterminal "<eof>", .production 0 []]).build 0 = .ok g ∧
      g.terminal? "<eof>" = some g.eof ∧ g.nonterminal? "<eof>" = some 0 := by
  refine ⟨(Draft.empty.applyAll [.nonterminal "<eof>", .production 0 []]).finished 0,
    Draft.build_eq_ok.mpr ⟨by decide +kernel, rfl⟩, by decide +kernel, by decide +kernel⟩

end Grammar

end TableLR
