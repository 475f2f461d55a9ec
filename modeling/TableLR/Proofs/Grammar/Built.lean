import TableLR.Proofs.Grammar.WellFormed
import Mathlib.Data.List.Perm.Subperm

/-! Grammars that came out of a draft, and what parsing and trees rely on in each of them. -/
namespace TableLR.Grammar

def Built (g : Grammar) : Prop :=
  ∃ steps start, (Draft.empty.applyAll steps).build start = .ok g

theorem Draft.finished_built {steps : List Step} {start : NonterminalId}
    (h : (Draft.empty.applyAll steps).fault? start = none) :
    ((Draft.empty.applyAll steps).finished start).Built :=
  ⟨steps, start, build_eq_ok.mpr ⟨h, rfl⟩⟩

theorem Built.wellFormed {g : Grammar} (hg : g.Built) : g.WellFormed := by
  obtain ⟨steps, start, hbuild⟩ := hg
  obtain ⟨hfault, rfl⟩ := Draft.build_eq_ok.mp hbuild
  exact (Draft.fault?_applyAll.mp hfault).2

theorem Built.production_id {g : Grammar} (hg : g.Built) {p : ProductionId}
    {production : Production} (h : g.production? p = some production) : production.id = p :=
  hg.wellFormed.id h

theorem Built.size_productions_le {g : Grammar} (hg : g.Built) :
    g.productions.size ≤ maxCellNumber + 1 :=
  hg.wellFormed.size

/-- There are no more nonterminals than productions. -/
theorem Built.nonterminalCount_le {g : Grammar} (hg : g.Built) :
    g.nonterminalCount ≤ g.productions.size := by
  have hsubset : List.range g.nonterminalCount ⊆ g.productions.toList.map Production.lhs := by
    intro n hn
    simpa using hg.wellFormed.defined (List.mem_range.mp hn)
  have hlength := (List.subperm_of_subset List.nodup_range hsubset).length_le
  simpa using hlength

theorem Built.eof_lt {g : Grammar} (hg : g.Built) : g.eof < g.terminalCount := by
  rw [← hg.wellFormed.eof.1]
  exact Nat.lt_succ_self _

theorem Built.admits {g : Grammar} (hg : g.Built) {p : ProductionId} {production : Production}
    (h : g.production? p = some production) : g.Admits production :=
  hg.wellFormed.admits (Array.mem_of_getElem? h)

/-- The placeholder of a recovery production has exactly one symbol behind it. -/
theorem Built.placeholder {g : Grammar} (hg : g.Built) {p : ProductionId}
    {production : Production} (h : g.production? p = some production)
    (hrecovery : production.recovery = true) :
    production.placeholder? = some production.frontLength ∧
      production.frontLength + 2 = production.length := by
  have hrecovers := (hg.admits h).recovers hrecovery
  have hmem := List.mem_of_getElem? hrecovers.place
  obtain ⟨i, hi⟩ := Option.isSome_iff_exists.mp (List.isSome_idxOf?.mpr hmem)
  exact ⟨(Draft.frontLength_of_placeholder hi).1 ▸ hi, hrecovers.length⟩

theorem Built.last_symbol {g : Grammar} (hg : g.Built) {p : ProductionId}
    {production : Production} (h : g.production? p = some production)
    (hrecovery : production.recovery = true) :
    ∃ a, production.rhs.getLast? = some (.terminal a) := by
  obtain ⟨_, _, ⟨a, hsync⟩, hlength⟩ := (hg.admits h).recovers hrecovery
  have hlast : production.rhs.length - 1 = production.frontLength + 1 := by
    rw [Production.length] at hlength
    omega
  exact ⟨a, by rw [List.getLast?_eq_getElem?, hlast, hsync]⟩

/-- In a link of a list, what goes on is the list itself and the item is another symbol. -/
theorem Built.link_shape {g : Grammar} (hg : g.Built) {production : Production} {shape : LinkShape}
    (hmem : production ∈ g.productions) (hlist : production.list = some shape) :
    (∀ r, shape.recursive = some r →
        production.rhs[r]? = some (.nonterminal production.lhs)) ∧
      ∀ i, shape.payload = some i → i < production.length ∧ shape.recursive ≠ some i := by
  have hfits := (hg.wellFormed.admits hmem).list hlist
  exact ⟨fun _ => hfits.recursive, fun _ => hfits.payload⟩

end TableLR.Grammar
