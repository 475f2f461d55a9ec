import TableLR.Proofs.Machine.Invariant
import TableLR.Proofs.Table.Checked

/-! The two stacks of a parse. Wherever a move is chosen, every state but the one at the bottom has
a value. A search for a recovery production may throw away the bottom state too, but then it has
nothing left to repair with. -/
namespace TableLR

variable {σ ν ε : Type}

def Configuration.Balanced (c : Configuration σ ν) : Prop :=
  c.states.length = c.values.length + 1

def Resync.Balanced (x : Resync σ ν) : Prop :=
  x.configuration.Balanced ∨ x.configuration.states = [] ∧ x.configuration.values = []

theorem Resync.Balanced.of_top {x : Resync σ ν} {s : StateId} (h : x.Balanced)
    (htop : x.configuration.states.head? = some s) : x.configuration.Balanced := by
  rcases h with h | ⟨hempty, _⟩
  · exact h
  · simp [hempty] at htop

theorem Configuration.Balanced.drop_ne_nil {c : Configuration σ ν} (h : c.Balanced) {n : Nat}
    (hn : n ≤ c.values.length) : c.states.drop n ≠ [] := by
  unfold Configuration.Balanced at h
  intro hnil
  have hall : c.states.length ≤ n := List.drop_eq_nil_iff.mp hnil
  omega

namespace Machine

variable {m : Machine σ ν ε} {c c' : Configuration σ ν} {x y : Resync σ ν} {store : σ}
  {tokens : TokenStream}

theorem Moves.balanced (hc : c.Balanced) (h : m.Moves c c') : c'.Balanced := by
  unfold Configuration.Balanced at hc ⊢
  cases h with
  | shift top cell read made =>
    obtain ⟨_, hstates, hvalues, _⟩ := advance_frame read
    simp [shifted, hstates, hvalues, hc]
  | reduce top cell rule enough made under target =>
    simp only [reduced, record_states, record_values, List.length_cons, List.length_drop]
    omega

theorem Discards.balanced (hx : x.Balanced) (h : m.Discards x y) : y.Balanced := by
  cases h with
  | @state s below stack cell =>
    have hc := hx.of_top (s := s) (by rw [stack]; rfl)
    unfold Resync.Balanced
    simp only [Configuration.Balanced, discardState, record_states, record_values, stack,
      List.length_cons] at hc ⊢
    cases below with
    | nil =>
      have hnone : x.configuration.values = [] := by simpa using hc
      exact .inr ⟨rfl, by simp [hnone]⟩
    | cons under rest =>
      left
      simp only [List.length_cons, List.isEmpty_cons, Bool.false_eq_true, if_false,
        List.length_take, List.length_drop] at hc ⊢
      omega
  | @terminal c₁ s top cell more read =>
    obtain ⟨_, hstates, hvalues, _⟩ := advance_frame read
    have hc : c₁.states.length = c₁.values.length + 1 := by
      rw [hstates, hvalues]
      exact hx.of_top top
    exact .inl (by simpa [Configuration.Balanced] using hc)

/-- A repair leaves a value, with a state under it. -/
theorem Repairs.balanced (hx : x.Balanced) (h : m.Repairs x c') :
    c'.Balanced ∧ 2 ≤ c'.states.length := by
  cases h with
  | @intro c₁ s below next p production sync node between store top cell rule enough read synced
      made under target =>
    have hc := hx.of_top top
    have hunder := hc.drop_ne_nil enough
    have hpos := List.length_pos_iff.mpr hunder
    obtain ⟨_, hstates, hvalues, _⟩ := advance_frame read
    simp only [Configuration.Balanced, repaired, record_states, record_values, hstates, hvalues,
      List.length_cons, List.length_drop] at hc hpos ⊢
    omega

theorem preserves_balanced (m : Machine σ ν ε) :
    m.Preserves Configuration.Balanced Resync.Balanced where
  move hc h := h.balanced hc
  enter hc _ _ := .inl hc
  discard hx h := h.balanced hx
  repair hx h := (h.balanced hx).1

theorem Visits.balanced (h : m.Visits store tokens c) : c.Balanced := by
  refine m.preserves_balanced.visits (fun c hstart => ?_) h
  obtain ⟨hstates, hvalues, _⟩ := start_frame hstart
  simp [Configuration.Balanced, hstates, hvalues]

variable {g : Grammar} {t : Tables} {semantics : Semantics σ ν ε} {options : Options}

theorem preserves_known (hcheck : t.Checked g) :
    Preserves (⟨g, t.automaton, semantics, options⟩ : Machine σ ν ε)
      (fun c => ∀ s ∈ c.states, s < t.stateCount)
      (fun x => ∀ s ∈ x.configuration.states, s < t.stateCount) where
  move {c c'} hc h := by
    cases h with
    | shift top cell read made =>
      obtain ⟨_, hstates, _, _⟩ := advance_frame read
      simpa [shifted, hstates] using ⟨(hcheck.shift cell).1, hc⟩
    | reduce top cell rule enough made under target =>
      simpa [reduced] using ⟨hcheck.goto target, fun s hs => hc s (List.mem_of_mem_drop hs)⟩
  enter hc _ _ := hc
  discard {x y} hx h := by
    cases h with
    | state stack cell =>
      rw [stack] at hx
      simpa [discardState] using fun s hs => hx s (List.mem_cons_of_mem _ hs)
    | terminal top cell more read =>
      obtain ⟨_, hstates, _, _⟩ := advance_frame read
      simpa [hstates] using hx
  repair {x c'} hx h := by
    cases h with
    | intro top cell rule enough read synced made under target =>
      obtain ⟨_, hstates, _, _⟩ := advance_frame read
      simpa [repaired, hstates] using
        ⟨hcheck.goto target, fun s hs => hx s (List.mem_of_mem_drop hs)⟩

theorem Visits.known (hcheck : t.Checked g)
    (h : Visits (⟨g, t.automaton, semantics, options⟩ : Machine σ ν ε) store tokens c) :
    ∀ s ∈ c.states, s < t.stateCount := by
  refine (preserves_known hcheck).visits (fun c hstart => ?_) h
  obtain ⟨hstates, _, _⟩ := start_frame hstart
  simpa [hstates] using hcheck.stateCount_pos

end Machine

end TableLR
