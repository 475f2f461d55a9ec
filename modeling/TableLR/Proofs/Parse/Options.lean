import TableLR.Proofs.Machine.History
import TableLR.Proofs.Machine.Lockstep
import TableLR.Proofs.Parse.Nodes

/-! What the options of a parse change. A limit of errors cuts a parse off at the recovery that
would go beyond it and changes nothing before; recording changes the list of events and nothing
else. -/
namespace TableLR

variable {σ ν ε : Type}

namespace Machine

def limited (m : Machine σ ν ε) (limit : Option Nat) : Machine σ ν ε :=
  { m with options := { m.options with maxErrors := limit } }

def recording (m : Machine σ ν ε) (on : Bool) : Machine σ ν ε :=
  { m with options := { m.options with recordEvents := on } }

def atFault (m : Machine σ ν ε) (c : Configuration σ ν) : Bool :=
  c.states.head?.any fun s => m.automaton.action s c.lookahead.terminal matches .error

/-- How many of the next `fuel` moves are recoveries, one that fails included. -/
def recoveriesFrom (m : Machine σ ν ε) : Nat → Configuration σ ν → Nat
  | 0, _ => 0
  | fuel + 1, c =>
    (m.atFault c).toNat +
      match m.step c with
      | .ok (.running c') => m.recoveriesFrom fuel c'
      | _ => 0

def recoveries (m : Machine σ ν ε) (fuel : Nat) (store : σ) (tokens : TokenStream) : Nat :=
  match m.start store tokens with
  | .ok c => m.recoveriesFrom fuel c
  | .error _ => 0

variable {m : Machine σ ν ε} {c c' : Configuration σ ν} {s : StateId}

theorem atFault_eq (htop : c.states.head? = some s) :
    m.atFault c = true ↔ m.automaton.action s c.lookahead.terminal = .error := by
  rw [atFault, htop, Option.any_some]
  cases m.automaton.action s c.lookahead.terminal <;> simp

theorem search_errors {x y : Resync σ ν} (h : Relation.ReflTransGen m.Discards x y) :
    y.configuration.errors = x.configuration.errors := by
  induction h with
  | refl => rfl
  | tail _ hround ih =>
    rw [← ih]
    cases hround with
    | state stack cell => simp [discardState]
    | terminal top cell more read => simp [advance_events read]

/-- A move adds an error exactly when it is a recovery. -/
theorem size_errors_step (h : m.step c = .ok (.running c')) :
    c'.errors.size = c.errors.size + (m.atFault c).toNat := by
  obtain ⟨s, htop, ⟨next, hcell, hshift⟩ | ⟨p, hcell, hreduce⟩ | ⟨hcell, hrecover⟩⟩ :=
    running_eq_ok h
  · have hcalm : m.atFault c = false := by simp [Bool.eq_false_iff, atFault_eq htop, hcell]
    obtain ⟨c₁, _, _, hread, _, rfl⟩ := shift_eq_ok hshift
    simp [hcalm, shifted, advance_events hread]
  · have hcalm : m.atFault c = false := by simp [Bool.eq_false_iff, atFault_eq htop, hcell]
    obtain ⟨_, _, _, _, _, _, _, _, _, _, rfl⟩ := reduce_eq_ok hreduce
    simp [hcalm, reduced]
  · have hfault : m.atFault c = true := (atFault_eq htop).mpr hcell
    rcases recover_cases m htop with ⟨_, _, _, hfull⟩ | hsearch
    · cases hfull.symm.trans hrecover
    · obtain ⟨x, hx, hrepairs⟩ := repairs_of_resynchronize (hsearch.symm.trans hrecover)
      have hbefore := search_errors hx
      cases hrepairs with
      | intro top cell rule enough read synced made under target =>
        simp [hfault, repaired, advance_events read, hbefore]

theorem atFault_of_accepted {root : ν} (h : m.step c = .ok (.accepted root c')) :
    m.atFault c = false := by
  obtain ⟨s, below, hstates, _, hcell, _⟩ := accepted_cases h
  have htop : c.states.head? = some s := by rw [hstates]; rfl
  simp [Bool.eq_false_iff, atFault_eq htop, hcell]

/-- A run that accepts got over every error that it met. -/
theorem size_errors_run {fuel : Nat} {r : ParseResult σ ν} (h : m.run fuel c = some (.ok r)) :
    r.errors.size = c.errors.size + m.recoveriesFrom fuel c := by
  induction fuel generalizing c with
  | zero => cases h
  | succ fuel ih =>
    unfold run at h
    unfold recoveriesFrom
    cases hstep : m.step c with
    | error e =>
      rw [hstep] at h
      cases h
    | ok progress =>
      rw [hstep] at h
      cases progress with
      | accepted root c₁ =>
        obtain rfl := Except.ok.inj (Option.some.inj h)
        obtain ⟨_, _, _, _, _, _, herrors, _⟩ := accepted_cases hstep
        simp [atFault_of_accepted hstep, herrors]
      | running c₁ =>
        have hsize := size_errors_step hstep
        have hrest := ih h
        dsimp only
        omega

theorem size_errors_parse {fuel : Nat} {store : σ} {tokens : TokenStream} {r : ParseResult σ ν}
    (h : m.parse fuel store tokens = some (.ok r)) :
    r.errors.size = m.recoveries fuel store tokens := by
  unfold parse at h
  unfold recoveries
  cases hstart : m.start store tokens with
  | error e =>
    rw [hstart] at h
    cases h
  | ok c =>
    rw [hstart] at h
    have hsize := size_errors_run h
    simpa [start_events hstart] using hsize

theorem map_prod_id (made : Except ε (ν × σ)) : made.map (Prod.map id id) = made := by
  cases made <;> rfl

/-- A limit is looked at only when a recovery begins. -/
theorem mirrors_limited (m : Machine σ ν ε) (limit limit' : Option Nat) :
    (m.limited limit).Mirrors (m.limited limit') id id where
  grammar := rfl
  automaton := rfl
  record _ _ := rfl
  shift _ _ := (map_prod_id _).symm
  reduce _ _ _ := (map_prod_id _).symm
  recover _ _ _ _ := (map_prod_id _).symm

theorem step_limited_of_room {k : Nat} (hroom : c.errors.size + (m.atFault c).toNat ≤ k) :
    (m.limited (some k)).step c = (m.limited none).step c := by
  have hlock := (m.mirrors_limited none (some k)).lockstep
  have hrecover : ∀ s, c.states.head? = some s →
      m.automaton.action s c.lookahead.terminal = .error →
        Alike (fun d d' => d' = d.image id id) ((m.limited none).recover c)
          ((m.limited (some k)).recover c) := by
    intro s htop hcell
    have hfault : m.atFault c = true := (atFault_eq htop).mpr hcell
    rw [hfault, Bool.toNat_true] at hroom
    refine hlock.recover_alike_of_room rfl htop ?_ ?_
    · intro limit hlimit
      cases hlimit
    · intro limit hlimit
      obtain rfl := Option.some.inj hlimit
      omega
  have hstep : Alike (Progress.Alike fun d d' => d' = d.image id id) ((m.limited none).step c)
      ((m.limited (some k)).step c) := hlock.step_alike rfl hrecover
  generalize (m.limited none).step c = next at hstep ⊢
  generalize (m.limited (some k)).step c = next' at hstep ⊢
  cases hstep with
  | error e => rfl
  | ok hnext =>
    cases hnext with
    | running hd =>
      rw [hd]
      rfl
    | accepted root hd =>
      rw [hd]
      rfl

theorem step_limited_of_full {k : Nat} (hfault : m.atFault c = true)
    (hfull : k ≤ c.errors.size) :
    (m.limited (some k)).step c = .error (.tooManyErrors k) := by
  cases htop : c.states.head? with
  | none => simp [atFault, htop] at hfault
  | some s =>
    have hcell : (m.limited (some k)).automaton.action s c.lookahead.terminal = .error :=
      (atFault_eq htop).mp hfault
    have hlimit : (m.limited (some k)).options.maxErrors = some k := rfl
    have hrecover := recover_of_limit htop hlimit hfull
    refine bind_eq_error.mpr (.inr ⟨s, top_eq_ok.mpr htop, ?_⟩)
    simp only [hcell]
    exact bind_eq_error.mpr (.inl hrecover)

/-- With a limit, a run that has room so far ends as without one or is cut off. -/
theorem run_limited {k fuel : Nat} {outcome : Except (ParseError ε) (ParseResult σ ν)}
    (hroom : c.errors.size ≤ k) (h : (m.limited none).run fuel c = some outcome) :
    (m.limited (some k)).run fuel c =
      some (if c.errors.size + (m.limited none).recoveriesFrom fuel c ≤ k then outcome
        else .error (.tooManyErrors k)) := by
  induction fuel generalizing c with
  | zero => cases h
  | succ fuel ih =>
    have hsame : (m.limited none).atFault c = m.atFault c := rfl
    unfold recoveriesFrom
    rw [hsame]
    by_cases hmore : c.errors.size + (m.atFault c).toNat ≤ k
    · unfold run at h ⊢
      rw [step_limited_of_room hmore]
      cases hstep : (m.limited none).step c with
      | error e =>
        rw [hstep] at h
        obtain rfl := Option.some.inj h
        simp [hmore]
      | ok progress =>
        rw [hstep] at h
        cases progress with
        | accepted root c₁ =>
          obtain rfl := Option.some.inj h
          simp [hmore]
        | running c₁ =>
          have hsize := size_errors_step hstep
          rw [hsame] at hsize
          dsimp only at h ⊢
          rw [ih (hsize ▸ hmore) h, hsize, Nat.add_assoc]
    · -- this is the recovery that goes beyond the limit
      have hfault : m.atFault c = true := by
        by_contra hcalm
        simp [Bool.eq_false_iff.mpr hcalm, hroom] at hmore
      rw [hfault, Bool.toNat_true] at hmore ⊢
      have hfull : k ≤ c.errors.size := by omega
      rw [if_neg (by omega), run, step_limited_of_full hfault hfull]

theorem parse_limited {k fuel : Nat} {store : σ} {tokens : TokenStream}
    {outcome : Except (ParseError ε) (ParseResult σ ν)}
    (h : (m.limited none).parse fuel store tokens = some outcome) :
    (m.limited (some k)).parse fuel store tokens =
      some (if (m.limited none).recoveries fuel store tokens ≤ k then outcome
        else .error (.tooManyErrors k)) := by
  have hsame : (m.limited (some k)).start store tokens = (m.limited none).start store tokens := rfl
  unfold parse at h ⊢
  unfold recoveries
  rw [hsame]
  cases hstart : (m.limited none).start store tokens with
  | error e =>
    rw [hstart] at h
    obtain rfl := Option.some.inj h
    simp
  | ok c =>
    rw [hstart] at h
    have hnone : c.errors.size = 0 := by simp [start_events hstart]
    dsimp only at h ⊢
    rw [run_limited (by omega) h, hnone, Nat.zero_add]

/-- Wherever a parse comes, it has not got over more errors than its limit. -/
theorem Visits.size_errors_le {k : Nat} {store : σ} {tokens : TokenStream}
    (h : (m.limited (some k)).Visits store tokens c) : c.errors.size ≤ k := by
  induction h with
  | start hstart => simp [start_events hstart]
  | @step c c' _ hstep ih =>
    rw [size_errors_step hstep]
    have hsame : (m.limited (some k)).atFault c = m.atFault c := rfl
    rw [hsame]
    by_contra hover
    have hfault : m.atFault c = true := by
      by_contra hcalm
      simp [Bool.eq_false_iff.mpr hcalm, ih] at hover
    rw [hfault, Bool.toNat_true] at hover
    rw [step_limited_of_full hfault (by omega)] at hstep
    cases hstep

/-- Nothing reads the events. -/
theorem mirrors_recording (m : Machine σ ν ε) :
    (m.recording true).Mirrors (m.recording false) id (fun _ => #[]) where
  grammar := rfl
  automaton := rfl
  record _ _ := rfl
  shift _ _ := (map_prod_id _).symm
  reduce _ _ _ := (map_prod_id _).symm
  recover _ _ _ _ := (map_prod_id _).symm

end Machine

/-- Options cut a parse off or record it. With a limit of `k` errors a parse that ends gives the
result that it has without a limit, as long as it enters no more than `k` recoveries, and is cut
off otherwise; a result has as many errors as recoveries, and recording adds events only. -/
theorem options_cut_off_or_record (m : Machine σ ν ε) (store : σ) (tokens : TokenStream) :
    (∀ fuel outcome, (m.limited none).parse fuel store tokens = some outcome → ∀ k,
        (m.limited (some k)).parse fuel store tokens =
          some (if (m.limited none).recoveries fuel store tokens ≤ k then outcome
            else .error (.tooManyErrors k))) ∧
      (∀ fuel r, m.parse fuel store tokens = some (.ok r) →
        r.errors.size = m.recoveries fuel store tokens) ∧
      (∀ fuel k r, (m.limited (some k)).parse fuel store tokens = some (.ok r) →
        r.errors.size ≤ k) ∧
      ∀ fuel, (m.recording false).parse fuel store tokens =
        ((m.recording true).parse fuel store tokens).map
          (Except.map fun r => { r with events := #[] }) := by
  refine ⟨?_, ?_, ?_, ?_⟩
  · intro fuel outcome h k
    exact Machine.parse_limited h
  · intro fuel r h
    exact Machine.size_errors_parse h
  · intro fuel k r h
    obtain ⟨c, c', hvisits, hstep, _, herrors, _⟩ := Machine.parse_eq_ok h
    obtain ⟨_, _, _, _, _, _, herrors', _⟩ := Machine.accepted_cases hstep
    rw [herrors, herrors']
    exact hvisits.size_errors_le
  · exact fun fuel => m.mirrors_recording.parse_eq rfl rfl fuel store tokens

/-- The statement with two names needs one recovery: a limit of one is enough, a limit of none cuts
it off. -/
theorem repaired_statement_within_limit :
    ∃ r, parseTree Statements.grammar Statements.tables.automaton {} 20 Statements.input =
        some (.ok r) ∧
      parseTree Statements.grammar Statements.tables.automaton ⟨false, some 1⟩ 20
        Statements.input = some (.ok r) ∧
      parseTree Statements.grammar Statements.tables.automaton ⟨false, some 0⟩ 20
        Statements.input = some (.error (.tooManyErrors 0)) ∧
      r.errors.size = 1 := by
  obtain ⟨hlimit, hcount, _, _⟩ := options_cut_off_or_record
    (treeMachine Statements.grammar Statements.tables.automaton {})
    (Tree.empty Statements.grammar) Statements.input
  have hone : (treeMachine Statements.grammar Statements.tables.automaton {}).recoveries 20
      (Tree.empty Statements.grammar) Statements.input = 1 := by
    decide +kernel
  obtain ⟨r, hr⟩ := Statements.parses
  have hcut := hlimit 20 (.ok r) hr
  refine ⟨r, hr, (hcut 1).trans ?_, (hcut 0).trans ?_, (hcount 20 r hr).trans hone⟩
  · exact congrArg some (if_pos (Nat.le_of_eq hone))
  · exact congrArg some (if_neg (by
      intro hnone
      have hsome : 1 ≤ 0 := hone ▸ hnone
      omega))

end TableLR
