import TableLR.Proofs.Machine.Reading
import TableLR.Proofs.Table.Checked

/-! The steps that lead a parse to a moment, one by one. Each step makes an event, whether events
are recorded or not, and the log of a moment holds all of them, also those of a search that is
still under way. -/
namespace TableLR

variable {σ ν ε : Type}

/-- A parse chooses its next move, or it searches for a recovery production. -/
inductive Moment (σ ν : Type) where
  | choosing (c : Configuration σ ν)
  | searching (x : Resync σ ν)

def Moment.configuration : Moment σ ν → Configuration σ ν
  | .choosing c => c
  | .searching x => x.configuration

def Event.takes : Event → Bool
  | .shift .. => true
  | .discardTerminal _ => true
  | .recover .. => true
  | .reduce .. => false
  | .accept .. => false
  | .discardState .. => false

def Event.recovered? : Event → Option ProductionId
  | .recover p _ _ => some p
  | _ => none

def Moment.taken (k : Moment σ ν) (e : Option Event) : List Token :=
  if e.any Event.takes then [k.configuration.lookahead] else []

namespace Machine

variable {m : Machine σ ν ε} {c c' : Configuration σ ν} {k k' : Moment σ ν} {e : Option Event}
  {store : σ} {tokens : TokenStream} {log : List Event}

/-- One step with its event. Only the beginning of a search makes none. -/
inductive Steps (m : Machine σ ν ε) : Moment σ ν → Option Event → Moment σ ν → Prop
  | shift {c c' : Configuration σ ν} {s next : StateId} (top : c.states.head? = some s)
      (cell : m.automaton.action s c.lookahead.terminal = .shift next)
      (done : m.shift next c = .ok c') :
      Steps m (.choosing c) (some (.shift c.lookahead.terminal next c'.states.length))
        (.choosing c')
  | reduce {c c' : Configuration σ ν} {s next : StateId} {p : ProductionId}
      (top : c.states.head? = some s)
      (cell : m.automaton.action s c.lookahead.terminal = .reduce p)
      (done : m.reduce p c = .ok c') (target : c'.states.head? = some next) :
      Steps m (.choosing c) (some (.reduce p next c'.states.length)) (.choosing c')
  | enter {c : Configuration σ ν} {s : StateId} (top : c.states.head? = some s)
      (cell : m.automaton.action s c.lookahead.terminal = .error)
      (room : ∀ limit, m.options.maxErrors = some limit → c.errors.size < limit) :
      Steps m (.choosing c) none (.searching (m.resync s c))
  | discardState {x : Resync σ ν} {s : StateId} {below : List StateId}
      (stack : x.configuration.states = s :: below)
      (cell : m.automaton.recovery s x.configuration.lookahead.terminal = .discardState) :
      Steps m (.searching x) (some (.discardState s below.length)) (.searching { x with
        configuration := (m.discardState s below x.configuration x.popped).1
        popped := (m.discardState s below x.configuration x.popped).2 })
  | discardTerminal {x : Resync σ ν} {c₁ : Configuration σ ν} {s : StateId}
      (top : x.configuration.states.head? = some s)
      (cell : m.automaton.recovery s x.configuration.lookahead.terminal = .discardTerminal)
      (more : x.configuration.atEnd = false)
      (read : m.advance x.configuration = .ok (x.configuration.lookahead, c₁)) :
      Steps m (.searching x) (some (.discardTerminal x.configuration.lookahead.terminal))
        (.searching { x with
          configuration := m.record (.discardTerminal x.configuration.lookahead.terminal) c₁
          skipped := x.skipped.push x.configuration.lookahead })
  | recover {x : Resync σ ν} {c' : Configuration σ ν} {s next : StateId} {p : ProductionId}
      (top : x.configuration.states.head? = some s)
      (cell : m.automaton.recovery s x.configuration.lookahead.terminal = .recover p)
      (done : m.finishRecovery x.fault p x.configuration x.popped x.skipped = .ok c')
      (target : c'.states.head? = some next) :
      Steps m (.searching x) (some (.recover p next c'.states.length)) (.choosing c')

inductive Leads (m : Machine σ ν ε) (k : Moment σ ν) : List Event → Moment σ ν → Prop
  | refl : Leads m k [] k
  | step {log : List Event} {k' k'' : Moment σ ν} {e : Option Event} (before : Leads m k log k')
      (h : m.Steps k' e k'') : Leads m k (log ++ e.toList) k''

/-- The moments of a parse with the events up to them. -/
def Reaches (m : Machine σ ν ε) (store : σ) (tokens : TokenStream) (log : List Event)
    (k : Moment σ ν) : Prop :=
  ∃ c, m.start store tokens = .ok c ∧ m.Leads (.choosing c) log k

theorem Leads.trans {log' : List Event} {k'' : Moment σ ν} (h : m.Leads k log k')
    (h' : m.Leads k' log' k'') : m.Leads k (log ++ log') k'' := by
  induction h' with
  | refl => simpa using h
  | step _ hstep ih => simpa only [List.append_assoc] using ih.step hstep

theorem Steps.leads (h : m.Steps k e k') : m.Leads k e.toList k' := Leads.refl.step h

theorem Steps.before {log' : List Event} {k'' : Moment σ ν} (h : m.Steps k e k')
    (h' : m.Leads k' (log ++ log') k'') : m.Leads k (e.toList ++ log ++ log') k'' := by
  rw [List.append_assoc]
  exact h.leads.trans h'

/-- A search that succeeds ends with the event of its recovery production. -/
theorem leads_of_resynchronize {fault : Fault} {popped : List ν} {skipped : Array Token}
    (h : m.resynchronize fault c popped skipped = .ok c') :
    ∃ log p next depth, m.Leads (.searching ⟨fault, c, popped, skipped⟩)
      (log ++ [.recover p next depth]) (.choosing c') := by
  fun_induction m.resynchronize fault c popped skipped with
  | case1 => cases h
  | case2 c popped skipped s below hs hcell next ih =>
    obtain ⟨log, p, target, depth, hleads⟩ := ih h
    exact ⟨_, p, target, depth, (Steps.discardState hs hcell).before hleads⟩
  | case3 => cases h
  | case4 => cases h
  | case5 c popped skipped s below hs hcell hend token c₁ hread ih =>
    obtain rfl := (advance_eq_ok.mp hread).1
    have htop : c.states.head? = some s := by rw [hs]; rfl
    obtain ⟨log, p, target, depth, hleads⟩ := ih h
    have hround := Steps.discardTerminal (x := ⟨fault, c, popped, skipped⟩) htop hcell
      (by simpa using hend) hread
    exact ⟨_, p, target, depth, hround.before hleads⟩
  | case6 c popped skipped s below hs p hcell =>
    have htop : c.states.head? = some s := by rw [hs]; rfl
    let x : Resync σ ν := ⟨fault, c, popped, skipped⟩
    obtain ⟨c₁, _, _, node, _, store', _, next, _, _, _, _, _, _, _, hc'⟩ :=
      finishRecovery_eq_ok (x := x) h
    have htarget : c'.states.head? = some next := by simp [hc', repaired]
    exact ⟨[], p, next, _, (Steps.recover (x := x) htop hcell h htarget).leads⟩

theorem leads_of_recover {s : StateId} (htop : c.states.head? = some s)
    (hcell : m.automaton.action s c.lookahead.terminal = .error) (h : m.recover c = .ok c') :
    ∃ log p next depth,
      m.Leads (.choosing c) (log ++ [.recover p next depth]) (.choosing c') := by
  have hroom : ∀ limit, m.options.maxErrors = some limit → c.errors.size < limit := by
    intro limit hlimit
    by_contra hfull
    rw [recover_of_limit htop hlimit (Nat.not_lt.mp hfull)] at h
    cases h
  rw [recover_of_room htop hroom] at h
  obtain ⟨log, p, next, depth, hleads⟩ := leads_of_resynchronize h
  exact ⟨log, p, next, depth, (Steps.enter htop hcell hroom).before hleads⟩

theorem steps_of_reduce {s : StateId} {p : ProductionId} (htop : c.states.head? = some s)
    (hcell : m.automaton.action s c.lookahead.terminal = .reduce p) (h : m.reduce p c = .ok c') :
    ∃ next, m.Steps (.choosing c) (some (.reduce p next c'.states.length)) (.choosing c') := by
  obtain ⟨_, _, _, _, next, _, _, _, _, _, hc'⟩ := reduce_eq_ok h
  have htarget : c'.states.head? = some next := by simp [hc', reduced]
  exact ⟨next, .reduce htop hcell h htarget⟩

/-- A move is a reduction or takes at least one token. -/
theorem leads_of_step (h : m.step c = .ok (.running c')) :
    (∃ s p, c.states.head? = some s ∧ m.automaton.action s c.lookahead.terminal = .reduce p ∧
        m.reduce p c = .ok c') ∨
      ∃ log event, event.takes = true ∧ m.Leads (.choosing c) (log ++ [event]) (.choosing c') := by
  obtain ⟨s, htop, ⟨next, hcell, hshift⟩ | ⟨p, hcell, hreduce⟩ | ⟨hcell, hrecover⟩⟩ :=
    running_eq_ok h
  · exact .inr ⟨[], _, rfl, (Steps.shift htop hcell hshift).leads⟩
  · exact .inl ⟨s, p, htop, hcell, hreduce⟩
  · obtain ⟨log, p, next, depth, hleads⟩ := leads_of_recover htop hcell hrecover
    exact .inr ⟨log, _, rfl, hleads⟩

theorem reaches_of_visits (h : m.Visits store tokens c) :
    ∃ log, m.Reaches store tokens log (.choosing c) := by
  induction h with
  | start h => exact ⟨[], _, h, .refl⟩
  | step _ hstep ih =>
    obtain ⟨log, c₀, hstart, hleads⟩ := ih
    rcases leads_of_step hstep with ⟨s, p, htop, hcell, hreduce⟩ | ⟨log', event, _, hleads'⟩
    · obtain ⟨next, hreduces⟩ := steps_of_reduce htop hcell hreduce
      exact ⟨_, c₀, hstart, hleads.step hreduces⟩
    · exact ⟨_, c₀, hstart, hleads.trans hleads'⟩

theorem advance_events {token : Token} (h : m.advance c = .ok (token, c')) :
    c'.events = c.events ∧ c'.errors = c.errors := by
  obtain ⟨_, ⟨_, rfl⟩ | ⟨_, _, _, _, _, rfl⟩⟩ := advance_eq_ok.mp h <;> exact ⟨rfl, rfl⟩

theorem start_events (h : m.start store tokens = .ok c) : c.events = #[] ∧ c.errors = #[] := by
  obtain ⟨⟨token, c₁⟩, hread, h⟩ := bind_eq_ok.mp h
  obtain rfl := Except.ok.inj h
  exact advance_events hread

/-- A log is what a parse records. -/
theorem Steps.events (hrecord : m.options.recordEvents = true) (h : m.Steps k e k') :
    k'.configuration.events.toList = k.configuration.events.toList ++ e.toList := by
  cases h with
  | shift top cell done =>
    obtain ⟨c₁, _, _, hread, _, rfl⟩ := shift_eq_ok done
    simp [Moment.configuration, shifted, record_events, hrecord, advance_events hread]
  | reduce top cell done target =>
    obtain ⟨_, _, _, _, _, _, _, _, _, _, rfl⟩ := reduce_eq_ok done
    simp_all [Moment.configuration, reduced, record_events]
  | enter top cell room => simp [Moment.configuration, resync]
  | discardState stack cell =>
    simp [Moment.configuration, Machine.discardState, record_events, hrecord]
  | discardTerminal top cell more read =>
    simp [Moment.configuration, record_events, hrecord, advance_events read]
  | recover top cell done target =>
    obtain ⟨c₁, _, _, _, _, _, _, _, _, _, hread, _, _, _, _, rfl⟩ := finishRecovery_eq_ok done
    simp_all [Moment.configuration, repaired, record_events, advance_events hread]

theorem Leads.events (hrecord : m.options.recordEvents = true) (h : m.Leads k log k') :
    k'.configuration.events.toList = k.configuration.events.toList ++ log := by
  induction h with
  | refl => simp
  | step _ hstep ih => rw [hstep.events hrecord, ih, List.append_assoc]

/-- Each repair is an error. -/
theorem Steps.errors (h : m.Steps k e k') :
    k'.configuration.errors.toList.map SyntaxError.production =
      k.configuration.errors.toList.map SyntaxError.production ++
        e.toList.filterMap Event.recovered? := by
  cases h with
  | shift top cell done =>
    obtain ⟨c₁, _, _, hread, _, rfl⟩ := shift_eq_ok done
    simp [Moment.configuration, shifted, advance_events hread, Event.recovered?]
  | reduce top cell done target =>
    obtain ⟨_, _, _, _, _, _, _, _, _, _, rfl⟩ := reduce_eq_ok done
    simp [Moment.configuration, reduced, Event.recovered?]
  | enter top cell room => simp [Moment.configuration, resync]
  | discardState stack cell =>
    simp [Moment.configuration, Machine.discardState, Event.recovered?]
  | discardTerminal top cell more read =>
    simp [Moment.configuration, advance_events read, Event.recovered?]
  | recover top cell done target =>
    obtain ⟨c₁, _, _, _, _, _, _, _, _, _, hread, _, _, _, _, rfl⟩ := finishRecovery_eq_ok done
    simp [Moment.configuration, repaired, advance_events hread, Event.recovered?]

theorem Leads.errors (h : m.Leads k log k') :
    k'.configuration.errors.toList.map SyntaxError.production =
      k.configuration.errors.toList.map SyntaxError.production ++
        log.filterMap Event.recovered? := by
  induction h with
  | refl => simp
  | step _ hstep ih => rw [hstep.errors, ih, List.filterMap_append, List.append_assoc]

/-- A step with the event of a taken token moves the reading on by the lookahead. -/
theorem Steps.reading (heof : m.grammar.eof < m.grammar.terminalCount)
    (hspares : m.automaton.SparesEnd m.grammar.eof) {taken : List Token}
    (hreading : Reading m.grammar tokens taken k.configuration) (h : m.Steps k e k') :
    Reading m.grammar tokens (taken ++ k.taken e) k'.configuration := by
  cases h with
  | @shift c c' s next top cell done =>
    obtain ⟨c₁, _, _, hread, _, rfl⟩ := shift_eq_ok done
    have hmore : c.lookahead.terminal ≠ m.grammar.eof := fun heq => hspares.shift s next (heq ▸ cell)
    exact (hreading.advance heof hmore hread).congr sameReading_shifted
  | reduce top cell done target =>
    obtain ⟨_, _, _, _, _, _, _, _, _, _, rfl⟩ := reduce_eq_ok done
    rw [Moment.taken, if_neg (by simp [Event.takes]), List.append_nil]
    exact hreading.congr sameReading_reduced
  | enter top cell room => simpa [Moment.taken, Moment.configuration, resync] using hreading
  | @discardState x s below stack cell =>
    rw [Moment.taken, if_neg (by simp [Event.takes]), List.append_nil]
    exact hreading.congr (sameReading_discardState m s below x.configuration x.popped)
  | @discardTerminal x c₁ s top cell more read =>
    have hmore := hreading.lookahead_ne_eof more
    exact (hreading.advance heof hmore read).congr (sameReading_record m _ c₁)
  | @recover x c' s next p top cell done target =>
    obtain ⟨c₁, production, _, _, _, _, _, _, _, _, hread, _, _, _, _, rfl⟩ :=
      finishRecovery_eq_ok done
    have hmore : x.configuration.lookahead.terminal ≠ m.grammar.eof := fun heq =>
      hspares.recover s p (heq ▸ cell)
    have hbefore := hreading.congr (sameReading_popped production.frontLength x.configuration)
    exact (hbefore.advance heof hmore hread).congr sameReading_repaired

/-- What steps keep, with the tokens that they take and the events that they make, is kept between
any two moments. -/
theorem Leads.reading (heof : m.grammar.eof < m.grammar.terminalCount)
    (hspares : m.automaton.SparesEnd m.grammar.eof) {taken : List Token}
    (hreading : Reading m.grammar tokens taken k.configuration)
    {P : List Token → List Event → Moment σ ν → Prop} (hrefl : P [] [] k)
    (hstep : ∀ {more : List Token} {log : List Event} {k' k'' : Moment σ ν} {e : Option Event},
      P more log k' → m.Steps k' e k'' → P (more ++ k'.taken e) (log ++ e.toList) k'')
    (h : m.Leads k log k') :
    ∃ more, Reading m.grammar tokens (taken ++ more) k'.configuration ∧ P more log k' := by
  induction h with
  | refl => exact ⟨[], by simpa using hreading, hrefl⟩
  | @step _ k' _ e _ hnext ih =>
    obtain ⟨more, hmore, hP⟩ := ih
    have hread := hnext.reading heof hspares hmore
    exact ⟨more ++ k'.taken e, by simpa only [List.append_assoc] using hread, hstep hP hnext⟩

theorem Visits.reading (heof : m.grammar.eof < m.grammar.terminalCount)
    (hspares : m.automaton.SparesEnd m.grammar.eof) (h : m.Visits store tokens c) :
    ∃ taken, Reading m.grammar tokens taken c := by
  obtain ⟨log, c₀, hstart, hleads⟩ := reaches_of_visits h
  obtain ⟨taken, hreading, _⟩ := hleads.reading heof hspares (Reading.start heof hstart)
    (P := fun _ _ _ => True) trivial fun _ _ => trivial
  exact ⟨taken, hreading⟩

end Machine

end TableLR
