import TableLR.Proofs.Machine.Pulled
import TableLR.Proofs.Parse.Nodes

/-! Positions of tokens and of the end of the input. The end of a token is where its text ends, and
a stream without an end of its own ends behind its last token. The numbers of a position are words
of 64 bits, so the end of a token is not before its start as long as its bytes can be counted. -/
namespace TableLR

variable {σ ν ε : Type} {m : Machine σ ν ε} {store : σ} {tokens : TokenStream} {log : List Event}
  {k : Moment σ ν}

theorem Token.offset_endPosition (t : Token) : t.endPosition.offset = t.span.2 :=
  Position.offset_advance t.position t.text

/-- The bytes from the start of the source to the end of the token can be counted. -/
def Token.Countable (t : Token) : Prop := t.position.offset.toNat + t.text.utf8ByteSize < 2 ^ 64

instance (t : Token) : Decidable t.Countable := inferInstanceAs (Decidable (_ < _))

theorem Token.position_le_endOf {body : List Token} {t : Token} (h : body.getLast? = some t)
    (hcount : t.Countable) : t.position ≤ endOf body := by
  rw [endOf, h]
  exact Position.le_advance hcount

/-- An end of the input that no token marks is not before the last token. -/
theorem Machine.Reaches.input_end (h : m.Reaches store tokens log k) :
    .ok k.configuration.lookahead ∈ tokens ∨ ∃ body : List Token, tokens = body.map .ok ∧
      k.configuration.lookahead = Token.endMark m.grammar.eof (endOf body) ∧
      ∀ t, body.getLast? = some t → t.Countable →
        t.position ≤ k.configuration.lookahead.position := by
  obtain ⟨seen, hpulled⟩ := h.pulled
  rcases hpulled.given.last_cases hpulled.lookahead with hitem | ⟨body, hbody, hlast⟩
  · exact .inl hitem
  · refine .inr ⟨body, hbody, hlast, fun t ht hcount => ?_⟩
    rw [hlast]
    exact Token.position_le_endOf ht hcount

/-- Texts one after the other move a position like one text, and by their bytes, lines and
characters; forward, as far as the bytes can be counted, and not farther. The end of a token is
that of its bytes. The lookahead of a parse is an item of the stream, or it stands behind the last
item and so not before it. -/
theorem positions_move_with_the_text :
    (∀ (p : Position) (a b : String),
      p.advance (a ++ b) = (p.advance a).advance b ∧ p.Behind a (p.advance a) ∧
        (p.offset.toNat + a.utf8ByteSize < 2 ^ 64 →
          p ≤ p.advance a ∧ (p < p.advance a ↔ a ≠ "")) ∧
        (a.utf8ByteSize < 2 ^ 64 →
          (p ≤ p.advance a ↔ p.offset.toNat + a.utf8ByteSize < 2 ^ 64))) ∧
      (∀ t : Token, t.endPosition.offset = t.span.2) ∧
      ∀ {σ ν ε : Type} (m : Machine σ ν ε) (store : σ) (tokens : TokenStream) (log : List Event)
        (k : Moment σ ν), m.Reaches store tokens log k →
          .ok k.configuration.lookahead ∈ tokens ∨ ∃ body : List Token, tokens = body.map .ok ∧
            k.configuration.lookahead = Token.endMark m.grammar.eof (endOf body) ∧
            ∀ t, body.getLast? = some t → t.Countable →
              t.position ≤ k.configuration.lookahead.position := by
  refine ⟨fun p a b => ⟨p.advance_append a b, p.behind_advance a, fun h => ?_,
    Position.le_advance_iff⟩, Token.offset_endPosition, fun _ _ _ _ _ h => h.input_end⟩
  exact ⟨Position.le_advance h, Position.lt_advance_iff h⟩

/-- Behind the greatest of its words each number starts again at zero, and the offset takes the
position back with it. -/
theorem numbers_start_again :
    (⟨0xffffffffffffffff, 1, 1⟩ : Position).advance "x" = ⟨0, 1, 2⟩ ∧
      ¬(⟨0xffffffffffffffff, 1, 1⟩ : Position) ≤ ⟨0, 1, 2⟩ ∧
      (⟨0, 0xffffffffffffffff, 1⟩ : Position).advance "\n" = ⟨1, 0, 1⟩ ∧
      (⟨0, 1, 0xffffffffffffffff⟩ : Position).advance "x" = ⟨1, 1, 0⟩ := by
  decide

/-- A text with a newline moves a position forward, and the statement ends behind its semicolon. -/
theorem input_ends_behind_the_semicolon :
    (⟨4, 2, 3⟩ : Position).advance "ab\ncd" = ⟨9, 3, 3⟩ ∧ (⟨4, 2, 3⟩ : Position) < ⟨9, 3, 3⟩ ∧
      ∃ log k, (treeMachine Statements.grammar Statements.tables.automaton {}).Reaches
          (Tree.empty Statements.grammar) Statements.input log k ∧
        k.configuration.lookahead = Token.endMark Statements.grammar.eof ⟨4, 1, 5⟩ ∧
        ⟨3, 1, 4⟩ ≤ k.configuration.lookahead.position := by
  obtain ⟨htexts, _, hparses⟩ := positions_move_with_the_text
  have hmoved : (⟨4, 2, 3⟩ : Position).advance "ab\ncd" = ⟨9, 3, 3⟩ := by decide
  refine ⟨hmoved, ?_, ?_⟩
  · rw [← hmoved]
    obtain ⟨_, _, hforward, _⟩ := htexts ⟨4, 2, 3⟩ "ab\ncd" ""
    exact (hforward (by decide)).2.mpr (by decide)
  · obtain ⟨r, hr⟩ := Statements.parses
    obtain ⟨c, s, hvisits, _, hcell, _⟩ := parseTree_eq_ok hr
    have heof : c.lookahead.terminal = Statements.grammar.eof := Statements.checked.accept hcell
    obtain ⟨log, hreaches⟩ := Machine.reaches_of_visits hvisits
    refine ⟨log, _, hreaches, ?_⟩
    rcases hparses _ _ _ _ _ hreaches with hitem | ⟨body, hbody, hend, hlast⟩
    · have hnames : Statements.grammar.eof = 2 := by decide +kernel
      have hmore : ∀ t, .ok t ∈ Statements.input → t.terminal ≠ Statements.grammar.eof := by
        simp [Statements.input, hnames]
      exact absurd heof (hmore _ hitem)
    · simp only [Statements.input, eq_comm, List.map_eq_cons_iff, List.map_eq_nil_iff,
        Except.ok.injEq] at hbody
      obtain ⟨_, _, rfl, rfl, _, _, rfl, rfl, _, _, rfl, rfl, rfl⟩ := hbody
      exact ⟨hend, hlast ⟨1, ";", "", ⟨3, 1, 4⟩⟩ rfl (by decide)⟩

end TableLR
