import Mathlib.Data.List.Basic
import Mathlib.Order.Bounds.Basic
import TableLR.Proofs.Machine.History
import TableLR.Proofs.Position

/-! The tokens that a parse has pulled out of its stream, the lookahead included. They are the first
items of the stream, and behind its last item comes the end of the input, at the place where that
item ends. The furthest position is the greatest of all their positions. -/
namespace TableLR

variable {σ ν ε : Type}

def endOf (tokens : List Token) : Position :=
  (tokens.getLast?.map Token.endPosition).getD Position.start

inductive TokenStream.Gives (g : Grammar) (tokens : TokenStream) :
    List Token → TokenStream → Prop
  | items {pulled : List Token} {rest : TokenStream} (split : tokens = pulled.map .ok ++ rest) :
      Gives g tokens pulled rest
  | inputEnd {body : List Token} (all : tokens = body.map .ok) :
      Gives g tokens (body ++ [Token.endMark g.eof (endOf body)]) []

/-- Up to a token that does not end the input there are only items of the stream. -/
theorem TokenStream.Gives.split {g : Grammar} {tokens rest : TokenStream} {pulled : List Token}
    {last : Token} (h : Gives g tokens pulled rest) (hlast : pulled.getLast? = some last)
    (hmore : last.terminal ≠ g.eof) : tokens = pulled.map .ok ++ rest := by
  cases h with
  | items split => exact split
  | inputEnd all =>
    rw [List.getLast?_concat, Option.some.injEq] at hlast
    exact absurd (hlast ▸ rfl) hmore

/-- The last token is an item of the stream, or it is the end behind all items. -/
theorem TokenStream.Gives.last_cases {g : Grammar} {tokens rest : TokenStream} {pulled : List Token}
    {last : Token} (h : Gives g tokens pulled rest) (hlast : pulled.getLast? = some last) :
    .ok last ∈ tokens ∨ ∃ body : List Token, tokens = body.map .ok ∧
      last = Token.endMark g.eof (endOf body) := by
  cases h with
  | items split =>
    rw [split]
    exact .inl (List.mem_append_left _ (List.mem_map_of_mem (List.mem_of_getLast? hlast)))
  | inputEnd all =>
    rw [List.getLast?_concat, Option.some.injEq] at hlast
    exact .inr ⟨_, all, hlast.symm⟩

def placesOf (tokens : List Token) : Set Position :=
  insert Position.start {p | ∃ t ∈ tokens, t.position = p}

theorem placesOf_append (tokens : List Token) (t : Token) :
    placesOf (tokens ++ [t]) = insert t.position (placesOf tokens) := by
  ext p
  simp only [placesOf, Set.mem_insert_iff, Set.mem_ofPred_eq, List.mem_append, List.mem_singleton,
    or_and_right, exists_or, exists_eq_left, @eq_comm _ t.position]
  exact or_assoc.symm.trans or_comm

/-- The tokens `pulled` are all that the configuration has seen of the stream. -/
structure Pulled (g : Grammar) (tokens : TokenStream) (pulled : List Token)
    (c : Configuration σ ν) : Prop where
  given : TokenStream.Gives g tokens pulled c.input
  lookahead : pulled.getLast? = some c.lookahead
  atEnd_iff : c.atEnd = true ↔ c.lookahead.terminal = g.eof
  open_before : ∀ t ∈ pulled.dropLast, t.terminal ≠ g.eof
  furthest : IsGreatest (placesOf pulled) c.furthest

namespace Pulled

variable {g : Grammar} {tokens : TokenStream} {pulled : List Token} {m : Machine σ ν ε}
  {c c' : Configuration σ ν}

/-- Only the reading part of a configuration matters. -/
theorem congr (h : Pulled g tokens pulled c) (hsame : c.SameReading c') :
    Pulled g tokens pulled c' where
  given := hsame.input ▸ h.given
  lookahead := hsame.lookahead ▸ h.lookahead
  atEnd_iff := by rw [hsame.atEnd, hsame.lookahead, h.atEnd_iff]
  open_before := h.open_before
  furthest := hsame.furthest ▸ h.furthest

theorem lookahead_mem (h : Pulled g tokens pulled c) : c.lookahead ∈ pulled :=
  List.mem_of_getLast? h.lookahead

theorem position_le (h : Pulled g tokens pulled c) {t : Token} (ht : t ∈ pulled) :
    t.position ≤ c.furthest :=
  h.furthest.2 (.inr ⟨t, ht, rfl⟩)

/-- The next token, when the items `pulled` were read and the last of them ends where the lookahead
does. -/
theorem of_nextToken (hsplit : tokens = pulled.map .ok ++ c.input)
    (hlast : c.lookahead.endPosition = endOf pulled)
    (hopen : ∀ t ∈ pulled, t.terminal ≠ m.grammar.eof)
    (hfurthest : IsGreatest (placesOf pulled) c.furthest) {next : Token} {rest : TokenStream}
    {atEnd : Bool} (h : m.nextToken c = .ok (next, rest, atEnd)) :
    Pulled m.grammar tokens (pulled ++ [next]) { c with
      input := rest
      lookahead := next
      atEnd
      furthest := c.furthest.later next.position } := by
  have hgreatest : IsGreatest (placesOf (pulled ++ [next]))
      (c.furthest.later next.position) := by
    rw [placesOf_append]
    have hinsert := hfurthest.insert next.position
    rwa [max_comm] at hinsert
  have hgiven : TokenStream.Gives m.grammar tokens (pulled ++ [next]) rest ∧
      (atEnd = true ↔ next.terminal = m.grammar.eof) := by
    unfold Machine.nextToken at h
    rcases hinput : c.input with _ | ⟨_ | token, input⟩
    · -- no item is left, so the end stands where the lookahead ends
      simp only [hinput, Except.ok.injEq, Prod.mk.injEq] at h
      obtain ⟨rfl, rfl, rfl⟩ := h
      rw [hlast]
      exact ⟨.inputEnd (by simpa [hinput] using hsplit), by simp [Token.endMark]⟩
    · simp [hinput] at h
    · simp only [hinput] at h
      split at h
      · cases h
      · simp only [Except.ok.injEq, Prod.mk.injEq] at h
        obtain ⟨rfl, rfl, rfl⟩ := h
        exact ⟨.items (by simp [hsplit, hinput]), by simp⟩
  exact ⟨hgiven.1, by simp, hgiven.2, by simpa using hopen, hgreatest⟩

theorem start {store : σ} (h : m.start store tokens = .ok c) :
    ∃ t, Pulled m.grammar tokens [t] c := by
  obtain ⟨⟨token, c₁⟩, hread, h⟩ := bind_eq_ok.mp h
  obtain rfl := Except.ok.inj h
  obtain ⟨_, ⟨hend, _⟩ | ⟨_, next, rest, atEnd, hnext, rfl⟩⟩ := Machine.advance_eq_ok.mp hread
  · cases hend
  · have hnone : tokens = ([] : List Token).map .ok ++ tokens := rfl
    exact ⟨next, of_nextToken hnone rfl (by simp) (by simp [placesOf]) hnext⟩

/-- Reading pulls the next token, and none at the end of the input. -/
theorem advance (h : Pulled m.grammar tokens pulled c) {token : Token}
    (hread : m.advance c = .ok (token, c')) :
    ∃ more, Pulled m.grammar tokens (pulled ++ more) c' := by
  obtain ⟨_, ⟨hend, rfl⟩ | ⟨hend, next, rest, atEnd, hnext, rfl⟩⟩ :=
    Machine.advance_eq_ok.mp hread
  · -- the end is read again, and its position is among the ones before
    refine ⟨[], ?_⟩
    have hsame : c.furthest.later c.lookahead.position = c.furthest :=
      max_eq_left (h.position_le h.lookahead_mem)
    rw [List.append_nil]
    exact h.congr ⟨rfl, rfl, rfl, hsame⟩
  · have hmore : c.lookahead.terminal ≠ m.grammar.eof := fun heof => by
      rw [h.atEnd_iff.mpr heof] at hend
      cases hend
    have hopen : ∀ t ∈ pulled, t.terminal ≠ m.grammar.eof := by
      rw [← List.dropLast_append_getLast? _ h.lookahead]
      simpa [or_imp, forall_and] using ⟨h.open_before, hmore⟩
    have hlast : c.lookahead.endPosition = endOf pulled := by simp [endOf, h.lookahead]
    have hsplit := h.given.split h.lookahead hmore
    exact ⟨[next], of_nextToken hsplit hlast hopen h.furthest hnext⟩

end Pulled

namespace Machine

variable {m : Machine σ ν ε} {k k' : Moment σ ν} {e : Option Event} {store : σ}
  {tokens : TokenStream} {seen : List Token} {log : List Event}

/-- A step pulls tokens only where it reads. -/
theorem Steps.pulled (hk : Pulled m.grammar tokens seen k.configuration) (h : m.Steps k e k') :
    ∃ more, Pulled m.grammar tokens (seen ++ more) k'.configuration := by
  cases h with
  | shift top cell done =>
    obtain ⟨c₁, _, _, hread, _, rfl⟩ := shift_eq_ok done
    obtain ⟨more, hmore⟩ := hk.advance hread
    exact ⟨more, hmore.congr sameReading_shifted⟩
  | reduce top cell done target =>
    obtain ⟨_, _, _, _, _, _, _, _, _, _, rfl⟩ := reduce_eq_ok done
    exact ⟨[], (List.append_nil seen).symm ▸ hk.congr sameReading_reduced⟩
  | enter top cell room => exact ⟨[], by simpa [Moment.configuration, resync] using hk⟩
  | @discardState x s below stack cell =>
    have hsame := sameReading_discardState m s below x.configuration x.popped
    exact ⟨[], (List.append_nil seen).symm ▸ hk.congr hsame⟩
  | discardTerminal top cell more read =>
    obtain ⟨next, hnext⟩ := hk.advance read
    exact ⟨next, hnext.congr (sameReading_record m _ _)⟩
  | @recover x c' s next p top cell done target =>
    obtain ⟨c₁, production, _, _, _, _, _, _, _, _, hread, _, _, _, _, rfl⟩ :=
      finishRecovery_eq_ok done
    have hbefore := hk.congr (sameReading_popped production.frontLength x.configuration)
    obtain ⟨more, hmore⟩ := hbefore.advance hread
    exact ⟨more, hmore.congr sameReading_repaired⟩

theorem Leads.pulled (hk : Pulled m.grammar tokens seen k.configuration) (h : m.Leads k log k') :
    ∃ more, Pulled m.grammar tokens (seen ++ more) k'.configuration := by
  induction h with
  | refl => exact ⟨[], by simpa using hk⟩
  | step _ hstep ih =>
    obtain ⟨more, hmore⟩ := ih
    obtain ⟨last, hlast⟩ := hstep.pulled hmore
    exact ⟨more ++ last, by simpa only [List.append_assoc] using hlast⟩

theorem Reaches.pulled (h : m.Reaches store tokens log k) :
    ∃ seen, Pulled m.grammar tokens seen k.configuration := by
  obtain ⟨c, hstart, hleads⟩ := h
  obtain ⟨t, hpulled⟩ := Pulled.start hstart
  obtain ⟨more, hmore⟩ := Leads.pulled (k := .choosing c) hpulled hleads
  exact ⟨_, hmore⟩

end Machine

end TableLR
