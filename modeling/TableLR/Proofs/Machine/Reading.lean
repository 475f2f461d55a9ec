import TableLR.Proofs.Machine.Invariant

/-! How far a parse has read its stream. The tokens it took are the first items of the stream, each
one a token of the grammar that does not end the input; the lookahead is the next item. -/
namespace TableLR

variable {σ ν ε : Type}

def TokenStream.Ended (g : Grammar) (stream : TokenStream) : Prop :=
  stream = [] ∨ ∃ mark rest, stream = .ok mark :: rest ∧ mark.terminal = g.eof

def TokenStream.beforeEnd (g : Grammar) : TokenStream → List Token
  | [] => []
  | .error _ :: rest => beforeEnd g rest
  | .ok token :: rest => if token.terminal = g.eof then [] else token :: beforeEnd g rest

theorem TokenStream.beforeEnd_append {g : Grammar} {taken : List Token}
    (h : ∀ t ∈ taken, t.terminal ≠ g.eof) (rest : TokenStream) :
    beforeEnd g (taken.map .ok ++ rest) = taken ++ beforeEnd g rest := by
  induction taken with
  | nil => rfl
  | cons t taken ih =>
    have ht : t.terminal ≠ g.eof := h t List.mem_cons_self
    simp [beforeEnd, ht, ih fun t' ht' => h t' (List.mem_cons_of_mem _ ht')]

theorem TokenStream.Ended.beforeEnd {g : Grammar} {stream : TokenStream} (h : Ended g stream) :
    TokenStream.beforeEnd g stream = [] := by
  rcases h with rfl | ⟨mark, rest, rfl, hmark⟩
  · rfl
  · simp [TokenStream.beforeEnd, hmark]

/-- The tokens `taken` are the first items of `tokens`, and the configuration stands behind
them. -/
structure Reading (g : Grammar) (tokens : TokenStream) (taken : List Token)
    (c : Configuration σ ν) : Prop where
  known : ∀ t ∈ taken, t.terminal < g.terminalCount ∧ t.terminal ≠ g.eof
  lookahead_known : c.lookahead.terminal < g.terminalCount
  atEnd_iff : c.atEnd = true ↔ c.lookahead.terminal = g.eof
  rest : ∃ ahead, tokens = taken.map .ok ++ ahead ∧
    ((c.atEnd = true ∧ TokenStream.Ended g ahead) ∨
      (c.atEnd = false ∧ ahead = .ok c.lookahead :: c.input))

namespace Reading

variable {g : Grammar} {tokens : TokenStream} {taken : List Token} {m : Machine σ ν ε}
  {c c' : Configuration σ ν}

/-- Only the reading part of a configuration matters. -/
theorem congr (h : Reading g tokens taken c) (hsame : c.SameReading c') :
    Reading g tokens taken c' := by
  obtain ⟨hknown, hlook, hiff, hrest⟩ := h
  refine ⟨hknown, by rwa [hsame.lookahead], by rwa [hsame.lookahead, hsame.atEnd], ?_⟩
  rwa [hsame.input, hsame.lookahead, hsame.atEnd]

theorem lookahead_ne_eof (h : Reading g tokens taken c) (hmore : c.atEnd = false) :
    c.lookahead.terminal ≠ g.eof := by
  intro heof
  rw [h.atEnd_iff.mpr heof] at hmore
  cases hmore

/-- The next item, when all of `taken` was read and `c.input` is left. -/
theorem of_nextToken (heof : m.grammar.eof < m.grammar.terminalCount)
    (htokens : tokens = taken.map .ok ++ c.input)
    (hknown : ∀ t ∈ taken, t.terminal < m.grammar.terminalCount ∧ t.terminal ≠ m.grammar.eof)
    {next : Token} {rest : TokenStream} {atEnd : Bool}
    (h : m.nextToken c = .ok (next, rest, atEnd))
    (hinput : c'.input = rest) (hlookahead : c'.lookahead = next) (hend : c'.atEnd = atEnd) :
    Reading m.grammar tokens taken c' := by
  unfold Machine.nextToken at h
  rcases hc : c.input with _ | ⟨_ | token, input⟩
  · simp only [hc, Except.ok.injEq, Prod.mk.injEq] at h
    obtain ⟨rfl, rfl, rfl⟩ := h
    refine ⟨hknown, by simpa [hlookahead, Token.endMark] using heof,
      by simp [hend, hlookahead, Token.endMark], [], by simpa [hc] using htokens, ?_⟩
    exact .inl ⟨hend, .inl rfl⟩
  · simp [hc] at h
  · simp only [hc] at h
    split at h
    · cases h
    · rename_i hless
      simp only [Except.ok.injEq, Prod.mk.injEq] at h
      obtain ⟨rfl, rfl, rfl⟩ := h
      refine ⟨hknown, by simpa only [hlookahead, Nat.not_le] using hless,
        by simp [hend, hlookahead], _, htokens, ?_⟩
      rw [hc, hend, hlookahead, hinput]
      by_cases hmark : token.terminal = m.grammar.eof
      · exact .inl ⟨by simpa using hmark, .inr ⟨token, input, rfl, hmark⟩⟩
      · exact .inr ⟨by simpa using hmark, rfl⟩

theorem start (heof : m.grammar.eof < m.grammar.terminalCount) {store : σ}
    (h : m.start store tokens = .ok c) : Reading m.grammar tokens [] c := by
  obtain ⟨⟨token, c₁⟩, hread, h⟩ := bind_eq_ok.mp h
  obtain rfl := Except.ok.inj h
  obtain ⟨_, ⟨hend, _⟩ | ⟨_, next, rest, atEnd, hnext, hc⟩⟩ := Machine.advance_eq_ok.mp hread
  · cases hend
  · exact of_nextToken heof (by simp) (by simp) hnext (by rw [hc]) (by rw [hc]) (by rw [hc])

/-- Reading takes one token of the stream. -/
theorem advance (heof : m.grammar.eof < m.grammar.terminalCount)
    (h : Reading m.grammar tokens taken c) (hmore : c.lookahead.terminal ≠ m.grammar.eof)
    {token : Token} (hread : m.advance c = .ok (token, c')) :
    Reading m.grammar tokens (taken ++ [c.lookahead]) c' := by
  obtain ⟨ahead, htokens, ⟨hend, _⟩ | ⟨_, rfl⟩⟩ := h.rest
  · exact absurd (h.atEnd_iff.mp hend) hmore
  obtain ⟨_, ⟨hend, _⟩ | ⟨_, next, rest, atEnd, hnext, hc⟩⟩ := Machine.advance_eq_ok.mp hread
  · exact absurd (h.atEnd_iff.mp hend) hmore
  refine of_nextToken heof (by simp [htokens]) ?_ hnext (by rw [hc]) (by rw [hc]) (by rw [hc])
  intro t ht
  rcases List.mem_append.mp ht with ht | ht
  · exact h.known t ht
  · rw [List.mem_singleton.mp ht]
    exact ⟨h.lookahead_known, hmore⟩

theorem length_le (h : Reading g tokens taken c) :
    taken.length ≤ (TokenStream.beforeEnd g tokens).length := by
  obtain ⟨ahead, htokens, _⟩ := h.rest
  rw [htokens, TokenStream.beforeEnd_append fun t ht => (h.known t ht).2]
  simp

/-- At the end of the input all of the stream up to there was taken. -/
theorem ended (h : Reading g tokens taken c) (hend : c.lookahead.terminal = g.eof) :
    ∃ rest, tokens = taken.map .ok ++ rest ∧ TokenStream.Ended g rest := by
  obtain ⟨ahead, htokens, ⟨_, hended⟩ | ⟨hmore, _⟩⟩ := h.rest
  · exact ⟨ahead, htokens, hended⟩
  · exact absurd hend (h.lookahead_ne_eof hmore)

theorem beforeEnd_eq (h : Reading g tokens taken c) (hend : c.lookahead.terminal = g.eof) :
    TokenStream.beforeEnd g tokens = taken := by
  obtain ⟨rest, htokens, hended⟩ := h.ended hend
  rw [htokens, TokenStream.beforeEnd_append fun t ht => (h.known t ht).2, hended.beforeEnd,
    List.append_nil]

/-- A parse that has taken more tokens has fewer of them left. -/
theorem remaining_lt {more : List Token} (h : Reading g tokens taken c)
    (h' : Reading g tokens (taken ++ more) c') (hmore : more ≠ []) :
    c'.remaining < c.remaining := by
  obtain ⟨ahead, htokens, hahead⟩ := h.rest
  obtain ⟨ahead', htokens', hahead'⟩ := h'.rest
  have hsplit : ahead = more.map .ok ++ ahead' := by
    rw [htokens, List.map_append, List.append_assoc] at htokens'
    exact List.append_cancel_left htokens'
  obtain ⟨first, rest, rfl⟩ := List.exists_cons_of_ne_nil hmore
  have hfirst := (h'.known first (by simp)).2
  have hleft : c.remaining = ahead.length := by
    rcases hahead with ⟨_, rfl | ⟨mark, _, rfl, hmark⟩⟩ | ⟨hend, rfl⟩
    · simp at hsplit
    · simp only [List.map_cons, List.cons_append, List.cons.injEq, Except.ok.injEq] at hsplit
      exact absurd (hsplit.1 ▸ hmark) hfirst
    · simp [Configuration.remaining, hend]
  have hleft' : c'.remaining ≤ ahead'.length := by
    rcases hahead' with ⟨hend, _⟩ | ⟨hend, rfl⟩
    · simp [Configuration.remaining, hend]
    · simp [Configuration.remaining, hend]
  rw [hleft, hsplit, List.length_append, List.length_map, List.length_cons]
  omega

end Reading

end TableLR
