import TableLR.Proofs.Blob.Codes

/-! The deflate format: what stands in a stream of blocks, and that inflating takes exactly this.
Every kind of thing in a stream has words of its own; reading one is tied to them in both
directions, from single numbers up to the blocks. -/
namespace TableLR.Deflate

open TableLR.Huffman (IsCode Usable canonical)
open TableLR.Deflate.Field (toBits)

def Extended (codes : Array (Nat × Nat)) (symbol value : Nat) (w : List Bool) : Prop :=
  ∃ base extra v, codes[symbol]? = some (base, extra) ∧ v < 2 ^ extra ∧ value = base + v ∧
    w = toBits extra v

def Reach (distances : List Nat) (symbol length distance : Nat) (w : List Bool) : Prop :=
  ∃ code u v x, Extended lengthCodes (symbol - 257) length u ∧ IsCode distances code v ∧
    Extended distanceCodes code distance x ∧ w = u ++ (v ++ x)

inductive PieceWord (literals distances : List Nat) : Piece → List Bool → Prop
  | literal {b : UInt8} {w : List Bool} (h : IsCode literals b.toNat w) :
      PieceWord literals distances (.literal b) w
  | copy {symbol length distance : Nat} {u v : List Bool} (hsymbol : 256 < symbol)
      (hlength : IsCode literals symbol u) (hreach : Reach distances symbol length distance v) :
      PieceWord literals distances (.copy length distance) (u ++ v)

inductive Body (literals distances : List Nat) : List Piece → List Bool → Prop
  | done {w : List Bool} (h : IsCode literals 256 w) : Body literals distances [] w
  | piece {piece : Piece} {pieces : List Piece} {u v : List Bool}
      (hpiece : PieceWord literals distances piece u) (h : Body literals distances pieces v) :
      Body literals distances (piece :: pieces) (u ++ v)

def write (out : Array UInt8) : Piece → Array UInt8
  | .literal b => out.push b
  | .copy length distance => copyBack distance length out

def writeAll (out : Array UInt8) (pieces : List Piece) : Array UInt8 := pieces.foldl write out

theorem reads_extended (codes : Array (Nat × Nat)) (symbol : Nat) :
    Reads (extended codes symbol) (Extended codes symbol) where
  sound hr h := by
    unfold extended at h
    split at h
    · cases h
    rename_i base extra hentry
    obtain ⟨⟨v, r₁⟩, hbits, h⟩ := map_eq_ok.mp h
    obtain ⟨rfl, rfl⟩ := Prod.mk.inj h
    obtain ⟨hready, hlt, hahead⟩ := BitReader.bits_sound hr hbits
    exact ⟨hready, _, ⟨base, extra, v, hentry, hlt, rfl, rfl⟩, hahead⟩
  complete hr hw h := by
    obtain ⟨base, extra, v, hentry, hlt, rfl, rfl⟩ := hw
    obtain ⟨r₁, hbits, hready, hrest⟩ := BitReader.bits_complete hr hlt h
    refine ⟨r₁, ?_, hready, hrest⟩
    simp only [extended, hentry, hbits, Except.map]

theorem repetition_sound {distances : List Nat} {symbol length distance : Nat}
    {r r' : BitReader} (hr : r.Ready)
    (h : repetition (canonical distances) symbol r = .ok (length, distance, r')) :
    r'.Ready ∧ ∃ w, Reach distances symbol length distance w ∧ r.ahead = w ++ r'.ahead := by
  obtain ⟨⟨length', r₁⟩, hlength, h⟩ := bind_eq_ok.mp h
  obtain ⟨⟨code, r₂⟩, hcode, h⟩ := bind_eq_ok.mp h
  obtain ⟨⟨distance', r₃⟩, hdistance, h⟩ := bind_eq_ok.mp h
  obtain ⟨rfl, rfl, rfl⟩ : length' = length ∧ distance' = distance ∧ r₃ = r' := by
    simpa using Except.ok.inj h
  obtain ⟨hready, u, hu, hahead⟩ := (reads_extended _ _).sound hr hlength
  obtain ⟨hready, v, hv, hahead'⟩ := (Huffman.reads_decode distances).sound hready hcode
  obtain ⟨hready, x, hx, hahead''⟩ := (reads_extended _ _).sound hready hdistance
  refine ⟨hready, u ++ (v ++ x), ⟨code, u, v, x, hu, hv, hx, rfl⟩, ?_⟩
  rw [hahead, hahead', hahead'', List.append_assoc, List.append_assoc]

theorem repetition_complete {distances : List Nat} {symbol length distance : Nat}
    {r : BitReader} {w rest : List Bool} (hr : r.Ready)
    (hw : Reach distances symbol length distance w) (h : r.ahead = w ++ rest) :
    ∃ r', repetition (canonical distances) symbol r = .ok (length, distance, r') ∧ r'.Ready ∧
      r'.ahead = rest := by
  obtain ⟨code, u, v, x, hu, hv, hx, rfl⟩ := hw
  rw [List.append_assoc, List.append_assoc] at h
  obtain ⟨r₁, hlength, hready, h⟩ := (reads_extended _ _).complete hr hu h
  obtain ⟨r₂, hcode, hready, h⟩ := (Huffman.reads_decode distances).complete hready hv h
  obtain ⟨r₃, hdistance, hready, h⟩ := (reads_extended _ _).complete hready hx h
  refine ⟨r₃, ?_, hready, h⟩
  simp only [repetition, hlength, hcode, hdistance, bind, Except.bind]

set_option maxRecDepth 2000 in
theorem symbols_succ (literals distances : Huffman) (fuel : Nat) (r : BitReader)
    (out : Array UInt8) : symbols literals distances (fuel + 1) r out =
      match literals.decode r with
      | .error stop => (out, .error stop)
      | .ok (symbol, r) =>
        if symbol < 256 then symbols literals distances fuel r (out.push (UInt8.ofNat symbol))
        else if symbol = 256 then (out, .ok r)
        else
          match repetition distances symbol r with
          | .error stop => (out, .error stop)
          | .ok (length, distance, r) =>
            symbols literals distances fuel r (copyBack distance length out) := by
  -- The equation that unfolding looks for by itself is out of its reach.
  delta symbols
  rfl

theorem symbols_sound {literals distances : List Nat} {fuel : Nat} {r r' : BitReader}
    {out out' : Array UInt8} (hr : r.Ready)
    (h : symbols (canonical literals) (canonical distances) fuel r out = (out', .ok r')) :
    r'.Ready ∧ ∃ pieces w, Body literals distances pieces w ∧ r.ahead = w ++ r'.ahead ∧
      out' = writeAll out pieces := by
  induction fuel generalizing r out with
  | zero => cases h
  | succ fuel ih =>
    rw [symbols_succ] at h
    split at h
    · cases h
    rename_i symbol r₁ hsymbol
    obtain ⟨hready, u, hu, hahead⟩ := (Huffman.reads_decode literals).sound hr hsymbol
    split at h
    · rename_i hliteral
      obtain ⟨hready', pieces, v, hv, hahead', rfl⟩ := ih hready h
      have hbyte : (UInt8.ofNat symbol).toNat = symbol := by
        rw [UInt8.toNat_ofNat', Nat.mod_eq_of_lt hliteral]
      refine ⟨hready', .literal (UInt8.ofNat symbol) :: pieces, u ++ v,
        .piece (.literal (hbyte.symm ▸ hu)) hv, ?_, rfl⟩
      rw [hahead, hahead', List.append_assoc]
    split at h
    · rename_i hend
      obtain ⟨rfl, hrest⟩ := Prod.mk.inj h
      obtain rfl := Except.ok.inj hrest
      exact ⟨hready, [], u, .done (hend ▸ hu), hahead, rfl⟩
    · rename_i hbyte hend
      split at h
      · cases h
      rename_i length distance r₂ hcopy
      obtain ⟨hready, v, hv, hahead'⟩ := repetition_sound hready hcopy
      obtain ⟨hready', pieces, x, hx, hahead'', rfl⟩ := ih hready h
      refine ⟨hready', .copy length distance :: pieces, (u ++ v) ++ x,
        .piece (.copy (by omega) hu hv) hx, ?_, rfl⟩
      rw [hahead, hahead', hahead'', List.append_assoc, List.append_assoc]

theorem symbols_complete {literals distances : List Nat} {fuel : Nat} {r : BitReader}
    {pieces : List Piece} {w rest : List Bool} (out : Array UInt8) (hr : r.Ready)
    (hw : Body literals distances pieces w) (h : r.ahead = w ++ rest) (hfuel : w.length ≤ fuel) :
    ∃ r', symbols (canonical literals) (canonical distances) fuel r out =
      (writeAll out pieces, .ok r') ∧ r'.Ready ∧ r'.ahead = rest := by
  -- Each piece has a code in front and the end is one, so none of them is without a bit.
  induction hw generalizing r fuel out with
  | done hend =>
    have hpos := hend.length_pos
    obtain ⟨fuel, rfl⟩ := Nat.exists_eq_succ_of_ne_zero (show fuel ≠ 0 by omega)
    obtain ⟨r₁, hsymbol, hready, h⟩ := (Huffman.reads_decode literals).complete hr hend h
    refine ⟨r₁, ?_, hready, h⟩
    rw [symbols_succ, hsymbol]
    rfl
  | piece hpiece hbody ih =>
    rw [List.append_assoc] at h
    rw [List.length_append] at hfuel
    cases hpiece with
    | @literal b u hu =>
      have hpos := hu.length_pos
      obtain ⟨fuel, rfl⟩ := Nat.exists_eq_succ_of_ne_zero (show fuel ≠ 0 by omega)
      obtain ⟨r₁, hsymbol, hready, h⟩ := (Huffman.reads_decode literals).complete hr hu h
      obtain ⟨r₂, hrest, hready, h⟩ := ih (out.push b) hready h (show _ ≤ fuel by omega)
      refine ⟨r₂, ?_, hready, h⟩
      rw [symbols_succ, hsymbol]
      dsimp only
      rw [if_pos b.toNat_lt, UInt8.ofNat_toNat, hrest]
      rfl
    | @copy symbol length distance u v hsymbol hu hv =>
      have hpos := hu.length_pos
      rw [List.length_append] at hfuel
      rw [List.append_assoc] at h
      obtain ⟨fuel, rfl⟩ := Nat.exists_eq_succ_of_ne_zero (show fuel ≠ 0 by omega)
      obtain ⟨r₁, hread, hready, h⟩ := (Huffman.reads_decode literals).complete hr hu h
      obtain ⟨r₂, hcopy, hready, h⟩ := repetition_complete hready hv h
      obtain ⟨r₃, hrest, hready, h⟩ :=
        ih (copyBack distance length out) hready h (show _ ≤ fuel by omega)
      refine ⟨r₃, ?_, hready, h⟩
      rw [symbols_succ, hread]
      dsimp only
      rw [if_neg (by omega), if_neg (by omega), hcopy]
      dsimp only
      rw [hrest]
      rfl

def ShortLengths (n : Nat) (short : List Nat) (w : List Bool) : Prop :=
  short.length = n ∧ (∀ v ∈ short, v < 2 ^ 3) ∧ w = short.flatMap (toBits 3)

inductive Run : Option Nat → Nat → Nat → Nat → List Bool → Prop
  | again {length v : Nat} (h : v < 2 ^ 2) : Run (some length) 16 length (v + 3) (toBits 2 v)
  | zeros {last : Option Nat} {v : Nat} (h : v < 2 ^ 3) : Run last 17 0 (v + 3) (toBits 3 v)
  | manyZeros {last : Option Nat} {symbol v : Nat} (hsymbol : 17 < symbol) (h : v < 2 ^ 7) :
      Run last symbol 0 (v + 11) (toBits 7 v)

inductive Tells (code : List Nat) : Option Nat → List Nat → List Bool → Prop
  | done {last : Option Nat} : Tells code last [] []
  | single {last : Option Nat} {length : Nat} {lengths : List Nat} {u v : List Bool}
      (hlength : length < 16) (hcode : IsCode code length u)
      (h : Tells code (some length) lengths v) : Tells code last (length :: lengths) (u ++ v)
  | run {last : Option Nat} {symbol length n : Nat} {lengths : List Nat} {u v x : List Bool}
      (hsymbol : 16 ≤ symbol) (hcode : IsCode code symbol u) (hrun : Run last symbol length n v)
      (h : Tells code (some length) lengths x) :
      Tells code last (List.replicate n length ++ lengths) (u ++ (v ++ x))

theorem reads_shortLengths (n : Nat) : Reads (shortLengths n) (ShortLengths n) where
  sound {r r' short} hr h := by
    induction n generalizing r short with
    | zero =>
      obtain ⟨rfl, rfl⟩ := Prod.mk.inj (Except.ok.inj h)
      exact ⟨hr, [], ⟨rfl, fun _ h => (List.not_mem_nil h).elim, rfl⟩, rfl⟩
    | succ n ih =>
      unfold shortLengths at h
      split at h
      · cases h
      rename_i v r₁ hbits
      obtain ⟨⟨vs, r₂⟩, hrest, heq⟩ := map_eq_ok.mp h
      obtain ⟨rfl, rfl⟩ := Prod.mk.inj heq
      obtain ⟨hready, hlt, hahead⟩ := BitReader.bits_sound hr hbits
      obtain ⟨hready', w, ⟨hlength, hall, rfl⟩, hahead'⟩ := ih hready hrest
      refine ⟨hready', toBits 3 v ++ vs.flatMap (toBits 3), ⟨?_, ?_, rfl⟩, ?_⟩
      · rw [List.length_cons, hlength]
      · exact List.forall_mem_cons.mpr ⟨hlt, hall⟩
      · rw [hahead, hahead', List.append_assoc]
  complete {r short w rest} hr hw h := by
    obtain ⟨rfl, hall, rfl⟩ := hw
    induction short generalizing r with
    | nil => exact ⟨r, rfl, hr, h⟩
    | cons v vs ih =>
      obtain ⟨hlt, hall⟩ := List.forall_mem_cons.mp hall
      rw [List.flatMap_cons, List.append_assoc] at h
      obtain ⟨r₁, hbits, hready, h⟩ := BitReader.bits_complete hr hlt h
      obtain ⟨r₂, hrest, hready, h⟩ := ih hready hall h
      refine ⟨r₂, ?_, hready, h⟩
      simp only [List.length_cons, shortLengths, hbits, hrest, Except.map]

theorem lengthRun_sound {last : Option Nat} {symbol length n : Nat} {r r' : BitReader}
    (hr : r.Ready) (hsymbol : 16 ≤ symbol) (h : lengthRun last symbol r = .ok (length, n, r')) :
    r'.Ready ∧ ∃ w, Run last symbol length n w ∧ r.ahead = w ++ r'.ahead := by
  unfold lengthRun at h
  split at h
  · rename_i hagain
    subst hagain
    cases last with
    | none => cases h
    | some last =>
      obtain ⟨⟨v, r₁⟩, hbits, heq⟩ := map_eq_ok.mp h
      obtain ⟨rfl, rfl, rfl⟩ : last = length ∧ v + 3 = n ∧ r₁ = r' := by simpa using heq
      obtain ⟨hready, hlt, hahead⟩ := BitReader.bits_sound hr hbits
      exact ⟨hready, _, .again hlt, hahead⟩
  split at h
  · rename_i hzeros
    subst hzeros
    obtain ⟨⟨v, r₁⟩, hbits, heq⟩ := map_eq_ok.mp h
    obtain ⟨rfl, rfl, rfl⟩ : 0 = length ∧ v + 3 = n ∧ r₁ = r' := by simpa using heq
    obtain ⟨hready, hlt, hahead⟩ := BitReader.bits_sound hr hbits
    exact ⟨hready, _, .zeros hlt, hahead⟩
  · obtain ⟨⟨v, r₁⟩, hbits, heq⟩ := map_eq_ok.mp h
    obtain ⟨rfl, rfl, rfl⟩ : 0 = length ∧ v + 11 = n ∧ r₁ = r' := by simpa using heq
    obtain ⟨hready, hlt, hahead⟩ := BitReader.bits_sound hr hbits
    exact ⟨hready, _, .manyZeros (by omega) hlt, hahead⟩

theorem lengthRun_complete {last : Option Nat} {symbol length n : Nat} {r : BitReader}
    {w rest : List Bool} (hr : r.Ready) (hw : Run last symbol length n w)
    (h : r.ahead = w ++ rest) :
    ∃ r', lengthRun last symbol r = .ok (length, n, r') ∧ r'.Ready ∧ r'.ahead = rest := by
  cases hw with
  | again hlt =>
    obtain ⟨r₁, hbits, hready, h⟩ := BitReader.bits_complete hr hlt h
    exact ⟨r₁, by simp only [lengthRun, hbits, Except.map, if_pos], hready, h⟩
  | zeros hlt =>
    obtain ⟨r₁, hbits, hready, h⟩ := BitReader.bits_complete hr hlt h
    exact ⟨r₁, by simp [lengthRun, hbits, Except.map], hready, h⟩
  | manyZeros hsymbol hlt =>
    obtain ⟨r₁, hbits, hready, h⟩ := BitReader.bits_complete hr hlt h
    refine ⟨r₁, ?_, hready, h⟩
    unfold lengthRun
    rw [if_neg (by omega), if_neg (by omega), hbits]
    rfl

theorem head?_replicate_append {n : Nat} (hn : n ≠ 0) (a : Nat) (l : List Nat) :
    (List.replicate n a ++ l).head? = some a := by
  obtain ⟨n, rfl⟩ := Nat.exists_eq_succ_of_ne_zero hn
  rfl

theorem Run.ne_zero {last : Option Nat} {symbol length n : Nat} {w : List Bool}
    (h : Run last symbol length n w) : n ≠ 0 := by
  cases h <;> omega

theorem codeLengths_sound {code : List Nat} {total fuel count : Nat} {before lengths : List Nat}
    {r r' : BitReader} (hr : r.Ready) (hcount : before.length = count)
    (h : codeLengths (canonical code) total fuel before count r = .ok (lengths, r')) :
    r'.Ready ∧ lengths.length = total ∧ ∃ more w, lengths = before.reverse ++ more ∧
      Tells code before.head? more w ∧ r.ahead = w ++ r'.ahead := by
  induction fuel generalizing before count r with
  | zero => cases h
  | succ fuel ih =>
    unfold codeLengths at h
    split at h
    · rename_i htotal
      obtain ⟨rfl, rfl⟩ := Prod.mk.inj (Except.ok.inj h)
      refine ⟨hr, ?_, [], [], (List.append_nil _).symm, .done, rfl⟩
      rw [List.length_reverse, hcount, htotal]
    split at h
    · cases h
    split at h
    · cases h
    rename_i symbol r₁ hsymbol
    obtain ⟨hready, u, hu, hahead⟩ := (Huffman.reads_decode code).sound hr hsymbol
    split at h
    · rename_i hlength
      obtain ⟨hready', htotal, more, v, rfl, hmore, hahead'⟩ := ih hready (by
        rw [List.length_cons, hcount]) h
      refine ⟨hready', htotal, symbol :: more, u ++ v, ?_, .single hlength hu hmore, ?_⟩
      · rw [List.reverse_cons, List.append_assoc]
        rfl
      · rw [hahead, hahead', List.append_assoc]
    · rename_i hmany
      split at h
      · cases h
      rename_i length n r₂ hrepeated
      obtain ⟨hready, v, hv, hahead'⟩ := lengthRun_sound hready (by omega) hrepeated
      obtain ⟨hready', htotal, more, x, rfl, hmore, hahead''⟩ := ih hready (by
        rw [List.length_append, List.length_replicate, hcount, Nat.add_comm]) h
      rw [head?_replicate_append hv.ne_zero] at hmore
      refine ⟨hready', htotal, List.replicate n length ++ more, u ++ (v ++ x), ?_,
        .run (by omega) hu hv hmore, ?_⟩
      · rw [List.reverse_append, List.reverse_replicate, List.append_assoc]
      · rw [hahead, hahead', hahead'', List.append_assoc, List.append_assoc]

theorem codeLengths_complete {code : List Nat} {total fuel count : Nat} {before more : List Nat}
    {last : Option Nat} {r : BitReader} {w rest : List Bool} (hr : r.Ready)
    (hw : Tells code last more w) (h : r.ahead = w ++ rest) (hlast : before.head? = last)
    (htotal : count + more.length = total) (hfuel : more.length < fuel) :
    ∃ r', codeLengths (canonical code) total fuel before count r =
      .ok (before.reverse ++ more, r') ∧ r'.Ready ∧ r'.ahead = rest := by
  -- One round for each length is enough, and one more to see that they are all there.
  obtain ⟨fuel, rfl⟩ := Nat.exists_eq_succ_of_ne_zero (Nat.ne_zero_of_lt hfuel)
  induction hw generalizing r fuel before count with
  | done =>
    refine ⟨r, ?_, hr, h⟩
    rw [codeLengths, if_pos (show count = total from htotal), List.append_nil]
  | @single last length more u v hlength hcode hmore ih =>
    rw [List.append_assoc] at h
    rw [List.length_cons] at htotal hfuel
    obtain ⟨fuel, rfl⟩ := Nat.exists_eq_succ_of_ne_zero (show fuel ≠ 0 by omega)
    obtain ⟨r₁, hsymbol, hready, h⟩ := (Huffman.reads_decode code).complete hr hcode h
    obtain ⟨r₂, hrest, hready, h⟩ := ih hready h
      (show (length :: before).head? = some length from rfl)
      (show count + 1 + more.length = total by omega) fuel (by omega)
    refine ⟨r₂, ?_, hready, h⟩
    rw [codeLengths, if_neg (by omega), if_neg (by omega), hsymbol]
    dsimp only
    rw [if_pos hlength, hrest, List.reverse_cons, List.append_assoc]
    rfl
  | @run last symbol length n more u v x hsymbol hcode hrun hmore ih =>
    have hn := hrun.ne_zero
    rw [List.append_assoc, List.append_assoc] at h
    rw [List.length_append, List.length_replicate] at htotal hfuel
    obtain ⟨fuel, rfl⟩ := Nat.exists_eq_succ_of_ne_zero (show fuel ≠ 0 by omega)
    obtain ⟨r₁, hread, hready, h⟩ := (Huffman.reads_decode code).complete hr hcode h
    obtain ⟨r₂, hrepeated, hready, h⟩ := lengthRun_complete hready hrun h
    obtain ⟨r₃, hrest, hready, h⟩ := ih hready h (head?_replicate_append hn length before)
      (show count + n + more.length = total by omega) fuel (by omega)
    refine ⟨r₃, ?_, hready, h⟩
    rw [codeLengths, if_neg (by omega), if_neg (by omega), hread]
    dsimp only
    rw [if_neg (by omega), hlast, hrepeated]
    dsimp only
    rw [hrest, List.reverse_append, List.reverse_replicate, List.append_assoc]

/-- The code for lengths, of which a block gives the first lengths in an order of their own. -/
def placed (short : List Nat) : List Nat :=
  (List.range 19).map fun s => ((lengthOrder.zip short).lookup s).getD 0

structure OwnCodes (literals distances : List Nat) (w : List Bool) : Prop where
  literals_ge : 257 ≤ literals.length
  literals_le : literals.length ≤ 286
  distances_pos : 0 < distances.length
  distances_le : distances.length ≤ 30
  literals_usable : Usable literals
  distances_usable : Usable distances
  told : ∃ n short u v, n < 2 ^ 4 ∧ ShortLengths (n + 4) short u ∧
    Huffman.complete (Huffman.countsOf (placed short)) = true ∧
    Tells (placed short) none (literals ++ distances) v ∧
    w = toBits 5 (literals.length - 257) ++
      (toBits 5 (distances.length - 1) ++ (toBits 4 n ++ (u ++ v)))

theorem ownCodes_sound {literals distances : Huffman} {r r' : BitReader} (hr : r.Ready)
    (h : ownCodes r = .ok (literals, distances, r')) :
    r'.Ready ∧ ∃ literals' distances' w, literals = canonical literals' ∧
      distances = canonical distances' ∧ OwnCodes literals' distances' w ∧
      r.ahead = w ++ r'.ahead := by
  obtain ⟨⟨hlit, r₁⟩, hliterals, h⟩ := bind_eq_ok.mp h
  obtain ⟨⟨hdist, r₂⟩, hdistances, h⟩ := bind_eq_ok.mp h
  obtain ⟨⟨hclen, r₃⟩, hgiven, h⟩ := bind_eq_ok.mp h
  dsimp only at h
  split at h
  · cases h
  rename_i hfew
  obtain ⟨⟨short, r₄⟩, hshort, h⟩ := bind_eq_ok.mp h
  obtain ⟨code, hcode, h⟩ := bind_eq_ok.mp h
  obtain ⟨⟨lengths, r₅⟩, hlengths, h⟩ := bind_eq_ok.mp h
  obtain ⟨literals', hliteralCode, h⟩ := bind_eq_ok.mp h
  obtain ⟨distances', hdistanceCode, h⟩ := bind_eq_ok.mp h
  obtain ⟨rfl, rfl, rfl⟩ : literals' = literals ∧ distances' = distances ∧ r₅ = r' := by
    simpa using Except.ok.inj h
  obtain ⟨hready, hltLiterals, hahead₁⟩ := BitReader.bits_sound hr hliterals
  obtain ⟨hready, hltDistances, hahead₂⟩ := BitReader.bits_sound hready hdistances
  obtain ⟨hready, hltGiven, hahead₃⟩ := BitReader.bits_sound hready hgiven
  obtain ⟨hready, u, hu, hahead₄⟩ := (reads_shortLengths _).sound hready hshort
  obtain ⟨hcomplete, rfl⟩ := Huffman.ofLengths_eq_ok.mp hcode
  obtain ⟨hready, htotal, _, v, rfl, hlengths, hahead₅⟩ := codeLengths_sound hready rfl hlengths
  obtain ⟨hliteralUsable, rfl⟩ := Huffman.ofFewLengths_eq_ok.mp hliteralCode
  obtain ⟨hdistanceUsable, rfl⟩ := Huffman.ofFewLengths_eq_ok.mp hdistanceCode
  have hlengthLiterals : (lengths.take (hlit + 257)).length = hlit + 257 := by
    rw [List.length_take, htotal]
    omega
  have hlengthDistances : (lengths.drop (hlit + 257)).length = hdist + 1 := by
    rw [List.length_drop, htotal]
    omega
  refine ⟨hready, lengths.take (hlit + 257), lengths.drop (hlit + 257), _, rfl, rfl,
    ⟨by omega, by omega, by omega, by omega, hliteralUsable, hdistanceUsable,
      ⟨hclen, short, u, v, hltGiven, hu, hcomplete, ?_, rfl⟩⟩, ?_⟩
  · rwa [List.take_append_drop]
  · rw [hlengthLiterals, hlengthDistances, Nat.add_sub_cancel, Nat.add_sub_cancel, hahead₁,
      hahead₂, hahead₃, hahead₄, hahead₅]
    simp only [List.append_assoc]

theorem ownCodes_complete {literals distances : List Nat} {r : BitReader} {w rest : List Bool}
    (hr : r.Ready) (hw : OwnCodes literals distances w) (h : r.ahead = w ++ rest) :
    ∃ r', ownCodes r = .ok (canonical literals, canonical distances, r') ∧ r'.Ready ∧
      r'.ahead = rest := by
  obtain ⟨n, short, u, v, hn, hu, hcomplete, hv, rfl⟩ := hw.told
  have hliteralsGe := hw.literals_ge
  have hliteralsLe := hw.literals_le
  have hdistancesPos := hw.distances_pos
  have hdistancesLe := hw.distances_le
  simp only [List.append_assoc] at h
  obtain ⟨r₁, hliterals, hready, h⟩ := BitReader.bits_complete hr (by omega) h
  obtain ⟨r₂, hdistances, hready, h⟩ := BitReader.bits_complete hready (by omega) h
  obtain ⟨r₃, hgiven, hready, h⟩ := BitReader.bits_complete hready hn h
  obtain ⟨r₄, hshort, hready, h⟩ := (reads_shortLengths _).complete hready hu h
  have hcode := Huffman.ofLengths_eq_ok.mpr ⟨hcomplete, rfl⟩
  have hliteralsLength : literals.length - 257 + 257 = literals.length := by omega
  have hdistancesLength : distances.length - 1 + 1 = distances.length := by omega
  obtain ⟨r₅, hlengths, hready, h⟩ := codeLengths_complete hready hv h
    (show ([] : List Nat).head? = none from rfl)
    (show 0 + (literals ++ distances).length = literals.length + distances.length by simp)
    (show (literals ++ distances).length < literals.length + distances.length + 1 by simp)
  have hliteralCode := Huffman.ofFewLengths_eq_ok.mpr ⟨hw.literals_usable, rfl⟩
  have hdistanceCode := Huffman.ofFewLengths_eq_ok.mpr ⟨hw.distances_usable, rfl⟩
  refine ⟨r₅, ?_, hready, h⟩
  rw [placed] at hcode hlengths
  simp only [ownCodes, hliterals, hdistances, hgiven, hshort, hcode, bind, Except.bind]
  rw [if_neg (by omega)]
  simp only [hliteralsLength, hdistancesLength, hlengths, List.reverse_nil, List.nil_append,
    List.take_left, List.drop_left, hliteralCode, hdistanceCode]

end TableLR.Deflate
