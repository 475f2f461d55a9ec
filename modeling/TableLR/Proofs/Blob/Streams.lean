import TableLR.Proofs.Blob.Format
import TableLR.Proofs.Blob.RoundTrip

/-! Streams of blocks and the container around them: which bytes begin with one, and which data it
holds. Reading gets to the end of a container exactly where there is a whole one. -/
namespace TableLR

theorem bitsOf_injective : Function.Injective bitsOf := by
  intro bytes bytes' h
  induction bytes generalizing bytes' with
  | nil =>
    have hlength := congrArg List.length h
    rw [length_bitsOf, length_bitsOf, List.length_nil] at hlength
    exact (List.eq_nil_of_length_eq_zero (by omega)).symm
  | cons b bytes ih =>
    cases bytes' with
    | nil =>
      have hlength := congrArg List.length h
      rw [length_bitsOf, length_bitsOf, List.length_cons, List.length_nil] at hlength
      omega
    | cons b' bytes' =>
      rw [bitsOf_cons, bitsOf_cons] at h
      obtain ⟨hbyte, hrest⟩ := List.append_inj h (by
        rw [Deflate.length_toBits, Deflate.length_toBits])
      rw [ih hrest, UInt8.toNat_inj.mp (Deflate.toBits_injective b.toNat_lt b'.toNat_lt hbyte)]

/-- The next byte boundary is where whole bytes are ahead behind less than one. -/
theorem BitReader.Ready.aligned_eq {r : BitReader} (hr : r.Ready) {pad : List Bool}
    {bytes : List UInt8} (hpad : pad.length < 8) (h : r.ahead = pad ++ bitsOf bytes) :
    r.aligned = bytes := by
  obtain ⟨pad', hpad', hahead⟩ := hr.ahead_eq
  rw [hahead] at h
  -- Both paddings are less than a byte in front of whole ones, so they have the same length.
  have hlength := congrArg List.length h
  rw [List.length_append, List.length_append, length_bitsOf, length_bitsOf] at hlength
  exact bitsOf_injective (List.append_inj h (by omega)).2

namespace Deflate

open TableLR.Huffman (canonical)
open TableLR.Deflate.Field (toBits)

/-- The pieces of a block of some kind between the bits ahead and those behind. A stored block
starts at a byte boundary, and its length stands there twice. -/
inductive Block : Nat → List Piece → List Bool → List Bool → Prop
  | stored {pad : List Bool} {a b c d : UInt8} {bytes rest : List UInt8} (hpad : pad.length < 8)
      (hlength : bytes.length = a.toNat + 256 * b.toNat)
      (hcheck : bytes.length + (c.toNat + 256 * d.toNat) = 65535) :
      Block 0 (bytes.map .literal) (pad ++ bitsOf (a :: b :: c :: d :: (bytes ++ rest)))
        (bitsOf rest)
  | fixed {pieces : List Piece} {w behind : List Bool}
      (h : Body fixedLiteralLengths fixedDistanceLengths pieces w) :
      Block 1 pieces (w ++ behind) behind
  | own {literals distances : List Nat} {pieces : List Piece} {u v behind : List Bool}
      (hcodes : OwnCodes literals distances u) (h : Body literals distances pieces v) :
      Block 2 pieces (u ++ (v ++ behind)) behind

inductive Blocks : List Piece → List Bool → List Bool → Prop
  | last {kind : Nat} {pieces : List Piece} {ahead behind : List Bool}
      (h : Block kind pieces ahead behind) :
      Blocks pieces (true :: (toBits 2 kind ++ ahead)) behind
  | more {kind : Nat} {pieces pieces' : List Piece} {ahead next behind : List Bool}
      (h : Block kind pieces ahead next) (hmore : Blocks pieces' next behind) :
      Blocks (pieces ++ pieces') (false :: (toBits 2 kind ++ ahead)) behind

theorem writeAll_append (out : Array UInt8) (pieces pieces' : List Piece) :
    writeAll out (pieces ++ pieces') = writeAll (writeAll out pieces) pieces' :=
  List.foldl_append

theorem writeAll_literals (out : Array UInt8) (bytes : List UInt8) :
    writeAll out (bytes.map .literal) = out ++ bytes.toArray := by
  induction bytes generalizing out with
  | nil => simp [writeAll]
  | cons b bytes ih =>
    rw [List.map_cons, writeAll, List.foldl_cons]
    exact (ih (out.push b)).trans (by simp)

theorem storedBytes_eq_ok {n : Nat} {bytes rest : List UInt8} {out out' : Array UInt8}
    (h : storedBytes n bytes out = (out', .ok rest)) :
    ∃ taken, taken.length = n ∧ bytes = taken ++ rest ∧ out' = out ++ taken.toArray := by
  induction n generalizing bytes out with
  | zero =>
    obtain ⟨rfl, hrest⟩ := Prod.mk.inj h
    exact ⟨[], rfl, Except.ok.inj hrest, by simp⟩
  | succ n ih =>
    cases bytes with
    | nil => cases h
    | cons b bytes =>
      obtain ⟨taken, rfl, rfl, rfl⟩ := ih h
      exact ⟨b :: taken, rfl, rfl, by simp⟩

theorem stored_sound {r r' : BitReader} {out out' : Array UInt8} (hr : r.Ready)
    (h : stored r out = (out', .ok r')) :
    r'.Ready ∧ ∃ pieces, Block 0 pieces r.ahead r'.ahead ∧ out' = writeAll out pieces := by
  obtain ⟨pad, hpad, hahead⟩ := hr.ahead_eq
  unfold stored at h
  split at h
  · rename_i a b c d bytes haligned
    dsimp only at h
    split at h
    · rename_i hcheck
      obtain ⟨hout, hrest⟩ := Prod.mk.inj h
      obtain ⟨rest, hbytes, rfl⟩ := map_eq_ok.mp hrest
      obtain ⟨taken, hlength, rfl, hout'⟩ := storedBytes_eq_ok (Prod.ext rfl hbytes)
      refine ⟨BitReader.ready_ofBytes rest, taken.map .literal, ?_, ?_⟩
      · rw [hahead, haligned, BitReader.ahead_ofBytes]
        exact .stored hpad hlength (hlength ▸ hcheck)
      · rw [writeAll_literals, ← hout]
        exact hout'
    · cases h
  · cases h

theorem stored_complete {r : BitReader} {out : Array UInt8} {pad : List Bool} {a b c d : UInt8}
    {bytes rest : List UInt8} (hr : r.Ready) (hpad : pad.length < 8)
    (hlength : bytes.length = a.toNat + 256 * b.toNat)
    (hcheck : bytes.length + (c.toNat + 256 * d.toNat) = 65535)
    (h : r.ahead = pad ++ bitsOf (a :: b :: c :: d :: (bytes ++ rest))) :
    stored r out = (writeAll out (bytes.map .literal), .ok (.ofBytes rest)) := by
  rw [stored, hr.aligned_eq hpad h]
  dsimp only
  rw [← hlength, if_pos hcheck, storedBytes_append, writeAll_literals]
  rfl

theorem fixedLiterals_eq : fixedLiterals = .ok (canonical fixedLiteralLengths) :=
  Huffman.ofLengths_eq_ok.mpr ⟨by decide +kernel, rfl⟩

theorem fixedDistances_eq : fixedDistances = .ok (canonical fixedDistanceLengths) :=
  Huffman.ofLengths_eq_ok.mpr ⟨by decide +kernel, rfl⟩

theorem block_sound {bits kind : Nat} {r r' : BitReader} {out out' : Array UInt8} (hr : r.Ready)
    (h : block bits kind r out = (out', .ok r')) :
    r'.Ready ∧ ∃ pieces, Block kind pieces r.ahead r'.ahead ∧ out' = writeAll out pieces := by
  unfold block at h
  split at h
  · rename_i hstored
    subst hstored
    exact stored_sound hr h
  split at h
  · cases h
  rename_i literals distances r₁ hcodes
  unfold blockCodes at hcodes
  split at hcodes
  · rename_i hfixed
    subst hfixed
    rw [fixedLiterals_eq, fixedDistances_eq] at hcodes
    obtain ⟨rfl, rfl, rfl⟩ : canonical fixedLiteralLengths = literals ∧
        canonical fixedDistanceLengths = distances ∧ r = r₁ := by
      simpa using Except.ok.inj hcodes
    obtain ⟨hready, pieces, w, hw, hahead, hout⟩ := symbols_sound hr h
    exact ⟨hready, pieces, hahead ▸ .fixed hw, hout⟩
  split at hcodes
  · rename_i hown
    subst hown
    obtain ⟨hready, literals', distances', u, rfl, rfl, hu, hahead⟩ := ownCodes_sound hr hcodes
    obtain ⟨hready, pieces, w, hw, hahead', hout⟩ := symbols_sound hready h
    refine ⟨hready, pieces, ?_, hout⟩
    rw [hahead, hahead']
    exact .own hu hw
  · cases hcodes

theorem block_complete {bits kind : Nat} {r : BitReader} {pieces : List Piece}
    {behind : List Bool} (out : Array UInt8) (hr : r.Ready)
    (hw : Block kind pieces r.ahead behind) (hbits : r.ahead.length ≤ bits) :
    ∃ r', block bits kind r out = (writeAll out pieces, .ok r') ∧ r'.Ready ∧
      r'.ahead = behind := by
  generalize hahead : r.ahead = ahead at hw hbits
  cases hw with
  | stored hpad hlength hcheck =>
    refine ⟨_, ?_, BitReader.ready_ofBytes _, BitReader.ahead_ofBytes _⟩
    rw [block, if_pos rfl, stored_complete hr hpad hlength hcheck hahead]
  | fixed hbody =>
    rw [List.length_append] at hbits
    obtain ⟨r₁, hsymbols, hready, hrest⟩ := symbols_complete out hr hbody hahead
      (show _ ≤ bits by omega)
    refine ⟨r₁, ?_, hready, hrest⟩
    simp only [block, blockCodes, fixedLiterals_eq, fixedDistances_eq, bind, Except.bind,
      if_true, Nat.one_ne_zero, if_false, hsymbols]
  | own hcodes hbody =>
    rw [List.length_append, List.length_append] at hbits
    obtain ⟨r₁, hown, hready, hahead⟩ := ownCodes_complete hr hcodes hahead
    obtain ⟨r₂, hsymbols, hready, hrest⟩ := symbols_complete out hready hbody hahead
      (show _ ≤ bits by omega)
    refine ⟨r₂, ?_, hready, hrest⟩
    rw [block, if_neg (by decide), blockCodes, if_neg (by decide), if_pos rfl, hown]
    exact hsymbols

theorem Block.length_le {kind : Nat} {pieces : List Piece} {ahead behind : List Bool}
    (h : Block kind pieces ahead behind) : behind.length ≤ ahead.length := by
  cases h with
  | stored =>
    simp only [List.length_append, length_bitsOf, List.length_cons]
    omega
  | fixed =>
    rw [List.length_append]
    omega
  | own =>
    rw [List.length_append, List.length_append]
    omega

theorem Block.kind_lt {kind : Nat} {pieces : List Piece} {ahead behind : List Bool}
    (h : Block kind pieces ahead behind) : kind < 3 := by
  cases h <;> decide

theorem blocks_sound {bits fuel : Nat} {r : BitReader} {out out' : Array UInt8}
    {rest : List UInt8} (hr : r.Ready) (h : blocks bits fuel r out = ⟨out', .ok rest⟩) :
    ∃ pieces pad, pad.length < 8 ∧ Blocks pieces r.ahead (pad ++ bitsOf rest) ∧
      out' = writeAll out pieces := by
  induction fuel generalizing r out with
  | zero => cases h
  | succ fuel ih =>
    unfold blocks at h
    split at h
    · cases h
    rename_i header r₁ hheader
    obtain ⟨hready, -, hahead⟩ := BitReader.bits_sound hr hheader
    split at h
    · cases h
    rename_i out₁ r₂ hblock
    obtain ⟨hready, pieces, hpieces, rfl⟩ := block_sound hready hblock
    rw [toBits, List.cons_append] at hahead
    split at h
    · rename_i hlast
      obtain ⟨rfl, hrest⟩ := Inflated.mk.inj h
      obtain rfl := Except.ok.inj hrest
      obtain ⟨pad, hpad, hend⟩ := hready.ahead_eq
      refine ⟨pieces, pad, hpad, ?_, rfl⟩
      rw [hahead, decide_eq_true hlast]
      exact .last (hend ▸ hpieces)
    · rename_i hmore
      obtain ⟨pieces', pad, hpad, hpieces', rfl⟩ := ih hready h
      refine ⟨pieces ++ pieces', pad, hpad, ?_, (writeAll_append ..).symm⟩
      rw [hahead, decide_eq_false hmore]
      exact .more hpieces hpieces'

theorem bits_header {kind : Nat} {last : Bool} {r : BitReader} {ahead : List Bool} (hr : r.Ready)
    (hkind : kind < 3) (h : r.ahead = last :: (toBits 2 kind ++ ahead)) :
    ∃ r', r.bits 3 = .ok (last.toNat + 2 * kind, r') ∧ r'.Ready ∧ r'.ahead = ahead := by
  have hlt := last.toNat_lt
  refine BitReader.bits_complete hr (by omega) (h.trans ?_)
  have hfirst : decide ((last.toNat + 2 * kind) % 2 = 1) = last := by cases last <;> simp
  rw [show toBits 3 (last.toNat + 2 * kind) = decide ((last.toNat + 2 * kind) % 2 = 1) ::
    toBits 2 ((last.toNat + 2 * kind) / 2) from rfl, hfirst,
    show (last.toNat + 2 * kind) / 2 = kind by omega]
  rfl

theorem blocks_complete {bits fuel : Nat} {r : BitReader} {pieces : List Piece}
    {ahead behind : List Bool} (out : Array UInt8) (hr : r.Ready)
    (hw : Blocks pieces ahead behind) (h : r.ahead = ahead)
    (hbits : ahead.length ≤ bits) (hfuel : ahead.length ≤ fuel) :
    ∃ r' : BitReader, blocks bits fuel r out = ⟨writeAll out pieces, .ok r'.aligned⟩ ∧ r'.Ready ∧
      r'.ahead = behind := by
  induction hw generalizing r fuel out with
  | last hblock =>
    rw [List.length_cons, List.length_append] at hbits hfuel
    obtain ⟨fuel, rfl⟩ := Nat.exists_eq_succ_of_ne_zero (show fuel ≠ 0 by omega)
    obtain ⟨r₁, hheader, hready, rfl⟩ := bits_header hr hblock.kind_lt h
    obtain ⟨r₂, hread, hready, hbehind⟩ := block_complete out hready hblock
      (show _ ≤ bits by omega)
    refine ⟨r₂, ?_, hready, hbehind⟩
    rw [blocks, hheader]
    dsimp only [Bool.toNat_true]
    rw [Nat.add_mul_div_left _ _ (by decide), Nat.add_mul_mod_self_left]
    simp only [Nat.reduceDiv, Nat.zero_add, hread, Nat.one_mod, if_true]
  | @more kind pieces pieces' ahead next behind hblock hmore ih =>
    rw [List.length_cons, List.length_append] at hbits hfuel
    have hle := hblock.length_le
    obtain ⟨fuel, rfl⟩ := Nat.exists_eq_succ_of_ne_zero (show fuel ≠ 0 by omega)
    obtain ⟨r₁, hheader, hready, rfl⟩ := bits_header hr hblock.kind_lt h
    obtain ⟨r₂, hread, hready, hnext⟩ := block_complete out hready hblock
      (show _ ≤ bits by omega)
    obtain ⟨r₃, hrest, hready, hbehind⟩ := ih (writeAll out pieces) hready hnext
      (by omega) (show _ ≤ fuel by omega)
    refine ⟨r₃, ?_, hready, hbehind⟩
    rw [blocks, hheader]
    dsimp only [Bool.toNat_false]
    rw [Nat.zero_add, Nat.mul_div_cancel_left _ (by decide), Nat.mul_mod_right]
    simp only [hread, Nat.zero_ne_one, if_false, hrest, writeAll_append]

/-- Bytes that begin with a stream of blocks, the data it holds and the bytes behind it. The
stream ends inside of a byte, the rest of which is left out. -/
def Begins (bytes : List UInt8) (data : Array UInt8) (rest : List UInt8) : Prop :=
  ∃ pieces pad, pad.length < 8 ∧ Blocks pieces (bitsOf bytes) (pad ++ bitsOf rest) ∧
    data = writeAll #[] pieces

/-- Inflating reads a stream to its end exactly where there is one. -/
theorem inflate_eq_iff {bytes rest : List UInt8} {data : Array UInt8} :
    inflate bytes = ⟨data, .ok rest⟩ ↔ Begins bytes data rest := by
  constructor
  · intro h
    obtain ⟨pieces, pad, hpad, hpieces, hdata⟩ := blocks_sound (BitReader.ready_ofBytes bytes) h
    exact ⟨pieces, pad, hpad, hpieces, hdata⟩
  · rintro ⟨pieces, pad, hpad, hpieces, rfl⟩
    have hlength := length_bitsOf bytes
    obtain ⟨r', hread, hready, hahead⟩ := blocks_complete #[]
      (BitReader.ready_ofBytes bytes) hpieces (BitReader.ahead_ofBytes bytes)
      (show _ ≤ 8 * bytes.length + 1 by omega) (show _ ≤ 8 * bytes.length + 1 by omega)
    rw [inflate, hread, hready.aligned_eq hpad hahead]

end Deflate

namespace Zlib

def Begins (bytes : List UInt8) (data : Array UInt8) : Prop :=
  ∃ method flags stream rest, bytes = method :: flags :: stream ∧ headerOk method flags = true ∧
    Deflate.Begins stream data (bigEndian (adler32 data) ++ rest)

theorem checksumStop_eq_none {data : Array UInt8} {rest : List UInt8} :
    checksumStop data rest = none ↔ ∃ more, rest = bigEndian (adler32 data) ++ more := by
  unfold checksumStop
  dsimp only
  constructor
  · intro h
    split at h
    · cases h
    split at h
    · rename_i hsame
      exact ⟨rest.drop 4, by rw [← hsame, List.take_append_drop]⟩
    · cases h
  · rintro ⟨more, rfl⟩
    have htake : (bigEndian (adler32 data) ++ more).take 4 = bigEndian (adler32 data) := rfl
    have hlength : ¬(bigEndian (adler32 data)).length < 4 := Nat.lt_irrefl 4
    rw [htake, if_neg hlength, if_pos rfl]

/-- A container is read to its end exactly where there is a whole one. -/
theorem decompress_eq_iff {bytes : List UInt8} {data : Array UInt8} :
    decompress bytes = ⟨data, none⟩ ↔ Begins bytes data := by
  constructor
  · intro h
    unfold decompress at h
    split at h
    · rename_i method flags stream
      split at h
      · rename_i hheader
        rcases hstream : Deflate.inflate stream with ⟨output, rest⟩
        rw [hstream] at h
        cases rest with
        | error stop => cases h
        | ok rest =>
          obtain ⟨rfl, hchecksum⟩ := Decompressed.mk.inj h
          obtain ⟨more, rfl⟩ := checksumStop_eq_none.mp hchecksum
          exact ⟨method, flags, stream, more, rfl, hheader, Deflate.inflate_eq_iff.mp hstream⟩
      · cases h
    · cases h
  · rintro ⟨method, flags, stream, rest, rfl, hheader, hstream⟩
    simp only [decompress, if_pos hheader, Deflate.inflate_eq_iff.mpr hstream]
    rw [checksumStop_eq_none.mpr ⟨rest, rfl⟩]

end Zlib

end TableLR
