import TableLR.Proofs.Blob.RoundTrip

/-! The letters of a payload. Reading takes exactly what writing produces, so each byte string has
one written form, and blanks between the letters change nothing. -/
namespace TableLR

namespace Base64

theorem letter_of_value? {c : Char} {n : Nat} (h : value? c = some n) : n < 64 ∧ letter n = c := by
  -- Only characters below 128 are letters, and those can be gone through.
  have hascii : ∀ k < 128, ∀ n ∈ value? (Char.ofNat k), n < 64 ∧ letter n = Char.ofNat k := by
    decide
  have hlt : c.toNat < 128 := by
    by_contra hge
    have hplus : c ≠ '+' := fun hc => hge (hc ▸ by decide)
    have hslash : c ≠ '/' := fun hc => hge (hc ▸ by decide)
    unfold value? at h
    simp only [hplus, hslash, if_false] at h
    rw [if_neg (by omega), if_neg (by omega), if_neg (by omega)] at h
    cases h
  have hletter := hascii c.toNat hlt n
  rw [Char.ofNat_toNat] at hletter
  exact hletter h

/-- Three bytes are written as four letters. -/
theorem encode_group {p q r s : Nat} (hp : p < 64) (hq : q < 64) (hr : r < 64) (hs : s < 64)
    (rest : List UInt8) :
    encode (UInt8.ofNat (p * 4 + q / 16) :: UInt8.ofNat (q % 16 * 16 + r / 4) ::
        UInt8.ofNat (r % 4 * 64 + s) :: rest) =
      letter p :: letter q :: letter r :: letter s :: encode rest := by
  rw [encode]
  simp only [UInt8.toNat_ofNat', Nat.reducePow]
  rw [show (p * 4 + q / 16) % 256 / 4 = p by omega,
    show (p * 4 + q / 16) % 256 % 4 * 16 + (q % 16 * 16 + r / 4) % 256 / 16 = q by omega,
    show (q % 16 * 16 + r / 4) % 256 % 16 * 4 + (r % 4 * 64 + s) % 256 / 64 = r by omega,
    show (r % 4 * 64 + s) % 256 % 64 = s by omega]

theorem encode_one_pad {p q r : Nat} (hp : p < 64) (hq : q < 64) (hr : r < 64)
    (hzero : r % 4 = 0) :
    encode [UInt8.ofNat (p * 4 + q / 16), UInt8.ofNat (q % 16 * 16 + r / 4)] =
      [letter p, letter q, letter r, '='] := by
  rw [encode]
  simp only [UInt8.toNat_ofNat', Nat.reducePow]
  rw [show (p * 4 + q / 16) % 256 / 4 = p by omega,
    show (p * 4 + q / 16) % 256 % 4 * 16 + (q % 16 * 16 + r / 4) % 256 / 16 = q by omega,
    show (q % 16 * 16 + r / 4) % 256 % 16 * 4 = r by omega]

theorem encode_two_pads {p q : Nat} (hp : p < 64) (hq : q < 64) (hzero : q % 16 = 0) :
    encode [UInt8.ofNat (p * 4 + q / 16)] = [letter p, letter q, '=', '='] := by
  rw [encode]
  simp only [UInt8.toNat_ofNat', Nat.reducePow]
  rw [show (p * 4 + q / 16) % 256 / 4 = p by omega,
    show (p * 4 + q / 16) % 256 % 4 * 16 = q by omega]

/-- What a letter that is read stands for. -/
theorem value?_bind_eq_some {α : Type} {c : Char} {next : Nat → Option α} {a : α} :
    (value? c >>= next) = some a → ∃ n < 64, letter n = c ∧ next n = some a := by
  intro h
  obtain ⟨n, hn, h⟩ := Option.bind_eq_some_iff.mp h
  obtain ⟨hlt, hletter⟩ := letter_of_value? hn
  exact ⟨n, hlt, hletter, h⟩

theorem encode_of_decodeLast {p q r s : Char} {bytes : List UInt8}
    (h : decodeLast p q r s = some bytes) : encode bytes = [p, q, r, s] := by
  unfold decodeLast at h
  split at h
  · obtain ⟨p', hp, hp', h⟩ := value?_bind_eq_some h
    obtain ⟨q', hq, hq', h⟩ := value?_bind_eq_some h
    obtain ⟨hzero, h⟩ := Option.ite_none_right_eq_some.mp h
    obtain rfl := Option.some.inj h
    rw [encode_two_pads hp hq hzero, hp', hq']
  · obtain ⟨p', hp, hp', h⟩ := value?_bind_eq_some h
    obtain ⟨q', hq, hq', h⟩ := value?_bind_eq_some h
    obtain ⟨r', hr, hr', h⟩ := value?_bind_eq_some h
    obtain ⟨hzero, h⟩ := Option.ite_none_right_eq_some.mp h
    obtain rfl := Option.some.inj h
    rw [encode_one_pad hp hq hr hzero, hp', hq', hr']
  · obtain ⟨p', hp, hp', h⟩ := value?_bind_eq_some h
    obtain ⟨q', hq, hq', h⟩ := value?_bind_eq_some h
    obtain ⟨r', hr, hr', h⟩ := value?_bind_eq_some h
    obtain ⟨s', hs, hs', h⟩ := value?_bind_eq_some h
    obtain rfl := Option.some.inj h
    rw [encode_group hp hq hr hs, hp', hq', hr', hs', encode]

theorem encode_of_decode {letters : List Char} {bytes : List UInt8}
    (h : decode letters = some bytes) : encode bytes = letters := by
  fun_induction decode letters generalizing bytes with
  | case1 =>
    obtain rfl := Option.some.inj h
    rfl
  | case2 p q r s => exact encode_of_decodeLast h
  | case3 p q r s rest hrest ih =>
    obtain ⟨p', hp, hp', h⟩ := value?_bind_eq_some h
    obtain ⟨q', hq, hq', h⟩ := value?_bind_eq_some h
    obtain ⟨r', hr, hr', h⟩ := value?_bind_eq_some h
    obtain ⟨s', hs, hs', h⟩ := value?_bind_eq_some h
    obtain ⟨bytes', hbytes, h⟩ := Option.bind_eq_some_iff.mp h
    obtain rfl := Option.some.inj h
    rw [encode_group hp hq hr hs, ih hbytes, hp', hq', hr', hs']
  | case4 => cases h

/-- What is read is exactly what is written for the bytes that come out. -/
theorem decode_eq_some_iff {letters : List Char} {bytes : List UInt8} :
    decode letters = some bytes ↔ letters = encode bytes :=
  ⟨fun h => (encode_of_decode h).symm, fun h => h ▸ decode_encode bytes⟩

end Base64

namespace Blob

/-- A text with blanks added at any places. -/
inductive Spaced : List Char → List Char → Prop
  | done : Spaced [] []
  | blank {c : Char} {letters text : List Char} (hblank : isPayloadBlank c = true)
      (h : Spaced letters text) : Spaced letters (c :: text)
  | letter {c : Char} {letters text : List Char} (h : Spaced letters text) :
      Spaced (c :: letters) (c :: text)

def letters (text : String) : List Char := text.toList.filter fun c => !isPayloadBlank c

theorem Spaced.filter_eq {letters text : List Char} (h : Spaced letters text) :
    (text.filter fun c => !isPayloadBlank c) = letters.filter fun c => !isPayloadBlank c := by
  induction h with
  | done => rfl
  | blank hblank h ih => rw [List.filter_cons, hblank, ih]; rfl
  | letter h ih => rw [List.filter_cons, List.filter_cons, ih]

theorem decode_of_letters_eq {b : Blob} {text : String} (h : letters text = letters b.payload) :
    ({ b with payload := text } : Blob).decode = b.decode := by
  unfold decode decodeWith
  rw [← letters, ← letters, h]
  rfl

/-- A blob holds the matrix that was written into it, also when its payload is broken up by blanks
at any places. -/
theorem written_matrix_reads_back (name : String) {m : WordMatrix}
    (hsize : m.rows * m.cols * 4 < sizeLimit) : (encode name m).decode = .ok m ∧
      ∀ text : String, Spaced (encode name m).payload.toList text.toList →
        ({ encode name m with payload := text } : Blob).decode = .ok m := by
  have hread := decode_encode name hsize
  exact ⟨hread, fun text hspaced => (decode_of_letters_eq hspaced.filter_eq).trans hread⟩

theorem Spaced.broken_up (letters : List Char) :
    Spaced letters (letters.flatMap fun c => [c, '\n']) := by
  induction letters with
  | nil => exact .done
  | cons c letters ih => exact .letter (.blank rfl ih)

theorem broken_up_payload_reads_back :
    let m := WordMatrix.ofFn 2 3 fun r c => UInt32.ofNat (0x80000000 * r + c)
    let lines := (encode "t" m).payload.toList.flatMap fun c => [c, '\n']
    ({ encode "t" m with payload := String.ofList lines } : Blob).decode = .ok m := by
  refine (written_matrix_reads_back "t" (show 2 * 3 * 4 < sizeLimit by decide)).2 _ ?_
  rw [String.toList_ofList]
  exact .broken_up _

end Blob

end TableLR
