import Mathlib.Tactic.Ring
import TableLR.Proofs.Blob.Bits

/-! Canonical codes. A code that is given by lengths reads a symbol exactly where the word of that
symbol is ahead, and the number of that word is told by the lengths alone. -/
namespace TableLR.Huffman

variable {lengths : List Nat}

def number : List Bool → Nat
  | [] => 0
  | b :: w => b.toNat * 2 ^ w.length + number w

def taken (lengths : List Nat) : Nat → Nat
  | 0 => 0
  | bits + 1 => 2 * taken lengths bits + lengths.count (bits + 1)

/-- The number of a code of `bits + 1` bits. Codes of one length are consecutive in symbol order,
and the first one follows all that begins with a shorter code. -/
def codeNumber (lengths : List Nat) (bits symbol : Nat) : Nat :=
  2 * taken lengths bits + (lengths.take symbol).count (bits + 1)

def IsCode (lengths : List Nat) (symbol : Nat) (w : List Bool) : Prop :=
  ∃ bits < maxLength, lengths[symbol]? = some (bits + 1) ∧ w.length = bits + 1 ∧
    number w = codeNumber lengths bits symbol

/-- A bit goes from a word to the number in front of it. -/
theorem shift_bit (code : Nat) (b : Bool) (w : List Bool) :
    code * 2 ^ (b :: w).length + number (b :: w) =
      (2 * code + b.toNat) * 2 ^ w.length + number w := by
  rw [number, List.length_cons, Nat.pow_succ]
  ring

theorem number_lt (w : List Bool) : number w < 2 ^ w.length := by
  induction w with
  | nil => decide
  | cons b w ih =>
    have hb := b.toNat_lt
    have hle := Nat.mul_le_mul_right (2 ^ w.length) (show b.toNat ≤ 1 by omega)
    rw [number, List.length_cons, Nat.pow_succ]
    omega

theorem IsCode.length_pos {symbol : Nat} {w : List Bool} (h : IsCode lengths symbol w) :
    0 < w.length := by
  obtain ⟨bits, _, _, hlength, _⟩ := h
  omega

/-- What begins with a code does so with all its further bits. -/
theorem taken_mul_le (lengths : List Nat) (bits more : Nat) :
    taken lengths bits * 2 ^ more ≤ taken lengths (bits + more) := by
  induction more with
  | zero => simp
  | succ more ih =>
    rw [← Nat.add_assoc, taken, Nat.pow_succ, ← Nat.mul_assoc]
    omega

/-- The number in front of the last bits of a code is behind all shorter codes. -/
theorem taken_le_of_codeNumber {bits more code symbol : Nat} {w : List Bool} (hle : bits ≤ more)
    (hw : bits + w.length = more + 1)
    (hnumber : code * 2 ^ w.length + number w = codeNumber lengths more symbol) :
    taken lengths bits ≤ code := by
  have hlast := number_lt w
  have hbegin := taken_mul_le lengths bits (more - bits)
  rw [Nat.add_sub_cancel' hle] at hbegin
  have hlength : w.length = more - bits + 1 := by omega
  rw [hlength, Nat.pow_succ] at hlast hnumber
  rw [codeNumber] at hnumber
  have hlt : taken lengths bits * (2 ^ (more - bits) * 2) < (code + 1) * (2 ^ (more - bits) * 2) := by
    rw [Nat.succ_mul, ← Nat.mul_assoc]
    omega
  exact Nat.le_of_lt_succ (Nat.lt_of_mul_lt_mul_right hlt)

def placesOf (number start : Nat) (numbers : List Nat) : List Nat :=
  ((numbers.zipIdx start).filter fun (n, _) => n = number).map Prod.snd

theorem placesOf_cons (number start n : Nat) (numbers : List Nat) :
    placesOf number start (n :: numbers) =
      if n = number then start :: placesOf number (start + 1) numbers
      else placesOf number (start + 1) numbers := by
  rw [placesOf, List.zipIdx_cons, List.filter_cons]
  by_cases h : n = number
  · simp [h, placesOf]
  · simp [h, placesOf]

theorem length_placesOf (number start : Nat) (numbers : List Nat) :
    (placesOf number start numbers).length = numbers.count number := by
  induction numbers generalizing start with
  | nil => rfl
  | cons n numbers ih =>
    rw [placesOf_cons, List.count_cons]
    by_cases h : n = number
    · simp [h, ih]
    · simp [h, ih]

theorem le_of_mem_placesOf {number start place : Nat} {numbers : List Nat}
    (h : place ∈ placesOf number start numbers) : start ≤ place := by
  obtain ⟨⟨n, p⟩, hmem, rfl⟩ := List.mem_map.mp h
  exact List.le_snd_of_mem_zipIdx (List.mem_filter.mp hmem).1

/-- A place comes as late as the number stands before it. -/
theorem getElem?_placesOf {number start k place : Nat} {numbers : List Nat} :
    (placesOf number start numbers)[k]? = some (start + place) ↔
      numbers[place]? = some number ∧ (numbers.take place).count number = k := by
  induction numbers generalizing start k place with
  | nil => simp [placesOf]
  | cons n numbers ih =>
    have hfirst : ∀ k : Nat, (placesOf number (start + 1) numbers)[k]? ≠ some start := by
      intro k hk
      have hle := le_of_mem_placesOf (List.mem_of_getElem? hk)
      omega
    rw [placesOf_cons]
    cases place with
    | zero =>
      by_cases h : n = number
      · cases k with
        | zero => simp [h]
        | succ k => simp [h, hfirst]
      · simp [h, hfirst]
    | succ place =>
      have hnext : start + (place + 1) = start + 1 + place := by omega
      rw [hnext, List.getElem?_cons_succ, List.take_succ_cons, List.count_cons]
      by_cases h : n = number
      · cases k with
        | zero =>
          simp only [h, if_true, List.getElem?_cons_zero, Option.some.injEq, beq_self_eq_true]
          omega
        | succ k => simp [h, ih]
      · simp [h, ih]

def canonical (lengths : List Nat) : Huffman := ⟨countsOf lengths, (symbolsOf lengths).toArray⟩

def symbolsWith (lengths : List Nat) (bits : Nat) : List Nat := placesOf (bits + 1) 0 lengths

theorem length_symbolsWith (lengths : List Nat) (bits : Nat) :
    (symbolsWith lengths bits).length = lengths.count (bits + 1) :=
  length_placesOf _ _ _

theorem getElem?_symbolsWith {bits k symbol : Nat} :
    (symbolsWith lengths bits)[k]? = some symbol ↔
      lengths[symbol]? = some (bits + 1) ∧ (lengths.take symbol).count (bits + 1) = k := by
  have h : (placesOf (bits + 1) 0 lengths)[k]? = some (0 + symbol) ↔
      lengths[symbol]? = some (bits + 1) ∧ (lengths.take symbol).count (bits + 1) = k :=
    getElem?_placesOf
  rwa [Nat.zero_add] at h

/-- Symbols from `index` on are those with codes of more than `bits` bits. -/
def Continues (lengths : List Nat) (symbols : Array Nat) (index bits levels : Nat) : Prop :=
  symbols.toList.drop index = (List.range' bits levels).flatMap (symbolsWith lengths)

namespace Continues

variable {symbols : Array Nat} {index bits levels : Nat}

theorem drop_eq (h : Continues lengths symbols index bits (levels + 1)) :
    symbols.toList.drop index = symbolsWith lengths bits ++
      (List.range' (bits + 1) levels).flatMap (symbolsWith lengths) := by
  rw [h, List.range'_succ, List.flatMap_cons]

theorem getElem? (h : Continues lengths symbols index bits (levels + 1)) {k : Nat}
    (hk : k < lengths.count (bits + 1)) :
    symbols[index + k]? = (symbolsWith lengths bits)[k]? := by
  rw [← length_symbolsWith] at hk
  rw [← Array.getElem?_toList, ← List.getElem?_drop, h.drop_eq, List.getElem?_append_left hk]

theorem next (h : Continues lengths symbols index bits (levels + 1)) :
    Continues lengths symbols (index + lengths.count (bits + 1)) (bits + 1) levels := by
  rw [Continues, ← List.drop_drop, h.drop_eq, ← length_symbolsWith, List.drop_left]

theorem lt_size (h : Continues lengths symbols index bits levels) {more symbol : Nat}
    (hle : bits ≤ more) (hlt : more < bits + levels) (hsymbol : lengths[symbol]? = some (more + 1)) :
    index < symbols.size := by
  have hmem : symbol ∈ symbols.toList.drop index := by
    rw [h]
    have hplace := getElem?_symbolsWith.mpr ⟨hsymbol, rfl⟩
    exact List.mem_flatMap.mpr ⟨more, List.mem_range'_1.mpr ⟨hle, hlt⟩, List.mem_of_getElem? hplace⟩
  have hlength := List.length_pos_of_mem hmem
  rw [List.length_drop, Array.length_toList] at hlength
  omega

end Continues

theorem decodeFrom_sound {symbols : Array Nat} {levels bits code index symbol : Nat}
    {r r' : BitReader} (hsymbols : Continues lengths symbols index bits levels)
    (hcode : taken lengths bits ≤ code) (hr : r.Ready)
    (h : decodeFrom symbols ((List.range' bits levels).map fun i => lengths.count (i + 1)) code
      (taken lengths bits) index r = .ok (symbol, r')) :
    r'.Ready ∧ ∃ w more, r.ahead = w ++ r'.ahead ∧ more < bits + levels ∧
      lengths[symbol]? = some (more + 1) ∧ bits + w.length = more + 1 ∧
        code * 2 ^ w.length + number w = codeNumber lengths more symbol := by
  -- On the lengths that are left; what was read is never in front of the first code of its length.
  induction levels generalizing bits code index r with
  | zero => cases h
  | succ levels ih =>
    rw [List.range'_succ, List.map_cons, decodeFrom] at h
    split at h
    · cases h
    rename_i b r₁ hbit
    obtain ⟨hready, b, rfl, hahead⟩ := BitReader.bit_sound hr hbit
    dsimp only at h
    split at h
    · rename_i hlt
      split at h
      · rename_i s hs
        obtain ⟨rfl, rfl⟩ := Prod.mk.inj (Except.ok.inj h)
        rw [hsymbols.getElem? (by omega)] at hs
        obtain ⟨hlength, hcount⟩ := getElem?_symbolsWith.mp hs
        refine ⟨hready, [b], bits, hahead, by omega, hlength, rfl, ?_⟩
        simp only [List.length_singleton, number, codeNumber, hcount, List.length_nil]
        omega
      · cases h
    · rename_i hge
      split at h
      · cases h
      obtain ⟨hready', w, more, hahead', hmore, hlength, hbits, hnumber⟩ :=
        ih hsymbols.next (show taken lengths (bits + 1) ≤ 2 * code + b.toNat by
          rw [taken]
          omega) hready h
      refine ⟨hready', b :: w, more, by rw [hahead, hahead']; rfl, by omega, hlength, ?_, ?_⟩
      · rw [List.length_cons]
        omega
      · rw [shift_bit, hnumber]

theorem decodeFrom_complete {symbols : Array Nat} {levels bits code index symbol more : Nat}
    {r : BitReader} {w rest : List Bool}
    (hsymbols : Continues lengths symbols index bits levels) (hr : r.Ready)
    (hahead : r.ahead = w ++ rest) (hle : bits ≤ more) (hlt : more < bits + levels)
    (hlength : lengths[symbol]? = some (more + 1)) (hw : bits + w.length = more + 1)
    (hnumber : code * 2 ^ w.length + number w = codeNumber lengths more symbol) :
    ∃ r', decodeFrom symbols ((List.range' bits levels).map fun i => lengths.count (i + 1)) code
      (taken lengths bits) index r = .ok (symbol, r') ∧ r'.Ready ∧ r'.ahead = rest := by
  induction levels generalizing bits code index r w with
  | zero => omega
  | succ levels ih =>
    cases w with
    | nil => simp only [List.length_nil] at hw; omega
    | cons b w =>
      obtain ⟨r₁, hbit, hready, hrest⟩ := BitReader.bit_complete hr hahead
      rw [shift_bit] at hnumber
      rw [List.length_cons] at hw
      rw [List.range'_succ, List.map_cons, decodeFrom, hbit]
      dsimp only
      obtain rfl | hmore := Nat.eq_or_lt_of_le hle
      · -- all bits of the code are read
        obtain rfl : w = [] := List.length_eq_zero_iff.mp (by omega)
        simp only [List.length_nil, number, codeNumber, Nat.pow_zero, Nat.mul_one,
          Nat.add_zero] at hnumber
        have hplace := getElem?_symbolsWith.mpr ⟨hlength, rfl⟩
        have hcount := (List.getElem?_eq_some_iff.mp hplace).1
        rw [length_symbolsWith] at hcount
        rw [if_pos (by omega), hnumber, Nat.add_sub_cancel_left, hsymbols.getElem? hcount, hplace]
        exact ⟨r₁, rfl, hready, hrest⟩
      · -- longer codes are behind all those of this length
        have hbehind := taken_le_of_codeNumber hmore (by omega) hnumber
        have hnext := hsymbols.next.lt_size hmore (by omega) hlength
        rw [taken] at hbehind
        rw [if_neg (by omega), if_neg (by omega)]
        exact ih hsymbols.next hready hrest hmore (by omega) (by omega) hnumber

theorem continues_canonical (lengths : List Nat) :
    Continues lengths (canonical lengths).symbols 0 0 maxLength := by
  rw [Continues, List.drop_zero, canonical, List.toList_toArray, symbolsOf, List.range_eq_range']
  rfl

theorem decode_canonical (lengths : List Nat) (r : BitReader) :
    (canonical lengths).decode r = decodeFrom (canonical lengths).symbols
      ((List.range' 0 maxLength).map fun i => lengths.count (i + 1)) 0 (taken lengths 0) 0 r := by
  rw [decode, canonical, countsOf, List.range_eq_range', taken]

/-- The code of these lengths reads a symbol where its word is ahead. -/
theorem reads_decode (lengths : List Nat) : Reads (canonical lengths).decode (IsCode lengths) where
  sound hr h := by
    rw [decode_canonical] at h
    obtain ⟨hready, w, bits, hahead, hbits, hlength, hw, hnumber⟩ :=
      decodeFrom_sound (continues_canonical lengths) (Nat.zero_le _) hr h
    refine ⟨hready, w, ⟨bits, by omega, hlength, by omega, ?_⟩, hahead⟩
    rwa [Nat.zero_mul, Nat.zero_add] at hnumber
  complete hr hw h := by
    obtain ⟨bits, hbits, hlength, hw, hnumber⟩ := hw
    rw [decode_canonical]
    refine decodeFrom_complete (continues_canonical lengths) hr h (Nat.zero_le bits) (by omega)
      hlength (by omega) ?_
    rwa [Nat.zero_mul, Nat.zero_add]

theorem ofLengths_eq_ok {h : Huffman} : ofLengths lengths = .ok h ↔
    complete (countsOf lengths) = true ∧ h = canonical lengths := by
  unfold ofLengths
  split
  · rename_i hcomplete
    simp [hcomplete, canonical, eq_comm]
  · rename_i hcomplete
    simp [hcomplete]

/-- Lengths that use up all codes, or give at most one symbol a code, of one bit. -/
def Usable (lengths : List Nat) : Prop :=
  degenerate (countsOf lengths) = true ∨ complete (countsOf lengths) = true

theorem ofFewLengths_eq_ok {h : Huffman} : ofFewLengths lengths = .ok h ↔
    Usable lengths ∧ h = canonical lengths := by
  unfold ofFewLengths
  split
  · rename_i hdegenerate
    rw [Usable, or_iff_left_of_imp fun _ => hdegenerate]
    simp [hdegenerate, canonical, eq_comm]
  · rename_i hdegenerate
    rw [ofLengths_eq_ok, Usable]
    simp [hdegenerate]

end TableLR.Huffman
