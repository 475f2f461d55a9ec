import Mathlib.Algebra.Group.Nat.Defs
import TableLR.Blob.Zlib
import TableLR.Proofs.Outcome

/-! What a reader of bits has ahead of it. A function that reads is tied to the words of what it
gives: it gives a result whenever a word of it is ahead, and takes nothing else. -/
namespace TableLR

open Deflate (Field.toBits)

def bitsOf (bytes : List UInt8) : List Bool := bytes.flatMap fun b => Field.toBits 8 b.toNat

namespace Deflate

theorem length_toBits (n v : Nat) : (Field.toBits n v).length = n := by
  induction n generalizing v with
  | zero => rfl
  | succ n ih => rw [Field.toBits, List.length_cons, ih]

theorem drop_toBits (k n v : Nat) : (Field.toBits (k + n) v).drop k = Field.toBits n (v >>> k) := by
  induction k generalizing v with
  | zero => rw [Nat.zero_add, List.drop_zero, Nat.shiftRight_zero]
  | succ k ih =>
    rw [Nat.succ_add, Field.toBits, List.drop_succ_cons, ih, Nat.shiftRight_succ_inside]

theorem toBits_injective {n v v' : Nat} (hv : v < 2 ^ n) (hv' : v' < 2 ^ n)
    (h : Field.toBits n v = Field.toBits n v') : v = v' := by
  induction n generalizing v v' with
  | zero => omega
  | succ n ih =>
    obtain ⟨hbit, hrest⟩ := List.cons.inj h
    have hhalf := ih (by omega) (by omega) hrest
    have hlow : v % 2 = 1 ↔ v' % 2 = 1 := by simpa using hbit
    omega

end Deflate

@[simp] theorem bitsOf_nil : bitsOf [] = [] := rfl

theorem bitsOf_cons (b : UInt8) (bytes : List UInt8) :
    bitsOf (b :: bytes) = Field.toBits 8 b.toNat ++ bitsOf bytes := rfl

theorem length_bitsOf (bytes : List UInt8) : (bitsOf bytes).length = 8 * bytes.length := by
  induction bytes with
  | nil => rfl
  | cons b bytes ih =>
    rw [bitsOf_cons, List.length_append, Deflate.length_toBits, ih, List.length_cons]
    omega

namespace BitReader

variable {r r' : BitReader}

/-- Less than a byte is gone, and no bits of no byte. -/
structure Ready (r : BitReader) : Prop where
  used_lt : r.used < 8
  used_eq_zero (h : r.bytes = []) : r.used = 0

def ahead (r : BitReader) : List Bool := (bitsOf r.bytes).drop r.used

theorem ready_ofBytes (bytes : List UInt8) : (ofBytes bytes).Ready :=
  ⟨Nat.zero_lt_succ 7, fun _ => rfl⟩

theorem ahead_ofBytes (bytes : List UInt8) : (ofBytes bytes).ahead = bitsOf bytes := rfl

theorem ahead_cons (b : UInt8) (bytes : List UInt8) {used : Nat} (h : used < 8) :
    (⟨b :: bytes, used⟩ : BitReader).ahead =
      Field.toBits (8 - used) (b.toNat >>> used) ++ bitsOf bytes := by
  have hlength : used ≤ (Field.toBits 8 b.toNat).length := by
    rw [Deflate.length_toBits]
    omega
  have hdrop := Deflate.drop_toBits used (8 - used) b.toNat
  rw [show used + (8 - used) = 8 by omega] at hdrop
  rw [ahead, bitsOf_cons, List.drop_append_of_le_length hlength, hdrop]

/-- Bits of whole bytes follow the rest of the first one. -/
theorem Ready.ahead_eq (h : r.Ready) :
    ∃ pad, pad.length < 8 ∧ r.ahead = pad ++ bitsOf r.aligned := by
  obtain ⟨bytes, used⟩ := r
  cases used with
  | zero => exact ⟨[], by decide, rfl⟩
  | succ used =>
    cases bytes with
    | nil => cases h.used_eq_zero rfl
    | cons b bytes =>
      refine ⟨_, ?_, ahead_cons b bytes h.used_lt⟩
      rw [Deflate.length_toBits]
      omega

theorem bit_sound {v : Nat} (hr : r.Ready) (h : r.bit = .ok (v, r')) :
    r'.Ready ∧ ∃ b : Bool, v = b.toNat ∧ r.ahead = b :: r'.ahead := by
  obtain ⟨bytes, used⟩ := r
  have hused : used < 8 := hr.used_lt
  cases bytes with
  | nil => cases h
  | cons b bytes =>
    have hahead := ahead_cons b bytes hused
    have hvalue : b.toNat >>> used % 2 = (decide (b.toNat >>> used % 2 = 1)).toNat := by
      have hlt := Nat.mod_lt (b.toNat >>> used) (show 0 < 2 by decide)
      by_cases hone : b.toNat >>> used % 2 = 1
      · simp [hone]
      · simp only [hone, decide_false, Bool.toNat_false]
        omega
    rw [show 8 - used = 7 - used + 1 by omega, Field.toBits, List.cons_append] at hahead
    unfold bit at h
    dsimp only at h
    split at h
    · rename_i hnext
      obtain ⟨rfl, rfl⟩ := Prod.mk.inj (Except.ok.inj h)
      have hnext' : used + 1 < 8 := by omega
      refine ⟨⟨hnext', fun h => nomatch h⟩, _, hvalue, ?_⟩
      rw [hahead, ahead_cons b bytes hnext', show 8 - (used + 1) = 7 - used by omega]
      rfl
    · obtain ⟨rfl, rfl⟩ := Prod.mk.inj (Except.ok.inj h)
      refine ⟨ready_ofBytes bytes, _, hvalue, ?_⟩
      rw [hahead, show 7 - used = 0 by omega]
      rfl

theorem bit_complete {b : Bool} {rest : List Bool} (hr : r.Ready) (h : r.ahead = b :: rest) :
    ∃ r', r.bit = .ok (b.toNat, r') ∧ r'.Ready ∧ r'.ahead = rest := by
  obtain ⟨v, r', hbit⟩ : ∃ v r', r.bit = .ok (v, r') := by
    obtain ⟨bytes, used⟩ := r
    cases bytes with
    | nil => simp [ahead] at h
    | cons b bytes =>
      rw [bit]
      dsimp only
      split
      · exact ⟨_, _, rfl⟩
      · exact ⟨_, _, rfl⟩
  obtain ⟨hready, b', hv, hahead⟩ := bit_sound hr hbit
  obtain ⟨rfl, rfl⟩ := List.cons.inj (h.symm.trans hahead)
  exact ⟨r', hv ▸ hbit, hready, rfl⟩

end BitReader

/-- A function that reads what the words of a relation stand for. -/
structure Reads {α : Type} (read : BitReader → Except ReadStop (α × BitReader))
    (Word : α → List Bool → Prop) : Prop where
  sound {r r' : BitReader} {a : α} (hr : r.Ready) (h : read r = .ok (a, r')) :
    r'.Ready ∧ ∃ w, Word a w ∧ r.ahead = w ++ r'.ahead
  complete {r : BitReader} {a : α} {w rest : List Bool} (hr : r.Ready) (hw : Word a w)
    (h : r.ahead = w ++ rest) : ∃ r', read r = .ok (a, r') ∧ r'.Ready ∧ r'.ahead = rest

namespace BitReader

theorem bits_sound {r r' : BitReader} {n v : Nat} (hr : r.Ready) (h : r.bits n = .ok (v, r')) :
    r'.Ready ∧ v < 2 ^ n ∧ r.ahead = Field.toBits n v ++ r'.ahead := by
  induction n generalizing r v with
  | zero =>
    obtain ⟨rfl, rfl⟩ := Prod.mk.inj (Except.ok.inj h)
    exact ⟨hr, by decide, rfl⟩
  | succ n ih =>
    unfold bits at h
    split at h
    · cases h
    rename_i b r₁ hbit
    split at h
    · cases h
    rename_i rest r₂ hbits
    obtain ⟨rfl, rfl⟩ := Prod.mk.inj (Except.ok.inj h)
    obtain ⟨hready, b, rfl, hahead⟩ := bit_sound hr hbit
    obtain ⟨hready', hlt, hrest⟩ := ih hready hbits
    have hb := b.toNat_lt
    have hlow : decide ((b.toNat + 2 * rest) % 2 = 1) = b := by cases b <;> simp
    refine ⟨hready', by omega, ?_⟩
    rw [hahead, hrest, Field.toBits, hlow, show (b.toNat + 2 * rest) / 2 = rest by omega]
    rfl

theorem bits_complete {r : BitReader} {n v : Nat} {rest : List Bool} (hr : r.Ready)
    (hv : v < 2 ^ n) (h : r.ahead = Field.toBits n v ++ rest) :
    ∃ r', r.bits n = .ok (v, r') ∧ r'.Ready ∧ r'.ahead = rest := by
  induction n generalizing r v with
  | zero =>
    obtain rfl : v = 0 := by omega
    exact ⟨r, rfl, hr, h⟩
  | succ n ih =>
    obtain ⟨r₁, hbit, hready, hahead⟩ := bit_complete hr h
    obtain ⟨r₂, hbits, hready', hrest⟩ := ih hready (by omega) hahead
    refine ⟨r₂, ?_, hready', hrest⟩
    have hvalue : (decide (v % 2 = 1)).toNat + 2 * (v / 2) = v := by
      by_cases hone : v % 2 = 1
      · simp only [hone, decide_true, Bool.toNat_true]
        omega
      · simp only [hone, decide_false, Bool.toNat_false]
        omega
    simp only [bits, hbit, hbits, hvalue]

end BitReader

end TableLR
