import Mathlib.Algebra.Group.Nat.Defs
import Prenex.Bytes

/-!
# Bytes back and forth

A number is written in `width` bytes and read from them without loss if it is below `256 ^ width`,
and only such numbers are read. A text has one form in UTF-8.
-/

namespace Prenex

theorem ofLittleEndian_lt (bs : Bytes) : ofLittleEndian bs < 256 ^ bs.length := by
  induction bs with
  | nil => simp [ofLittleEndian]
  | cons b bs ih =>
    have := b.toNat_lt
    rw [ofLittleEndian, List.length_cons, Nat.pow_succ]
    omega

theorem ofLittleEndian_littleEndian {width n : Nat} (h : n < 256 ^ width) :
    ofLittleEndian (littleEndian width n) = n := by
  induction width generalizing n with
  | zero =>
    obtain rfl : n = 0 := by simpa using h
    rfl
  | succ width ih =>
    have hdiv : n / 256 < 256 ^ width := by
      rw [Nat.pow_succ] at h
      omega
    rw [littleEndian, ofLittleEndian, ih hdiv, UInt8.toNat_ofNat']
    omega

theorem ofLittleEndian_eq_iff {bs : Bytes} {width n : Nat} (hlen : bs.length = width) :
    ofLittleEndian bs = n ↔ n < 256 ^ width ∧ bs = littleEndian width n := by
  subst hlen
  constructor
  · rintro rfl
    exact ⟨ofLittleEndian_lt bs, (littleEndian_ofLittleEndian bs).symm⟩
  · rintro ⟨hn, hbs⟩
    rw [hbs]
    simpa using ofLittleEndian_littleEndian hn

theorem ofUtf8?_eq_some_iff (bs : Bytes) (s : String) : ofUtf8? bs = some s ↔ bs = utf8 s := by
  unfold ofUtf8? utf8 String.fromUTF8? String.toUTF8
  constructor
  · intro h
    split at h
    · cases h
      rfl
    · cases h
  · rintro rfl
    exact dif_pos s.isValidUTF8

end Prenex
