import Mathlib.Algebra.Group.Nat.Even

/-!
# The sequence word of an event

An `Event` counts its signals in a word of 32 bits, and a sleeper compares the word with
the one it has sampled. The models count signals in `ℕ`, as history; what the code
compares is the word of the count, and the word repeats after `2 ^ 32` signals.
-/

namespace SoftGpu.Event

def word (n : ℕ) : UInt32 := .ofNat n

variable {m n : ℕ}

theorem word_eq_iff : word m = word n ↔ m % 2 ^ 32 = n % 2 ^ 32 := by
  rw [word, word, ← UInt32.toNat_inj, UInt32.toNat_ofNat', UInt32.toNat_ofNat']

theorem word_eq_iff_of_lt (hle : m ≤ n) (hlt : n < m + 2 ^ 32) : word m = word n ↔ m = n := by
  rw [word_eq_iff]
  omega

theorem word_succ_ne (n : ℕ) : word (n + 1) ≠ word n := by
  rw [Ne, word_eq_iff]
  omega

theorem word_wrap : word (2 ^ 32) = word 0 :=
  word_eq_iff.mpr ((Nat.mod_self _).trans (Nat.zero_mod _).symm)

end SoftGpu.Event
