import Mathlib.Algebra.BigOperators.Fin
import Mathlib.Data.Nat.Bitwise

/-!
# Words with flags in their low bits

A word of `w` bits that keeps flags in its lowest `s` bits and a number in the bits
above them. Masks that stay below bit `s` test, set and clear flags and leave the
number alone; a shift by `s` takes the number out. Which bits the flags are is left
to the user: the flags are a word of their own, below `2 ^ s`.
-/

namespace SoftGpu

variable {w s n n' : ℕ} {x low low' m : BitVec w}

structure Tagged (s : ℕ) (x low : BitVec w) (n : ℕ) : Prop where
  toNat : x.toNat = 2 ^ s * n + low.toNat
  below : low.toNat < 2 ^ s

namespace Tagged

theorem getLsbD (h : Tagged s x low n) (j : ℕ) :
    x.getLsbD j = if j < s then low.getLsbD j else n.testBit (j - s) := by
  rw [← BitVec.testBit_toNat, h.toNat, Nat.testBit_two_pow_mul_add n h.below,
    BitVec.testBit_toNat]

theorem of_getLsbD (hlow : low.toNat < 2 ^ s)
    (h : ∀ j, x.getLsbD j = if j < s then low.getLsbD j else n.testBit (j - s)) :
    Tagged s x low n where
  toNat := by
    apply Nat.eq_of_testBit_eq
    intro j
    rw [Nat.testBit_two_pow_mul_add n hlow, BitVec.testBit_toNat, BitVec.testBit_toNat]
    exact h j
  below := hlow

theorem getLsbD_of_le (hm : m.toNat < 2 ^ s) {j : ℕ} (hj : s ≤ j) : m.getLsbD j = false := by
  rw [← BitVec.testBit_toNat]
  exact Nat.testBit_lt_two_pow (hm.trans_le (Nat.pow_le_pow_right Nat.zero_lt_two hj))

theorem pack (hlow : low.toNat < 2 ^ s) (hn : 2 ^ s * n + low.toNat < 2 ^ w) :
    Tagged s (low ||| BitVec.ofNat w n <<< s) low n := by
  apply of_getLsbD hlow
  intro j
  rw [BitVec.getLsbD_or, BitVec.getLsbD_shiftLeft]
  by_cases hj : j < s
  · simp [hj]
  · rw [getLsbD_of_le hlow (Nat.le_of_not_lt hj), BitVec.getLsbD_ofNat, if_neg hj]
    by_cases hw : j < w
    · simp [hj, hw, (Nat.sub_le j s).trans_lt hw]
    · have hbig : 2 ^ s * n < 2 ^ s * 2 ^ (j - s) := by
        calc 2 ^ s * n ≤ 2 ^ s * n + low.toNat := Nat.le_add_right _ _
          _ < 2 ^ w := hn
          _ ≤ 2 ^ j := Nat.pow_le_pow_right Nat.zero_lt_two (Nat.le_of_not_lt hw)
          _ = 2 ^ s * 2 ^ (j - s) := by rw [← pow_add, Nat.add_sub_cancel' (Nat.le_of_not_lt hj)]
      have hbit : n.testBit (j - s) = false :=
        Nat.testBit_lt_two_pow (Nat.lt_of_mul_lt_mul_left hbig)
      simp [hw, hbit]

theorem unique (h : Tagged s x low n) (h' : Tagged s x low' n') : low = low' ∧ n = n' := by
  have heq : 2 ^ s * n + low.toNat = 2 ^ s * n' + low'.toNat := h.toNat.symm.trans h'.toNat
  have hpos : 0 < 2 ^ s := Nat.two_pow_pos s
  have hmod := congrArg (· % 2 ^ s) heq
  have hdiv := congrArg (· / 2 ^ s) heq
  simp only [Nat.mul_add_mod, Nat.mod_eq_of_lt h.below, Nat.mod_eq_of_lt h'.below] at hmod
  simp only [Nat.mul_add_div hpos, Nat.div_eq_of_lt h.below, Nat.div_eq_of_lt h'.below,
    Nat.add_zero] at hdiv
  exact ⟨BitVec.eq_of_toNat_eq hmod, hdiv⟩

/-! ### Masks -/

theorem and_mask (h : Tagged s x low n) (hm : m.toNat < 2 ^ s) : x &&& m = low &&& m := by
  apply BitVec.eq_of_getLsbD_eq
  intro j _
  rw [BitVec.getLsbD_and, BitVec.getLsbD_and, h.getLsbD]
  by_cases hj : j < s
  · simp [hj]
  · simp [getLsbD_of_le hm (Nat.le_of_not_lt hj)]

theorem or_mask (h : Tagged s x low n) (hm : m.toNat < 2 ^ s) :
    Tagged s (x ||| m) (low ||| m) n := by
  have hlow : (low ||| m).toNat < 2 ^ s := by
    rw [BitVec.toNat_or]
    exact Nat.or_lt_two_pow h.below hm
  apply of_getLsbD hlow
  intro j
  rw [BitVec.getLsbD_or, BitVec.getLsbD_or, h.getLsbD]
  by_cases hj : j < s
  · simp [hj]
  · simp [hj, getLsbD_of_le hm (Nat.le_of_not_lt hj)]

theorem and_not_mask (h : Tagged s x low n) (hm : m.toNat < 2 ^ s) :
    Tagged s (x &&& ~~~m) (low &&& ~~~m) n := by
  have hlow : (low &&& ~~~m).toNat < 2 ^ s := by
    rw [BitVec.toNat_and]
    exact Nat.and_le_left.trans_lt h.below
  apply of_getLsbD hlow
  intro j
  rw [BitVec.getLsbD_and, BitVec.getLsbD_and, BitVec.getLsbD_not]
  by_cases hj : j < s
  · rw [h.getLsbD]
    simp [hj]
  · rw [if_neg hj, getLsbD_of_le hm (Nat.le_of_not_lt hj)]
    -- above the word both sides are zero
    have hx := h.getLsbD j
    rw [if_neg hj] at hx
    rw [← hx]
    by_cases hw : j < w
    · simp [hw]
    · simp [BitVec.getLsbD_of_ge x j (Nat.le_of_not_lt hw)]

/-! ### The number -/

theorem shift (h : Tagged s x low n) : (x >>> s).toNat = n := by
  rw [BitVec.toNat_ushiftRight, h.toNat, Nat.shiftRight_eq_div_pow,
    Nat.mul_add_div (Nat.two_pow_pos s), Nat.div_eq_of_lt h.below, Nat.add_zero]

theorem shift_shift (h : Tagged s x low n) : ((x >>> s) <<< s).toNat = 2 ^ s * n := by
  have hlt : 2 ^ s * n < 2 ^ w :=
    (Nat.le_add_right _ low.toNat).trans_lt (h.toNat ▸ x.isLt)
  rw [BitVec.toNat_shiftLeft, h.shift, Nat.shiftLeft_eq, Nat.mul_comm, Nat.mod_eq_of_lt hlt]

end Tagged

end SoftGpu
