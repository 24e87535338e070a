import SoftGpu.Mmu
import SoftGpu.TaggedWord

/-!
# Page-table entries as words

An entry is a word of 64 bits: four flags in the low bits and the frame number from
bit 12 on. `Codes w p` says that the word `w` is the record `p`. The flag words of the
source are tested, set and cleared with masks, and each of these does on the record
what its name says.
-/

namespace SoftGpu.Words

def pageShift : UInt64 := 12

def pteFrameShift : UInt64 := 12

def pageMask : UInt64 := 4096 - 1

def ptePresent : UInt64 := (1 : UInt64) <<< 0
def pteInVram : UInt64 := (1 : UInt64) <<< 1
def pteDirty : UInt64 := (1 : UInt64) <<< 2
def pteAccessed : UInt64 := (1 : UInt64) <<< 3

def ptePa (pte : UInt64) : UInt64 := (pte >>> pteFrameShift) <<< pageShift

/-! ### Words and records -/

def flagWord (present inVram dirty accessed : Bool) : UInt64 :=
  (if present then ptePresent else 0) ||| (if inVram then pteInVram else 0) |||
    (if dirty then pteDirty else 0) ||| (if accessed then pteAccessed else 0)

def flags (p : Pte) : UInt64 := flagWord p.present p.inVram p.dirty p.accessed

def encode (p : Pte) : UInt64 := flags p ||| UInt64.ofNat p.pfn <<< pteFrameShift

def decode (w : UInt64) : Pte where
  present := decide (w &&& ptePresent ≠ 0)
  inVram := decide (w &&& pteInVram ≠ 0)
  dirty := decide (w &&& pteDirty ≠ 0)
  accessed := decide (w &&& pteAccessed ≠ 0)
  pfn := (w >>> pteFrameShift).toNat

def Codes (w : UInt64) (p : Pte) : Prop := Tagged 12 w.toBitVec (flags p).toBitVec p.pfn

variable {w m pfn : UInt64} {p q : Pte}

theorem flagWord_lt : ∀ a b c d : Bool, (flagWord a b c d).toNat < 2 ^ 12 := by decide

theorem flagWord_test : ∀ a b c d : Bool,
    (flagWord a b c d &&& ptePresent = 0 ↔ a = false) ∧
    (flagWord a b c d &&& pteInVram = 0 ↔ b = false) ∧
    (flagWord a b c d &&& pteDirty = 0 ↔ c = false) ∧
    (flagWord a b c d &&& pteAccessed = 0 ↔ d = false) := by decide

theorem flagWord_or : ∀ a b c d c' d' : Bool,
    flagWord a b c d ||| flagWord false false c' d' = flagWord a b (c || c') (d || d') := by decide

theorem flagWord_and_not : ∀ a b c d c' d' : Bool,
    flagWord a b c d &&& ~~~flagWord false false c' d' = flagWord a b (c && !c') (d && !d') := by
  decide

theorem flagWord_and : ∀ a b c d a' b' c' d' : Bool,
    flagWord a b c d &&& flagWord a' b' c' d' =
      flagWord (a && a') (b && b') (c && c') (d && d') := by decide

theorem flags_lt (p : Pte) : (flags p).toNat < 2 ^ 12 := flagWord_lt _ _ _ _

theorem codes_encode (hp : p.pfn < 2 ^ 52) : Codes (encode p) p := by
  have hlow := flags_lt p
  have hw : (encode p).toBitVec = (flags p).toBitVec ||| BitVec.ofNat 64 p.pfn <<< 12 := by
    rw [encode, UInt64.toBitVec_or, UInt64.toBitVec_shiftLeft]
    rfl
  rw [Codes, hw]
  exact .pack hlow (by simp only [UInt64.toNat_toBitVec]; omega)

theorem encode_flags (hq : q.pfn = 0) : encode q = flags q := by
  rw [encode, hq, show UInt64.ofNat 0 <<< pteFrameShift = 0 by decide, UInt64.or_zero]

theorem encode_zero : encode .zero = 0 := by decide

namespace Codes

theorem pfn_lt (h : Codes w p) : p.pfn < 2 ^ 52 := by
  have hw := h.toNat
  have := w.toNat_lt
  simp only [UInt64.toNat_toBitVec] at hw
  omega

theorem eq_encode (h : Codes w p) : w = encode p := by
  have he := codes_encode h.pfn_lt
  apply UInt64.toNat_inj.mp
  have h₁ := h.toNat
  have h₂ := he.toNat
  simp only [UInt64.toNat_toBitVec] at h₁ h₂
  rw [h₁, h₂]

theorem and_mask (h : Codes w p) (hm : m.toNat < 2 ^ 12) : w &&& m = flags p &&& m := by
  apply UInt64.toBitVec_inj.mp
  rw [UInt64.toBitVec_and, UInt64.toBitVec_and]
  exact Tagged.and_mask h hm

theorem or_mask (h : Codes w p) (hm : m.toNat < 2 ^ 12) (hq : flags q = flags p ||| m)
    (hf : q.pfn = p.pfn) : Codes (w ||| m) q := by
  rw [Codes, hq, hf, UInt64.toBitVec_or, UInt64.toBitVec_or]
  exact Tagged.or_mask h hm

theorem and_not_mask (h : Codes w p) (hm : m.toNat < 2 ^ 12) (hq : flags q = flags p &&& ~~~m)
    (hf : q.pfn = p.pfn) : Codes (w &&& ~~~m) q := by
  rw [Codes, hq, hf, UInt64.toBitVec_and, UInt64.toBitVec_and, UInt64.toBitVec_not]
  exact Tagged.and_not_mask h hm

/-! ### The flags -/

theorem present (h : Codes w p) : w &&& ptePresent = 0 ↔ p.present = false := by
  rw [h.and_mask (by decide)]
  exact (flagWord_test _ _ _ _).1

theorem inVram (h : Codes w p) : w &&& pteInVram = 0 ↔ p.inVram = false := by
  rw [h.and_mask (by decide)]
  exact (flagWord_test _ _ _ _).2.1

theorem dirty (h : Codes w p) : w &&& pteDirty = 0 ↔ p.dirty = false := by
  rw [h.and_mask (by decide)]
  exact (flagWord_test _ _ _ _).2.2.1

theorem accessed (h : Codes w p) : w &&& pteAccessed = 0 ↔ p.accessed = false := by
  rw [h.and_mask (by decide)]
  exact (flagWord_test _ _ _ _).2.2.2

theorem resident (h : Codes w p) :
    w &&& (ptePresent ||| pteInVram) = ptePresent ||| pteInVram ↔
      p.present = true ∧ p.inVram = true := by
  rw [h.and_mask (by decide), flags]
  cases p.present <;> cases p.inVram <;> cases p.dirty <;> cases p.accessed <;> decide

theorem touched (h : Codes w p) (write : Bool) :
    w &&& (pteAccessed ||| if write then pteDirty else 0) =
        (pteAccessed ||| if write then pteDirty else 0) ↔
      (p.accessed && (!write || p.dirty)) = true := by
  rw [h.and_mask (by cases write <;> decide), flags]
  cases p.present <;> cases p.inVram <;> cases p.dirty <;> cases p.accessed <;> cases write <;>
    decide

theorem touch (h : Codes w p) (write : Bool) :
    Codes (w ||| (pteAccessed ||| if write then pteDirty else 0))
      { p with dirty := p.dirty || write, accessed := p.accessed || true } := by
  have hm : (pteAccessed ||| if write then pteDirty else 0) = flagWord false false write true := by
    cases write <;> decide
  rw [hm]
  exact h.or_mask (flagWord_lt _ _ _ _) (flagWord_or _ _ _ _ _ _).symm rfl

theorem setDirty (h : Codes w p) : Codes (w ||| pteDirty) { p with dirty := true } := by
  refine h.or_mask (by decide) ?_ rfl
  simp only [flags]
  rw [show pteDirty = flagWord false false true false by decide, flagWord_or, Bool.or_true,
    Bool.or_false]

theorem clear (h : Codes w p) : Codes (w &&& ~~~(pteDirty ||| pteAccessed))
    { p with dirty := false, accessed := false } := by
  refine h.and_not_mask (by decide) ?_ rfl
  simp only [flags]
  rw [show pteDirty ||| pteAccessed = flagWord false false true true by decide, flagWord_and_not]
  simp

theorem clearAccessed (h : Codes w p) : Codes (w &&& ~~~pteAccessed)
    { p with accessed := false } := by
  refine h.and_not_mask (by decide) ?_ rfl
  simp only [flags]
  rw [show pteAccessed = flagWord false false false true by decide, flagWord_and_not]
  simp

theorem late (h : Codes w p) : w &&& (pteDirty ||| pteAccessed) =
    encode { Pte.zero with dirty := p.dirty, accessed := p.accessed } := by
  have hflags : encode { Pte.zero with dirty := p.dirty, accessed := p.accessed } =
      flagWord false false p.dirty p.accessed :=
    encode_flags (q := { Pte.zero with dirty := p.dirty, accessed := p.accessed }) rfl
  rw [hflags, h.and_mask (by decide), flags,
    show pteDirty ||| pteAccessed = flagWord false false true true by decide, flagWord_and]
  simp

/-! ### The frame -/

theorem pa (h : Codes w p) : (ptePa w).toNat = p.pa := by
  have hw : (ptePa w).toBitVec = (w.toBitVec >>> 12) <<< 12 := by
    rw [ptePa, UInt64.toBitVec_shiftLeft, UInt64.toBitVec_shiftRight]
    rfl
  rw [← UInt64.toNat_toBitVec, hw, Tagged.shift_shift h, Pte.pa]
  exact Nat.mul_comm _ _

theorem ptePa_eq (h : Codes w p) : ptePa w = UInt64.ofNat p.pa := by
  rw [← h.pa, UInt64.ofNat_toNat]

theorem decode (h : Codes w p) : decode w = p := by
  have hpfn : (w >>> pteFrameShift).toNat = p.pfn := by
    have hw : (w >>> pteFrameShift).toBitVec = w.toBitVec >>> 12 := by
      rw [UInt64.toBitVec_shiftRight]
      rfl
    rw [← UInt64.toNat_toBitVec, hw, Tagged.shift h]
  simp only [Words.decode, ne_eq, h.present, h.inVram, h.dirty, h.accessed, hpfn,
    Bool.not_eq_false, Bool.decide_eq_true]

end Codes

/-! ### The words that the operations store -/

theorem codes_zero : Codes 0 .zero := codes_encode (p := .zero) (by decide)

theorem codes_hostResident : Codes ptePresent .hostResident :=
  codes_encode (p := .hostResident) (by decide)

theorem codes_frame (hpfn : pfn.toNat < 2 ^ 52) (hq : q.pfn = pfn.toNat) :
    Codes (flags q ||| pfn <<< pteFrameShift) q := by
  have he := codes_encode (p := q) (hq ▸ hpfn)
  rw [encode, hq, UInt64.ofNat_toNat] at he
  exact he

theorem codes_mapped (hpfn : pfn.toNat < 2 ^ 52) :
    Codes (ptePresent ||| pteInVram ||| pfn <<< pteFrameShift) (.inFrame pfn.toNat false) := by
  have hflags : flagWord true true false false = ptePresent ||| pteInVram := by decide
  rw [← hflags]
  exact codes_frame (q := .inFrame pfn.toNat false) hpfn rfl

theorem codes_resident (hpfn : pfn.toNat < 2 ^ 52) :
    Codes (ptePresent ||| pteInVram ||| pteAccessed ||| pfn <<< pteFrameShift)
      (.inFrame pfn.toNat true) := by
  have hflags : flagWord true true false true = ptePresent ||| pteInVram ||| pteAccessed := by
    decide
  rw [← hflags]
  exact codes_frame (q := .inFrame pfn.toNat true) hpfn rfl

theorem decode_encode (hp : p.pfn < 2 ^ 52) : decode (encode p) = p := (codes_encode hp).decode

end SoftGpu.Words
