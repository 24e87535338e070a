import SoftGpu.Execute

/-!
# The kernels in place and on scratch buffers

In place a kernel stores its destination into the memory it still reads its sources
from. It computes what it computes on copies of the sources as long as it reads no
byte that it has stored before.
-/

namespace SoftGpu.Exec

variable {fl : Floats} {ρ a b z f g : ℕ → UInt8} {d s s₀ s₁ e i n m k t t' : ℕ}

/-- Element `i` of the array at `s` has no byte among the first `t` elements at `d`. -/
def Apart (d s t i : ℕ) : Prop := ∀ j < 4, ∀ y < 4 * t, s + 4 * i + j ≠ d + y

def Stored (ρ : ℕ → UInt8) (d t : ℕ) (f g : ℕ → UInt8) : Prop := f = patch ρ d (4 * t) g

theorem Stored.out (h : Stored ρ d t f g) (he : e < t) : element f d e = element g 0 e := by
  subst h
  funext j
  have hj := j.isLt
  simp only [element, Nat.zero_add, Nat.add_assoc]
  exact patch_add (by omega)

theorem Stored.source (h : Stored ρ d t f g) (hap : Apart d s t i)
    (ha : element ρ s i = element a 0 i) : element f s i = element a 0 i := by
  subst h
  rw [← ha]
  funext j
  simp only [element]
  refine patch_of_not fun hin => hap j j.isLt (s + 4 * i + j - d) ?_ ?_
  · omega
  · omega

theorem Stored.store (h : Stored ρ d t f g) (he : e ≤ t) (ht : t' = max t (e + 1)) (w : Word) :
    Stored ρ d t' (setElement f d e w) (setElement g 0 e w) := by
  subst h ht
  simp only [Stored, setElement]
  funext x
  simp only [patch]
  by_cases hx : d + 4 * e ≤ x ∧ x < d + 4 * e + 4
  · rw [if_pos hx, if_pos (by omega), if_pos (by omega)]
    have hsub : x - d - (0 + 4 * e) = x - (d + 4 * e) := by omega
    rw [hsub]
  · rw [if_neg hx]
    by_cases hin : d ≤ x ∧ x < d + 4 * t
    · rw [if_pos hin, if_pos (by omega), if_neg (by omega)]
    · rw [if_neg hin, if_neg (by omega)]

theorem vadd_inPlace (ha : ∀ i < n, element ρ s₀ i = element a 0 i)
    (hb : ∀ i < n, element ρ s₁ i = element b 0 i) (h₀ : ∀ i < n, Apart d s₀ i i)
    (h₁ : ∀ i < n, Apart d s₁ i i) :
    Stored ρ d n (vaddKernel fl (inPlace d s₀ s₁) n ρ) (vaddKernel fl (inScratch a b) n z) := by
  refine upto_related (fun i f g => Stored ρ d i f g) (patch_zero ρ d z).symm fun i hi f g h => ?_
  simp only [inPlace, inScratch]
  rw [h.source (h₀ i hi) (ha i hi), h.source (h₁ i hi) (hb i hi)]
  exact h.store le_rfl (by omega) _

theorem gemmRow_inPlace (hi : i < m) (ha : ∀ i < m * k, element ρ s₀ i = element a 0 i)
    (hb : ∀ i < k * n, element ρ s₁ i = element b 0 i)
    (h₀ : ∀ p < k, Apart d s₀ ((i + 1) * n) (i * k + p))
    (h₁ : ∀ p < k, ∀ j < n, Apart d s₁ ((i + 1) * n) (p * n + j))
    (h : Stored ρ d (i * n) f g) :
    Stored ρ d ((i + 1) * n) (gemmRow fl (inPlace d s₀ s₁) n k i f)
      (gemmRow fl (inScratch a b) n k i g) := by
  have hrow : i * n + n = (i + 1) * n := (Nat.succ_mul i n).symm
  simp only [gemmRow]
  refine upto_related (fun _ f g => Stored ρ d ((i + 1) * n) f g) ?_ fun p hp f g h => ?_
  · -- The row is cleared.
    rw [← hrow]
    refine upto_related (fun j f g => Stored ρ d (i * n + j) f g) h fun j _ f g h => ?_
    exact h.store le_rfl (by omega) _
  · have haip : (inPlace d s₀ s₁).a f (i * k + p) = (inScratch a b).a g (i * k + p) :=
      h.source (h₀ p hp) (ha _ (index_lt hi hp))
    rw [haip]
    refine upto_related (fun _ f g => Stored ρ d ((i + 1) * n) f g) h fun j hj f g h => ?_
    have hij : i * n + j < (i + 1) * n := index_lt (Nat.lt_succ_self i) hj
    have hout : (inPlace d s₀ s₁).out f (i * n + j) = (inScratch a b).out g (i * n + j) :=
      h.out hij
    have hbrow : (inPlace d s₀ s₁).b f (p * n + j) = (inScratch a b).b g (p * n + j) :=
      h.source (h₁ p hp j hj) (hb _ (index_lt hp hj))
    rw [hout, hbrow]
    exact h.store hij.le (by omega) _

theorem gemm_inPlace (ha : ∀ i < m * k, element ρ s₀ i = element a 0 i)
    (hb : 0 < m → ∀ i < k * n, element ρ s₁ i = element b 0 i)
    (h₀ : ∀ i < m, ∀ p < k, Apart d s₀ ((i + 1) * n) (i * k + p))
    (h₁ : ∀ i < m, ∀ p < k, ∀ j < n, Apart d s₁ ((i + 1) * n) (p * n + j)) :
    Stored ρ d (m * n) (gemmKernel fl (inPlace d s₀ s₁) m n k ρ)
      (gemmKernel fl (inScratch a b) m n k z) := by
  refine upto_related (fun i f g => Stored ρ d (i * n) f g) ?_ fun i hi f g h => ?_
  · simp [Stored]
  · exact gemmRow_inPlace hi ha (hb (by omega)) (h₀ i hi) (h₁ i hi) h

/-! ### The kernel of a command -/

/-- No byte of a source is read once the kernel, run in place, has stored to its address. -/
def Cmd.ReadsFirst (c : Cmd) : Prop :=
  let d := c.dst.toNat
  let s₀ := c.src0.toNat
  let s₁ := c.src1.toNat
  let m := c.arg0.toNat
  let n := c.arg1.toNat
  let k := c.arg2.toNat
  match c.opcode with
  | .vaddF32 => m ≤ 1 ∨ (d ≤ s₀ ∨ s₀ + 4 * m ≤ d) ∧ (d ≤ s₁ ∨ s₁ + 4 * m ≤ d)
  | .gemmF32 => m = 0 ∨ n = 0 ∨ k = 0 ∨
      (∀ i < m, s₀ + 4 * ((i + 1) * k) ≤ d ∨ d + 4 * ((i + 1) * n) ≤ s₀ + 4 * (i * k)) ∧
        (s₁ + 4 * (k * n) ≤ d ∨ d + 4 * (m * n) ≤ s₁)
  | _ => True

theorem apart_vadd (h : n ≤ 1 ∨ d ≤ s ∨ s + 4 * n ≤ d) (hi : i < n) : Apart d s i i := by
  intro j hj y hy heq
  omega

theorem gemm_apart_left {c : Cmd} {p : ℕ} (hop : c.opcode = .gemmF32) (h : c.ReadsFirst)
    (hi : i < c.arg0.toNat) (hp : p < c.arg2.toNat) :
    Apart c.dst.toNat c.src0.toNat ((i + 1) * c.arg1.toNat) (i * c.arg2.toNat + p) := by
  intro j hj y hy heq
  simp only [Cmd.ReadsFirst, hop] at h
  have hlt : i * c.arg2.toNat + p < (i + 1) * c.arg2.toNat := index_lt (Nat.lt_succ_self i) hp
  obtain h | h | h | ⟨h, -⟩ := h
  · omega
  · simp [h] at hy
  · omega
  · have := h i hi
    omega

theorem gemm_apart_right {c : Cmd} {p j : ℕ} (hop : c.opcode = .gemmF32) (h : c.ReadsFirst)
    (hi : i < c.arg0.toNat) (hp : p < c.arg2.toNat) (hj : j < c.arg1.toNat) :
    Apart c.dst.toNat c.src1.toNat ((i + 1) * c.arg1.toNat) (p * c.arg1.toNat + j) := by
  intro l hl y hy heq
  simp only [Cmd.ReadsFirst, hop] at h
  have hlt : p * c.arg1.toNat + j < c.arg2.toNat * c.arg1.toNat := index_lt hp hj
  have hle : (i + 1) * c.arg1.toNat ≤ c.arg0.toNat * c.arg1.toNat :=
    Nat.mul_le_mul_right c.arg1.toNat hi
  omega

theorem Apart.transfer {D S bytesS bytesD : ℕ} (h : Apart D S t i)
    (halias : ∀ x < bytesS, ∀ y < bytesD, s + x = d + y → S + x = D + y)
    (hi : 4 * (i + 1) ≤ bytesS) (ht : 4 * t ≤ bytesD) : Apart d s t i := by
  intro j hj y hy heq
  have hsame := halias (4 * i + j) (by omega) y (by omega) (by omega)
  exact h j hj y hy (by omega)

theorem element_of_bytes {bytes : ℕ} (h : ∀ i < bytes, ρ (s + i) = a i) (hi : 4 * (i + 1) ≤ bytes) :
    element ρ s i = element a 0 i := by
  funext j
  have hj := j.isLt
  simp only [element, Nat.zero_add, Nat.add_assoc]
  exact h _ (by omega)

structure Placed (ρ : ℕ → UInt8) (c : Cmd) (k : Kernel) (d s₀ s₁ : ℕ) (a b : ℕ → UInt8) : Prop where
  bytesA : ∀ i < k.bytesA, ρ (s₀ + i) = a i
  bytesB : ∀ i < k.bytesB, ρ (s₁ + i) = b i
  aliasA : ∀ x < k.bytesA, ∀ y < k.bytesD, s₀ + x = d + y → c.src0.toNat + x = c.dst.toNat + y
  aliasB : ∀ x < k.bytesB, ∀ y < k.bytesD, s₁ + x = d + y → c.src1.toNat + x = c.dst.toNat + y

theorem kernel_inPlace {c : Cmd} (hop : c.opcode = .vaddF32 ∨ c.opcode = .gemmF32)
    (hfit : c.LoopsFit) (hfirst : c.ReadsFirst) (h : Placed ρ c (c.kernel fl) d s₀ s₁ a b) :
    (c.kernel fl).run (inPlace d s₀ s₁) ρ =
      patch ρ d (c.kernel fl).bytesD ((c.kernel fl).run (inScratch a b) z) := by
  obtain ⟨ha, hb, halias₀, halias₁⟩ := h
  obtain hop | hop := hop
  · simp only [Cmd.kernel, hop, if_true, vectorBytes_exact] at ha hb halias₀ halias₁ ⊢
    simp only [Cmd.ReadsFirst, hop] at hfirst
    rw [Nat.mul_comm]
    refine vadd_inPlace (fun i hi => element_of_bytes ha (by omega))
      (fun i hi => element_of_bytes hb (by omega)) (fun i hi => ?_) fun i hi => ?_
    · exact (apart_vadd (hfirst.imp_right And.left) hi).transfer halias₀ (by omega) (by omega)
    · exact (apart_vadd (hfirst.imp_right And.right) hi).transfer halias₁ (by omega) (by omega)
  · have hne : ¬c.opcode = .vaddF32 := by simp [hop]
    obtain ⟨hmk, hkn, hmn⟩ := hfit hop
    simp only [Cmd.kernel, if_neg hne] at ha hb halias₀ halias₁ ⊢
    rw [matrixBytes_exact.mpr hmk] at ha halias₀
    rw [matrixBytes_exact.mpr hmn] at halias₀ halias₁ ⊢
    rw [Nat.mul_comm _ 4]
    -- With rows, the second source has its exact byte count too.
    have hright : 0 < c.arg0.toNat →
        (matrixBytes c.arg2 c.arg1).toNat = c.arg2.toNat * c.arg1.toNat * 4 :=
      fun hm => matrixBytes_exact.mpr (hkn.resolve_left hm.ne')
    refine gemm_inPlace (fun i hi => element_of_bytes ha (by omega))
      (fun hm i hi => element_of_bytes hb (by rw [hright hm]; omega)) ?_ ?_
    · intro i hi p hp
      have hip : i * c.arg2.toNat + p < c.arg0.toNat * c.arg2.toNat := index_lt hi hp
      have hle : (i + 1) * c.arg1.toNat ≤ c.arg0.toNat * c.arg1.toNat :=
        Nat.mul_le_mul_right c.arg1.toNat hi
      exact (gemm_apart_left hop hfirst hi hp).transfer halias₀ (by omega) (by omega)
    · intro i hi p hp j hj
      rw [hright (by omega)] at halias₁
      have hpj : p * c.arg1.toNat + j < c.arg2.toNat * c.arg1.toNat := index_lt hp hj
      have hle : (i + 1) * c.arg1.toNat ≤ c.arg0.toNat * c.arg1.toNat :=
        Nat.mul_le_mul_right c.arg1.toNat hi
      exact (gemm_apart_right hop hfirst hi hp hj).transfer halias₁ (by omega) (by omega)

/-! ### A kernel that shows what it reads -/

def agree (b : UInt8) (u v : Word) : Word :=
  if (∀ i, u i = b) ∧ ∀ i, v i = b then fun _ => 0 else fun _ => 2

def marking (b : UInt8) : Floats := ⟨agree b, agree 1⟩

theorem agree_ne_one (b : UInt8) (u v : Word) (j : Fin 4) : agree b u v j ≠ 1 := by
  simp only [agree]
  split
  · exact (by decide : (0 : UInt8) ≠ 1)
  · exact (by decide : (2 : UInt8) ≠ 1)

theorem agree_self {b : UInt8} {u v : Word} (hu : ∀ i, u i = b) (hv : ∀ i, v i = b) :
    agree b u v = Word.zero := if_pos ⟨hu, hv⟩

theorem of_agree_zero {b : UInt8} {u v : Word} (h : agree b u v = Word.zero) :
    (∀ i, u i = b) ∧ ∀ i, v i = b := by
  by_contra hne
  rw [agree, if_neg hne] at h
  exact absurd (congrFun h 0) (by decide)

theorem element_setElement (f : ℕ → UInt8) (d e : ℕ) (w : Word) :
    element (setElement f d e w) d e = w := by
  funext j
  simp only [element, setElement]
  rw [patch_add j.isLt, dif_pos j.isLt]

theorem element_setElement_of_ne (h : i ≠ e) (w : Word) :
    element (setElement f d e w) d i = element f d i := by
  funext j
  simp only [element, setElement]
  exact patch_of_not (by omega)

def NoOnes (d t : ℕ) (f : ℕ → UInt8) : Prop := ∀ y < 4 * t, f (d + y) ≠ 1

theorem NoOnes.store (h : NoOnes d t f) (he : e ≤ t) (ht : t' = max t (e + 1)) {w : Word}
    (hw : ∀ j, w j ≠ 1) : NoOnes d t' (setElement f d e w) := by
  intro y hy
  simp only [setElement, patch]
  split
  · next hin =>
    rw [dif_pos (by omega)]
    exact hw _
  · exact h y (by omega)

theorem NoOnes.apart (h : NoOnes d t f) (hones : ∀ j, element f s i j = 1) : Apart d s t i := by
  intro j hj y hy heq
  have hone := hones ⟨j, hj⟩
  simp only [element, heq] at hone
  exact h y hy hone

theorem vadd_marks {ρ : ℕ → UInt8} :
    ∀ i < n, element (vaddKernel (marking 1) (inPlace d s₀ s₁) n ρ) d i = Word.zero →
      Apart d s₀ i i ∧ Apart d s₁ i i := by
  have hinv := upto_invariant (n := n) (s := ρ) (f := fun i f => setElement f d i
      (agree 1 (element f s₀ i) (element f s₁ i)))
    (fun t f => NoOnes d t f ∧ ∀ i < t, element f d i = Word.zero →
      Apart d s₀ i i ∧ Apart d s₁ i i) ⟨nofun, nofun⟩ ?_
  · exact hinv.2
  · rintro t - f ⟨hno, hread⟩
    refine ⟨hno.store le_rfl (by omega) (agree_ne_one 1 _ _), fun i hi hzero => ?_⟩
    by_cases hit : i = t
    · subst hit
      rw [element_setElement] at hzero
      obtain ⟨h₀, h₁⟩ := of_agree_zero hzero
      exact ⟨hno.apart h₀, hno.apart h₁⟩
    · rw [element_setElement_of_ne hit] at hzero
      exact hread i (by omega) hzero

def ReadsApart (d s₀ s₁ n k p i j : ℕ) : Prop :=
  ∀ p' < p, Apart d s₀ ((i + 1) * n) (i * k + p') ∧ Apart d s₁ ((i + 1) * n) (p' * n + j)

def RowsMark (d s₀ s₁ n k i : ℕ) (f : ℕ → UInt8) : Prop :=
  ∀ i' < i, ∀ j < n, element f d (i' * n + j) = Word.zero → ReadsApart d s₀ s₁ n k k i' j

theorem RowsMark.store {j : ℕ} (h : RowsMark d s₀ s₁ n k i f) (w : Word) :
    RowsMark d s₀ s₁ n k i (setElement f d (i * n + j) w) := by
  intro i' hi' j' hj' hzero
  have hlt : i' * n + j' < i * n := index_lt hi' hj'
  rw [element_setElement_of_ne (by omega)] at hzero
  exact h i' hi' j' hj' hzero

structure RowMark (d s₀ s₁ n k i p j : ℕ) (f : ℕ → UInt8) : Prop where
  stored : NoOnes d ((i + 1) * n) f
  rows : RowsMark d s₀ s₁ n k i f
  row : ∀ j' < n, element f d (i * n + j') = Word.zero →
    ReadsApart d s₀ s₁ n k (if j' < j then p + 1 else p) i j'

theorem gemmRow_marks (hno : NoOnes d (i * n) f) (hrows : RowsMark d s₀ s₁ n k i f) :
    RowMark d s₀ s₁ n k i k 0 (gemmRow (marking 0) (inPlace d s₀ s₁) n k i f) := by
  have hrow : i * n + n = (i + 1) * n := (Nat.succ_mul i n).symm
  simp only [gemmRow]
  refine upto_invariant (fun p f => RowMark d s₀ s₁ n k i p 0 f) ?_ fun p hp f h => ?_
  · -- The row is cleared.
    have hclear := upto_invariant (n := n) (s := f)
      (f := fun j f => setElement f d (i * n + j) Word.zero)
      (fun j f => NoOnes d (i * n + j) f ∧ RowsMark d s₀ s₁ n k i f) ⟨hno, hrows⟩
      fun j _ f h => ⟨h.1.store le_rfl (by omega) (by decide), h.2.store _⟩
    rw [hrow] at hclear
    exact ⟨hclear.1, hclear.2, fun j' _ _ => nofun⟩
  · have hcols := upto_invariant (n := n) (s := f) (f := fun j g => setElement g d (i * n + j)
        (agree 0 (element g d (i * n + j)) (agree 1 (element f s₀ (i * k + p))
          (element g s₁ (p * n + j)))))
      (fun j g => RowMark d s₀ s₁ n k i p j g) h fun j hj g hg => ?_
    · refine ⟨hcols.stored, hcols.rows, fun j' hj' hzero => ?_⟩
      have := hcols.row j' hj' hzero
      rwa [if_pos hj'] at this
    · have hij : i * n + j < (i + 1) * n := index_lt (Nat.lt_succ_self i) hj
      refine ⟨hg.stored.store hij.le (by omega) (agree_ne_one 0 _ _), hg.rows.store _,
        fun j' hj' hzero => ?_⟩
      by_cases hjj : j' = j
      · subst hjj
        rw [element_setElement] at hzero
        obtain ⟨hout, hmul⟩ := of_agree_zero hzero
        obtain ⟨h₀, h₁⟩ := of_agree_zero (funext hmul)
        have hold := hg.row j' hj' (funext hout)
        rw [if_neg (lt_irrefl j')] at hold
        rw [if_pos (Nat.lt_succ_self j')]
        intro p' hp'
        by_cases hlast : p' = p
        · subst hlast
          exact ⟨h.stored.apart h₀, hg.stored.apart h₁⟩
        · exact hold p' (by omega)
      · rw [element_setElement_of_ne (by omega)] at hzero
        have hold := hg.row j' hj' hzero
        have hiff : j' < j + 1 ↔ j' < j := by omega
        simpa only [hiff] using hold

theorem gemm_marks {ρ : ℕ → UInt8} :
    RowsMark d s₀ s₁ n k m (gemmKernel (marking 0) (inPlace d s₀ s₁) m n k ρ) := by
  have hinv := upto_invariant (n := m) (s := ρ)
    (f := gemmRow (marking 0) (inPlace d s₀ s₁) n k)
    (fun i f => NoOnes d (i * n) f ∧ RowsMark d s₀ s₁ n k i f) ⟨by simp [NoOnes], nofun⟩ ?_
  · exact hinv.2
  · rintro i - f ⟨hno, hrows⟩
    have hrow := gemmRow_marks hno hrows
    refine ⟨hrow.stored, fun i' hi' j hj hzero => ?_⟩
    by_cases hlast : i' = i
    · subst hlast
      simpa using hrow.row j hj hzero
    · exact hrow.rows i' (by omega) j hj hzero

/-! ### On copies of ones it stores zeros -/

theorem setElement_zero (e : ℕ) : setElement (fun _ => 0) 0 e Word.zero = fun _ => 0 := by
  funext x
  simp only [setElement, patch, Word.zero]
  split
  · split <;> rfl
  · rfl

theorem vadd_ones (ha : ∀ i < n, ∀ j, element a 0 i j = 1)
    (hb : ∀ i < n, ∀ j, element b 0 i j = 1) :
    vaddKernel (marking 1) (inScratch a b) n (fun _ => 0) = fun _ => 0 := by
  refine upto_invariant (fun _ f => f = fun _ => 0) rfl fun i hi f hf => ?_
  subst hf
  simp only [inScratch, marking]
  rw [agree_self (ha i hi) (hb i hi)]
  exact setElement_zero i

theorem gemm_ones (ha : ∀ i < m * k, ∀ j, element a 0 i j = 1)
    (hb : 0 < m → ∀ i < k * n, ∀ j, element b 0 i j = 1) :
    gemmKernel (marking 0) (inScratch a b) m n k (fun _ => 0) = fun _ => 0 := by
  refine upto_invariant (fun _ f => f = fun _ => 0) rfl fun i hi f hf => ?_
  refine upto_invariant (fun _ f => f = fun _ => 0) ?_ fun p hp f hf => ?_
  · refine upto_invariant (fun _ f => f = fun _ => 0) hf fun j _ f hf => ?_
    subst hf
    exact setElement_zero _
  · refine upto_invariant (fun _ f => f = fun _ => 0) hf fun j hj f hf => ?_
    subst hf
    simp only [inScratch, marking]
    have hout : agree 0 (element (fun _ => 0) 0 (i * n + j)) Word.zero = Word.zero :=
      agree_self (fun _ => rfl) fun _ => rfl
    rw [agree_self (ha _ (index_lt hi hp)) (hb (by omega) _ (index_lt hp hj)), hout]
    exact setElement_zero _

theorem apart_array (h : ∀ i < n, Apart d s t i) :
    n = 0 ∨ t = 0 ∨ s + 4 * n ≤ d ∨ d + 4 * t ≤ s := by
  by_contra hne
  have hshared : ∃ i < n, ∃ j < 4, ∃ y < 4 * t, s + 4 * i + j = d + y := by
    by_cases hle : d ≤ s
    · exact ⟨0, by omega, 0, by omega, s - d, by omega, by omega⟩
    · exact ⟨(d - s) / 4, by omega, (d - s) % 4, by omega, 0, by omega, by omega⟩
  obtain ⟨i, hi, j, hj, y, hy, heq⟩ := hshared
  exact h i hi j hj y hy heq

theorem vadd_of_apart (h : ∀ i < n, Apart d s i i) : n ≤ 1 ∨ d ≤ s ∨ s + 4 * n ≤ d := by
  by_contra hne
  have hshared : ∃ i < n, ∃ j < 4, ∃ y < 4 * i, s + 4 * i + j = d + y := by
    by_cases hfar : 4 ≤ d - s
    · exact ⟨(d - s) / 4, by omega, (d - s) % 4, by omega, 0, by omega, by omega⟩
    · exact ⟨1, by omega, 0, by omega, 4 - (d - s), by omega, by omega⟩
  obtain ⟨i, hi, j, hj, y, hy, heq⟩ := hshared
  exact h i hi j hj y hy heq

theorem vadd_readsFirst {c : Cmd} (ρ : ℕ → UInt8) (hop : c.opcode = .vaddF32)
    (h : ∀ i < c.arg0.toNat, element (vaddKernel (marking 1)
      (inPlace c.dst.toNat c.src0.toNat c.src1.toNat) c.arg0.toNat ρ) c.dst.toNat i = Word.zero) :
    c.ReadsFirst := by
  have hmarks := fun i hi => vadd_marks i hi (h i hi)
  have h₀ := vadd_of_apart fun i hi => (hmarks i hi).1
  have h₁ := vadd_of_apart fun i hi => (hmarks i hi).2
  simp only [Cmd.ReadsFirst, hop]
  omega

theorem gemm_readsFirst {c : Cmd} (ρ : ℕ → UInt8) (hop : c.opcode = .gemmF32)
    (h : ∀ q < c.arg0.toNat * c.arg1.toNat, element (gemmKernel (marking 0)
      (inPlace c.dst.toNat c.src0.toNat c.src1.toNat) c.arg0.toNat c.arg1.toNat c.arg2.toNat ρ)
        c.dst.toNat q = Word.zero) :
    c.ReadsFirst := by
  have hreads : ∀ i < c.arg0.toNat, ∀ j < c.arg1.toNat, ReadsApart c.dst.toNat c.src0.toNat
      c.src1.toNat c.arg1.toNat c.arg2.toNat c.arg2.toNat i j :=
    fun i hi j hj => gemm_marks i hi j hj (h _ (index_lt hi hj))
  simp only [Cmd.ReadsFirst, hop]
  by_cases hm : c.arg0.toNat = 0
  · exact .inl hm
  by_cases hn : c.arg1.toNat = 0
  · exact .inr (.inl hn)
  by_cases hk : c.arg2.toNat = 0
  · exact .inr (.inr (.inl hk))
  refine .inr (.inr (.inr ⟨fun i hi => ?_, ?_⟩))
  · -- Row `i` of the first source against the rows of the destination up to `i`.
    have hrow : ∀ p < c.arg2.toNat, Apart c.dst.toNat (c.src0.toNat + 4 * (i * c.arg2.toNat))
        ((i + 1) * c.arg1.toNat) p := by
      intro p hp j hj y hy heq
      exact (hreads i hi 0 (by omega) p hp).1 j hj y hy (by omega)
    have hpos : 0 < (i + 1) * c.arg1.toNat := Nat.mul_pos (Nat.succ_pos i) (by omega)
    have hsucc : (i + 1) * c.arg2.toNat = i * c.arg2.toNat + c.arg2.toNat := Nat.succ_mul i _
    have := apart_array hrow
    omega
  · -- The second source against all rows, when the last one is computed.
    have hall : ∀ q < c.arg2.toNat * c.arg1.toNat,
        Apart c.dst.toNat c.src1.toNat (c.arg0.toNat * c.arg1.toNat) q := by
      intro q hq
      obtain ⟨p, hp, j, hj, rfl⟩ := exists_index hq
      have hlast := (hreads (c.arg0.toNat - 1) (by omega) j hj p hp).2
      rwa [Nat.sub_add_cancel (by omega)] at hlast
    have hpos : 0 < c.arg0.toNat * c.arg1.toNat := Nat.mul_pos (by omega) (by omega)
    have hpos' : 0 < c.arg2.toNat * c.arg1.toNat := Nat.mul_pos (by omega) (by omega)
    have := apart_array hall
    omega

end SoftGpu.Exec
