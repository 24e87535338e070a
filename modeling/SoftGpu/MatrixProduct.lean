import SoftGpu.Compute

/-!
# What VADD and GEMM compute

The kernel of GEMM adds up a whole row of the destination at a time, so that its inner
loop streams over rows. Each element still receives its products in the order of `p`,
one rounding after the other, and ends as the scalar product of a row and a column.
-/

namespace SoftGpu.Exec
open Machine

variable {fl : Floats} {engine : ℕ} {c : Cmd} {x : Ctx} {s : State} {a b f g : ℕ → UInt8}
  {m n k i j e q t : ℕ}

def dot (fl : Floats) (u v : ℕ → Word) : ℕ → Word
  | 0 => Word.zero
  | k + 1 => fl.add (dot fl u v k) (fl.mul (u k) (v k))

theorem dot_congr {u v u' v' : ℕ → Word} (hu : ∀ p < k, u p = u' p) (hv : ∀ p < k, v p = v' p) :
    dot fl u v k = dot fl u' v' k := by
  induction k with
  | zero => rfl
  | succ k ih =>
    simp only [dot]
    rw [ih (fun p hp => hu p (Nat.lt_succ_of_lt hp)) fun p hp => hv p (Nat.lt_succ_of_lt hp),
      hu k (Nat.lt_succ_self k), hv k (Nat.lt_succ_self k)]

def rowColumn (fl : Floats) (a b : ℕ → UInt8) (n k i j q : ℕ) : Word :=
  dot fl (fun p => element a 0 (i * k + p)) (fun p => element b 0 (p * n + j)) q

/-! ### The kernels on buffers -/

theorem vadd_elements :
    ∀ e < n, element (vaddKernel fl (inScratch a b) n f) 0 e =
      fl.add (element a 0 e) (element b 0 e) := by
  refine upto_invariant (n := n) (fun t f => ∀ e < t, element f 0 e =
    fl.add (element a 0 e) (element b 0 e)) (fun _ he => absurd he (Nat.not_lt_zero _)) ?_
  intro t _ f ih e he
  simp only [inScratch]
  by_cases het : e = t
  · rw [het, element_setElement]
  · rw [element_setElement_of_ne het]
    exact ih e (by omega)

structure RowUpTo (n i t : ℕ) (w : ℕ → Word) (f g : ℕ → UInt8) : Prop where
  row : ∀ j < n, element g 0 (i * n + j) = if j < t then w j else element f 0 (i * n + j)
  rest : ∀ e, (∀ j < n, e ≠ i * n + j) → element g 0 e = element f 0 e

theorem RowUpTo.start (w : ℕ → Word) (f : ℕ → UInt8) : RowUpTo n i 0 w f f :=
  ⟨fun j _ => by rw [if_neg (Nat.not_lt_zero j)], fun _ _ => rfl⟩

theorem RowUpTo.store {w : ℕ → Word} (h : RowUpTo n i t w f g) (ht : t < n) :
    RowUpTo n i (t + 1) w f (setElement g 0 (i * n + t) (w t)) where
  row := by
    intro j hj
    by_cases hjt : j = t
    · rw [hjt, element_setElement, if_pos (Nat.lt_succ_self t)]
    · rw [element_setElement_of_ne (by omega), h.row j hj]
      simp only [show j < t + 1 ↔ j < t by omega]
  rest := by
    intro e he
    rw [element_setElement_of_ne (he t ht)]
    exact h.rest e he

structure RowAt (fl : Floats) (a b : ℕ → UInt8) (n k i q : ℕ) (f g : ℕ → UInt8) : Prop where
  row : ∀ j < n, element g 0 (i * n + j) = rowColumn fl a b n k i j q
  rest : ∀ e, (∀ j < n, e ≠ i * n + j) → element g 0 e = element f 0 e

theorem RowUpTo.full {w : ℕ → Word} (h : RowUpTo n i n w f g) (hj : j < n) :
    element g 0 (i * n + j) = w j := by
  rw [h.row j hj, if_pos hj]

theorem row_cleared (fl : Floats) (a b : ℕ → UInt8) (n k i : ℕ) (f : ℕ → UInt8) :
    RowAt fl a b n k i 0 f
      (upto n (fun j s => (inScratch a b).store s (i * n + j) Word.zero) f) := by
  have h : RowUpTo n i n (fun _ => Word.zero) f
      (upto n (fun j s => (inScratch a b).store s (i * n + j) Word.zero) f) :=
    upto_invariant (fun t g => RowUpTo n i t (fun _ => Word.zero) f g) (.start _ f)
      fun t ht g h => h.store ht
  exact ⟨fun j hj => h.full hj, h.rest⟩

theorem RowAt.turn (h : RowAt fl a b n k i q f g) :
    RowAt fl a b n k i (q + 1) f (upto n (fun j s => (inScratch a b).store s (i * n + j)
      (fl.add ((inScratch a b).out s (i * n + j))
        (fl.mul ((inScratch a b).a g (i * k + q)) ((inScratch a b).b s (q * n + j))))) g) := by
  have hrow : RowUpTo n i n (fun j => rowColumn fl a b n k i j (q + 1)) g
      (upto n (fun j s => (inScratch a b).store s (i * n + j)
        (fl.add ((inScratch a b).out s (i * n + j))
          (fl.mul ((inScratch a b).a g (i * k + q)) ((inScratch a b).b s (q * n + j))))) g) := by
    refine upto_invariant
      (fun t g' => RowUpTo n i t (fun j => rowColumn fl a b n k i j (q + 1)) g g')
      (.start _ g) fun t ht g' h' => ?_
    -- Element `t` of the row has not been touched in this turn.
    have hout : element g' 0 (i * n + t) = rowColumn fl a b n k i t q := by
      rw [h'.row t ht, if_neg (Nat.lt_irrefl t), h.row t ht]
    simp only [inScratch, hout]
    exact h'.store ht
  refine ⟨fun j hj => hrow.full hj, fun e he => ?_⟩
  rw [hrow.rest e he]
  exact h.rest e he

theorem gemmRow_at (fl : Floats) (a b : ℕ → UInt8) (n k i : ℕ) (f : ℕ → UInt8) :
    RowAt fl a b n k i k f (gemmRow fl (inScratch a b) n k i f) := by
  simp only [gemmRow]
  exact upto_invariant (fun q g => RowAt fl a b n k i q f g) (row_cleared fl a b n k i f)
    fun q _ g h => h.turn

theorem row_ne {i' j' : ℕ} (hi : i < i') (hj : j < n) : i * n + j ≠ i' * n + j' := by
  have hlt := index_lt hi hj
  omega

theorem gemm_elements (fl : Floats) (a b : ℕ → UInt8) (m n k : ℕ) (f : ℕ → UInt8) :
    ∀ i < m, ∀ j < n, element (gemmKernel fl (inScratch a b) m n k f) 0 (i * n + j) =
      rowColumn fl a b n k i j k := by
  refine upto_invariant (fun t g => ∀ i < t, ∀ j < n, element g 0 (i * n + j) =
    rowColumn fl a b n k i j k) (fun _ hi => absurd hi (Nat.not_lt_zero _)) ?_
  intro t _ g ih i hi j hj
  have hrow := gemmRow_at fl a b n k t g
  obtain hlt | rfl := Nat.lt_succ_iff_lt_or_eq.mp hi
  · rw [hrow.rest _ fun j' _ => row_ne hlt hj]
    exact ih i hlt j hj
  · exact hrow.row j hj

/-! ### Commands -/

/-- `dev'` has the sums or scalar products of the sources in `dev`, and is `dev` elsewhere on the
pages of `S`. -/
structure Product (fl : Floats) (c : Cmd) (S : ℕ → Prop) (dev dev' : ℕ → UInt8) : Prop where
  vadd : c.opcode = .vaddF32 → ∀ i < c.arg0.toNat, element dev' c.dst.toNat i =
    fl.add (element dev c.src0.toNat i) (element dev c.src1.toNat i)
  gemm : c.opcode = .gemmF32 → ∀ i < c.arg0.toNat, ∀ j < c.arg1.toNat,
    element dev' c.dst.toNat (i * c.arg1.toNat + j) =
      dot fl (fun p => element dev c.src0.toNat (i * c.arg2.toNat + p))
        (fun p => element dev c.src1.toNat (p * c.arg1.toNat + j)) c.arg2.toNat
  rest : ∀ va, S (va / pageSize) →
    ¬(c.dst.toNat ≤ va ∧ va < c.dst.toNat + (c.kernel fl).bytesD) → dev' va = dev va

theorem element_gathered {dev : ℕ → UInt8} {va : ℕ} (he : 4 * (e + 1) ≤ n) :
    element (gathered dev va n) 0 e = element dev va e := by
  funext b
  have hb := b.isLt
  simp only [element, Nat.zero_add]
  rw [gathered_apply (by omega), Nat.add_assoc]

theorem element_eq {va : ℕ} (h : ∀ i < n, f (va + i) = g i) (he : 4 * (e + 1) ≤ n) :
    element f va e = element g 0 e := by
  funext b
  have hb := b.isLt
  simp only [element, Nat.zero_add, Nat.add_assoc]
  exact h _ (by omega)

theorem computed_vadd (hop : c.opcode = .vaddF32) (dev : ℕ → UInt8) (hi : i < c.arg0.toNat) :
    element (computed fl c dev) 0 i =
      fl.add (element dev c.src0.toNat i) (element dev c.src1.toNat i) := by
  simp only [computed, sourceA, sourceB, Cmd.kernel, hop, if_true, vectorBytes_exact]
  rw [vadd_elements i hi, element_gathered (by omega), element_gathered (by omega)]

theorem computed_gemm (hop : c.opcode = .gemmF32) (hfit : c.LoopsFit) (dev : ℕ → UInt8)
    (hi : i < c.arg0.toNat) (hj : j < c.arg1.toNat) :
    element (computed fl c dev) 0 (i * c.arg1.toNat + j) =
      dot fl (fun p => element dev c.src0.toNat (i * c.arg2.toNat + p))
        (fun p => element dev c.src1.toNat (p * c.arg1.toNat + j)) c.arg2.toNat := by
  have hne : ¬c.opcode = .vaddF32 := by simp [hop]
  obtain ⟨hmk, hkn, -⟩ := hfit hop
  have hkn' := hkn.resolve_left (Nat.ne_zero_of_lt hi)
  simp only [computed, sourceA, sourceB, Cmd.kernel, if_neg hne, matrixBytes_exact.mpr hmk,
    matrixBytes_exact.mpr hkn']
  rw [gemm_elements _ _ _ _ _ _ _ i hi j hj]
  refine dot_congr (fun p hp => element_gathered ?_) fun p hp => element_gathered ?_
  · have hlt := index_lt hi hp
    omega
  · have hlt := index_lt hp hj
    omega

/-- Whatever the placement of the operands and the faults, migrations and evictions between its
attempts, a VADD or GEMM that retires with status 0 leaves in its destination the sums, or the
scalar products of rows and columns, of what its sources held at the start. The rest of memory stays
as it was. -/
theorem compute_product (hop : c.opcode = .vaddF32 ∨ c.opcode = .gemmF32) (hfit : c.LoopsFit)
    (hfirst : c.ReadsFirst) {start : World} (hready : Ready fl c x start.mem)
    (h : Reach (step fl engine c) (undisturbed x.pages) ⟨start, .init, none⟩ s)
    (hdone : s.retired = some (.done ())) :
    Product fl c x.pages (view start.mem) (view s.world.mem) ∧ s.world.host = start.host := by
  have hdesc := reach_described (resumes_compute hop hfit hfirst hready.sources)
    ⟨hready.inv, hready.ranges, hready.mapped, hready.settled.backed⟩ ⟨rfl, .inl ⟨rfl, rfl⟩⟩ h
  simp only [Described, hdone] at hdesc
  obtain ⟨hsees, hhost, -⟩ := hdesc
  have hbytes : ∀ i < (c.kernel fl).bytesD,
      view s.world.mem (c.dst.toNat + i) = computed fl c (view start.mem) i :=
    fun i hi => reach_computed hop hfit hfirst hready h hdone hi
  refine ⟨⟨fun hv i hi => ?_, fun hg i hi j hj => ?_, fun va hva hout => ?_⟩, hhost⟩
  · have hle : 4 * (i + 1) ≤ (c.kernel fl).bytesD := by
      simp only [Cmd.kernel, hv, if_true, vectorBytes_exact]
      omega
    rw [element_eq hbytes hle]
    exact computed_vadd hv _ hi
  · have hle : 4 * (i * c.arg1.toNat + j + 1) ≤ (c.kernel fl).bytesD := by
      have hlt := index_lt hi hj
      simp only [Cmd.kernel, hg, matrixBytes_exact.mpr (hfit hg).2.2, reduceCtorEq, if_false]
      omega
    rw [element_eq hbytes hle]
    exact computed_gemm hg hfit _ hi hj
  · rw [hsees.view_eq hva, patch_of_not hout]

def squares : Cmd := ⟨.gemmF32, 0, 268435520, 268435456, 268435488, 0, 2, 2, 2, 0, 0⟩

theorem compute_product_squares : ∃ s,
    exec (step plainFloats 0 squares) ⟨managedWorld, .init, none⟩ faultingRun = some s ∧
    Product plainFloats squares managedCtx.pages (view managedWorld.mem) (view s.world.mem) := by
  have hrun : (exec (step plainFloats 0 squares) ⟨managedWorld, .init, none⟩
      faultingRun).map State.succeeded = some true := by decide +kernel
  obtain ⟨s, hs, hsucc⟩ := Option.map_eq_some_iff.mp hrun
  have hready : Ready plainFloats squares managedCtx managedWorld.mem :=
    { inv := managedStart_inv.mem
      ranges := managedStart_ranges
      mapped := managedStart_mapped
      settled := managedStart_settled
      sources := ⟨by decide, by decide⟩
      dst := by decide }
  have hfit : squares.LoopsFit := fun _ => ⟨by decide, .inr (by decide), by decide⟩
  have hfirst : squares.ReadsFirst :=
    .inr (.inr (.inr ⟨by decide, by decide⟩))
  exact ⟨s, hs, (compute_product (.inr rfl) hfit hfirst hready (quiet_run (.inr rfl) hs)
    (State.retired_of_succeeded hsucc)).1⟩

end SoftGpu.Exec
