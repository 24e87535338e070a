import SoftGpu.KeyMap
import SoftGpu.Mmu

/-!
# Commands and their validation

`sg_cmd`, the checks of `do_submit` and the commands it enqueues when it returns 0.
The fields have the widths of the source, and products of dimensions are taken in
64-bit arithmetic, by the driver and by the device alike.

`owns` takes the allocation lock anew at every call, so the table it finds is
indexed by the call. Rings, fences and staging slots are the business of `Submit`
and `Staging`; here a staged copy is the list of its chunks, with the address of
the slot that each of them was given.
-/

namespace SoftGpu.Exec

inductive Opcode
  | nop
  | fill
  | copyH2D
  | copyD2H
  | copyD2D
  | vaddF32
  | gemmF32
  | waitFence
  deriving DecidableEq, Repr

structure Cmd where
  opcode : Opcode
  flags : UInt32
  dst : UInt64
  src0 : UInt64
  src1 : UInt64
  size : UInt64
  arg0 : UInt32
  arg1 : UInt32
  arg2 : UInt32
  value : UInt32
  reserved : UInt64
  deriving DecidableEq, Repr

def Opcode.isCopyOp : Opcode → Bool
  | .copyH2D | .copyD2H | .copyD2D => true
  | _ => false

def Opcode.isComputeOp : Opcode → Bool
  | .fill | .vaddF32 | .gemmF32 => true
  | _ => false

def Opcode.misplaced (op : Opcode) (engine : ℕ) : Bool :=
  if engine = 0 then op.isCopyOp else op.isComputeOp

def matrixBytes (m n : UInt32) : UInt64 := m.toUInt64 * n.toUInt64 * 4

def vectorBytes (n : UInt32) : UInt64 := n.toUInt64 * 4

structure RangeTable where
  map : KeyMap UInt64
  fits : ∀ e ∈ map.entries, e.1 + e.2.toNat < 2 ^ 64

def RangeTable.covers (t : RangeTable) (addr len : UInt64) : Bool :=
  match t.map.atMost addr.toNat with
  | none => false
  | some (first, size) => addr.toNat - first ≤ size.toNat ∧
      len.toNat ≤ size.toNat - (addr.toNat - first)

/-- What `do_submit` reads of the driver. `allocs i` is the table that the `i`-th call of
`owns` finds and `slotPtr i` the staging slot of the `i`-th chunk. -/
structure View where
  engines : ℕ
  channels : ℕ
  sticky : Bool
  published : ℕ → ℕ → ℕ
  allocs : ℕ → RangeTable
  pins : RangeTable
  chunk : ℕ
  slotPtr : ℕ → UInt64

def View.owns (d : View) (call : ℕ) (addr len : UInt64) : Bool := (d.allocs call).covers addr len

def View.pinned (d : View) (addr size : UInt64) : Bool := d.pins.covers addr size

structure Args where
  cmd : Cmd
  engine : ℕ
  channel : ℕ
  hostPtr : UInt64

def View.nchunks (d : View) (total : UInt64) : ℕ := (total.toNat + d.chunk - 1) / d.chunk

def View.chunkIn (d : View) (c : Cmd) (i : ℕ) : Cmd :=
  { c with
    src0 := d.slotPtr i
    dst := c.dst + UInt64.ofNat (i * d.chunk)
    size := UInt64.ofNat (min d.chunk (c.size.toNat - i * d.chunk)) }

def View.chunkOut (d : View) (c : Cmd) (i : ℕ) : Cmd :=
  { c with
    src0 := c.src0 + UInt64.ofNat (i * d.chunk)
    dst := d.slotPtr i
    size := UInt64.ofNat (min d.chunk (c.size.toNat - i * d.chunk)) }

def doSubmit (d : View) (a : Args) : Except Errno (List Cmd) :=
  let c := a.cmd
  if c.flags ≠ 0 ∨ c.reserved ≠ 0 then .error .einval
  else if d.engines ≤ a.engine ∨ d.channels ≤ a.channel then .error .einval
  else if c.opcode.misplaced a.engine then .error .einval
  else if d.sticky then .error .eio
  else match c.opcode with
  | .nop => .ok [c]
  | .waitFence =>
    if d.engines ≤ c.arg0.toNat ∨ d.channels ≤ c.arg1.toNat ∨
        d.published c.arg0.toNat c.arg1.toNat < c.src1.toNat then .error .einval
    else .ok [c]
  | .fill => if d.owns 0 c.dst c.size then .ok [c] else .error .efault
  | .copyD2D =>
    if d.owns 0 c.dst c.size ∧ d.owns 1 c.src0 c.size then .ok [c] else .error .efault
  | .copyH2D =>
    if a.hostPtr = 0 ∨ d.owns 0 c.dst c.size = false then .error .efault
    else if d.pinned a.hostPtr c.size then .ok [{ c with src0 := a.hostPtr }]
    else .ok ((List.range (d.nchunks c.size)).map (d.chunkIn c))
  | .copyD2H =>
    if a.hostPtr = 0 ∨ d.owns 0 c.src0 c.size = false then .error .efault
    else if d.pinned a.hostPtr c.size then .ok [{ c with dst := a.hostPtr }]
    else .ok ((List.range (d.nchunks c.size)).map (d.chunkOut c))
  | .vaddF32 =>
    let bytes := vectorBytes c.arg0
    if d.owns 0 c.dst bytes ∧ d.owns 1 c.src0 bytes ∧ d.owns 2 c.src1 bytes then .ok [c]
    else .error .efault
  | .gemmF32 =>
    if d.owns 0 c.src0 (matrixBytes c.arg0 c.arg2) ∧ d.owns 1 c.src1 (matrixBytes c.arg2 c.arg1) ∧
        d.owns 2 c.dst (matrixBytes c.arg0 c.arg1) then .ok [c]
    else .error .efault

/-! ### The addresses a command uses -/

def inElement (base : UInt64) (i x : ℕ) : Prop :=
  base.toNat + 4 * i ≤ x ∧ x < base.toNat + 4 * (i + 1)

instance (base : UInt64) (i x : ℕ) : Decidable (inElement base i x) :=
  inferInstanceAs (Decidable (_ ∧ _))

/-- The device address `x` is read or written by the command. Elements are counted as
the loops of the kernels form them, without a bound. -/
def Touches (c : Cmd) (x : ℕ) : Prop :=
  let m := c.arg0.toNat
  let n := c.arg1.toNat
  let k := c.arg2.toNat
  match c.opcode with
  | .nop | .waitFence => False
  | .fill | .copyH2D => c.dst.toNat ≤ x ∧ x < c.dst.toNat + c.size.toNat
  | .copyD2H => c.src0.toNat ≤ x ∧ x < c.src0.toNat + c.size.toNat
  | .copyD2D => c.dst.toNat ≤ x ∧ x < c.dst.toNat + c.size.toNat ∨
      c.src0.toNat ≤ x ∧ x < c.src0.toNat + c.size.toNat
  | .vaddF32 => ∃ i < m, inElement c.src0 i x ∨ inElement c.src1 i x ∨ inElement c.dst i x
  | .gemmF32 => ∃ i < m, (∃ j < n, inElement c.dst (i * n + j) x) ∨
      ∃ p < k, inElement c.src0 (i * k + p) x ∨ ∃ j < n, inElement c.src1 (p * n + j) x ∨
        inElement c.dst (i * n + j) x

def View.Live (d : View) (x : ℕ) : Prop :=
  ∃ call, ∃ e ∈ (d.allocs call).map.entries, e.1 ≤ x ∧ x < e.1 + e.2.toNat

def Contained (d : View) (cmds : List Cmd) : Prop := ∀ c ∈ cmds, ∀ x, Touches c x → d.Live x

def ExactBytes (c : Cmd) : Prop :=
  match c.opcode with
  | .vaddF32 => (vectorBytes c.arg0).toNat = c.arg0.toNat * 4
  | .gemmF32 => (matrixBytes c.arg0 c.arg2).toNat = c.arg0.toNat * c.arg2.toNat * 4 ∧
      (matrixBytes c.arg2 c.arg1).toNat = c.arg2.toNat * c.arg1.toNat * 4 ∧
      (matrixBytes c.arg0 c.arg1).toNat = c.arg0.toNat * c.arg1.toNat * 4
  | _ => True

def Cmd.DimsFit (c : Cmd) : Prop :=
  c.opcode = .gemmF32 → c.arg0.toNat * c.arg2.toNat < 2 ^ 62 ∧
    c.arg2.toNat * c.arg1.toNat < 2 ^ 62 ∧ c.arg0.toNat * c.arg1.toNat < 2 ^ 62

def Cmd.LoopsFit (c : Cmd) : Prop :=
  c.opcode = .gemmF32 → c.arg0.toNat * c.arg2.toNat < 2 ^ 62 ∧
    (c.arg0.toNat = 0 ∨ c.arg2.toNat * c.arg1.toNat < 2 ^ 62) ∧
    c.arg0.toNat * c.arg1.toNat < 2 ^ 62

section
variable {d : View} {a : Args} {c : Cmd} {cmds : List Cmd} {x : ℕ}

theorem matrixBytes_toNat (m n : UInt32) :
    (matrixBytes m n).toNat = m.toNat * n.toNat * 4 % 2 ^ 64 := by
  simp [matrixBytes]

theorem matrixBytes_exact {m n : UInt32} :
    (matrixBytes m n).toNat = m.toNat * n.toNat * 4 ↔ m.toNat * n.toNat < 2 ^ 62 := by
  rw [matrixBytes_toNat]
  constructor
  · intro h
    have := Nat.mod_lt (m.toNat * n.toNat * 4) (show 0 < 2 ^ 64 by decide)
    omega
  · intro h
    exact Nat.mod_eq_of_lt (by omega)

theorem vectorBytes_exact (n : UInt32) : (vectorBytes n).toNat = n.toNat * 4 := by
  have hn := n.toNat_lt
  simp only [vectorBytes, UInt64.toNat_mul, UInt32.toNat_toUInt64, UInt64.toNat_ofNat]
  omega

theorem owns_live {call : ℕ} {addr len : UInt64} (h : d.owns call addr len = true)
    (hle : addr.toNat ≤ x) (hlt : x < addr.toNat + len.toNat) : d.Live x := by
  simp only [View.owns, RangeTable.covers] at h
  split at h
  · cases h
  · next first size hfound =>
    obtain ⟨hmem, hfirst, -⟩ := KeyMap.atMost_spec hfound
    simp only [decide_eq_true_eq] at h
    have hstop : x < first + size.toNat := by omega
    exact ⟨call, (first, size), hmem, hfirst.trans hle, hstop⟩

theorem owns_fits {call : ℕ} {addr len : UInt64} (h : d.owns call addr len = true) :
    addr.toNat + len.toNat < 2 ^ 64 := by
  simp only [View.owns, RangeTable.covers] at h
  split at h
  · cases h
  · next first size hfound =>
    obtain ⟨hmem, hfirst, -⟩ := KeyMap.atMost_spec hfound
    have hfits := (d.allocs call).fits _ hmem
    simp only [decide_eq_true_eq] at h hfits
    omega

theorem live_lt (h : d.Live x) : x + 1 < 2 ^ 64 := by
  obtain ⟨call, e, he, -, hlt⟩ := h
  have := (d.allocs call).fits e he
  omega

theorem index_lt {m n i j : ℕ} (hi : i < m) (hj : j < n) : i * n + j < m * n :=
  calc i * n + j < i * n + n := Nat.add_lt_add_left hj _
    _ = (i + 1) * n := (Nat.succ_mul i n).symm
    _ ≤ m * n := Nat.mul_le_mul_right n hi

theorem element_live {call count i : ℕ} {addr len : UInt64} (h : d.owns call addr len = true)
    (hlen : len.toNat = count * 4) (hi : i < count) (hx : inElement addr i x) : d.Live x := by
  obtain ⟨hle, hlt⟩ := hx
  exact owns_live h (by omega) (by omega)

theorem count_lt (d : View) (addr : UInt64) {count : ℕ}
    (h : ∀ i < count, ∀ x, inElement addr i x → d.Live x) : count < 2 ^ 62 := by
  by_contra hge
  have hlast := live_lt (h (count - 1) (by omega) (addr.toNat + 4 * count - 1)
    ⟨by omega, by omega⟩)
  omega

theorem exists_index {m n q : ℕ} (hq : q < m * n) : ∃ i < m, ∃ j < n, i * n + j = q := by
  have hn : 0 < n := Nat.pos_of_ne_zero fun h => by simp [h] at hq
  refine ⟨q / n, Nat.div_lt_of_lt_mul (by rwa [Nat.mul_comm]), q % n, Nat.mod_lt q hn, ?_⟩
  rw [Nat.mul_comm]
  exact Nat.div_add_mod q n

theorem chunk_range {call i : ℕ} {addr total : UInt64} (h : d.owns call addr total = true)
    (hi : i < d.nchunks total)
    (hle : (addr + UInt64.ofNat (i * d.chunk)).toNat ≤ x)
    (hlt : x < (addr + UInt64.ofNat (i * d.chunk)).toNat +
      (UInt64.ofNat (min d.chunk (total.toNat - i * d.chunk))).toNat) : d.Live x := by
  have hfits := owns_fits h
  have hpos : 0 < d.chunk := Nat.pos_of_ne_zero fun h0 => by simp [View.nchunks, h0] at hi
  have hoff : i * d.chunk < total.toNat := by
    have hmul := (Nat.le_div_iff_mul_le hpos).mp
      (show i + 1 ≤ (total.toNat + d.chunk - 1) / d.chunk from hi)
    rw [Nat.succ_mul] at hmul
    omega
  have haddr : (addr + UInt64.ofNat (i * d.chunk)).toNat = addr.toNat + i * d.chunk := by
    rw [UInt64.toNat_add, UInt64.toNat_ofNat']
    omega
  have hlen : (UInt64.ofNat (min d.chunk (total.toNat - i * d.chunk))).toNat =
      min d.chunk (total.toNat - i * d.chunk) := by
    rw [UInt64.toNat_ofNat']
    omega
  rw [haddr] at hle hlt
  rw [hlen] at hlt
  exact owns_live h (by omega) (by omega)

/-- An accepted command is a GEMM whose operands `owns` has accepted with the byte counts
of the 64-bit products, or stays inside what was validated. -/
theorem doSubmit_cases (h : doSubmit d a = .ok cmds) :
    (a.cmd.opcode = .gemmF32 ∧ cmds = [a.cmd] ∧
      d.owns 0 a.cmd.src0 (matrixBytes a.cmd.arg0 a.cmd.arg2) = true ∧
      d.owns 1 a.cmd.src1 (matrixBytes a.cmd.arg2 a.cmd.arg1) = true ∧
      d.owns 2 a.cmd.dst (matrixBytes a.cmd.arg0 a.cmd.arg1) = true) ∨
    (a.cmd.opcode ≠ .gemmF32 ∧ Contained d cmds) := by
  simp only [doSubmit] at h
  split at h
  · cases h
  split at h
  · cases h
  split at h
  · cases h
  split at h
  · cases h
  cases hop : a.cmd.opcode with
  | nop =>
    simp only [hop] at h
    cases h
    refine .inr ⟨by simp, fun c hc x hx => ?_⟩
    rw [List.mem_singleton.mp hc] at hx
    simp [Touches, hop] at hx
  | waitFence =>
    simp only [hop] at h
    split at h
    · cases h
    · cases h
      refine .inr ⟨by simp, fun c hc x hx => ?_⟩
      rw [List.mem_singleton.mp hc] at hx
      simp [Touches, hop] at hx
  | fill =>
    simp only [hop] at h
    split at h
    · next hown =>
      cases h
      refine .inr ⟨by simp, fun c hc x hx => ?_⟩
      rw [List.mem_singleton.mp hc] at hx
      simp only [Touches, hop] at hx
      exact owns_live hown hx.1 hx.2
    · cases h
  | copyD2D =>
    simp only [hop] at h
    split at h
    · next hown =>
      cases h
      refine .inr ⟨by simp, fun c hc x hx => ?_⟩
      rw [List.mem_singleton.mp hc] at hx
      simp only [Touches, hop] at hx
      obtain hx | hx := hx
      · exact owns_live hown.1 hx.1 hx.2
      · exact owns_live hown.2 hx.1 hx.2
    · cases h
  | copyH2D =>
    simp only [hop] at h
    split at h
    · cases h
    · next hok =>
      have hown : d.owns 0 a.cmd.dst a.cmd.size = true := by simpa using (not_or.mp hok).2
      refine .inr ⟨by simp, fun c hc x hx => ?_⟩
      split at h
      · cases h
        rw [List.mem_singleton.mp hc] at hx
        simp only [Touches] at hx
        exact owns_live hown hx.1 hx.2
      · cases h
        obtain ⟨i, hi, rfl⟩ := List.mem_map.mp hc
        simp only [Touches, View.chunkIn, hop] at hx
        exact chunk_range hown (List.mem_range.mp hi) hx.1 hx.2
  | copyD2H =>
    simp only [hop] at h
    split at h
    · cases h
    · next hok =>
      have hown : d.owns 0 a.cmd.src0 a.cmd.size = true := by simpa using (not_or.mp hok).2
      refine .inr ⟨by simp, fun c hc x hx => ?_⟩
      split at h
      · cases h
        rw [List.mem_singleton.mp hc] at hx
        simp only [Touches] at hx
        exact owns_live hown hx.1 hx.2
      · cases h
        obtain ⟨i, hi, rfl⟩ := List.mem_map.mp hc
        simp only [Touches, View.chunkOut, hop] at hx
        exact chunk_range hown (List.mem_range.mp hi) hx.1 hx.2
  | vaddF32 =>
    simp only [hop] at h
    split at h
    · next hown =>
      cases h
      refine .inr ⟨by simp, fun c hc x hx => ?_⟩
      rw [List.mem_singleton.mp hc] at hx
      simp only [Touches, hop] at hx
      obtain ⟨i, hi, hx | hx | hx⟩ := hx
      · exact element_live hown.2.1 (vectorBytes_exact _) hi hx
      · exact element_live hown.2.2 (vectorBytes_exact _) hi hx
      · exact element_live hown.1 (vectorBytes_exact _) hi hx
    · cases h
  | gemmF32 =>
    simp only [hop] at h
    split at h
    · next hown =>
      cases h
      exact .inl ⟨rfl, rfl, hown.1, hown.2.1, hown.2.2⟩
    · cases h

/-- The loops of an accepted GEMM stay inside its operands exactly when the element counts
that they use fit. -/
theorem gemm_contained (hop : c.opcode = .gemmF32)
    (h₀ : d.owns 0 c.src0 (matrixBytes c.arg0 c.arg2) = true)
    (h₁ : d.owns 1 c.src1 (matrixBytes c.arg2 c.arg1) = true)
    (h₂ : d.owns 2 c.dst (matrixBytes c.arg0 c.arg1) = true) :
    Contained d [c] ↔ c.LoopsFit := by
  constructor
  · intro h hgemm
    have htouch : ∀ x, Touches c x → d.Live x := h c (List.mem_singleton_self c)
    simp only [Touches, hop] at htouch
    refine ⟨count_lt d c.src0 fun q hq x hx => ?_, ?_, count_lt d c.dst fun q hq x hx => ?_⟩
    · obtain ⟨i, hi, p, hp, rfl⟩ := exists_index hq
      exact htouch x ⟨i, hi, .inr ⟨p, hp, .inl hx⟩⟩
    · refine (Nat.eq_zero_or_pos _).imp id fun hm => count_lt d c.src1 fun q hq x hx => ?_
      obtain ⟨p, hp, j, hj, rfl⟩ := exists_index hq
      exact htouch x ⟨0, hm, .inr ⟨p, hp, .inr ⟨j, hj, .inl hx⟩⟩⟩
    · obtain ⟨i, hi, j, hj, rfl⟩ := exists_index hq
      exact htouch x ⟨i, hi, .inl ⟨j, hj, hx⟩⟩
  · intro hfit c' hc x hx
    rw [List.mem_singleton.mp hc] at hx
    obtain ⟨hmk, hkn, hmn⟩ := hfit hop
    simp only [Touches, hop] at hx
    obtain ⟨i, hi, ⟨j, hj, hx⟩ | ⟨p, hp, hx | ⟨j, hj, hx | hx⟩⟩⟩ := hx
    · exact element_live h₂ (matrixBytes_exact.mpr hmn) (index_lt hi hj) hx
    · exact element_live h₀ (matrixBytes_exact.mpr hmk) (index_lt hi hp) hx
    · have hkn' := hkn.resolve_left (by omega)
      exact element_live h₁ (matrixBytes_exact.mpr hkn') (index_lt hp hj) hx
    · exact element_live h₂ (matrixBytes_exact.mpr hmn) (index_lt hi hj) hx

/-- An accepted command stays inside the allocations that `owns` found, with exact byte
counts, if and only if the element counts of a GEMM are below `2 ^ 62`; its accesses
alone stay inside if and only if those of the operands that its loops use are. -/
theorem accepted_stays_inside (h : doSubmit d a = .ok cmds) :
    (Contained d cmds ∧ ExactBytes a.cmd ↔ a.cmd.DimsFit) ∧
      (Contained d cmds ↔ a.cmd.LoopsFit) := by
  obtain ⟨hop, rfl, h₀, h₁, h₂⟩ | ⟨hop, hin⟩ := doSubmit_cases h
  · have hloops := gemm_contained hop h₀ h₁ h₂
    refine ⟨⟨fun hboth hgemm => ?_, fun hfit => ?_⟩, hloops⟩
    · obtain ⟨-, hexact⟩ := hboth
      simp only [ExactBytes, hop, matrixBytes_exact] at hexact
      exact hexact
    · obtain ⟨hmk, hkn, hmn⟩ := hfit hop
      refine ⟨hloops.mpr fun _ => ⟨hmk, .inr hkn, hmn⟩, ?_⟩
      simp only [ExactBytes, hop, matrixBytes_exact]
      exact ⟨hmk, hkn, hmn⟩
  · have hexact : ExactBytes a.cmd := by
      unfold ExactBytes
      split
      · exact vectorBytes_exact _
      · next hgemm => exact absurd hgemm hop
      · trivial
    exact ⟨⟨fun _ hgemm => absurd hgemm hop, fun _ => ⟨hin, hexact⟩⟩,
      ⟨fun _ hgemm => absurd hgemm hop, fun _ => hin⟩⟩

end

/-- One engine and one channel, with one allocation of a page at address 0. -/
def onePage : View where
  engines := 1
  channels := 1
  sticky := false
  published := fun _ _ => 0
  allocs := fun _ => ⟨KeyMap.empty.emplace 0 4096, by decide⟩
  pins := ⟨KeyMap.empty, by decide⟩
  chunk := 4096
  slotPtr := fun _ => 0

def gemmAtZero (m n k : UInt32) : Args :=
  ⟨⟨.gemmF32, 0, 0, 0, 0, 0, m, n, k, 0, 0⟩, 0, 0, 0⟩

theorem accepted_stays_inside_small :
    Contained onePage [(gemmAtZero 4 4 4).cmd] ∧ ExactBytes (gemmAtZero 4 4 4).cmd := by
  have hsub : doSubmit onePage (gemmAtZero 4 4 4) = .ok [(gemmAtZero 4 4 4).cmd] := by
    decide +kernel
  exact (accepted_stays_inside hsub).1.mpr fun _ => by decide

/-- With `2 ^ 31` rows and columns and no inner dimension all three byte counts are 0 in
64-bit arithmetic; the command is accepted, and its loops store `2 ^ 62` elements. -/
theorem accepted_stays_inside_wraps :
    ¬∀ (d : View) (a : Args) (cmds : List Cmd), doSubmit d a = .ok cmds →
      Contained d cmds ∧ ExactBytes a.cmd := by
  intro h
  have hsub : doSubmit onePage (gemmAtZero (2 ^ 31) (2 ^ 31) 0) =
      .ok [(gemmAtZero (2 ^ 31) (2 ^ 31) 0).cmd] := by decide +kernel
  obtain ⟨hin, -⟩ := h _ _ _ hsub
  have hlive := hin _ (List.mem_singleton_self _) 4096 ⟨0, by
    decide, .inl ⟨1024, by decide, by decide⟩⟩
  obtain ⟨call, e, he, -, hlt⟩ := hlive
  obtain rfl : e = (0, 4096) := List.mem_singleton.mp he
  exact absurd hlt (by decide)

end SoftGpu.Exec
