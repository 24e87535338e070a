import SoftGpu.KeyMap
import Mathlib.Algebra.BigOperators.Group.List.Basic

/-!
# The first-fit allocator

`VramAllocator`: a coalesced map of free blocks and a map of live blocks, both
from start to length. The driver has one instance for VRAM frames and one for
the managed part of the device VA space. Both have base + size ≤ 2 ^ 64, so their
addresses are natural numbers and no sum of an address and a length wraps. The
rounding of a request happens in 64 bits, where it can wrap.

The invariant counts: over every address, the free and the live blocks together
cover each address of the range exactly once and no other address. Disjointness
and tiling are consequences, and moving, splitting and joining blocks are sums.
-/

namespace SoftGpu

structure VramAllocator where
  align : ℕ
  free : KeyMap ℕ
  live : KeyMap ℕ
  liveBytes : ℕ

namespace VramAllocator

def new (base size align : ℕ) : VramAllocator where
  align := align
  free := KeyMap.empty.emplace base size
  live := KeyMap.empty
  liveBytes := 0

def roundUp (align bytes : ℕ) : ℕ := (bytes + align - 1) % 2 ^ 64 / align * align

def alloc (a : VramAllocator) (bytes : ℕ) : Option (ℕ × VramAllocator) :=
  if bytes = 0 then none
  else
    let need := roundUp a.align bytes
    match a.free.entries.find? fun b => need ≤ b.2 with
    | none => none
    | some (addr, len) =>
      let rest := a.free.erase addr
      some (addr, { a with
        free := if len - need = 0 then rest else rest.emplace (addr + need) (len - need)
        live := a.live.emplace addr need
        liveBytes := a.liveBytes + need })

def detach (a : VramAllocator) (addr : ℕ) : Option (ℕ × VramAllocator) :=
  match a.live.find addr with
  | none => none
  | some size => some (size, { a with live := a.live.erase addr, liveBytes := a.liveBytes - size })

def joinNext (f : KeyMap ℕ) (start len : ℕ) : ℕ × KeyMap ℕ :=
  match f.lowerBound start with
  | some (n, l) => if n = start + len then (len + l, f.erase n) else (len, f)
  | none => (len, f)

def joinPrev (f : KeyMap ℕ) (start len : ℕ) : ℕ × ℕ × KeyMap ℕ :=
  match f.before start with
  | some (p, l) => if p + l = start then (p, len + l, f.erase p) else (start, len, f)
  | none => (start, len, f)

def release (a : VramAllocator) (addr len : ℕ) : VramAllocator :=
  let n := joinNext a.free addr len
  let p := joinPrev n.2 addr n.1
  { a with free := p.2.2.emplace p.1 p.2.1 }

def freeAddr (a : VramAllocator) (addr : ℕ) : VramAllocator :=
  match a.detach addr with
  | none => a
  | some (size, a') => a'.release addr size

/-! ### Coverage -/

def covers (b : ℕ × ℕ) (x : ℕ) : ℕ := if b.1 ≤ x ∧ x < b.1 + b.2 then 1 else 0

def coverage (l : List (ℕ × ℕ)) (x : ℕ) : ℕ := (l.map fun b => covers b x).sum

variable {a a' : VramAllocator} {l l' : List (ℕ × ℕ)} {b c : ℕ × ℕ} {base size x : ℕ}

@[simp] theorem coverage_nil : coverage [] x = 0 := rfl

@[simp] theorem coverage_cons : coverage (b :: l) x = covers b x + coverage l x := by
  simp [coverage]

@[simp] theorem coverage_append : coverage (l ++ l') x = coverage l x + coverage l' x := by
  simp [coverage]

theorem coverage_perm (h : l.Perm l') : coverage l x = coverage l' x :=
  (h.map fun b => covers b x).sum_eq

theorem covers_join (s m n x : ℕ) : covers (s, m) x + covers (s + m, n)
    x = covers (s, m + n) x := by
  simp only [covers]
  split_ifs <;> omega

theorem covers_start (h : 0 < b.2) : covers b b.1 = 1 := by
  simp only [covers]
  rw [if_pos]
  omega

theorem covers_le_coverage (h : b ∈ l) : covers b x ≤ coverage l x := by
  rw [coverage_perm (List.perm_cons_erase h), coverage_cons]
  exact Nat.le_add_right _ _

theorem coverage_insert (hd : ∀ b ∈ l, b.1 + b.2 ≤ c.1 ∨ c.1 + c.2 ≤ b.1)
    (hl : coverage l x ≤ 1) : covers c x + coverage l x ≤ 1 := by
  by_cases hx : c.1 ≤ x ∧ x < c.1 + c.2
  · have hzero : coverage l x = 0 := by
      refine List.sum_eq_zero fun k hk => ?_
      obtain ⟨b, hb, rfl⟩ := List.mem_map.mp hk
      have := hd b hb
      exact if_neg (by omega)
    rw [hzero, covers, if_pos hx]
  · rw [covers, if_neg hx]
    omega

theorem disjoint_of_covers_le_one (h : ∀ x, covers b x + covers c x ≤ 1) (hb : 0 < b.2)
    (hc : 0 < c.2) : b.1 + b.2 ≤ c.1 ∨ c.1 + c.2 ≤ b.1 := by
  have h₁ := h b.1
  have h₂ := h c.1
  simp only [covers] at h₁ h₂
  split_ifs at h₁ h₂ <;> omega

structure WF (a : VramAllocator) (base size : ℕ) : Prop where
  align_pos : 0 < a.align
  cover : ∀ x, coverage a.free.entries x + coverage a.live.entries x =
    if base ≤ x ∧ x < base + size then 1 else 0
  free_block : ∀ b ∈ a.free.entries, a.align ∣ b.1 ∧ a.align ∣ b.2 ∧ 0 < b.2
  live_block : ∀ b ∈ a.live.entries, a.align ∣ b.1 ∧ a.align ∣ b.2 ∧ 0 < b.2
  gap : ∀ b ∈ a.free.entries, ∀ c ∈ a.free.entries, b.1 + b.2 ≠ c.1
  bytes : a.liveBytes = (a.live.entries.map Prod.snd).sum

theorem wf_new {align : ℕ} (hpos : 0 < align) (hbase : align ∣ base) (hsize : align ∣ size)
    (hs : 0 < size) : WF (new base size align) base size where
  align_pos := hpos
  cover := by
    intro x
    simp [new, KeyMap.empty, KeyMap.emplace, KeyMap.insertEntry, covers]
  free_block := by
    simp [new, KeyMap.empty, KeyMap.emplace, KeyMap.insertEntry, hbase, hsize, hs]
  live_block := by simp [new, KeyMap.empty]
  gap := by
    simp only [new, KeyMap.empty, KeyMap.emplace, KeyMap.insertEntry, List.mem_singleton]
    rintro b rfl c rfl
    simp only [ne_eq]
    omega
  bytes := by simp [new, KeyMap.empty]

namespace WF

theorem free_at_most (h : WF a base size) : coverage a.free.entries x ≤ 1 := by
  have hc := h.cover x
  split_ifs at hc <;> omega

theorem live_at_most (h : WF a base size) : coverage a.live.entries x ≤ 1 := by
  have hc := h.cover x
  split_ifs at hc <;> omega

theorem live_in_range (h : WF a base size) (hb : b ∈ a.live.entries) :
    base ≤ b.1 ∧ b.1 + b.2 ≤ base + size := by
  have hpos := (h.live_block b hb).2.2
  have hin : ∀ x, covers b x = 1 → base ≤ x ∧ x < base + size := by
    intro x hx
    have hle := covers_le_coverage (x := x) hb
    have hc := h.cover x
    split_ifs at hc with hr
    · exact hr
    · omega
  have h₁ := hin b.1 (covers_start hpos)
  have h₂ := hin (b.1 + b.2 - 1) (by simp only [covers]; rw [if_pos]; omega)
  omega

theorem live_find_none (h : WF a base size) (hb : b ∈ a.free.entries) : a.live.find b.1 = none := by
  rw [KeyMap.find_eq_none]
  intro c hc he
  have h₁ := covers_le_coverage (x := b.1) hb
  have h₂ := covers_le_coverage (x := b.1) hc
  rw [covers_start (h.free_block b hb).2.2] at h₁
  rw [← he, covers_start (h.live_block c hc).2.2, he] at h₂
  have hcov := h.cover b.1
  split_ifs at hcov <;> omega

end WF

theorem roundUp_dvd (align bytes : ℕ) : align ∣ roundUp align bytes := Dvd.intro_left _ rfl

theorem roundUp_spec {align bytes : ℕ} (hpos : 0 < align) (hlt : bytes + align - 1 < 2 ^ 64) :
    bytes ≤ roundUp align bytes ∧ roundUp align bytes < bytes + align := by
  rw [roundUp, Nat.mod_eq_of_lt hlt]
  have h₁ := Nat.div_add_mod (bytes + align - 1) align
  have h₂ := Nat.mod_lt (bytes + align - 1) hpos
  rw [Nat.mul_comm] at h₁
  omega

/-! ### Allocation -/

theorem alloc_eq_some {bytes addr : ℕ} (h : a.alloc bytes = some (addr, a')) :
    bytes ≠ 0 ∧ ∃ len, (addr, len) ∈ a.free.entries ∧ roundUp a.align bytes ≤ len ∧
      a' = { a with
        free := if len - roundUp a.align bytes = 0 then a.free.erase addr
          else (a.free.erase addr).emplace (addr + roundUp a.align bytes)
            (len - roundUp a.align bytes)
        live := a.live.emplace addr (roundUp a.align bytes)
        liveBytes := a.liveBytes + roundUp a.align bytes } := by
  unfold alloc at h
  split_ifs at h with hb
  refine ⟨hb, ?_⟩
  dsimp only at h
  split at h
  · simp at h
  · rename_i s len hf
    simp only [Option.some.injEq, Prod.mk.injEq] at h
    obtain ⟨rfl, rfl⟩ := h
    have hle := List.find?_some hf
    simp only [decide_eq_true_eq] at hle
    exact ⟨len, List.mem_of_find?_eq_some hf, hle, rfl⟩

theorem carve_perm (h : WF a base size) {addr len need : ℕ} (hb : (addr, len) ∈ a.free.entries)
    (hle : need ≤ len) (hneed : 0 < need) :
    (if len - need = 0 then a.free.erase addr
      else (a.free.erase addr).emplace (addr + need) (len - need)).entries.Perm
      (if len - need = 0 then (a.free.erase addr).entries
        else (addr + need, len - need) :: (a.free.erase addr).entries) := by
  split_ifs with hz
  · exact .refl _
  · apply KeyMap.emplace_perm
    rw [KeyMap.find_eq_none]
    intro c hc he
    have hx := h.free_at_most (x := addr + need)
    have hcov := covers_le_coverage (x := addr + need) hc
    rw [← he, covers_start (h.free_block c (KeyMap.mem_erase.mp hc).1).2.2, he] at hcov
    rw [coverage_perm (KeyMap.erase_perm hb), coverage_cons] at hx
    simp only [covers] at hx
    rw [if_pos (by omega)] at hx
    omega

theorem alloc_wf (h : WF a base size) {bytes addr : ℕ} (hs : a.alloc bytes = some (addr, a'))
    (hneed : 0 < roundUp a.align bytes) :
    WF a' base size ∧ a'.align = a.align ∧
      a'.live.entries.Perm ((addr, roundUp a.align bytes) :: a.live.entries) := by
  obtain ⟨-, len, hb, hle, rfl⟩ := alloc_eq_some hs
  set need := roundUp a.align bytes
  have hdvd : a.align ∣ need := roundUp_dvd _ _
  have hfb := h.free_block _ hb
  have hlive : (a.live.emplace addr need).entries.Perm ((addr, need) :: a.live.entries) :=
    KeyMap.emplace_perm (h.live_find_none hb)
  have hfree := carve_perm h hb hle hneed
  have herase := KeyMap.erase_perm hb
  have hin : ∀ c ∈ (a.free.erase addr).entries, c ∈ a.free.entries := fun c hc =>
    (KeyMap.mem_erase.mp hc).1
  refine ⟨⟨h.align_pos, ?_, ?_, ?_, ?_, ?_⟩, rfl, hlive⟩
  · intro x
    have hcov := h.cover x
    rw [coverage_perm herase, coverage_cons] at hcov
    dsimp only
    rw [coverage_perm hfree, coverage_perm hlive, coverage_cons, ← hcov]
    split_ifs with hz
    · have hlen : len = need := by omega
      rw [hlen]
      omega
    · have hj := covers_join addr need (len - need) x
      rw [Nat.add_sub_cancel' hle] at hj
      rw [coverage_cons]
      omega
  · intro c hc
    rw [hfree.mem_iff] at hc
    split_ifs at hc with hz
    · exact h.free_block c (hin c hc)
    · rcases List.mem_cons.mp hc with rfl | hc
      · exact ⟨Nat.dvd_add hfb.1 hdvd, Nat.dvd_sub hfb.2.1 hdvd, by dsimp only; omega⟩
      · exact h.free_block c (hin c hc)
  · intro c hc
    rcases List.mem_cons.mp (hlive.mem_iff.mp hc) with rfl | hc
    · exact ⟨hfb.1, hdvd, hneed⟩
    · exact h.live_block c hc
  · intro c hc d hd
    rw [hfree.mem_iff] at hc hd
    split_ifs at hc hd with hz
    · exact h.gap c (hin c hc) d (hin d hd)
    · -- The carved block ends where the old one did and starts inside it.
      rcases List.mem_cons.mp hc with rfl | hc <;> rcases List.mem_cons.mp hd with rfl | hd
      · dsimp only
        omega
      · have hg := h.gap _ hb d (hin d hd)
        dsimp only at hg ⊢
        omega
      · intro he
        dsimp only at he
        have hx := h.free_at_most (x := addr + need - 1)
        have hcc := covers_le_coverage (x := addr + need - 1) hc
        rw [coverage_perm herase, coverage_cons] at hx
        have hpos := (h.free_block c (hin c hc)).2.2
        simp only [covers] at hx hcc
        rw [if_pos (by omega)] at hx hcc
        omega
      · exact h.gap c (hin c hc) d (hin d hd)
  · dsimp only
    rw [(hlive.map Prod.snd).sum_eq, List.map_cons, List.sum_cons, h.bytes]
    omega

/-! ### Release -/

structure Loose (f : KeyMap ℕ) (align start len : ℕ) : Prop where
  cover : ∀ x, covers (start, len) x + coverage f.entries x ≤ 1
  block : align ∣ start ∧ align ∣ len ∧ 0 < len
  blocks : ∀ b ∈ f.entries, align ∣ b.1 ∧ align ∣ b.2 ∧ 0 < b.2
  gap : ∀ b ∈ f.entries, ∀ c ∈ f.entries, b.1 + b.2 ≠ c.1

namespace Loose
variable {f : KeyMap ℕ} {align start len : ℕ}

theorem disjoint (h : Loose f align start len) (hb : b ∈ f.entries) :
    b.1 + b.2 ≤ start ∨ start + len ≤ b.1 := by
  refine disjoint_of_covers_le_one (b := b) (c := (start, len)) (fun x => ?_) (h.blocks b hb).2.2
    h.block.2.2
  have h₁ := h.cover x
  have h₂ := covers_le_coverage (x := x) hb
  omega

theorem absorb (h : Loose f align start len) (start' : ℕ) (hb : b ∈ f.entries)
    (hadj : ∀ x, covers (start', len + b.2) x = covers (start, len) x + covers b x)
    (hdvd : align ∣ start') :
    Loose (f.erase b.1) align start' (len + b.2) ∧
      ∀ x, covers (start', len + b.2) x + coverage (f.erase b.1).entries x =
        covers (start, len) x + coverage f.entries x := by
  obtain ⟨s, n⟩ := b
  have hin : ∀ c ∈ (f.erase s).entries, c ∈ f.entries := fun c hc => (KeyMap.mem_erase.mp hc).1
  have hcov : ∀ x, covers (start', len + n) x + coverage (f.erase s).entries x =
      covers (start, len) x + coverage f.entries x := by
    intro x
    rw [coverage_perm (KeyMap.erase_perm hb), coverage_cons, hadj]
    omega
  refine ⟨⟨fun x => ?_, ⟨hdvd, Nat.dvd_add h.block.2.1 (h.blocks _ hb).2.1, ?_⟩, ?_, ?_⟩, hcov⟩
  · rw [hcov]
    exact h.cover x
  · have hpos := h.block.2.2
    omega
  · exact fun c hc => h.blocks c (hin c hc)
  · exact fun c hc d hd => h.gap c (hin c hc) d (hin d hd)

end Loose

theorem joinNext_spec {f : KeyMap ℕ} {align start len : ℕ} (h : Loose f align start len) :
    Loose (joinNext f start len).2 align start (joinNext f start len).1 ∧
    (∀ b ∈ (joinNext f start len).2.entries, start + (joinNext f start len).1 ≠ b.1) ∧
    ∀ x, covers (start, (joinNext f start len).1) x + coverage (joinNext f start len).2.entries x =
      covers (start, len) x + coverage f.entries x := by
  -- The block that starts where this one ends is the lower bound, if there is one.
  have hnone : ∀ e, f.lowerBound start = some e → e.1 ≠ start + len →
      ∀ b ∈ f.entries, start + len ≠ b.1 := by
    intro e he hne b hb heq
    obtain ⟨hmem, hge⟩ := KeyMap.lowerBound_spec he
    have hle := KeyMap.lowerBound_least he hb (by omega)
    have hd := h.disjoint hmem
    have hp := (h.blocks e hmem).2.2
    omega
  unfold joinNext
  split
  · rename_i n l hlb
    obtain ⟨hmem, -⟩ := KeyMap.lowerBound_spec hlb
    split_ifs with hn
    · obtain ⟨hl, hcov⟩ := h.absorb start hmem
        (fun x => by rw [hn, covers_join]) h.block.1
      refine ⟨hl, fun b hb => ?_, hcov⟩
      have hg := h.gap _ hmem b (KeyMap.mem_erase.mp hb).1
      dsimp only at hg ⊢
      omega
    · exact ⟨h, hnone _ hlb hn, fun _ => rfl⟩
  · rename_i hlb
    refine ⟨h, fun b hb heq => ?_, fun _ => rfl⟩
    have hlt := KeyMap.lowerBound_none hlb hb
    omega

theorem joinPrev_spec {f : KeyMap ℕ} {align start len : ℕ} (h : Loose f align start len)
    (hn : ∀ b ∈ f.entries, start + len ≠ b.1) :
    Loose (joinPrev f start len).2.2 align (joinPrev f start len).1 (joinPrev f start len).2.1 ∧
    (∀ b ∈ (joinPrev f start len).2.2.entries,
      (joinPrev f start len).1 + (joinPrev f start len).2.1 ≠ b.1 ∧
      b.1 + b.2 ≠ (joinPrev f start len).1) ∧
    ∀ x, covers ((joinPrev f start len).1, (joinPrev f start len).2.1) x +
        coverage (joinPrev f start len).2.2.entries x =
      covers (start, len) x + coverage f.entries x := by
  unfold joinPrev
  split
  · rename_i p l hlb
    obtain ⟨hmem, hlt, hmax⟩ := KeyMap.before_spec hlb
    split_ifs with hp
    · obtain ⟨hl, hcov⟩ := h.absorb p hmem
        (fun x => by
          rw [← hp, Nat.add_comm len l, ← covers_join p l len x]
          omega)
        (h.blocks _ hmem).1
      refine ⟨hl, fun b hb => ⟨?_, ?_⟩, hcov⟩
      · have hg := hn b (KeyMap.mem_erase.mp hb).1
        dsimp only
        omega
      · exact fun he => h.gap b (KeyMap.mem_erase.mp hb).1 _ hmem he
    · refine ⟨h, fun b (hb : b ∈ f.entries) => ⟨hn b hb, fun he => ?_⟩, fun _ => rfl⟩
      -- A block that ends at `start` would be the last one before it.
      have hpos := (h.blocks b hb).2.2
      have hpos' := (h.blocks _ hmem).2.2
      have hle := hmax b hb (by omega)
      have hd := h.disjoint hmem
      have hbp : b.1 = p := by
        by_contra hne
        have hdis : b.1 + b.2 ≤ p ∨ p + l ≤ b.1 := by
          have hperm := List.perm_cons_erase hb
          refine disjoint_of_covers_le_one (b := b) (c := (p, l)) (fun x => ?_) hpos hpos'
          have hx := h.cover x
          rw [coverage_perm hperm, coverage_cons] at hx
          have hc := covers_le_coverage (x := x) ((List.mem_erase_of_ne (b := b)
            (by rintro rfl; exact hne rfl)).mpr hmem)
          omega
        dsimp only at hle hd
        omega
      exact hp (by rw [KeyMap.key_unique hb hmem hbp] at he; exact he)
  · rename_i hlb
    refine ⟨h, fun b hb => ⟨hn b hb, fun he => ?_⟩, fun _ => rfl⟩
    have hge := KeyMap.before_none hlb hb
    have hpos := (h.blocks b hb).2.2
    omega

theorem freeAddr_wf (h : WF a base size) {addr len : ℕ} (hb : (addr, len) ∈ a.live.entries) :
    WF (a.freeAddr addr) base size ∧ (a.freeAddr addr).align = a.align ∧
      a.live.entries.Perm ((addr, len) :: (a.freeAddr addr).live.entries) := by
  have hlive := KeyMap.erase_perm hb
  have hloose : Loose a.free a.align addr len := by
    refine ⟨fun x => ?_, h.live_block _ hb, h.free_block, h.gap⟩
    have hx := h.cover x
    have hc := covers_le_coverage (x := x) hb
    split_ifs at hx <;> omega
  obtain ⟨h₁, hn, hc₁⟩ := joinNext_spec hloose
  obtain ⟨h₂, hnp, hc₂⟩ := joinPrev_spec h₁ hn
  unfold freeAddr
  simp only [detach, KeyMap.find_eq_some.mpr hb, release]
  set f := (joinPrev (joinNext a.free addr len).2 addr (joinNext a.free addr len).1).2.2
  set s := (joinPrev (joinNext a.free addr len).2 addr (joinNext a.free addr len).1).1
  set n := (joinPrev (joinNext a.free addr len).2 addr (joinNext a.free addr len).1).2.1
  have hfree : (f.emplace s n).entries.Perm ((s, n) :: f.entries) := by
    apply KeyMap.emplace_perm
    rw [KeyMap.find_eq_none]
    intro c hc he
    have hd := h₂.disjoint hc
    have hp := (h₂.blocks c hc).2.2
    have hq := h₂.block.2.2
    omega
  refine ⟨⟨h.align_pos, ?_, ?_, ?_, ?_, ?_⟩, trivial, hlive⟩
  · intro x
    have hx := h.cover x
    rw [coverage_perm hlive, coverage_cons] at hx
    have hs := hc₂ x
    dsimp only
    rw [coverage_perm hfree, coverage_cons, ← hx]
    rw [hc₁] at hs
    omega
  · intro c hc
    rcases List.mem_cons.mp (hfree.mem_iff.mp hc) with rfl | hc
    · exact h₂.block
    · exact h₂.blocks c hc
  · exact fun c hc => h.live_block c (KeyMap.mem_erase.mp hc).1
  · intro c hc d hd
    rcases List.mem_cons.mp (hfree.mem_iff.mp hc) with rfl | hc <;>
      rcases List.mem_cons.mp (hfree.mem_iff.mp hd) with rfl | hd
    · have hpos := h₂.block.2.2
      dsimp only
      omega
    · exact (hnp d hd).1
    · exact (hnp c hc).2
    · exact h₂.gap c hc d hd
  · dsimp only
    rw [h.bytes, (hlive.map Prod.snd).sum_eq, List.map_cons, List.sum_cons, Nat.add_sub_cancel_left]

/-- A request that rounds to nothing takes the start of the first free block and no byte of
it; giving it back restores the maps. -/
theorem alloc_zero_free (h : WF a base size) {bytes addr : ℕ} (hs : a.alloc bytes = some (addr, a'))
    (hzero : roundUp a.align bytes = 0) : a'.freeAddr addr = a := by
  obtain ⟨-, len, hb, -, rfl⟩ := alloc_eq_some hs
  have hpos := (h.free_block _ hb).2.2
  have hnext : joinNext a.free addr 0 = (len, a.free.erase addr) := by
    simp only [joinNext]
    split
    · rename_i n l hlb
      obtain ⟨hmem, hge⟩ := KeyMap.lowerBound_spec hlb
      have hle := KeyMap.lowerBound_least hlb hb le_rfl
      obtain rfl : n = addr := le_antisymm hle hge
      cases KeyMap.key_unique hmem hb rfl
      rw [if_pos (Nat.add_zero _).symm, Nat.zero_add]
    · rename_i hlb
      exact absurd (KeyMap.lowerBound_none hlb hb) (lt_irrefl _)
  have hprev : joinPrev (a.free.erase addr) addr len = (addr, len, a.free.erase addr) := by
    simp only [joinPrev]
    split
    · rename_i p l hp
      rw [if_neg]
      intro hend
      exact h.gap _ (KeyMap.mem_erase.mp (KeyMap.before_spec hp).1).1 _ hb hend
    · rfl
  have hnone := h.live_find_none hb
  dsimp only at hpos hnone
  simp only [hzero, Nat.sub_zero, Nat.add_zero, if_neg hpos.ne', KeyMap.emplace_erase hb, freeAddr,
    detach, KeyMap.find_eq_some.mpr ((KeyMap.mem_emplace hnone).mpr (.inl rfl)),
    KeyMap.erase_emplace hnone, release, hnext, hprev]

theorem alloc_then_free (h : WF a base size) {bytes addr : ℕ}
    (hs : a.alloc bytes = some (addr, a')) :
    WF (a'.freeAddr addr) base size ∧ (a'.freeAddr addr).align = a.align ∧
      (a'.freeAddr addr).live.entries.Perm a.live.entries := by
  obtain hzero | hpos := Nat.eq_zero_or_pos (roundUp a.align bytes)
  · rw [alloc_zero_free h hs hzero]
    exact ⟨h, rfl, .refl _⟩
  · obtain ⟨hwf, halign, hperm⟩ := alloc_wf h hs hpos
    obtain ⟨hwf', halign', hperm'⟩ := freeAddr_wf hwf (hperm.mem_iff.mpr (List.mem_cons_self ..))
    exact ⟨hwf', halign'.trans halign, (hperm'.symm.trans hperm).cons_inv⟩

/-! ### Blocks stay above the base, whatever the request -/

def Above (a : VramAllocator) (base : ℕ) : Prop :=
  (∀ b ∈ a.free.entries, base ≤ b.1) ∧ ∀ b ∈ a.live.entries, base ≤ b.1

theorem new_above (base size align : ℕ) : (new base size align).Above base := by
  simp [Above, new, KeyMap.empty, KeyMap.emplace, KeyMap.insertEntry]

theorem emplace_above {f : KeyMap ℕ} (h : ∀ b ∈ f.entries, base ≤ b.1) {k v : ℕ} (hk : base ≤ k) :
    ∀ b ∈ (f.emplace k v).entries, base ≤ b.1 := by
  intro b hb
  rcases KeyMap.mem_insertEntry hb with rfl | hb
  · exact hk
  · exact h b hb

theorem erase_above {f : KeyMap ℕ} (h : ∀ b ∈ f.entries, base ≤ b.1) {k : ℕ} :
    ∀ b ∈ (f.erase k).entries, base ≤ b.1 := fun b hb => h b (KeyMap.mem_erase.mp hb).1

theorem alloc_above (h : a.Above base) {bytes addr : ℕ} (hs : a.alloc bytes = some (addr, a')) :
    base ≤ addr ∧ a'.Above base := by
  obtain ⟨-, len, hb, -, rfl⟩ := alloc_eq_some hs
  have ha := h.1 _ hb
  dsimp only at ha
  refine ⟨ha, ?_, emplace_above h.2 ha⟩
  dsimp only
  split_ifs
  · exact erase_above h.1
  · exact emplace_above (erase_above h.1) (by omega)

theorem freeAddr_above (h : a.Above base) (addr : ℕ) : (a.freeAddr addr).Above base := by
  simp only [freeAddr, detach]
  cases hf : a.live.find addr with
  | none => exact h
  | some size =>
    have haddr := h.2 _ (KeyMap.find_eq_some.mp hf)
    refine ⟨?_, erase_above h.2⟩
    simp only [release, joinNext]
    have hprev : ∀ (f : KeyMap ℕ) (len : ℕ), (∀ b ∈ f.entries, base ≤ b.1) →
        ∀ b ∈ ((joinPrev f addr len).2.2.emplace (joinPrev f addr len).1
          (joinPrev f addr len).2.1).entries, base ≤ b.1 := by
      intro f len hfree
      simp only [joinPrev]
      split
      · rename_i p l hp
        split_ifs
        · exact emplace_above (erase_above hfree) (hfree _ (KeyMap.before_spec hp).1)
        · exact emplace_above hfree haddr
      · exact emplace_above hfree haddr
    split
    · split_ifs
      · exact hprev _ _ (erase_above h.1)
      · exact hprev _ _ h.1
    · exact hprev _ _ h.1

end VramAllocator

end SoftGpu
