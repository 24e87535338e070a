import SoftGpu.Machine
import SoftGpu.VramAlloc
import Mathlib.Data.List.Pairwise

/-!
# Runs of the first-fit allocator

Every sequence of `alloc` and `free` on a fresh allocator, with requests whose rounding
does not wrap. The free map is coalesced, so a gap between live blocks is one free block,
and a request fails only when no gap is large enough.
-/

namespace SoftGpu.VramAllocator
open Machine

inductive Call
  | alloc (bytes : ℕ)
  | free (addr : ℕ)
  deriving DecidableEq, Repr

def call (a : VramAllocator) : Call → Option VramAllocator
  | .alloc bytes => some (match a.alloc bytes with
    | none => a
    | some (_, a') => a')
  | .free addr => some (a.freeAddr addr)

def freeOk (a : VramAllocator) (addr : ℕ) : Bool := (a.detach addr).isSome

def fits (a : VramAllocator) : Call → Prop
  | .alloc bytes => bytes ≤ 2 ^ 64 - a.align
  | .free _ => True

instance (a : VramAllocator) (c : Call) : Decidable (a.fits c) := by
  cases c <;> simp only [fits] <;> infer_instance

def ceilTo (align n : ℕ) : ℕ := (n + align - 1) / align * align

def Separate (b c : ℕ × ℕ) : Prop := b.1 + b.2 ≤ c.1 ∨ c.1 + c.2 ≤ b.1

instance : Std.Symm Separate := ⟨fun _ _ h => Or.symm h⟩

def Gap (a : VramAllocator) (base size need : ℕ) : Prop :=
  ∃ x, base ≤ x ∧ x + need ≤ base + size ∧ ∀ b ∈ a.live.entries, Separate (x, need) b

structure Tiled (base size : ℕ) (a : VramAllocator) : Prop where
  disjoint : (a.free.entries ++ a.live.entries).Pairwise Separate
  aligned : ∀ b ∈ a.free.entries ++ a.live.entries, a.align ∣ b.1 ∧ a.align ∣ b.2
  tiles : ∀ x, (base ≤ x ∧ x < base + size) ↔
    ∃ b ∈ a.free.entries ++ a.live.entries, b.1 ≤ x ∧ x < b.1 + b.2
  coalesced : ∀ b ∈ a.free.entries, ∀ c ∈ a.free.entries, b ≠ c → b.1 + b.2 ≠ c.1
  bytes : a.liveBytes = (a.live.entries.map Prod.snd).sum
  firstFit : ∀ n addr a', 0 < n → n ≤ 2 ^ 64 - a.align → a.alloc n = some (addr, a') →
    (∃ len, (addr, len) ∈ a.free.entries ∧ ceilTo a.align n ≤ len) ∧
      (∀ b ∈ a.free.entries, ceilTo a.align n ≤ b.2 → addr ≤ b.1) ∧
      a'.live.entries.Perm ((addr, ceilTo a.align n) :: a.live.entries)
  fails : ∀ n, 0 < n → n ≤ 2 ^ 64 - a.align →
    (a.alloc n = none ↔ ¬ a.Gap base size (ceilTo a.align n))
  unchanged : ∀ n, a.alloc n = none → a.call (.alloc n) = some a
  frees : ∀ addr, a.freeOk addr = true ↔ ∃ len, (addr, len) ∈ a.live.entries
  restores : ∀ l : List ℕ, l.Perm (a.live.entries.map Prod.fst) →
    l.foldl freeAddr a = new base size a.align

variable {a a' : VramAllocator} {l : List (ℕ × ℕ)} {b c : ℕ × ℕ} {base size align n addr : ℕ}

/-! ### Blocks that cover nothing twice -/

theorem pairwise_disjoint (hcov : ∀ x, coverage l x ≤ 1) (hpos : ∀ b ∈ l, 0 < b.2) :
    l.Pairwise Separate := by
  induction l with
  | nil => exact .nil
  | cons b l ih =>
    refine .cons (fun c hc => ?_) (ih (fun x => ?_) fun c hc => hpos c (List.mem_cons_of_mem b hc))
    · apply disjoint_of_covers_le_one _ (hpos b (by simp)) (hpos c (by simp [hc]))
      intro x
      have hx := hcov x
      rw [coverage_cons] at hx
      exact (Nat.add_le_add_left (covers_le_coverage hc) _).trans hx
    · have hx := hcov x
      rw [coverage_cons] at hx
      omega

theorem exists_of_coverage {x : ℕ} (h : 0 < coverage l x) : ∃ b ∈ l, b.1 ≤ x ∧ x < b.1 + b.2 := by
  by_contra hne
  push Not at hne
  have hzero : coverage l x = 0 := by
    refine List.sum_eq_zero fun k hk => ?_
    obtain ⟨b, hb, rfl⟩ := List.mem_map.mp hk
    exact if_neg fun hx => absurd hx.2 (not_lt.mpr (hne b hb hx.1))
  omega

theorem coverage_pos {x : ℕ} (hb : b ∈ l) (hlo : b.1 ≤ x) (hhi : x < b.1 + b.2) :
    0 < coverage l x := by
  have hle := covers_le_coverage (x := x) hb
  rw [covers, if_pos ⟨hlo, hhi⟩] at hle
  exact hle

namespace WF

theorem tiles_iff (h : WF a base size) (x : ℕ) : (base ≤ x ∧ x < base + size) ↔
    ∃ b ∈ a.free.entries ++ a.live.entries, b.1 ≤ x ∧ x < b.1 + b.2 := by
  have hcov := h.cover x
  rw [← coverage_append] at hcov
  constructor
  · intro hx
    rw [if_pos hx] at hcov
    exact exists_of_coverage (by omega)
  · rintro ⟨b, hb, hlo, hhi⟩
    have hpos := coverage_pos hb hlo hhi
    by_contra hx
    rw [if_neg hx] at hcov
    omega

theorem blocks_disjoint (h : WF a base size) :
    (a.free.entries ++ a.live.entries).Pairwise Separate := by
  refine pairwise_disjoint (fun x => ?_) fun b hb => ?_
  · have hcov := h.cover x
    rw [coverage_append]
    split_ifs at hcov <;> omega
  · obtain hb | hb := List.mem_append.mp hb
    · exact (h.free_block b hb).2.2
    · exact (h.live_block b hb).2.2

theorem free_separate (h : WF a base size) (hb : b ∈ a.free.entries) (hc : c ∈ a.free.entries)
    (hne : b ≠ c) : Separate b c :=
  (List.pairwise_append.mp h.blocks_disjoint).1.forall hb hc hne

end WF

/-! ### Allocation -/

theorem roundUp_eq_ceilTo (hn : 0 < n) (hfit : n ≤ 2 ^ 64 - align) :
    roundUp align n = ceilTo align n := by
  rw [roundUp, Nat.mod_eq_of_lt (by omega), ceilTo]

theorem ceilTo_pos (hpos : 0 < align) (hn : 0 < n) : 0 < ceilTo align n :=
  Nat.mul_pos (Nat.div_pos (by omega) hpos) hpos

theorem alloc_first (h : a.alloc n = some (addr, a')) (hb : b ∈ a.free.entries)
    (hle : roundUp a.align n ≤ b.2) : addr ≤ b.1 := by
  unfold alloc at h
  split_ifs at h
  dsimp only at h
  split at h
  · cases h
  · rename_i start len hf
    cases h
    obtain ⟨-, l₁, l₂, hl, hlt⟩ := List.find?_eq_some_iff_append.mp hf
    have hs := a.free.sorted
    rw [hl] at hs hb
    obtain hb | hb := List.mem_append.mp hb
    · have hsmall := hlt b hb
      simp only [Bool.not_eq_eq_eq_not, Bool.not_true, decide_eq_false_iff_not] at hsmall
      exact absurd hle hsmall
    · obtain rfl | hb := List.mem_cons.mp hb
      · exact le_rfl
      · exact (List.rel_of_pairwise_cons (List.pairwise_append.mp hs).2.1 hb).le

theorem alloc_eq_none (hn : 0 < n) :
    a.alloc n = none ↔ ∀ b ∈ a.free.entries, b.2 < roundUp a.align n := by
  unfold alloc
  rw [if_neg hn.ne']
  dsimp only
  split
  · rename_i hf
    simpa using hf
  · rename_i start len hf
    simp only [reduceCtorEq, false_iff, not_forall, not_lt]
    exact ⟨_, List.mem_of_find?_eq_some hf, by simpa using List.find?_some hf⟩

namespace WF

theorem gap_iff (h : WF a base size) {need : ℕ} (hneed : 0 < need) :
    a.Gap base size need ↔ ∃ b ∈ a.free.entries, need ≤ b.2 := by
  have hfree : ∀ x, base ≤ x → x < base + size →
    (∀ b ∈ a.live.entries, ¬(b.1 ≤ x ∧ x < b.1 + b.2)) →
      ∃ b ∈ a.free.entries, b.1 ≤ x ∧ x < b.1 + b.2 := by
    intro x hlo hhi hlive
    obtain ⟨b, hb, hx⟩ := (h.tiles_iff x).mp ⟨hlo, hhi⟩
    obtain hb | hb := List.mem_append.mp hb
    · exact ⟨b, hb, hx⟩
    · exact absurd hx (hlive b hb)
  constructor
  · rintro ⟨x, hlo, hhi, hlive⟩
    have houtside : ∀ y, x ≤ y → y < x + need → ∀ b ∈ a.live.entries,
      ¬(b.1 ≤ y ∧ y < b.1 + b.2) := by
      intro y hxy hyx b hb hy
      have hsep := hlive b hb
      simp only [Separate] at hsep
      omega
    obtain ⟨b, hb, hbx, hxb⟩ := hfree x hlo (by omega) (houtside x le_rfl (by omega))
    refine ⟨b, hb, ?_⟩
    by_contra hsmall
    -- Where the block ends the next free block would start.
    obtain ⟨c, hc, hcy, hyc⟩ := hfree (b.1 + b.2) (by omega) (by omega)
      (houtside _ hxb.le (by omega))
    have hne : b ≠ c := by
      rintro rfl
      omega
    have hdisj := h.free_separate hb hc hne
    simp only [Separate] at hdisj
    exact h.gap b hb c hc (by omega)
  · rintro ⟨b, hb, hle⟩
    have hpos := (h.free_block b hb).2.2
    have hin : ∀ x, b.1 ≤ x → x < b.1 + b.2 → base ≤ x ∧ x < base + size := fun x hlo hhi =>
      (h.tiles_iff x).mpr ⟨b, List.mem_append_left _ hb, hlo, hhi⟩
    have hfirst := hin b.1 le_rfl (by omega)
    have hlast := hin (b.1 + b.2 - 1) (by omega) (by omega)
    refine ⟨b.1, hfirst.1, by omega, fun c hc => ?_⟩
    have hsep := (List.pairwise_append.mp h.blocks_disjoint).2.2 b hb c hc
    simp only [Separate] at hsep ⊢
    omega

end WF

/-! ### Release -/

theorem freeAddr_eq_self (h : ∀ len, (addr, len) ∉ a.live.entries) : a.freeAddr addr = a := by
  have hnone : a.live.find addr = none := by
    rw [KeyMap.find_eq_none]
    rintro ⟨start, len⟩ hb rfl
    exact h len hb
  simp only [freeAddr, detach, hnone]

theorem freeOk_iff : a.freeOk addr = true ↔ ∃ len, (addr, len) ∈ a.live.entries := by
  simp only [freeOk, detach]
  cases hf : a.live.find addr with
  | none =>
    rw [KeyMap.find_eq_none] at hf
    simp only [Option.isSome_none, Bool.false_eq_true, false_iff, not_exists]
    exact fun len hb => hf _ hb rfl
  | some len => simpa using ⟨len, KeyMap.find_eq_some.mp hf⟩

theorem WF.free_all (h : WF a base size) (hsize : 0 < size) (hlive : a.live.entries = []) :
    a = new base size a.align := by
  have htiles := h.tiles_iff
  rw [hlive, List.append_nil] at htiles
  obtain ⟨b, hb, hlo, hhi⟩ := (htiles base).mp ⟨le_rfl, by omega⟩
  have hin : ∀ x, b.1 ≤ x → x < b.1 + b.2 → base ≤ x ∧ x < base + size := fun x hx hx' =>
    (htiles x).mpr ⟨b, hb, hx, hx'⟩
  have hpos := (h.free_block b hb).2.2
  have hfirst := (hin b.1 le_rfl (by omega)).1
  have hlast := (hin (b.1 + b.2 - 1) (by omega) (by omega)).2
  have hend : b.1 + b.2 = base + size := by
    by_contra hne
    obtain ⟨c, hc, hcy, hyc⟩ := (htiles (b.1 + b.2)).mp ⟨by omega, by omega⟩
    have hbc : b ≠ c := by
      rintro rfl
      omega
    have hdisj := h.free_separate hb hc hbc
    simp only [Separate] at hdisj
    exact h.gap b hb c hc (by omega)
  have hall : ∀ c ∈ a.free.entries, c = b := by
    intro c hc
    by_contra hne
    have hcpos := (h.free_block c hc).2.2
    have hcin := (htiles c.1).mpr ⟨c, hc, le_rfl, by omega⟩
    have hdisj := h.free_separate hc hb hne
    simp only [Separate] at hdisj
    omega
  have hb' : b = (base, size) := Prod.ext (by dsimp only; omega) (by dsimp only; omega)
  have hfree : a.free = KeyMap.empty.emplace base size := by
    apply KeyMap.ext_of_perm
    rw [List.perm_ext_iff_of_nodup a.free.nodup (KeyMap.nodup _)]
    intro c
    simp only [KeyMap.emplace, KeyMap.empty, KeyMap.insertEntry, List.mem_singleton]
    exact ⟨fun hc => (hall c hc).trans hb', fun hc => hc ▸ hb' ▸ hb⟩
  have hnone : a.live = KeyMap.empty := KeyMap.ext_of_perm (by rw [hlive]; exact .refl _)
  have hbytes := h.bytes
  rw [hlive, List.map_nil, List.sum_nil] at hbytes
  obtain ⟨al, fr, lv, lb⟩ := a
  dsimp only at hfree hnone hbytes
  subst hfree hnone hbytes
  rfl

theorem WF.restores (h : WF a base size) (hsize : 0 < size) {l : List ℕ}
    (hl : l.Perm (a.live.entries.map Prod.fst)) : l.foldl freeAddr a = new base size a.align := by
  induction l generalizing a with
  | nil => exact h.free_all hsize (List.map_eq_nil_iff.mp hl.symm.eq_nil)
  | cons addr l ih =>
    obtain ⟨⟨start, len⟩, hb, rfl⟩ := List.mem_map.mp (hl.mem_iff.mp (List.mem_cons_self ..))
    obtain ⟨hwf, halign, hperm⟩ := freeAddr_wf h hb
    rw [List.foldl_cons, ih hwf, halign]
    exact (hl.trans (hperm.map Prod.fst)).cons_inv

/-! ### Runs -/

theorem WF.tiled (h : WF a base size) (hsize : 0 < size) : Tiled base size a where
  disjoint := h.blocks_disjoint
  aligned := by
    intro b hb
    obtain hb | hb := List.mem_append.mp hb
    · exact ⟨(h.free_block b hb).1, (h.free_block b hb).2.1⟩
    · exact ⟨(h.live_block b hb).1, (h.live_block b hb).2.1⟩
  tiles := h.tiles_iff
  coalesced := fun b hb c hc _ => h.gap b hb c hc
  bytes := h.bytes
  firstFit := by
    intro n addr a' hn hfit hs
    have heq := roundUp_eq_ceilTo hn hfit
    have hneed : 0 < roundUp a.align n := heq ▸ ceilTo_pos h.align_pos hn
    obtain ⟨-, len, hb, hle, -⟩ := alloc_eq_some hs
    refine ⟨⟨len, hb, heq ▸ hle⟩, fun b hb hle => alloc_first hs hb (heq ▸ hle), ?_⟩
    exact heq ▸ (alloc_wf h hs hneed).2.2
  fails := by
    intro n hn hfit
    rw [alloc_eq_none hn, roundUp_eq_ceilTo hn hfit, h.gap_iff (ceilTo_pos h.align_pos hn)]
    push Not
    rfl
  unchanged := by
    intro n hs
    rw [call, hs]
  frees := fun _ => freeOk_iff
  restores := fun l hl => h.restores hsize hl

theorem alloc_empty (hpos : 0 < align) (hfit : n ≤ 2 ^ 64 - align) :
    (new base 0 align).alloc n = none := by
  obtain rfl | hn := Nat.eq_zero_or_pos n
  · rfl
  · rw [alloc_eq_none hn]
    have heq : roundUp (new base 0 align).align n = ceilTo align n := roundUp_eq_ceilTo hn hfit
    have hneed := ceilTo_pos hpos hn
    simp only [new, KeyMap.empty, KeyMap.emplace, KeyMap.insertEntry, List.mem_singleton] at heq ⊢
    rintro b rfl
    omega

theorem tiled_empty (hpos : 0 < align) (hbase : align ∣ base) :
    Tiled base 0 (new base 0 align) where
  disjoint := by simp [new, KeyMap.empty, KeyMap.emplace, KeyMap.insertEntry]
  aligned := by simp [new, KeyMap.empty, KeyMap.emplace, KeyMap.insertEntry, hbase]
  tiles := by
    intro x
    simp only [new, KeyMap.empty, KeyMap.emplace, KeyMap.insertEntry, List.append_nil,
      List.mem_singleton, exists_eq_left]
  coalesced := by simp [new, KeyMap.empty, KeyMap.emplace, KeyMap.insertEntry]
  bytes := rfl
  firstFit := by
    intro n addr a' _ hfit hs
    rw [alloc_empty hpos hfit] at hs
    cases hs
  fails := by
    intro n hn hfit
    have hneed := ceilTo_pos hpos hn
    simp only [alloc_empty hpos hfit, true_iff, Gap]
    rintro ⟨x, hlo, hhi, -⟩
    change x + ceilTo align n ≤ base + 0 at hhi
    omega
  unchanged := by
    intro n hs
    rw [call, hs]
  frees := fun _ => freeOk_iff
  restores := by
    intro l hl
    rw [show l = [] from hl.eq_nil]
    rfl

theorem call_wf (h : WF a base size) {c : Call} (hok : a.fits c) (hs : a.call c = some a') :
    WF a' base size ∧ a'.align = a.align := by
  cases c with
  | alloc n =>
    simp only [call, Option.some.injEq] at hs
    subst hs
    split
    · exact ⟨h, rfl⟩
    · rename_i addr a' ha
      have hn := (alloc_eq_some ha).1
      have hneed : 0 < roundUp a.align n :=
        roundUp_eq_ceilTo (Nat.pos_of_ne_zero hn) hok ▸ ceilTo_pos h.align_pos
          (Nat.pos_of_ne_zero hn)
      obtain ⟨hwf, halign, -⟩ := alloc_wf h ha hneed
      exact ⟨hwf, halign⟩
  | free addr =>
    simp only [call, Option.some.injEq] at hs
    subst hs
    by_cases hlive : ∃ len, (addr, len) ∈ a.live.entries
    · obtain ⟨len, hb⟩ := hlive
      obtain ⟨hwf, halign, -⟩ := freeAddr_wf h hb
      exact ⟨hwf, halign⟩
    · push Not at hlive
      rw [freeAddr_eq_self hlive]
      exact ⟨h, rfl⟩

theorem call_empty (hpos : 0 < align) {c : Call} (hok : (new base 0 align).fits c) :
    (new base 0 align).call c = some (new base 0 align) := by
  cases c with
  | alloc n => rw [call, alloc_empty hpos hok]
  | free addr =>
    rw [call, freeAddr_eq_self]
    exact fun len hb => by cases hb

theorem allocator_tiles (hpos : 0 < align) (hbase : align ∣ base) (hsize : align ∣ size)
    (h : Reach call fits (new base size align) a) : Tiled base size a := by
  obtain rfl | hs := Nat.eq_zero_or_pos size
  · have hsame : a = new base 0 align := by
      refine h.invariant (P := fun a => a = new base 0 align) rfl fun s c t hi hok hs => ?_
      subst hi
      rw [call_empty hpos hok] at hs
      exact (Option.some.inj hs).symm
    exact hsame ▸ tiled_empty hpos hbase
  · have hwf : WF a base size := by
      refine h.invariant (P := fun a => WF a base size) (wf_new hpos hbase hsize hs)
        fun s c t hi hok hs => ?_
      exact (call_wf hi hok hs).1
    exact hwf.tiled hs

/-- Three blocks, the middle one freed and a page of it taken again. -/
def reuse : List Call := [.alloc 4096, .alloc 8000, .alloc 1, .free 4096, .alloc 100, .free 5]

theorem allocator_tiles_reuse :
    ∃ a, exec (when fits call) (new 0 65536 4096) reuse = some a ∧
      a.free.entries = [(8192, 4096), (16384, 49152)] ∧
      a.live.entries = [(0, 4096), (4096, 4096), (12288, 4096)] ∧ Tiled 0 65536 a := by
  have hrun : (exec (when fits call) (new 0 65536 4096) reuse).map
      (fun a => (a.free.entries, a.live.entries)) =
      some ([(8192, 4096), (16384, 49152)], [(0, 4096), (4096, 4096), (12288, 4096)]) := by decide
  obtain ⟨a, ha, hq⟩ := Option.map_eq_some_iff.mp hrun
  simp only [Prod.mk.injEq] at hq
  exact ⟨a, ha, hq.1, hq.2, allocator_tiles (by decide) (by decide) (by decide)
    (.of_exec_when .refl ha)⟩

end SoftGpu.VramAllocator
