import SoftGpu.Tiling

/-!
# Free in two phases

`detach` takes a block out of the live blocks and leaves its memory alone until `release`
puts it on the free list. Between the two the block is in nobody's hands and on no list.

With the detached blocks counted as live the allocator is the one of `Tiling`. Its free list
is coalesced, so it has one block for each gap between the blocks that are out: it depends
on these blocks alone, whatever was allocated and freed before and in which order.
-/

namespace SoftGpu.VramAllocator
open Machine

def ownsRange (a : VramAllocator) (addr len : ℕ) : Bool :=
  a.live.entries.any fun b =>
    decide (b.1 ≤ addr) && decide (addr - b.1 ≤ b.2) && decide (len ≤ b.2 - (addr - b.1))

structure TwoPhase where
  alloc : VramAllocator
  held : List (ℕ × ℕ)

inductive TwoPhase.Call
  | alloc (bytes : ℕ)
  | free (addr : ℕ)
  | detach (addr : ℕ)
  | release (addr len : ℕ)
  deriving DecidableEq, Repr

namespace TwoPhase

def new (base size align : ℕ) : TwoPhase := ⟨.new base size align, []⟩

def out (s : TwoPhase) : List (ℕ × ℕ) := s.alloc.live.entries ++ s.held

def call (s : TwoPhase) : Call → Option TwoPhase
  | .alloc bytes => some (match s.alloc.alloc bytes with
    | none => s
    | some (_, a) => { s with alloc := a })
  | .free addr => some { s with alloc := s.alloc.freeAddr addr }
  | .detach addr => some (match s.alloc.detach addr with
    | none => s
    | some (len, a) => ⟨a, (addr, len) :: s.held⟩)
  | .release addr len => some ⟨s.alloc.release addr len, s.held.erase (addr, len)⟩

/-- Requests whose rounding does not wrap, and only detached blocks are released. -/
def fits (s : TwoPhase) : Call → Prop
  | .alloc bytes => bytes ≤ 2 ^ 64 - s.alloc.align
  | .release addr len => (addr, len) ∈ s.held
  | _ => True

instance (s : TwoPhase) (c : Call) : Decidable (s.fits c) :=
  match c with
  | .alloc bytes => inferInstanceAs (Decidable (bytes ≤ 2 ^ 64 - s.alloc.align))
  | .release addr len => inferInstanceAs (Decidable ((addr, len) ∈ s.held))
  | .free _ | .detach _ => .isTrue trivial

/-- The free blocks and the blocks that are out tile the range, and only what the blocks that
are out leave is given out. Ownership ends with `detach`. -/
structure Tiles (base size : ℕ) (s : TwoPhase) : Prop where
  disjoint : (s.alloc.free.entries ++ s.out).Pairwise Separate
  tiles : ∀ x, (base ≤ x ∧ x < base + size) ↔
    ∃ b ∈ s.alloc.free.entries ++ s.out, b.1 ≤ x ∧ x < b.1 + b.2
  coalesced : ∀ b ∈ s.alloc.free.entries, ∀ c ∈ s.alloc.free.entries, b ≠ c → b.1 + b.2 ≠ c.1
  bytes : s.alloc.liveBytes = (s.alloc.live.entries.map Prod.snd).sum
  fails : ∀ n, 0 < n → n ≤ 2 ^ 64 - s.alloc.align →
    (s.alloc.alloc n = none ↔ ¬∃ x, base ≤ x ∧ x + ceilTo s.alloc.align n ≤ base + size ∧
      ∀ b ∈ s.out, Separate (x, ceilTo s.alloc.align n) b)
  owned : ∀ addr len, 0 < len → s.alloc.ownsRange addr len = true →
    ∀ b ∈ s.alloc.free.entries ++ s.held, Separate (addr, len) b

end TwoPhase

variable {a a' : VramAllocator} {s t : TwoPhase} {b c : ℕ × ℕ}
variable {base size align n addr len : ℕ}

/-! ### The free list is determined -/

namespace WF

theorem not_free_after (h : WF a base size) (hb : b ∈ a.free.entries) :
    coverage a.free.entries (b.1 + b.2) = 0 := by
  by_contra hne
  obtain ⟨c, hc, hlo, hhi⟩ := exists_of_coverage (Nat.pos_of_ne_zero hne)
  have hbc : b ≠ c := by
    rintro rfl
    omega
  have hdisj := h.free_separate hb hc hbc
  have hpos := (h.free_block b hb).2.2
  simp only [Separate] at hdisj
  exact h.gap b hb c hc (by omega)

theorem not_free_before (h : WF a base size) (hb : b ∈ a.free.entries) (hpos : 0 < b.1) :
    coverage a.free.entries (b.1 - 1) = 0 := by
  by_contra hne
  obtain ⟨c, hc, hlo, hhi⟩ := exists_of_coverage (Nat.pos_of_ne_zero hne)
  have hcb : c ≠ b := by
    rintro rfl
    omega
  have hdisj := h.free_separate hc hb hcb
  simp only [Separate] at hdisj
  exact h.gap c hc b hb (by omega)

theorem free_coverage (h : WF a base size) (h' : WF a' base size)
    (hlive : a.live.entries.Perm a'.live.entries) (x : ℕ) :
    coverage a.free.entries x = coverage a'.free.entries x := by
  have hx := h.cover x
  rw [← h'.cover x, coverage_perm hlive] at hx
  exact Nat.add_right_cancel hx

theorem free_mem (h : WF a base size) (h' : WF a' base size)
    (hlive : a.live.entries.Perm a'.live.entries) (hb : b ∈ a.free.entries) :
    b ∈ a'.free.entries := by
  have hcov := h.free_coverage h' hlive
  have hpos := (h.free_block b hb).2.2
  have hstart : 0 < coverage a'.free.entries b.1 := by
    rw [← hcov]
    exact coverage_pos hb le_rfl (by omega)
  obtain ⟨c, hc, hlo, hhi⟩ := exists_of_coverage hstart
  have hfirst : c.1 = b.1 := by
    by_contra hne
    have hbefore := h.not_free_before hb (by omega)
    rw [hcov] at hbefore
    have hin : 0 < coverage a'.free.entries (b.1 - 1) := coverage_pos hc (by omega) (by omega)
    omega
  have hlast : c.2 = b.2 := by
    obtain hlt | heq | hgt := Nat.lt_trichotomy c.2 b.2
    · have hafter := h'.not_free_after hc
      rw [← hcov] at hafter
      have hin : 0 < coverage a.free.entries (c.1 + c.2) := coverage_pos hb (by omega) (by omega)
      omega
    · exact heq
    · have hafter := h.not_free_after hb
      rw [hcov] at hafter
      have hin : 0 < coverage a'.free.entries (b.1 + b.2) := coverage_pos hc (by omega) (by omega)
      omega
  rwa [← Prod.ext hfirst hlast]

theorem free_unique (h : WF a base size) (h' : WF a' base size)
    (hlive : a.live.entries.Perm a'.live.entries) : a.free = a'.free := by
  apply KeyMap.ext_of_perm
  rw [List.perm_ext_iff_of_nodup a.free.nodup a'.free.nodup]
  intro b
  exact ⟨h.free_mem h' hlive, h'.free_mem h hlive.symm⟩

end WF

/-! ### Detached blocks counted as live -/

structure Joins (s : TwoPhase) (a : VramAllocator) : Prop where
  align : a.align = s.alloc.align
  free : a.free = s.alloc.free
  live : a.live.entries.Perm s.out
  bytes : s.alloc.liveBytes = (s.alloc.live.entries.map Prod.snd).sum

theorem alloc_congr {d d' : VramAllocator} (halign : a.align = d.align) (hfree : a.free = d.free)
    (hs : d.alloc n = some (addr, d')) : ∃ a', a.alloc n = some (addr, a') ∧ a'.free = d'.free := by
  obtain ⟨al, fr, lv, lb⟩ := a
  dsimp only at halign hfree
  subst halign hfree
  simp only [alloc] at hs ⊢
  split_ifs at hs ⊢ with hn
  cases hf : d.free.entries.find? fun b => decide (roundUp d.align n ≤ b.2) with
  | none =>
    rw [hf] at hs
    cases hs
  | some b =>
    rw [hf] at hs
    cases hs
    exact ⟨_, rfl, rfl⟩

theorem freeAddr_free (hb : (addr, len) ∈ a.live.entries) :
    (a.freeAddr addr).free = (a.release addr len).free := by
  simp only [freeAddr, detach, KeyMap.find_eq_some.mpr hb]
  rfl

namespace Joins

theorem new (base size align : ℕ) : Joins (.new base size align) (.new base size align) where
  align := rfl
  free := rfl
  live := .refl _
  bytes := rfl

theorem mem (h : Joins s a) (hb : b ∈ s.out) : b ∈ a.live.entries :=
  h.live.mem_iff.mpr hb

theorem giveBack (h : Joins s a) (hwf : WF a base size) (hb : (addr, len) ∈ s.out)
    (halign : t.alloc.align = s.alloc.align)
    (hfree : t.alloc.free = (s.alloc.release addr len).free)
    (hout : s.out.Perm ((addr, len) :: t.out))
    (hbytes : t.alloc.liveBytes = (t.alloc.live.entries.map Prod.snd).sum) :
    ∃ a', WF a' base size ∧ Joins t a' := by
  obtain ⟨hwf', halign', hlive⟩ := freeAddr_wf hwf (h.mem hb)
  refine ⟨a.freeAddr addr, hwf', ?_, ?_, ?_, hbytes⟩
  · rw [halign', h.align, halign]
  · rw [freeAddr_free (h.mem hb), hfree, release, release, h.free]
  · exact (hlive.symm.trans (h.live.trans hout)).cons_inv

theorem alloc (h : Joins s a) (hwf : WF a base size) {d : VramAllocator}
    (hfit : n ≤ 2 ^ 64 - s.alloc.align) (hs : s.alloc.alloc n = some (addr, d)) :
    ∃ a', WF a' base size ∧ Joins { s with alloc := d } a' := by
  obtain ⟨a', ha, hfree⟩ := alloc_congr h.align h.free hs
  obtain ⟨hn, len, hb, -, rfl⟩ := alloc_eq_some hs
  have hneed : 0 < roundUp a.align n := by
    rw [roundUp_eq_ceilTo (Nat.pos_of_ne_zero hn) (h.align ▸ hfit)]
    exact ceilTo_pos hwf.align_pos (Nat.pos_of_ne_zero hn)
  obtain ⟨hwf', halign, hlive⟩ := alloc_wf hwf ha hneed
  have hnone : s.alloc.live.find addr = none := by
    have hall := KeyMap.find_eq_none.mp (hwf.live_find_none (h.free ▸ hb))
    rw [KeyMap.find_eq_none]
    intro e he
    exact hall e (h.mem (List.mem_append_left s.held he))
  have hperm : (s.alloc.live.emplace addr (roundUp s.alloc.align n)).entries.Perm
      ((addr, roundUp s.alloc.align n) :: s.alloc.live.entries) := KeyMap.emplace_perm hnone
  rw [h.align] at hlive
  refine ⟨a', hwf', halign.trans h.align, hfree, ?_, ?_⟩
  · exact (hlive.trans (h.live.cons _)).trans (hperm.append_right s.held).symm
  · dsimp only
    rw [(hperm.map Prod.snd).sum_eq, List.map_cons, List.sum_cons, h.bytes, Nat.add_comm]

theorem call (h : Joins s a) (hwf : WF a base size) {c : TwoPhase.Call} (hok : s.fits c)
    (hc : s.call c = some t) : ∃ a', WF a' base size ∧ Joins t a' := by
  cases c with
  | alloc n =>
    simp only [TwoPhase.call, Option.some.injEq] at hc
    subst hc
    split
    next => exact ⟨a, hwf, h⟩
    next addr d hs => exact h.alloc hwf hok hs
  | free addr =>
    simp only [TwoPhase.call, Option.some.injEq] at hc
    subst hc
    cases hf : s.alloc.live.find addr with
    | none =>
      have hsame : s.alloc.freeAddr addr = s.alloc := by
        simp only [freeAddr, detach, hf]
      rw [hsame]
      exact ⟨a, hwf, h⟩
    | some len =>
      have hb := KeyMap.find_eq_some.mp hf
      have hperm := KeyMap.erase_perm hb
      refine h.giveBack hwf (List.mem_append_left s.held hb) ?_ (freeAddr_free hb) ?_ ?_
      · simp only [freeAddr, detach, hf, release]
      · simp only [TwoPhase.out, freeAddr, detach, hf, release]
        exact hperm.append_right s.held
      · simp only [freeAddr, detach, hf, release]
        rw [h.bytes, (hperm.map Prod.snd).sum_eq, List.map_cons, List.sum_cons,
          Nat.add_sub_cancel_left]
  | detach addr =>
    simp only [TwoPhase.call, Option.some.injEq] at hc
    subst hc
    cases hf : s.alloc.live.find addr with
    | none =>
      simp only [detach, hf]
      exact ⟨a, hwf, h⟩
    | some len =>
      simp only [detach, hf]
      have hperm := KeyMap.erase_perm (KeyMap.find_eq_some.mp hf)
      refine ⟨a, hwf, h.align, h.free, ?_, ?_⟩
      · exact h.live.trans ((hperm.append_right s.held).trans List.perm_middle.symm)
      · dsimp only
        rw [h.bytes, (hperm.map Prod.snd).sum_eq, List.map_cons, List.sum_cons,
          Nat.add_sub_cancel_left]
  | release addr len =>
    simp only [TwoPhase.call, Option.some.injEq] at hc
    subst hc
    have hperm := List.perm_cons_erase hok
    refine h.giveBack hwf (List.mem_append_right s.alloc.live.entries hok) rfl rfl ?_ h.bytes
    exact (hperm.append_left s.alloc.live.entries).trans List.perm_middle

theorem tiles (h : Joins s a) (ht : Tiled base size a) : s.Tiles base size := by
  have hperm : (a.free.entries ++ a.live.entries).Perm (s.alloc.free.entries ++ s.out) := by
    rw [h.free]
    exact h.live.append_left _
  have hdisj : (s.alloc.free.entries ++ s.out).Pairwise Separate :=
    (hperm.pairwise_iff fun hbc => Or.symm hbc).mp ht.disjoint
  refine ⟨hdisj, ?_, ?_, h.bytes, ?_, ?_⟩
  · intro x
    rw [ht.tiles x]
    exact exists_congr fun b => and_congr_left' hperm.mem_iff
  · rw [← h.free]
    exact ht.coalesced
  · intro n hn hfit
    have hnone : s.alloc.alloc n = none ↔ a.alloc n = none := by
      rw [alloc_eq_none hn, alloc_eq_none hn, h.free, h.align]
    rw [hnone, ht.fails n hn (h.align ▸ hfit), h.align, Gap]
    simp only [h.live.mem_iff]
  · intro addr len hlen how c hc
    obtain ⟨b, hb, hin⟩ := List.any_eq_true.mp how
    simp only [Bool.and_eq_true, decide_eq_true_eq] at hin
    -- a live block against a free one or a detached one
    have hbc : Separate b c := by
      obtain ⟨-, hout, hcross⟩ := List.pairwise_append.mp hdisj
      obtain hc | hc := List.mem_append.mp hc
      · exact Or.symm (hcross c hc b (List.mem_append_left _ hb))
      · exact (List.pairwise_append.mp hout).2.2 b hb c hc
    simp only [Separate] at hbc ⊢
    omega

end Joins

/-! ### Runs -/

theorem call_align {c : TwoPhase.Call} (hc : s.call c = some t) :
    t.alloc.align = s.alloc.align := by
  cases c with
  | alloc n =>
    simp only [TwoPhase.call, Option.some.injEq] at hc
    subst hc
    split
    next => rfl
    next addr d hs =>
      obtain ⟨-, len, -, -, rfl⟩ := alloc_eq_some hs
      rfl
  | free addr =>
    simp only [TwoPhase.call, Option.some.injEq] at hc
    subst hc
    cases hf : s.alloc.live.find addr <;> simp only [freeAddr, detach, hf, release]
  | detach addr =>
    simp only [TwoPhase.call, Option.some.injEq] at hc
    subst hc
    cases hf : s.alloc.live.find addr <;> simp only [detach, hf]
  | release addr len =>
    simp only [TwoPhase.call, Option.some.injEq] at hc
    subst hc
    rfl

theorem twoPhase_empty (hpos : 0 < align)
    (h : Reach TwoPhase.call TwoPhase.fits (.new base 0 align) s) : s = .new base 0 align := by
  refine h.invariant (P := fun s => s = .new base 0 align) rfl fun s c t hi hok hc => ?_
  subst hi
  cases c with
  | alloc n =>
    have hnone : (TwoPhase.new base 0 align).alloc.alloc n = none := alloc_empty hpos hok
    rw [TwoPhase.call, hnone] at hc
    exact (Option.some.inj hc).symm
  | free addr => exact (Option.some.inj hc).symm
  | detach addr => exact (Option.some.inj hc).symm
  | release addr len => cases hok

theorem reach_joins (hpos : 0 < align) (hbase : align ∣ base) (hsize : align ∣ size) (hs : 0 < size)
    (h : Reach TwoPhase.call TwoPhase.fits (.new base size align) s) :
    ∃ a, WF a base size ∧ Joins s a :=
  h.invariant (P := fun s => ∃ a, WF a base size ∧ Joins s a)
    ⟨_, wf_new hpos hbase hsize hs, .new base size align⟩
    fun _ _ _ ⟨_, hwf, hi⟩ hok hc => hi.call hwf hok hc

theorem reach_align (h : Reach TwoPhase.call TwoPhase.fits (.new base size align) s) :
    s.alloc.align = align :=
  h.invariant (P := fun s => s.alloc.align = align) rfl
    fun _ _ _ hi _ hc => (call_align hc).trans hi

/-- Whatever is allocated, freed, detached and released: the blocks that are out and the free
blocks tile the range, and the free list depends on the blocks that are out alone. Two
histories that leave the same blocks out leave the same free list, and the same allocator
if the same ones of them are detached. -/
theorem two_phase_free (hpos : 0 < align) (hbase : align ∣ base) (hsize : align ∣ size)
    (hs : Reach TwoPhase.call TwoPhase.fits (.new base size align) s) :
    s.Tiles base size ∧
      ∀ t, Reach TwoPhase.call TwoPhase.fits (.new base size align) t → s.out.Perm t.out →
        s.alloc.free = t.alloc.free ∧
          (s.alloc.live.entries.Perm t.alloc.live.entries → s.alloc = t.alloc) := by
  obtain rfl | hsz := Nat.eq_zero_or_pos size
  · obtain rfl := twoPhase_empty hpos hs
    refine ⟨(Joins.new base 0 align).tiles (tiled_empty hpos hbase), ?_⟩
    intro t ht _
    obtain rfl := twoPhase_empty hpos ht
    exact ⟨rfl, fun _ => rfl⟩
  · obtain ⟨a, hwf, ha⟩ := reach_joins hpos hbase hsize hsz hs
    refine ⟨ha.tiles (hwf.tiled hsz), ?_⟩
    intro t ht hout
    obtain ⟨d, hwf', hd⟩ := reach_joins hpos hbase hsize hsz ht
    have hfree : s.alloc.free = t.alloc.free := by
      rw [← ha.free, ← hd.free]
      exact hwf.free_unique hwf' (ha.live.trans (hout.trans hd.live.symm))
    refine ⟨hfree, fun hlive => ?_⟩
    have halign := (reach_align hs).trans (reach_align ht).symm
    have hbytes : s.alloc.liveBytes = t.alloc.liveBytes := by
      rw [ha.bytes, hd.bytes, (hlive.map Prod.snd).sum_eq]
    have hmap : s.alloc.live = t.alloc.live := KeyMap.ext_of_perm hlive
    obtain ⟨⟨al, fr, lv, lb⟩, held⟩ := s
    dsimp only at halign hfree hmap hbytes
    subst halign hfree hmap hbytes
    rfl

/-- Four blocks of a page. The second and the third are given back, in one phase or in two and in
either order, and the fourth is detached; one of the histories has another block in between. -/
def upward : List TwoPhase.Call :=
  [.alloc 4096, .alloc 4096, .alloc 4096, .alloc 4096, .free 4096, .detach 8192,
    .release 8192 4096, .detach 12288]

def downward : List TwoPhase.Call :=
  [.alloc 4096, .alloc 4096, .alloc 4096, .alloc 4096, .detach 12288, .free 8192, .detach 4096,
    .alloc 8192, .free 16384, .release 4096 4096]

theorem two_phase_free_orders :
    ∃ s t, exec (when TwoPhase.fits TwoPhase.call) (.new 0 32768 4096) upward = some s ∧
      exec (when TwoPhase.fits TwoPhase.call) (.new 0 32768 4096) downward = some t ∧
      s.held = [(12288, 4096)] ∧ s.Tiles 0 32768 ∧ s.alloc = t.alloc := by
  have hrun : ((exec (when TwoPhase.fits TwoPhase.call) (.new 0 32768 4096) upward).map
      fun s => (s.alloc.live.entries, s.held)) = some ([(0, 4096)], [(12288, 4096)]) := by decide
  have hrun' : ((exec (when TwoPhase.fits TwoPhase.call) (.new 0 32768 4096) downward).map
      fun s => (s.alloc.live.entries, s.held)) = some ([(0, 4096)], [(12288, 4096)]) := by decide
  obtain ⟨s, hs, hq⟩ := Option.map_eq_some_iff.mp hrun
  obtain ⟨t, ht, hq'⟩ := Option.map_eq_some_iff.mp hrun'
  rw [Prod.mk.injEq] at hq hq'
  obtain ⟨htiles, hsame⟩ := two_phase_free (by decide) (by decide) (by decide)
    (.of_exec_when .refl hs)
  have hlive : s.alloc.live.entries.Perm t.alloc.live.entries := by rw [hq.1, hq'.1]
  have hout : s.out.Perm t.out := by
    rw [TwoPhase.out, TwoPhase.out, hq.1, hq.2, hq'.1, hq'.2]
  exact ⟨s, t, hs, ht, hq.2, htiles, (hsame t (.of_exec_when .refl ht) hout).2 hlive⟩

end SoftGpu.VramAllocator
