import SoftGpu.Clock
import Mathlib.Data.Set.Insert

/-!
# CLOCK and the pages that came in last

`own` are the pages that have come in since some moment, `passed` those that the hand
has passed since then. The hand takes one of the own pages only when no other page is
left in the queue, provided that no bit is set again of a page that was there before
and has been passed.

An own page starts behind all others. Another page gets behind it by being passed, so
when the hand passes an own page, it has passed all others and cleared their bits.
-/

namespace SoftGpu.Clock

variable {α : Type*} [DecidableEq α]

structure Newcomers (q : Queue α) (own passed : Set α) : Prop where
  cleared : ∀ x ∈ q.pages, x ∉ own → x ∈ passed → q.ref x = false
  fresh : ∀ x ∈ q.pages, x ∈ own → x ∉ passed → q.ref x = true
  behind : q.pages.Pairwise fun y x => y ∈ own → x ∉ own → x ∈ passed
  last : q.pages.Pairwise fun y x => y ∈ own → y ∈ passed → x ∈ own
  all : ∀ y ∈ q.pages, y ∈ own → y ∈ passed → ∀ x ∈ q.pages, x ∉ own → x ∈ passed

/-- The hand has `c` chances left in this scan, and has passed the pages behind the first `c`. If it
began with an own page, it has met own pages only. -/
def Scanned (q : Queue α) (own passed : Set α) (c : ℕ) : Prop :=
  ∀ y ∈ (q.pages.drop c).head?, y ∈ own → y ∈ passed ∧ ∀ x ∈ q.pages.drop c, x ∈ own

namespace Newcomers
variable {q : Queue α} {own passed : Set α} {x y : α} {xs : List α} {ref : α → Bool}

omit [DecidableEq α] in
theorem start (q : Queue α) : Newcomers q ∅ ∅ where
  cleared := fun _ _ _ hx => absurd hx (Set.notMem_empty _)
  fresh := fun _ _ hx => absurd hx (Set.notMem_empty _)
  behind := List.pairwise_of_forall fun _ _ hy => absurd hy (Set.notMem_empty _)
  last := List.pairwise_of_forall fun _ _ hy => absurd hy (Set.notMem_empty _)
  all := fun _ _ hy => absurd hy (Set.notMem_empty _)

theorem touch (h : Newcomers q own passed) (hx : x ∈ passed → x ∈ own) :
    Newcomers ⟨q.pages, Function.update q.ref x true⟩ own passed := by
  refine ⟨fun z hz hno hp => ?_, fun z hz ho hp => ?_, h.behind, h.last, h.all⟩
  · have hzx : z ≠ x := by
      intro hzx
      rw [hzx] at hno hp
      exact hno (hx hp)
    dsimp only
    rw [Function.update_of_ne hzx]
    exact h.cleared z hz hno hp
  · by_cases hzx : z = x
    · simp [hzx]
    · dsimp only
      rw [Function.update_of_ne hzx]
      exact h.fresh z hz ho hp

omit [DecidableEq α] in
theorem ref_of_passed (h : Newcomers q own passed) (hy : y ∈ q.pages) (ho : y ∈ own)
    (hp : y ∈ passed) (hx : x ∈ q.pages) (hno : x ∉ own) : q.ref x = false :=
  h.cleared x hx hno (h.all y hy ho hp x hx hno)

theorem pass (h : Newcomers ⟨x :: xs, ref⟩ own passed) (hnd : x ∉ xs) (hx : ref x = true) :
    Newcomers ⟨xs ++ [x], Function.update ref x false⟩ own (insert x passed) := by
  have hmem : ∀ z, z ∈ xs ++ [x] ↔ z ∈ x :: xs := by
    intro z
    simp [or_comm]
  obtain ⟨hbehind, hbehind'⟩ := List.pairwise_cons.mp h.behind
  obtain ⟨-, hlast⟩ := List.pairwise_cons.mp h.last
  have hne : ∀ z ∈ xs, z ≠ x := fun z hz hzx => hnd (hzx ▸ hz)
  have hold : ∀ z ∈ xs, z ∈ insert x passed → z ∈ passed := fun z hz hp =>
    hp.resolve_left (hne z hz)
  -- An own page in the queue that was passed before would have cleared the bit of this one.
  have hown : ∀ y ∈ xs, y ∈ own → y ∈ passed → x ∈ own := by
    intro y hy ho hp
    by_contra hno
    have hzero := h.ref_of_passed (List.mem_cons_of_mem x hy) ho hp List.mem_cons_self hno
    simp [hx] at hzero
  refine ⟨fun z hz hno hp => ?_, fun z hz ho hp => ?_, ?_, ?_, fun y hy ho hp z hz hno => ?_⟩
  · by_cases hzx : z = x
    · simp [hzx]
    · dsimp only
      rw [Function.update_of_ne hzx]
      exact h.cleared z ((hmem z).mp hz) hno (hp.resolve_left hzx)
  · have hzx : z ≠ x := fun hzx => hp (.inl hzx)
    dsimp only
    rw [Function.update_of_ne hzx]
    exact h.fresh z ((hmem z).mp hz) ho fun hp' => hp (.inr hp')
  · refine List.pairwise_append.mpr ⟨hbehind'.imp fun hyz ho hno => .inr (hyz ho hno),
      List.pairwise_singleton _ _, fun y _ z hz _ _ => ?_⟩
    exact .inl (List.mem_singleton.mp hz)
  · refine List.pairwise_append.mpr ⟨?_, List.pairwise_singleton _ _, fun y hy z hz ho hp => ?_⟩
    · refine hlast.imp_of_mem fun {y z} hy _ hyz ho hp => hyz ho (hold y hy hp)
    · rw [List.mem_singleton.mp hz]
      exact hown y hy ho (hold y hy hp)
  · by_cases hyx : y = x
    · by_cases hzx : z = x
      · exact .inl hzx
      · have hzxs : z ∈ xs := (List.mem_cons.mp ((hmem z).mp hz)).resolve_left hzx
        exact .inr (hbehind z hzxs (hyx ▸ ho) hno)
    · exact .inr (h.all y ((hmem y).mp hy) ho (hp.resolve_left hyx) z ((hmem z).mp hz) hno)

omit [DecidableEq α] in
theorem take (h : Newcomers ⟨x :: xs, ref⟩ own passed) {ref' : α → Bool}
    (href : ∀ z ∈ xs, ref' z = ref z) : Newcomers ⟨xs, ref'⟩ own passed where
  cleared := fun z hz hno hp => (href z hz).trans (h.cleared z (List.mem_cons_of_mem x hz) hno hp)
  fresh := fun z hz ho hp => (href z hz).trans (h.fresh z (List.mem_cons_of_mem x hz) ho hp)
  behind := (List.pairwise_cons.mp h.behind).2
  last := (List.pairwise_cons.mp h.last).2
  all := fun y hy ho hp z hz hno =>
    h.all y (List.mem_cons_of_mem x hy) ho hp z (List.mem_cons_of_mem x hz) hno

theorem push (h : Newcomers q own passed) (hx : x ∉ q.pages) :
    Newcomers (q.push x) (insert x own) (passed \ {x}) := by
  have hne : ∀ z ∈ q.pages, z ≠ x := fun z hz hzx => hx (hzx ▸ hz)
  have hown : ∀ z ∈ q.pages, z ∈ insert x own → z ∈ own := fun z hz ho => ho.resolve_left (hne z hz)
  refine ⟨fun z hz hno hp => ?_, fun z hz ho hp => ?_, ?_, ?_, fun y hy ho hp z hz hno => ?_⟩
  · have hzx : z ≠ x := fun hzx => hno (.inl hzx)
    have hzq : z ∈ q.pages := by simpa [Queue.push, hzx] using hz
    simp only [Queue.push, Function.update_of_ne hzx]
    exact h.cleared z hzq (fun ho => hno (.inr ho)) hp.1
  · by_cases hzx : z = x
    · simp [Queue.push, hzx]
    · have hzq : z ∈ q.pages := by simpa [Queue.push, hzx] using hz
      simp only [Queue.push, Function.update_of_ne hzx]
      exact h.fresh z hzq (ho.resolve_left hzx) fun hp' => hp ⟨hp', hzx⟩
  · refine List.pairwise_append.mpr ⟨?_, List.pairwise_singleton _ _, fun y _ z hz _ hno => ?_⟩
    · exact h.behind.imp_of_mem fun {y z} hy hz hyz ho hno =>
        ⟨hyz (hown y hy ho) fun ho' => hno (.inr ho'), hne z hz⟩
    · exact absurd (.inl (List.mem_singleton.mp hz)) hno
  · refine List.pairwise_append.mpr ⟨?_, List.pairwise_singleton _ _, fun y _ z hz _ _ => ?_⟩
    · exact h.last.imp_of_mem fun {y z} hy _ hyz ho hp => .inr (hyz (hown y hy ho) hp.1)
    · exact .inl (List.mem_singleton.mp hz)
  · have hyx : y ≠ x := hp.2
    have hzx : z ≠ x := fun hzx => hno (.inl hzx)
    have hyq : y ∈ q.pages := by simpa [Queue.push, hyx] using hy
    have hzq : z ∈ q.pages := by simpa [Queue.push, hzx] using hz
    exact ⟨h.all y hyq (hown y hyq ho) hp.1 z hzq fun ho' => hno (.inr ho'), hzx⟩

omit [DecidableEq α] in
theorem victim (h : Newcomers ⟨x :: xs, ref⟩ own passed) (ho : x ∈ own) (hx : ref x = false) :
    ∀ z ∈ x :: xs, z ∈ own := by
  have hp : x ∈ passed := by
    by_contra hp
    have hone := h.fresh x List.mem_cons_self ho hp
    simp [hx] at hone
  intro z hz
  obtain rfl | hz := List.mem_cons.mp hz
  · exact ho
  · exact (List.pairwise_cons.mp h.last).1 z hz ho hp

end Newcomers

namespace Scanned
variable {q : Queue α} {own passed : Set α} {x : α} {xs : List α} {ref : α → Bool} {c : ℕ}

omit [DecidableEq α] in
theorem start (q : Queue α) (own passed : Set α) : Scanned q own passed q.pages.length := by
  intro y hy
  simp at hy

theorem pass (h : Scanned ⟨x :: xs, ref⟩ own passed (c + 1))
    (hn : Newcomers ⟨x :: xs, ref⟩ own passed) (hx : ref x = true) (hc : c ≤ xs.length) :
    Scanned ⟨xs ++ [x], Function.update ref x false⟩ own (insert x passed) c := by
  intro y hy ho
  dsimp only at hy ⊢
  rw [List.drop_append_of_le_length hc] at hy ⊢
  simp only [Scanned, List.drop_succ_cons] at h
  cases hd : xs.drop c with
  | nil =>
    rw [hd] at hy
    obtain rfl : x = y := by simpa using hy
    exact ⟨.inl rfl, by simpa using ho⟩
  | cons z l =>
    rw [hd] at hy h
    obtain rfl : z = y := by simpa using hy
    obtain ⟨hp, hall⟩ := h z rfl ho
    refine ⟨.inr hp, fun w hw => ?_⟩
    obtain hw | hw := List.mem_append.mp hw
    · exact hall w hw
    · rw [List.mem_singleton.mp hw]
      -- The page at the front still had its bit, so it is not one of the others.
      by_contra hno
      have hz : z ∈ x :: xs := List.mem_cons_of_mem x
        (List.mem_of_mem_drop (i := c) (by rw [hd]; exact List.mem_cons_self))
      have hzero := hn.ref_of_passed hz ho hp List.mem_cons_self hno
      simp [hx] at hzero

omit [DecidableEq α] in
theorem victim (h : Scanned ⟨x :: xs, ref⟩ own passed 0) (ho : x ∈ own) : ∀ z ∈ x :: xs, z ∈ own :=
  (h x rfl ho).2

end Scanned

end SoftGpu.Clock
