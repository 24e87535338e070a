import Mathlib.Data.List.Nodup
import Mathlib.Data.List.Basic
import Mathlib.Data.Finset.Card

/-!
# Least recently used

A cache of at most `n` pages as the list of its pages, the most recent first. An
access puts its page in front; if the cache was full and the page was not in it,
the last page goes. Pages can also be deleted.
-/

namespace SoftGpu

@[ext]
structure Lru (α : Type*) (n : ℕ) where
  pages : List α
  nodup : pages.Nodup
  length_le : pages.length ≤ n

namespace Lru
variable {α : Type*} [DecidableEq α] {n : ℕ}

instance : Membership α (Lru α n) := ⟨fun c p => p ∈ c.pages⟩

instance (c : Lru α n) (p : α) : Decidable (p ∈ c) := inferInstanceAs (Decidable (p ∈ c.pages))

omit [DecidableEq α] in
theorem mem_def {c : Lru α n} {p : α} : p ∈ c ↔ p ∈ c.pages := Iff.rfl

def empty : Lru α n := ⟨[], List.nodup_nil, Nat.zero_le n⟩

theorem nodup_access (c : Lru α (n + 1)) (p : α) : (p :: (c.pages.erase p).take n).Nodup := by
  have hrest := c.nodup.erase p
  refine List.nodup_cons.mpr ⟨fun h => ?_, hrest.sublist (List.take_sublist n _)⟩
  exact c.nodup.not_mem_erase (List.mem_of_mem_take h)

theorem length_access (c : Lru α (n + 1)) (p : α) :
    (p :: (c.pages.erase p).take n).length ≤ n + 1 := by
  rw [List.length_cons, List.length_take]
  omega

def access (c : Lru α (n + 1)) (p : α) : Lru α (n + 1) :=
  ⟨p :: (c.pages.erase p).take n, c.nodup_access p, c.length_access p⟩

omit [DecidableEq α] in
theorem length_delete (c : Lru α n) (gone : α → Bool) :
    (c.pages.filter fun p => !gone p).length ≤ n :=
  Nat.le_trans (List.length_filter_le _ _) c.length_le

def delete (c : Lru α n) (gone : α → Bool) : Lru α n :=
  ⟨c.pages.filter fun p => !gone p, c.nodup.filter _, c.length_delete gone⟩

variable {c : Lru α (n + 1)} {p q : α}

theorem access_pages (c : Lru α (n + 1)) (p : α) :
    (c.access p).pages = p :: (c.pages.erase p).take n := rfl

omit [DecidableEq α] in
@[simp] theorem mem_delete {c : Lru α n} {gone : α → Bool} :
    p ∈ c.delete gone ↔ p ∈ c ∧ gone p = false := by
  simp only [mem_def, delete, List.mem_filter, Bool.not_eq_eq_eq_not, Bool.not_true]

theorem access_front {rest : List α} (h : c.pages = p :: rest) : c.access p = c := by
  have hlen := c.length_le
  rw [h, List.length_cons] at hlen
  apply Lru.ext
  rw [access_pages, h, List.erase_cons_head, List.take_of_length_le (Nat.le_of_succ_le_succ hlen)]

theorem mem_access_access (c : Lru α (n + 2)) (hne : p ≠ q) : p ∈ (c.access p).access q := by
  rw [mem_def, access_pages, access_pages, List.erase_cons_tail (by simpa using hne)]
  exact List.mem_cons_of_mem q (by simp)

structure Access (c : Lru α (n + 1)) (p victim : α) : Prop where
  front : ∃ rest, (c.access p).pages = p :: rest ∧ rest.Sublist c.pages
  mem : ∀ q, q ∈ c.access p ↔ q = p ∨ q ∈ c ∧ q ≠ victim

theorem access_hit (h : p ∈ c) : Access c p p := by
  have hlen : (c.pages.erase p).length ≤ n := by
    have := c.length_le
    rw [List.length_erase_of_mem h]
    omega
  have hpages : (c.access p).pages = p :: c.pages.erase p := by
    rw [access_pages, List.take_of_length_le hlen]
  refine ⟨⟨_, hpages, List.erase_sublist⟩, fun q => ?_⟩
  rw [mem_def, hpages, List.mem_cons, c.nodup.mem_erase_iff]
  exact or_congr_right and_comm

theorem access_room {victim : α} (h : p ∉ c) (hlen : c.pages.length ≤ n) (hv : victim ∉ c) :
    Access c p victim := by
  have hpages : (c.access p).pages = p :: c.pages := by
    rw [access_pages, List.erase_of_not_mem h, List.take_of_length_le hlen]
  refine ⟨⟨_, hpages, List.Sublist.refl _⟩, fun q => ?_⟩
  rw [mem_def, hpages, List.mem_cons]
  refine or_congr_right ⟨fun hq => ⟨hq, ?_⟩, And.left⟩
  rintro rfl
  exact hv hq

theorem access_full {first : List α} {victim : α} (h : p ∉ c) (hfull : c.pages = first ++ [victim])
    (hlen : first.length = n) : Access c p victim := by
  have hpages : (c.access p).pages = p :: first := by
    rw [access_pages, List.erase_of_not_mem h, hfull, List.take_left' hlen]
  have hnot : victim ∉ first := by
    have hn := hfull ▸ c.nodup
    rw [List.nodup_append] at hn
    exact fun hv => hn.2.2 victim hv victim (List.mem_singleton_self victim) rfl
  refine ⟨⟨_, hpages, hfull ▸ List.sublist_append_left first [victim]⟩, fun q => ?_⟩
  have hold : q ∈ c ↔ q ∈ first ∨ q = victim := by
    rw [mem_def, hfull, List.mem_append, List.mem_singleton]
  rw [mem_def, hpages, List.mem_cons, hold]
  refine or_congr_right ⟨fun hq => ⟨.inl hq, ?_⟩, fun hq => hq.1.resolve_right hq.2⟩
  rintro rfl
  exact hnot hq

theorem Access.pairwise {victim : α} {R S : α → α → Prop} (h : Access c p victim)
    (hR : c.pages.Pairwise R) (hfirst : ∀ q ∈ c, q ≠ p → S p q)
    (hrest : ∀ q ∈ c, ∀ r ∈ c, q ≠ p → r ≠ p → R q r → S q r) : (c.access p).pages.Pairwise S := by
  obtain ⟨rest, hpages, hsub⟩ := h.front
  have hp : p ∉ rest := by
    have hn := (c.access p).nodup
    rw [hpages] at hn
    exact (List.nodup_cons.mp hn).1
  have hne : ∀ q ∈ rest, q ≠ p := by
    rintro q hq rfl
    exact hp hq
  rw [hpages, List.pairwise_cons]
  refine ⟨fun q hq => hfirst q (hsub.subset hq) (hne q hq), ?_⟩
  refine (hR.sublist hsub).imp_of_mem fun {q r} hq hr hqr => ?_
  exact hrest q (hsub.subset hq) r (hsub.subset hr) (hne q hq) (hne r hr) hqr

/-! ### Working sets -/

def Recent (c : Lru α n) (S : Finset α) (v : α) : Prop :=
  ∃ front rest, c.pages = front ++ v :: rest ∧ ∀ u ∈ front, u ∈ S

section Recent
variable {S : Finset α} {v : α}

omit [DecidableEq α] in
theorem Recent.mem {c : Lru α n} (h : Recent c S v) : v ∈ c := by
  obtain ⟨front, rest, hpages, -⟩ := h
  rw [mem_def, hpages]
  exact List.mem_append_right front List.mem_cons_self

theorem recent_access (c : Lru α (n + 1)) (S : Finset α) (v : α) : Recent (c.access v) S v :=
  ⟨[], _, rfl, fun _ hu => absurd hu List.not_mem_nil⟩

omit [DecidableEq α] in
theorem Recent.delete {c : Lru α n} {gone : α → Bool} (h : Recent c S v) (hv : gone v = false) :
    Recent (c.delete gone) S v := by
  obtain ⟨front, rest, hpages, hfront⟩ := h
  refine ⟨front.filter fun p => !gone p, rest.filter fun p => !gone p, ?_, fun u hu => ?_⟩
  · simp [Lru.delete, hpages, hv]
  · exact hfront u (List.mem_of_mem_filter hu)

theorem Recent.access (h : Recent c S v) (hcard : S.card ≤ n + 1) (hv : v ∈ S) (hp : p ∈ S) :
    Recent (c.access p) S v := by
  by_cases hpv : p = v
  · rw [hpv]
    exact recent_access c S v
  obtain ⟨front, rest, hpages, hfront⟩ := h
  have hnd : (front ++ v :: rest).Nodup := hpages ▸ c.nodup
  have hvfront : v ∉ front := fun hmem =>
    (List.nodup_append.mp hnd).2.2 v hmem v List.mem_cons_self rfl
  -- The pages in front of `v`, with `p` and `v` itself, are among `S`.
  have hlen : (front.erase p).length + 2 ≤ n + 1 := by
    have hnd' : (p :: v :: front.erase p).Nodup := by
      have hfront' := (List.nodup_append.mp hnd).1
      refine List.nodup_cons.mpr ⟨?_, List.nodup_cons.mpr
        ⟨fun hmem => hvfront (List.mem_of_mem_erase hmem), hfront'.erase p⟩⟩
      rw [List.mem_cons]
      rintro (heq | hmem)
      · exact hpv heq
      · exact hfront'.not_mem_erase hmem
    have hsub : (p :: v :: front.erase p).toFinset ⊆ S := by
      intro u hu
      simp only [List.mem_toFinset, List.mem_cons] at hu
      obtain rfl | rfl | hu := hu
      · exact hp
      · exact hv
      · exact hfront u (List.mem_of_mem_erase hu)
    have hle := (Finset.card_le_card hsub).trans hcard
    rw [List.toFinset_card_of_nodup hnd'] at hle
    exact hle
  have herase : ∃ rest', c.pages.erase p = front.erase p ++ v :: rest' := by
    rw [hpages]
    by_cases hmem : p ∈ front
    · exact ⟨rest, List.erase_append_left _ hmem⟩
    · refine ⟨rest.erase p, ?_⟩
      rw [List.erase_append_right _ hmem, List.erase_of_not_mem hmem,
        List.erase_cons_tail (by simpa using Ne.symm hpv)]
  obtain ⟨rest', herase⟩ := herase
  refine ⟨p :: front.erase p, rest'.take (n - (front.erase p).length - 1), ?_, fun u hu => ?_⟩
  · rw [access_pages, herase, List.take_append, List.take_of_length_le (by omega)]
    obtain ⟨k, hk⟩ : ∃ k, n - (front.erase p).length = k + 1 :=
      ⟨n - (front.erase p).length - 1, by omega⟩
    rw [hk, List.take_succ_cons, Nat.add_sub_cancel]
    rfl
  · obtain rfl | hu := List.mem_cons.mp hu
    · exact hp
    · exact hfront u (List.mem_of_mem_erase hu)

end Recent

end Lru

end SoftGpu
