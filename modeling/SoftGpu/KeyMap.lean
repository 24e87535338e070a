import Mathlib.Algebra.BigOperators.Fin
import Mathlib.Data.List.Sort

/-!
# Ordered maps with natural-number keys

The part of `std::map` that an allocator or a range table uses: lookup,
insertion that keeps an existing entry (`emplace`), erasure, and the neighbours
of a key (`lower_bound`, the entry before it, the entry at or below a key). A
map is its entry list, strictly increasing in the key; the invariant is a field.

Ownership arguments only count entries, so the update lemmas are stated up to
permutation.
-/

namespace SoftGpu

structure KeyMap (β : Type*) where
  entries : List (ℕ × β)
  sorted : entries.Pairwise (fun a b => a.1 < b.1)

namespace KeyMap
variable {β : Type*}

def empty : KeyMap β := ⟨[], List.Pairwise.nil⟩

def find (m : KeyMap β) (k : ℕ) : Option β :=
  (m.entries.find? fun e => e.1 = k).map Prod.snd

def insertEntry (k : ℕ) (v : β) : List (ℕ × β) → List (ℕ × β)
  | [] => [(k, v)]
  | e :: l => if k < e.1 then (k, v) :: e :: l else if k = e.1 then e :: l
      else e :: insertEntry k v l

theorem mem_insertEntry {k : ℕ} {v : β} {l : List (ℕ × β)} {e : ℕ × β}
    (h : e ∈ insertEntry k v l) : e = (k, v) ∨ e ∈ l := by
  induction l with
  | nil => simpa [insertEntry] using h
  | cons d l ih =>
    simp only [insertEntry] at h
    split_ifs at h
    · simpa using h
    · exact .inr h
    · rcases List.mem_cons.mp h with rfl | h
      · simp
      · exact (ih h).imp id (List.mem_cons_of_mem d)

theorem pairwise_insertEntry (k : ℕ) (v : β) {l : List (ℕ × β)}
    (h : l.Pairwise (fun a b => a.1 < b.1)) :
    (insertEntry k v l).Pairwise (fun a b => a.1 < b.1) := by
  induction l with
  | nil => simp [insertEntry]
  | cons d l ih =>
    rw [List.pairwise_cons] at h
    simp only [insertEntry]
    split_ifs with h₁ h₂
    · refine List.pairwise_cons.mpr ⟨?_, List.pairwise_cons.mpr h⟩
      intro e he
      rcases List.mem_cons.mp he with rfl | he
      · exact h₁
      · exact h₁.trans (h.1 e he)
    · exact List.pairwise_cons.mpr h
    · refine List.pairwise_cons.mpr ⟨?_, ih h.2⟩
      intro e he
      rcases mem_insertEntry he with rfl | he
      · change d.1 < k
        omega
      · exact h.1 e he

def emplace (m : KeyMap β) (k : ℕ) (v : β) : KeyMap β :=
  ⟨insertEntry k v m.entries, pairwise_insertEntry k v m.sorted⟩

def erase (m : KeyMap β) (k : ℕ) : KeyMap β :=
  ⟨m.entries.filter fun e => e.1 ≠ k, m.sorted.filter _⟩

def lowerBound (m : KeyMap β) (k : ℕ) : Option (ℕ × β) := m.entries.find? fun e => k ≤ e.1

/-- The last entry whose key is below `k`: `std::prev (lower_bound k)`. -/
def before (m : KeyMap β) (k : ℕ) : Option (ℕ × β) := (m.entries.filter fun e => e.1 < k).getLast?

def atMost (m : KeyMap β) (k : ℕ) : Option (ℕ × β) := (m.entries.filter fun e => e.1 ≤ k).getLast?

variable {m : KeyMap β} {k : ℕ} {v : β}

theorem key_unique {d e : ℕ × β} (hd : d ∈ m.entries) (he : e ∈ m.entries) (h : d.1 = e.1) :
    d = e := by
  have hp : (m.entries.map Prod.fst).Nodup :=
    List.pairwise_map.mpr (m.sorted.imp fun hab => hab.ne)
  exact List.inj_on_of_nodup_map hp hd he h

theorem nodup (m : KeyMap β) : m.entries.Nodup :=
  m.sorted.imp fun hab => by
    rintro rfl
    exact lt_irrefl _ hab

theorem find_eq_some : m.find k = some v ↔ (k, v) ∈ m.entries := by
  constructor
  · intro h
    simp only [find, Option.map_eq_some_iff] at h
    obtain ⟨e, he, rfl⟩ := h
    have hk := List.find?_some he
    simp only [decide_eq_true_eq] at hk
    exact hk ▸ List.mem_of_find?_eq_some he
  · intro h
    obtain ⟨e, he⟩ : ∃ e, m.entries.find? (fun e => e.1 = k) = some e :=
      Option.isSome_iff_exists.mp (List.find?_isSome.mpr ⟨_, h, by simp⟩)
    have hk := List.find?_some he
    simp only [decide_eq_true_eq] at hk
    have hev := key_unique (List.mem_of_find?_eq_some he) h hk
    simp [find, he, hev]

theorem find_eq_none : m.find k = none ↔ ∀ e ∈ m.entries, e.1 ≠ k := by
  simp [find, List.find?_eq_none]

theorem mem_erase {e : ℕ × β} : e ∈ (m.erase k).entries ↔ e ∈ m.entries ∧ e.1 ≠ k := by
  simp [erase]

theorem erase_perm (h : (k, v) ∈ m.entries) : m.entries.Perm ((k, v) :: (m.erase k).entries) := by
  rw [List.perm_ext_iff_of_nodup m.nodup]
  · intro e
    simp only [List.mem_cons, mem_erase]
    constructor
    · intro he
      by_cases hk : e.1 = k
      · exact .inl (key_unique he h hk)
      · exact .inr ⟨he, hk⟩
    · rintro (rfl | he)
      · exact h
      · exact he.1
  · rw [List.nodup_cons, mem_erase]
    exact ⟨fun hk => hk.2 rfl, (m.erase k).nodup⟩

theorem insertEntry_perm {l : List (ℕ × β)} (h : ∀ e ∈ l, e.1 ≠ k) :
    (insertEntry k v l).Perm ((k, v) :: l) := by
  induction l with
  | nil => simp [insertEntry]
  | cons d l ih =>
    have hd := h d (by simp)
    simp only [insertEntry]
    split_ifs with h₁ h₂
    · exact .refl _
    · exact absurd h₂.symm hd
    · have hl := ih fun e he => h e (List.mem_cons_of_mem d he)
      exact (hl.cons d).trans (List.Perm.swap _ _ _)

theorem emplace_perm (h : m.find k = none) :
    (m.emplace k v).entries.Perm ((k, v) :: m.entries) :=
  insertEntry_perm (find_eq_none.mp h)

theorem insertEntry_subperm (k : ℕ) (v : β) (l : List (ℕ × β)) :
    (insertEntry k v l).Subperm ((k, v) :: l) := by
  induction l with
  | nil => exact .refl _
  | cons e l ih =>
    simp only [insertEntry]
    split_ifs
    · exact .refl _
    · exact (List.sublist_cons_self _ _).subperm
    · exact ((List.subperm_cons e).mpr ih).trans (List.Perm.swap (k, v) e l).subperm

theorem mem_emplace (h : m.find k = none) {e : ℕ × β} :
    e ∈ (m.emplace k v).entries ↔ e = (k, v) ∨ e ∈ m.entries := by
  rw [(emplace_perm h).mem_iff, List.mem_cons]

theorem insertEntry_of_mem {w : β} {l : List (ℕ × β)} (hl : l.Pairwise fun a b => a.1 < b.1)
    (h : (k, w) ∈ l) : insertEntry k v l = l := by
  induction l with
  | nil => cases h
  | cons e l ih =>
    rw [List.pairwise_cons] at hl
    rcases List.mem_cons.mp h with rfl | h
    · rw [insertEntry, if_neg (lt_irrefl _), if_pos rfl]
    · have hlt := hl.1 _ h
      rw [insertEntry, if_neg hlt.not_gt, if_neg hlt.ne', ih hl.2 h]

theorem emplace_of_mem {w : β} (h : (k, w) ∈ m.entries) : m.emplace k v = m := by
  obtain ⟨l, hl⟩ := m
  simp only [emplace, KeyMap.mk.injEq]
  exact insertEntry_of_mem hl h

theorem ext_of_perm {m' : KeyMap β} (h : m.entries.Perm m'.entries) : m = m' := by
  obtain ⟨l, hl⟩ := m
  obtain ⟨l', hl'⟩ := m'
  obtain rfl : l = l' := h.eq_of_pairwise
    (fun a b _ _ hab hba => absurd (hab.trans hba) (lt_irrefl _)) hl hl'
  rfl

theorem erase_emplace (h : m.find k = none) : (m.emplace k v).erase k = m := by
  apply ext_of_perm
  apply List.Perm.cons_inv (a := (k, v))
  exact (erase_perm ((mem_emplace h).mpr (.inl rfl))).symm.trans (emplace_perm h)

theorem emplace_erase (h : (k, v) ∈ m.entries) : (m.erase k).emplace k v = m := by
  apply ext_of_perm
  exact (emplace_perm (find_eq_none.mpr fun e he => (mem_erase.mp he).2)).trans (erase_perm h).symm

theorem lowerBound_spec {e : ℕ × β} (h : m.lowerBound k = some e) : e ∈ m.entries ∧ k ≤ e.1 := by
  have hk := List.find?_some h
  simp only [decide_eq_true_eq] at hk
  exact ⟨List.mem_of_find?_eq_some h, hk⟩

theorem lowerBound_none (h : m.lowerBound k = none) {e : ℕ × β} (he : e ∈ m.entries) : e.1 < k := by
  simpa using List.find?_eq_none.mp h e he

theorem lowerBound_least {d e : ℕ × β} (h : m.lowerBound k = some e) (hd : d ∈ m.entries)
    (hk : k ≤ d.1) : e.1 ≤ d.1 := by
  obtain ⟨-, l, r, hl, hlt⟩ := List.find?_eq_some_iff_append.mp h
  have hs := m.sorted
  rw [hl] at hs hd
  rcases List.mem_append.mp hd with hd | hd
  · have hdk := hlt d hd
    simp only [Bool.not_eq_eq_eq_not, Bool.not_true, decide_eq_false_iff_not] at hdk
    omega
  · rcases List.mem_cons.mp hd with rfl | hd
    · exact le_rfl
    · exact (List.rel_of_pairwise_cons (List.pairwise_append.mp hs).2.1 hd).le

theorem getLast_filter {p : ℕ × β → Bool} {e : ℕ × β} (h : (m.entries.filter p).getLast? = some e) :
    e ∈ m.entries ∧ p e = true ∧ ∀ d ∈ m.entries, p d = true → d.1 ≤ e.1 := by
  have he := List.mem_filter.mp (List.mem_of_getLast? h)
  refine ⟨he.1, he.2, fun d hd hdk => ?_⟩
  have hs := m.sorted.filter p
  obtain ⟨l, hl⟩ := List.getLast?_eq_some_iff.mp h
  have hmem : d ∈ m.entries.filter p := List.mem_filter.mpr ⟨hd, hdk⟩
  rw [hl] at hs hmem
  rcases List.mem_append.mp hmem with hd' | hd'
  · exact ((List.pairwise_append.mp hs).2.2 d hd' e (by simp)).le
  · rw [List.mem_singleton.mp hd']

theorem before_spec {e : ℕ × β} (h : m.before k = some e) :
    e ∈ m.entries ∧ e.1 < k ∧ ∀ d ∈ m.entries, d.1 < k → d.1 ≤ e.1 := by
  simpa using getLast_filter h

theorem before_none (h : m.before k = none) {e : ℕ × β} (he : e ∈ m.entries) : k ≤ e.1 := by
  rw [before, List.getLast?_eq_none_iff, List.filter_eq_nil_iff] at h
  simpa using h e he

theorem atMost_spec {e : ℕ × β} (h : m.atMost k = some e) :
    e ∈ m.entries ∧ e.1 ≤ k ∧ ∀ d ∈ m.entries, d.1 ≤ k → d.1 ≤ e.1 := by
  simpa using getLast_filter h

theorem atMost_isSome {e : ℕ × β} (he : e ∈ m.entries) (hk : e.1 ≤ k) :
    ∃ d, m.atMost k = some d := by
  have hne : (m.entries.filter fun e => e.1 ≤ k) ≠ [] :=
    List.ne_nil_of_mem (List.mem_filter.mpr ⟨he, by simpa using hk⟩)
  exact ⟨_, List.getLast?_eq_some_getLast hne⟩

end KeyMap

end SoftGpu
