import Mathlib.Data.List.Perm.Basic
import Mathlib.Data.Set.Piecewise

/-!
# Jobs on a shared memory

A job reads some places and writes some. Two jobs conflict if one writes a place that the other
one reads or writes. Jobs that do not conflict commute, so in a list of jobs only the order of
those that conflict matters. Jobs that run at the same time, now a part of one and then a part of
another, do what they do one after the other if no two of them conflict.
-/

namespace SoftGpu.Footprint

variable {A V P C ι : Type*}

structure Job (A V : Type*) where
  run : (A → V) → A → V
  reads : Set A
  writes : Set A
  frame : ∀ μ, ∀ a ∉ writes, run μ a = μ a
  local_reads : ∀ μ ν, (∀ a ∈ reads, μ a = ν a) → ∀ a ∈ writes, run μ a = run ν a

namespace Job

def touches (t : Job A V) : Set A := t.reads ∪ t.writes

def Conflict (t u : Job A V) : Prop :=
  (∃ a ∈ t.writes, a ∈ u.touches) ∨ ∃ a ∈ u.writes, a ∈ t.touches

variable {t u : Job A V}

theorem Conflict.symm (h : Conflict t u) : Conflict u t := Or.symm h

theorem Conflict.touches (h : Conflict t u) : (∃ a, a ∈ t.touches) ∧ ∃ a, a ∈ u.touches := by
  obtain ⟨a, ht, hu⟩ | ⟨a, hu, ht⟩ := h
  · exact ⟨⟨a, .inr ht⟩, a, hu⟩
  · exact ⟨⟨a, ht⟩, a, .inr hu⟩

theorem not_mem_of_touches (h : ¬Conflict t u) {a : A} (ha : a ∈ u.touches) : a ∉ t.writes :=
  fun hw => h (.inl ⟨a, hw, ha⟩)

theorem run_run_of_writes (h : ¬Conflict t u) (μ : A → V) {a : A} (ha : a ∈ t.writes) :
    t.run (u.run μ) a = t.run μ a := by
  apply t.local_reads _ _ _ a ha
  intro b hb
  apply u.frame
  exact not_mem_of_touches (fun hc => h hc.symm) (.inl hb)

theorem commute (h : ¬Conflict t u) (μ : A → V) : t.run (u.run μ) = u.run (t.run μ) := by
  have hsymm : ¬Conflict u t := fun hc => h hc.symm
  funext a
  by_cases ht : a ∈ t.writes
  · rw [run_run_of_writes h μ ht, u.frame _ a (not_mem_of_touches hsymm (.inr ht))]
  · rw [t.frame _ a ht]
    by_cases hu : a ∈ u.writes
    · rw [run_run_of_writes hsymm μ hu]
    · rw [u.frame _ a hu, u.frame _ a hu, t.frame _ a ht]

end Job

open Job

/-! ### One after the other -/

def runAll (l : List (Job A V)) (μ : A → V) : A → V := l.foldl (fun μ t => t.run μ) μ

@[simp] theorem runAll_nil (μ : A → V) : runAll [] μ = μ := rfl

@[simp] theorem runAll_cons (t : Job A V) (l : List (Job A V)) (μ : A → V) :
    runAll (t :: l) μ = runAll l (t.run μ) := rfl

theorem runAll_concat (t : Job A V) (l : List (Job A V)) (μ : A → V) :
    runAll (l ++ [t]) μ = t.run (runAll l μ) := by
  simp [runAll]

theorem not_before_and_after {l : List ι} (hnd : l.Nodup) {i j : ι} (hij : [i, j].Sublist l)
    (hji : [j, i].Sublist l) : False := by
  induction l with
  | nil => cases hij
  | cons k l ih =>
    obtain ⟨hk, hnd⟩ := List.nodup_cons.mp hnd
    cases hij with
    | cons _ hij =>
      cases hji with
      | cons _ hji => exact ih hnd hij hji
      | cons_cons _ hji => exact hk (hij.subset (by simp))
    | cons_cons _ hij =>
      cases hji with
      | cons _ hji => exact hk (hji.subset (by simp))
      | cons_cons _ hji => exact hk (hij.subset (by simp))

section Reorder
variable [DecidableEq ι] {f : ι → Job A V} {l l' : List ι} {i : ι}

theorem runAll_front (hi : i ∈ l)
    (hfree : ∀ j, [j, i].Sublist l → j ≠ i → ¬Conflict (f j) (f i)) (μ : A → V) :
    runAll (l.map f) μ = runAll ((i :: l.erase i).map f) μ := by
  induction l generalizing μ with
  | nil => cases hi
  | cons j l ih =>
    by_cases hji : j = i
    · rw [hji, List.erase_cons_head]
    · have hmem : i ∈ l := (List.mem_cons.mp hi).resolve_left (Ne.symm hji)
      have hhead : ¬Conflict (f j) (f i) :=
        hfree j (.cons_cons _ (List.singleton_sublist.mpr hmem)) hji
      rw [List.erase_cons_tail (by simpa using hji)]
      simp only [List.map_cons, runAll_cons] at ih ⊢
      rw [ih hmem (fun k hk => hfree k (.cons _ hk)), commute hhead]

theorem runAll_reorder (hnd : l.Nodup) (hperm : l.Perm l')
    (hord : ∀ i j, [i, j].Sublist l → Conflict (f i) (f j) → [i, j].Sublist l') (μ : A → V) :
    runAll (l.map f) μ = runAll (l'.map f) μ := by
  induction l generalizing l' μ with
  | nil =>
    rw [List.nil_perm.mp hperm]
  | cons i l ih =>
    obtain ⟨hi, hnd'⟩ := List.nodup_cons.mp hnd
    have hmem : i ∈ l' := hperm.subset (List.mem_cons_self ..)
    have hfront : ∀ j, [j, i].Sublist l' → j ≠ i → ¬Conflict (f j) (f i) := by
      intro j hji hne hc
      have hj : j ∈ i :: l := hperm.symm.subset (hji.subset (by simp))
      have hij : [i, j].Sublist (i :: l) :=
        .cons_cons _ (List.singleton_sublist.mpr ((List.mem_cons.mp hj).resolve_left hne))
      exact not_before_and_after (hperm.nodup hnd) (hord i j hij hc.symm) hji
    rw [runAll_front hmem hfront]
    simp only [List.map_cons, runAll_cons]
    apply ih hnd'
    · exact (List.cons_perm_iff_perm_erase.mp hperm).2
    · intro j k hjk hc
      have hj : j ≠ i := fun h => hi (hjk.subset (by simp [h]))
      have hk : k ≠ i := fun h => hi (hjk.subset (by simp [h]))
      have hsub := (hord j k (.cons _ hjk) hc).erase i
      rwa [List.erase_of_not_mem (by simp [hj.symm, hk.symm])] at hsub

end Reorder

/-! ### At the same time -/

/-- A job that is run in parts. `during μ p ν` says that from `μ` its progress is `p` and memory is
now `ν`; what happens to the places it does not touch is no concern of it. -/
structure Staged (A V P : Type*) extends Job A V where
  during : (A → V) → P → (A → V) → Prop
  during_frame : ∀ {μ p ν}, during μ p ν → ∀ a ∉ writes, ν a = μ a
  during_local : ∀ {μ p ν} (μ' ν' : A → V), during μ p ν → (∀ a ∈ toJob.touches, μ' a = μ a) →
    (∀ a ∈ toJob.touches, ν' a = ν a) → (∀ a ∉ toJob.touches, ν' a = μ' a) → during μ' p ν'

open Classical in
/-- Memory as the job found it: what it touches is as the finished jobs left it. -/
noncomputable def Staged.found (t : Staged A V P) (base now : A → V) : A → V :=
  t.touches.piecewise base now

section Found
variable {t : Staged A V P} {base now : A → V} {a : A}

open Classical in
theorem Staged.found_of_mem (ha : a ∈ t.touches) : t.found base now a = base a :=
  Set.piecewise_eq_of_mem _ _ _ ha

open Classical in
theorem Staged.found_of_not_mem (ha : a ∉ t.touches) : t.found base now a = now a :=
  Set.piecewise_eq_of_notMem _ _ _ ha

end Found

/-- `base` is what the jobs that have finished leave if they are run one after the other, `now` is
what memory holds, and `cur` has the jobs that are running. -/
structure Overlap (base now : A → V) (cur : C → Option (Staged A V P × P)) : Prop where
  quiet : ∀ a, (∀ c t p, cur c = some (t, p) → a ∉ t.writes) → now a = base a
  during : ∀ c t p, cur c = some (t, p) → t.during (t.found base now) p now
  apart : ∀ c d t u p q, c ≠ d → cur c = some (t, p) → cur d = some (u, q) →
    ¬Conflict t.toJob u.toJob

namespace Overlap
variable {base now now' : A → V} {cur : C → Option (Staged A V P × P)} {c d : C}
  {t u : Staged A V P} {p p' q : P}

theorem idle (base : A → V) : Overlap base base
    (fun _ : C => (none : Option (Staged A V P × P))) where
  quiet := fun _ _ => rfl
  during := fun _ _ _ hc => by cases hc
  apart := fun _ _ _ _ _ _ _ hc => by cases hc

theorem finished (h : Overlap base now cur) (hnone : ∀ c, cur c = none) : now = base := by
  funext a
  apply h.quiet
  intro c t p hc
  rw [hnone c] at hc
  cases hc

theorem read (h : Overlap base now cur) (hc : cur c = some (t, p)) {a : A} (ha : a ∈ t.touches)
    (hw : a ∉ t.writes) : now a = base a := by
  apply h.quiet
  intro d u q hd
  by_cases hdc : d = c
  · subst hdc
    rw [hc] at hd
    cases hd
    exact hw
  · exact not_mem_of_touches (h.apart d c u t q p hdc hd hc) ha

theorem during_other (h : Overlap base now cur) (hd : cur d = some (u, q)) {base' : A → V}
    (hbase : ∀ a ∈ u.touches, base' a = base a) (hnow : ∀ a ∈ u.touches, now' a = now a) :
    u.during (u.found base' now') q now' := by
  apply u.during_local _ _ (h.during d u q hd)
  · intro a ha
    rw [Staged.found_of_mem ha, Staged.found_of_mem ha, hbase a ha]
  · exact hnow
  · intro a ha
    rw [Staged.found_of_not_mem ha]

variable [DecidableEq C]

theorem begin (h : Overlap base now cur) (hc : cur c = none)
    (hfree : ∀ d u q, cur d = some (u, q) → ¬Conflict t.toJob u.toJob)
    (hstart : ∀ μ, t.during μ p μ) : Overlap base now (Function.update cur c (some (t, p))) where
  quiet := by
    intro a ha
    apply h.quiet
    intro d u q hd
    apply ha d u q
    rw [Function.update_of_ne (fun hdc => by rw [hdc, hc] at hd; cases hd), hd]
  during := by
    intro d u q hd
    by_cases hdc : d = c
    · subst hdc
      rw [Function.update_self, Option.some.injEq, Prod.mk.injEq] at hd
      obtain ⟨rfl, rfl⟩ := hd
      have hfound : t.found base now = now := by
        funext a
        by_cases ha : a ∈ t.touches
        · rw [Staged.found_of_mem ha]
          exact (h.quiet a fun e v r he => not_mem_of_touches
            (fun hx => hfree e v r he hx.symm) ha).symm
        · rw [Staged.found_of_not_mem ha]
      rw [hfound]
      exact hstart now
    · rw [Function.update_of_ne hdc] at hd
      exact h.during d u q hd
  apart := by
    intro d e u v q r hde hd he
    by_cases hdc : d = c
    · subst hdc
      rw [Function.update_self, Option.some.injEq, Prod.mk.injEq] at hd
      obtain ⟨rfl, rfl⟩ := hd
      rw [Function.update_of_ne (Ne.symm hde)] at he
      exact hfree e v r he
    · rw [Function.update_of_ne hdc] at hd
      by_cases hec : e = c
      · subst hec
        rw [Function.update_self, Option.some.injEq, Prod.mk.injEq] at he
        obtain ⟨rfl, rfl⟩ := he
        exact fun hx => hfree d u q hd hx.symm
      · rw [Function.update_of_ne hec] at he
        exact h.apart d e u v q r hde hd he

theorem advance (h : Overlap base now cur) (hc : cur c = some (t, p))
    (hpart : t.during (t.found base now) p' now') :
    Overlap base now' (Function.update cur c (some (t, p'))) := by
  -- The job changes memory where it writes.
  have hsame : ∀ a ∉ t.writes, now' a = now a := fun a ha =>
    (t.during_frame hpart a ha).trans (t.during_frame (h.during c t p hc) a ha).symm
  have hjob : ∀ d u q, Function.update cur c (some (t, p')) d = some (u, q) →
      d = c ∧ u = t ∧ q = p' ∨ d ≠ c ∧ cur d = some (u, q) := by
    intro d u q hd
    by_cases hdc : d = c
    · subst hdc
      rw [Function.update_self, Option.some.injEq, Prod.mk.injEq] at hd
      exact .inl ⟨rfl, hd.1.symm, hd.2.symm⟩
    · rw [Function.update_of_ne hdc] at hd
      exact .inr ⟨hdc, hd⟩
  have hold : ∀ d u q, Function.update cur c (some (t, p')) d = some (u, q) →
      ∃ q', cur d = some (u, q') := by
    intro d u q hd
    obtain ⟨rfl, rfl, -⟩ | ⟨-, hd⟩ := hjob d u q hd
    · exact ⟨p, hc⟩
    · exact ⟨q, hd⟩
  constructor
  · intro a ha
    have hat : a ∉ t.writes := ha c t p' (Function.update_self ..)
    rw [hsame a hat]
    apply h.quiet
    intro d u q hd
    by_cases hdc : d = c
    · subst hdc
      rw [hc] at hd
      cases hd
      exact hat
    · exact ha d u q (by rw [Function.update_of_ne hdc, hd])
  · intro d u q hd
    obtain ⟨rfl, rfl, rfl⟩ | ⟨hdc, hd⟩ := hjob d u q hd
    · have hfound : u.found base now' = u.found base now := by
        funext a
        by_cases ha : a ∈ u.touches
        · rw [Staged.found_of_mem ha, Staged.found_of_mem ha]
        · rw [Staged.found_of_not_mem ha, Staged.found_of_not_mem ha,
            hsame a fun hw => ha (.inr hw)]
      rw [hfound]
      exact hpart
    · apply h.during_other hd fun _ _ => rfl
      intro a ha
      exact hsame a (not_mem_of_touches (h.apart c d t u p q (Ne.symm hdc) hc hd) ha)
  · intro d e u v q r hde hd he
    obtain ⟨q', hd⟩ := hold d u q hd
    obtain ⟨r', he⟩ := hold e v r he
    exact h.apart d e u v q' r' hde hd he

theorem finish (h : Overlap base now cur) (hc : cur c = some (t, p)) :
    Overlap (t.run base) (t.run (t.found base now)) (Function.update cur c none) := by
  have hsame : ∀ a ∉ t.writes, t.run (t.found base now) a = now a := by
    intro a ha
    rw [t.frame _ a ha]
    by_cases htouch : a ∈ t.touches
    · rw [Staged.found_of_mem htouch, h.read hc htouch ha]
    · rw [Staged.found_of_not_mem htouch]
  have hjob : ∀ d u q, Function.update cur c none d = some (u, q) →
      d ≠ c ∧ cur d = some (u, q) := by
    intro d u q hd
    by_cases hdc : d = c
    · subst hdc
      rw [Function.update_self] at hd
      cases hd
    · rw [Function.update_of_ne hdc] at hd
      exact ⟨hdc, hd⟩
  constructor
  · intro a ha
    by_cases hat : a ∈ t.writes
    · apply t.local_reads _ _ _ a hat
      intro b hb
      exact Staged.found_of_mem (.inl hb)
    · rw [hsame a hat, t.frame _ a hat]
      apply h.quiet
      intro d u q hd
      by_cases hdc : d = c
      · subst hdc
        rw [hc] at hd
        cases hd
        exact hat
      · exact ha d u q (by rw [Function.update_of_ne hdc, hd])
  · intro d u q hd
    obtain ⟨hdc, hd⟩ := hjob d u q hd
    have hout : ∀ a ∈ u.touches, a ∉ t.writes := fun a ha =>
      not_mem_of_touches (h.apart c d t u p q (Ne.symm hdc) hc hd) ha
    apply h.during_other hd
    · exact fun a ha => t.frame _ a (hout a ha)
    · exact fun a ha => hsame a (hout a ha)
  · intro d e u v q r hde hd he
    exact h.apart d e u v q r hde (hjob d u q hd).2 (hjob e v r he).2

omit [DecidableEq C] in
theorem between {s : Job A V} (h : Overlap base now cur)
    (hfree : ∀ d u q, cur d = some (u, q) → ¬Conflict s u.toJob) :
    Overlap (s.run base) (s.run now) cur where
  quiet := by
    intro a ha
    by_cases has : a ∈ s.writes
    · apply s.local_reads _ _ _ a has
      intro b hb
      apply h.quiet
      intro d u q hd
      exact not_mem_of_touches (fun hx => hfree d u q hd hx.symm) (.inl hb)
    · rw [s.frame _ a has, s.frame _ a has, h.quiet a ha]
  during := by
    intro d u q hd
    have hout : ∀ a ∈ u.touches, a ∉ s.writes := fun a ha =>
      not_mem_of_touches (hfree d u q hd) ha
    apply h.during_other hd
    · exact fun a ha => s.frame _ a (hout a ha)
    · exact fun a ha => s.frame _ a (hout a ha)
  apart := h.apart

end Overlap

end SoftGpu.Footprint
