import SoftGpu.Driver
import SoftGpu.Lru
import Mathlib.Data.Finset.Card
import Mathlib.Data.Finset.Range

/-!
# The fault streams of a channel

A command that walks several operands faults on their pages in turn. Each of the four
streams of a channel remembers where one walk goes on, and a fault that no stream
expects takes over the one used least recently. So the walk of a fault is recognised
exactly if it is among the four that faulted last.

`recent` and `expect` are history: the last four walks, latest first, and where each of
them goes on. The stamps come from one counter of 64 bits for all channels.
-/

namespace SoftGpu.FaultStreams

open Machine
open Driver (FaultStream matchStream lruStream)

variable {α : Type*} [DecidableEq α]

structure State (α : Type*) where
  streams : List FaultStream
  clock : ℕ
  recent : Lru α 4
  expect : α → ℕ

def start (clock : ℕ) : State α := ⟨List.replicate 4 ⟨0, 0⟩, clock, .empty, fun _ => 0⟩

/-- A fault of a walk on the page at `va`, after which the walk goes on at `last`, or a fault on
another channel. -/
inductive Action (α : Type*)
  | fault (w : α) (va last : ℕ)
  | other

def tick (clock : ℕ) : ℕ := (clock + 1) % 2 ^ 64

def step (x : State α) : Action α → Option (State α)
  | .fault w va last =>
    -- A walk that is remembered goes on where it stopped.
    if w ∈ x.recent ∧ x.expect w ≠ va then none
    else some {
      streams := x.streams.set (matchStream x.streams va).1 ⟨last, tick x.clock⟩
      clock := tick x.clock
      recent := x.recent.access w
      expect := Function.update x.expect w last }
  | .other => some { x with clock := tick x.clock }

/-- No other walk of the last four expects the page, and the counter does not start again. -/
def apart (x : State α) : Action α → Prop
  | .fault w va _ => x.clock + 1 < 2 ^ 64 ∧ ∀ u ∈ x.recent.pages, u ≠ w → x.expect u ≠ va
  | .other => x.clock + 1 < 2 ^ 64

def Action.walk? : Action α → Option α
  | .fault w _ _ => some w
  | .other => none

def among (W : Finset α) (x : State α) (a : Action α) : Prop := apart x a ∧ ∀ w ∈ a.walk?, w ∈ W

instance (x : State α) (a : Action α) : Decidable (apart x a) :=
  match a with
  | .fault w va _ => inferInstanceAs (Decidable (x.clock + 1 < 2 ^ 64 ∧
      ∀ u ∈ x.recent.pages, u ≠ w → x.expect u ≠ va))
  | .other => inferInstanceAs (Decidable (x.clock + 1 < 2 ^ 64))

instance (W : Finset α) (x : State α) (a : Action α) : Decidable (among W x a) :=
  inferInstanceAs (Decidable (apart x a ∧ ∀ w ∈ a.walk?, w ∈ W))

/-! ### The driver -/

section Driver
variable {d d' : Driver.State} {c : Driver.Chan} {va : ℕ} {env : Env}

/-- The service of a fault that migrates its page leaves the streams of the channel as `step` does,
and those of other channels alone. -/
theorem service_streams (hpop : d.service = .popped c va)
    (hmoved : (d.mem.migrateLocked va env).1 = .ok true)
    (hdemand : Driver.faultStep d (.demand env) = some d') :
    (∀ c' ≠ c, d'.streams c' = d.streams c') ∧ d'.streamClock = d.streamClock + 1 ∧
    ((d'.service = .idle ∧ d'.streams c = (d.streams c).set (matchStream (d.streams c) va).1
        ⟨va + pageSize, d.streamClock + 1⟩) ∨
      ∀ envs d'', Driver.faultStep d' (.prefetch envs) = some d'' → d''.service = .idle ∧
        ∃ last, d''.streams c = (d.streams c).set (matchStream (d.streams c) va).1
          ⟨last, d.streamClock + 1⟩) := by
  cases hmig : d.mem.migrateLocked va env with
  | mk r m =>
    rw [hmig] at hmoved
    simp only at hmoved
    rw [hmoved] at hmig
    simp only [Driver.faultStep, hpop, hmig] at hdemand
    cases hdemand
    refine ⟨fun c' hne => Function.update_of_ne hne _ _, rfl, ?_⟩
    by_cases hahead : ((matchStream (d.streams c) va).2 && decide (m.prefetchPages ≠ 0)) = true
    · right
      intro envs d'' hs
      simp only [Driver.faultStep, hahead, if_true] at hs
      cases hs
      refine ⟨rfl, (m.prefetchLocked (va + pageSize) envs).1, ?_⟩
      simp only [Function.update_self]
      apply List.ext_getElem?
      intro j
      simp only [List.getElem?_modify, List.getElem?_set]
      by_cases hj : (matchStream (d.streams c) va).1 = j
      · simp [hj]
      · simp [hj]
    · left
      simp only [hahead, Bool.false_eq_true, if_false, Function.update_self, and_self]

end Driver

/-! ### The table -/

def stream (set : List FaultStream) (i : ℕ) : FaultStream := set.getD i ⟨0, 0⟩

theorem stream_set {set : List FaultStream} {i j : ℕ} {f : FaultStream} (hi : i < set.length) :
    stream (set.set i f) j = if j = i then f else stream set j := by
  simp only [stream, List.getD_eq_getElem?_getD, List.getElem?_set]
  by_cases hij : i = j
  · simp [hij, hij ▸ hi]
  · simp [hij, Ne.symm hij]

theorem lruStream_spec {set : List FaultStream} (hne : 0 < set.length) :
    lruStream set < set.length ∧
      ∀ i < set.length, (stream set (lruStream set)).used ≤ (stream set i).used := by
  have hfold : ∀ n ≤ set.length, 0 < set.length →
      (List.range n).foldl (fun l i => if (stream set i).used <
        (stream set l).used then i else l) 0 <
        set.length ∧
      ∀ i < n, (stream set ((List.range n).foldl
        (fun l i => if (stream set i).used < (stream set l).used then i else l) 0)).used ≤
          (stream set i).used := by
    intro n
    induction n with
    | zero => exact fun _ hpos => ⟨hpos, fun i hi => absurd hi (Nat.not_lt_zero i)⟩
    | succ n ih =>
      intro hn hpos
      obtain ⟨hlt, hle⟩ := ih (Nat.le_of_succ_le hn) hpos
      rw [List.range_succ, List.foldl_append, List.foldl_cons, List.foldl_nil]
      split_ifs with hless
      · refine ⟨hn, fun i hi => ?_⟩
        obtain hi | rfl := Nat.lt_succ_iff_lt_or_eq.mp hi
        · exact hless.le.trans (hle i hi)
        · exact Nat.le_refl _
      · refine ⟨hlt, fun i hi => ?_⟩
        obtain hi | rfl := Nat.lt_succ_iff_lt_or_eq.mp hi
        · exact hle i hi
        · exact Nat.le_of_not_lt hless
  exact hfold set.length (Nat.le_refl _) hne

theorem matchStream_hit {set : List FaultStream} {va : ℕ} (h : (matchStream set va).2 = true) :
    (matchStream set va).1 < set.length ∧ (stream set (matchStream set va).1).used ≠ 0 ∧
      (stream set (matchStream set va).1).next = va := by
  cases hfind : set.findIdx? (fun f => f.used ≠ 0 && f.next = va) with
  | none => simp only [matchStream, hfind, Bool.false_eq_true] at h
  | some i =>
    obtain ⟨hlt, hp, -⟩ := List.findIdx?_eq_some_iff_getElem.mp hfind
    simp only [Bool.and_eq_true, decide_eq_true_eq] at hp
    simp only [matchStream, hfind, stream, List.getD_eq_getElem?_getD, List.getElem?_eq_getElem hlt,
      Option.getD_some]
    exact ⟨hlt, hp.1, hp.2⟩

theorem matchStream_miss {set : List FaultStream} {va : ℕ} (h : (matchStream set va).2 = false) :
    (matchStream set va).1 = lruStream set ∧
      ∀ i < set.length, (stream set i).used ≠ 0 → (stream set i).next ≠ va := by
  cases hfind : set.findIdx? (fun f => f.used ≠ 0 && f.next = va) with
  | some i => simp only [matchStream, hfind, Bool.true_eq_false] at h
  | none =>
    simp only [matchStream, hfind, true_and]
    intro i hi hused hnext
    have hmem := List.findIdx?_eq_none_iff.mp hfind set[i] (List.getElem_mem hi)
    simp only [stream, List.getD_eq_getElem?_getD, List.getElem?_eq_getElem hi, Option.getD_some]
      at hused hnext
    simp [hused, hnext] at hmem

/-! ### The last four walks -/

structure Tracks (x : State α) (place : α → ℕ) : Prop where
  length : x.streams.length = 4
  place_lt : ∀ w ∈ x.recent, place w < 4
  inj : ∀ u ∈ x.recent, ∀ w ∈ x.recent, place u = place w → u = w
  next : ∀ w ∈ x.recent, (stream x.streams (place w)).next = x.expect w
  used : ∀ w ∈ x.recent, 0 < (stream x.streams (place w)).used
  order : x.recent.pages.Pairwise fun w u =>
    (stream x.streams (place u)).used < (stream x.streams (place w)).used
  empty : ∀ i < 4, (∀ w ∈ x.recent, place w ≠ i) → (stream x.streams i).used = 0
  past : ∀ i < 4, (stream x.streams i).used ≤ x.clock

omit [DecidableEq α] in
theorem start_tracks (clock : ℕ) (place : α → ℕ) : Tracks (start clock) place := by
  have hzero : ∀ i, stream (List.replicate 4 (⟨0, 0⟩ : FaultStream)) i = ⟨0, 0⟩ := by
    intro i
    simp only [stream, List.getD_eq_getElem?_getD, List.getElem?_replicate]
    split_ifs <;> rfl
  refine ⟨rfl, ?_, ?_, ?_, ?_, .nil, fun i _ _ => ?_, fun i _ => ?_⟩
  · exact fun w hw => absurd hw List.not_mem_nil
  · exact fun w hw => absurd hw List.not_mem_nil
  · exact fun w hw => absurd hw List.not_mem_nil
  · exact fun w hw => absurd hw List.not_mem_nil
  · rw [start, hzero]
  · rw [start, hzero]
    exact Nat.zero_le clock

section Use
variable {x : State α} {place : α → ℕ} {w victim : α} {i va last : ℕ}

theorem Tracks.use (h : Tracks x place) (hacc : Lru.Access x.recent w victim) (hi : i < 4)
    (hhit : w ∈ x.recent → w = victim) (hvictim : victim ∈ x.recent → place victim = i)
    (hothers : ∀ u ∈ x.recent, u ≠ victim → place u ≠ i)
    (hclock : x.clock + 1 < 2 ^ 64) :
    Tracks (⟨x.streams.set i ⟨last, tick x.clock⟩, tick x.clock, x.recent.access w,
      Function.update x.expect w last⟩ : State α) (Function.update place w i) := by
  have htick : tick x.clock = x.clock + 1 := Nat.mod_eq_of_lt hclock
  have hlen : i < x.streams.length := by rw [h.length]; exact hi
  -- What is left of the others.
  have hold : ∀ u ∈ x.recent.access w, u ≠ w → u ∈ x.recent ∧ place u ≠ i := by
    intro u hu hne
    obtain ⟨hmem, hv⟩ := ((hacc.mem u).mp hu).resolve_left hne
    exact ⟨hmem, hothers u hmem hv⟩
  refine ⟨by simpa using h.length, fun u hu => ?_, fun u hu v hv heq => ?_, fun u hu => ?_,
    fun u hu => ?_, ?_, fun j hj hfree => ?_, fun j hj => ?_⟩ <;> dsimp only at *
  · by_cases hne : u = w
    · rw [hne, Function.update_self]
      exact hi
    · rw [Function.update_of_ne hne]
      exact h.place_lt u (hold u hu hne).1
  · by_cases hne : u = w
    · by_cases hnv : v = w
      · rw [hne, hnv]
      · rw [hne, Function.update_self, Function.update_of_ne hnv] at heq
        exact absurd heq.symm (hold v hv hnv).2
    · by_cases hnv : v = w
      · rw [hnv, Function.update_self, Function.update_of_ne hne] at heq
        exact absurd heq (hold u hu hne).2
      · rw [Function.update_of_ne hne, Function.update_of_ne hnv] at heq
        exact h.inj u (hold u hu hne).1 v (hold v hv hnv).1 heq
  · by_cases hne : u = w
    · rw [hne, Function.update_self, Function.update_self, stream_set hlen, if_pos rfl]
    · rw [Function.update_of_ne hne, Function.update_of_ne hne, stream_set hlen,
        if_neg (hold u hu hne).2]
      exact h.next u (hold u hu hne).1
  · by_cases hne : u = w
    · rw [hne, Function.update_self, stream_set hlen, if_pos rfl, htick]
      exact Nat.succ_pos _
    · rw [Function.update_of_ne hne, stream_set hlen, if_neg (hold u hu hne).2]
      exact h.used u (hold u hu hne).1
  · have horder : (x.recent.access w).pages.Pairwise fun v u =>
        v ∈ x.recent.access w → u ∈ x.recent.access w →
          (stream (x.streams.set i ⟨last, tick x.clock⟩) (Function.update place w i u)).used <
            (stream (x.streams.set i ⟨last, tick x.clock⟩) (Function.update place w i v)).used := by
      refine hacc.pairwise h.order (fun u hu hne _ hmem => ?_) fun v _ u _ hnv hne hlt hv hu => ?_
      · rw [Function.update_self, Function.update_of_ne hne, stream_set hlen, stream_set hlen,
          if_neg (hold u hmem hne).2, if_pos rfl, htick]
        exact Nat.lt_succ_of_le (h.past _ (h.place_lt u hu))
      · rw [Function.update_of_ne hne, Function.update_of_ne hnv, stream_set hlen, stream_set hlen,
          if_neg (hold u hu hne).2, if_neg (hold v hv hnv).2]
        exact hlt
    exact horder.imp_of_mem fun {v u} hv hu hlt => hlt hv hu
  · have hji : j ≠ i := by
      intro hji
      have hw : w ∈ x.recent.access w := (hacc.mem w).mpr (.inl rfl)
      exact hfree w hw (by rw [Function.update_self, hji])
    rw [stream_set hlen, if_neg hji]
    refine h.empty j hj fun u hu hplace => ?_
    by_cases hv : u = victim
    · exact hji (by rw [← hplace, hv, hvictim (hv ▸ hu)])
    · by_cases hne : u = w
      · exact hv (hne.trans (hhit (hne ▸ hu)))
      · have hmem : u ∈ x.recent.access w := (hacc.mem u).mpr (.inr ⟨hu, hv⟩)
        exact hfree u hmem (by rw [Function.update_of_ne hne, hplace])
  · rw [stream_set hlen, htick]
    split_ifs
    · exact Nat.le_refl _
    · exact (h.past j hj).trans (Nat.le_succ _)

theorem Tracks.exists_empty (h : Tracks x place) (hlen : x.recent.pages.length < 4) :
    ∃ j < 4, (stream x.streams j).used = 0 := by
  have hcard : (x.recent.pages.toFinset.image place).card < (Finset.range 4).card := by
    refine Finset.card_image_le.trans_lt ?_
    rw [List.toFinset_card_of_nodup x.recent.nodup, Finset.card_range]
    exact hlen
  obtain ⟨j, hj, hnot⟩ := Finset.exists_mem_notMem_of_card_lt_card hcard
  refine ⟨j, Finset.mem_range.mp hj, h.empty j (Finset.mem_range.mp hj) fun w hw hplace => hnot ?_⟩
  exact Finset.mem_image.mpr ⟨w, List.mem_toFinset.mpr hw, hplace⟩

theorem Tracks.exists_place (h : Tracks x place) (hlen : x.recent.pages.length = 4) (hi : i < 4) :
    ∃ u ∈ x.recent, place u = i := by
  have hinj : Set.InjOn place x.recent.pages.toFinset := by
    intro u hu v hv heq
    exact h.inj u (List.mem_toFinset.mp hu) v (List.mem_toFinset.mp hv) heq
  have hsub : x.recent.pages.toFinset.image place ⊆ Finset.range 4 := by
    intro j hj
    obtain ⟨u, hu, rfl⟩ := Finset.mem_image.mp hj
    exact Finset.mem_range.mpr (h.place_lt u (List.mem_toFinset.mp hu))
  have hcard : (Finset.range 4).card ≤ (x.recent.pages.toFinset.image place).card := by
    rw [Finset.card_image_of_injOn hinj, List.toFinset_card_of_nodup x.recent.nodup, hlen,
      Finset.card_range]
  have hall := Finset.eq_of_subset_of_card_le hsub hcard
  obtain ⟨u, hu, hplace⟩ := Finset.mem_image.mp (hall ▸ Finset.mem_range.mpr hi)
  exact ⟨u, List.mem_toFinset.mp hu, hplace⟩

theorem Tracks.sequential_iff (h : Tracks x place) (hgoes : w ∈ x.recent → x.expect w = va)
    (hapart : ∀ u ∈ x.recent.pages, u ≠ w → x.expect u ≠ va) :
    (matchStream x.streams va).2 = true ↔ w ∈ x.recent := by
  constructor
  · intro hseq
    obtain ⟨hlt, hused, hnext⟩ := matchStream_hit hseq
    rw [h.length] at hlt
    by_contra hw
    refine hused (h.empty _ hlt fun u hu hplace => ?_)
    rw [← hplace, h.next u hu] at hnext
    exact hapart u hu (fun heq => hw (heq ▸ hu)) hnext
  · intro hw
    by_contra hseq
    rw [Bool.not_eq_true] at hseq
    have hlt : place w < x.streams.length := by rw [h.length]; exact h.place_lt w hw
    refine (matchStream_miss hseq).2 (place w) hlt (h.used w hw).ne' ?_
    rw [h.next w hw, hgoes hw]

theorem Tracks.fault (h : Tracks x place) (hgoes : w ∈ x.recent → x.expect w = va)
    (hapart : ∀ u ∈ x.recent.pages, u ≠ w → x.expect u ≠ va) (hclock : x.clock + 1 < 2 ^ 64) :
    ∃ place', Tracks (⟨x.streams.set (matchStream x.streams va).1 ⟨last, tick x.clock⟩,
      tick x.clock, x.recent.access w, Function.update x.expect w last⟩ : State α) place' := by
  have hseq := h.sequential_iff hgoes hapart
  by_cases hw : w ∈ x.recent
  · obtain ⟨hlt, hused, hnext⟩ := matchStream_hit (hseq.mpr hw)
    rw [h.length] at hlt
    -- The stream that matches is the one of this walk.
    have hplace : place w = (matchStream x.streams va).1 := by
      by_contra hne
      refine hused (h.empty _ hlt fun u hu hplace => ?_)
      by_cases huw : u = w
      · exact hne (huw ▸ hplace)
      · rw [← hplace, h.next u hu] at hnext
        exact hapart u hu huw hnext
    refine ⟨_, h.use (Lru.access_hit hw) hlt (fun _ => rfl) (fun _ => hplace) ?_ hclock⟩
    intro u hu hne heq
    exact hne (h.inj u hu w hw (heq.trans hplace.symm))
  · have hmiss : (matchStream x.streams va).2 = false := by
      rw [← Bool.not_eq_true, hseq]
      exact hw
    rw [(matchStream_miss hmiss).1]
    have hne : 0 < x.streams.length := by rw [h.length]; decide
    obtain ⟨hlt, hleast⟩ := lruStream_spec hne
    rw [h.length] at hlt hleast
    by_cases hroom : x.recent.pages.length < 4
    · -- An empty stream is used least recently.
      obtain ⟨j, hj, hzero⟩ := h.exists_empty hroom
      have hused : (stream x.streams (lruStream x.streams)).used = 0 :=
        Nat.le_zero.mp (hzero ▸ hleast j hj)
      refine ⟨_, h.use (Lru.access_room hw (Nat.le_of_lt_succ hroom) hw) hlt
        (fun hmem => absurd hmem hw)
        (fun hmem => absurd hmem hw) (fun u hu _ hplace => ?_) hclock⟩
      exact (h.used u hu).ne' (hplace ▸ hused)
    · have hfull : x.recent.pages.length = 4 := Nat.le_antisymm x.recent.length_le
        (Nat.not_lt.mp hroom)
      obtain ⟨first, v, hpages⟩ : ∃ first v, x.recent.pages = first ++ [v] := by
        obtain hnil | hex := List.eq_nil_or_concat' x.recent.pages
        · rw [hnil] at hfull
          cases hfull
        · exact hex
      have hfirst : first.length = 3 := by
        rw [hpages, List.length_append, List.length_singleton] at hfull
        omega
      have hv : v ∈ x.recent := by
        rw [Lru.mem_def, hpages]
        simp
      -- The last walk has the least stamp.
      have hplace : place v = lruStream x.streams := by
        obtain ⟨u, hu, hplace⟩ := h.exists_place hfull hlt
        rw [Lru.mem_def, hpages, List.mem_append, List.mem_singleton] at hu
        obtain hu | rfl := hu
        · have horder := h.order
          rw [hpages, List.pairwise_append] at horder
          have hless := horder.2.2 u hu v (List.mem_singleton_self v)
          have hle := hleast (place v) (h.place_lt v hv)
          rw [← hplace] at hle
          exact absurd hless (Nat.not_lt.mpr hle)
        · exact hplace
      refine ⟨_, h.use (Lru.access_full hw hpages hfirst) hlt (fun hmem => absurd hmem hw)
        (fun _ => hplace) (fun u hu hne heq => ?_) hclock⟩
      exact hne (h.inj u hu v hv (heq.trans hplace.symm))

end Use

/-! ### Runs -/

section Runs
variable {x y z : State α} {w : α} {va last clock : ℕ} {W : Finset α}

theorem step_fault (hs : step x (.fault w va last) = some y) :
    (w ∈ x.recent → x.expect w = va) ∧
      y = ⟨x.streams.set (matchStream x.streams va).1 ⟨last, tick x.clock⟩, tick x.clock,
        x.recent.access w, Function.update x.expect w last⟩ := by
  simp only [step] at hs
  split_ifs at hs with hno
  cases hs
  refine ⟨fun hw => ?_, rfl⟩
  by_contra hne
  exact hno ⟨hw, hne⟩

omit [DecidableEq α] in
theorem Tracks.other {place : α → ℕ} (h : Tracks x place) (hclock : x.clock + 1 < 2 ^ 64) :
    Tracks { x with clock := tick x.clock } place := by
  have htick : tick x.clock = x.clock + 1 := Nat.mod_eq_of_lt hclock
  refine { h with past := fun i hi => ?_ }
  rw [htick]
  exact (h.past i hi).trans (Nat.le_succ _)

theorem reach_tracks (h : Reach step apart (start clock) x) : ∃ place, Tracks x place := by
  refine h.invariant (P := fun x => ∃ place, Tracks x place) ⟨fun _ => 0, start_tracks clock _⟩ ?_
  intro x a y hx hok hs
  obtain ⟨place, hx⟩ := hx
  cases a with
  | fault w va last =>
    obtain ⟨hgoes, rfl⟩ := step_fault hs
    exact hx.fault hgoes hok.2 hok.1
  | other =>
    cases hs
    exact ⟨place, hx.other hok⟩

theorem among_remembers (hW : W.card ≤ 4) (hw : w ∈ W) (hx : Lru.Recent x.recent W w)
    (h : Reach step (among W) x z) : Lru.Recent z.recent W w := by
  refine h.invariant (P := fun z => Lru.Recent z.recent W w) hx ?_
  intro y a y' hy hok hs
  cases a with
  | fault u va last =>
    obtain ⟨-, rfl⟩ := step_fault hs
    exact hy.access hW hw (hok.2 u rfl)
  | other =>
    cases hs
    exact hy

end Runs

/-- Whatever pages their services prefetch: while the faults on a channel keep `apart` (no fault is
on a page that another one of the last four walks expects), a fault is taken for a sequential one
exactly if its walk is among the last four. As long as at most four walks fault, each fault of a
walk after its first is. -/
theorem walks_recognised :
    (∀ (clock : ℕ) (x y : State α) (w : α) (va last : ℕ), Reach step apart (start clock) x →
      apart x (.fault w va last) → step x (.fault w va last) = some y →
      ((matchStream x.streams va).2 = true ↔ w ∈ x.recent)) ∧
    ∀ (W : Finset α) (clock : ℕ) (x x' y y' : State α) (w : α) (va last va' last' : ℕ), W.card ≤ 4 →
      Reach step (among W) (start clock) x → among W x (.fault w va last) →
      step x (.fault w va last) = some x' → Reach step (among W) x' y →
      among W y (.fault w va' last') → step y (.fault w va' last') = some y' →
      (matchStream y.streams va').2 = true := by
  have hfirst : ∀ (clock : ℕ) (x y : State α) (w : α) (va last : ℕ),
      Reach step apart (start clock) x → apart x (.fault w va last) →
      step x (.fault w va last) = some y →
      ((matchStream x.streams va).2 = true ↔ w ∈ x.recent) := by
    intro clock x y w va last hx hok hs
    obtain ⟨place, htracks⟩ := reach_tracks hx
    exact htracks.sequential_iff (step_fault hs).1 hok.2
  refine ⟨hfirst, ?_⟩
  intro W clock x x' y y' w va last va' last' hW hx hok hs hy hok' hs'
  have hx' : Reach step (among W) (start clock) x' := .tail hx hok hs
  have hw : Lru.Recent x'.recent W w := by
    obtain ⟨-, rfl⟩ := step_fault hs
    exact Lru.recent_access x.recent W w
  have happart : Reach step apart (start clock) y := (hx'.trans hy).mono fun _ _ h => h.1
  exact (hfirst clock y y' w va' last' happart hok'.1 hs').mpr
    (among_remembers hW (hok.2 w rfl) hw hy).mem

/-- A copy that faults on a page of its destination, of its source and again of its destination. -/
theorem walks_recognised_copy : ∃ x y : State Bool,
    Reach step (among {false, true}) (start 0) x ∧ step x (.fault true 8192 12288) = some y ∧
      (matchStream x.streams 8192).2 = true := by
  have hfirst : Reach step (among {false, true}) (start (α := Bool) 0) (start 0) := .refl
  have hok : among {false, true} (start (α := Bool) 0) (.fault true 4096 8192) := by decide
  obtain ⟨x, hx⟩ : ∃ x, step (start (α := Bool) 0) (.fault true 4096 8192) = some x := ⟨_, rfl⟩
  obtain ⟨y, hy⟩ : ∃ y, exec (when (among {false, true}) step) x
    [.fault false 65536 69632] = some y := by
    cases hx
    exact ⟨_, rfl⟩
  obtain ⟨y', hy'⟩ : ∃ y', step y (.fault true 8192 12288) = some y' := by
    cases hx
    cases hy
    exact ⟨_, rfl⟩
  have hok' : among {false, true} y (.fault true 8192 12288) := by
    cases hx
    cases hy
    decide
  have hreach : Reach step (among {false, true}) x y := .of_exec_when .refl hy
  exact ⟨y, y', (Reach.tail hfirst hok hx).trans hreach, hy',
    walks_recognised.2 {false, true} 0 (start 0) x y y' true 4096 8192 8192 12288
      (by decide) hfirst hok hx
      hreach hok' hy'⟩

end SoftGpu.FaultStreams
