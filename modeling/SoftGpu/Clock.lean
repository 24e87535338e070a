import Mathlib.Algebra.Order.BigOperators.Group.Finset
import Mathlib.Data.List.Nodup
import Mathlib.Data.Prod.Lex

/-!
# CLOCK replacement under retries

Pages wait in a queue of fixed capacity, each with a reference bit. The hand looks at
the front: a page with its bit set loses the bit and goes to the back, one without it is
the victim. A page that comes in goes to the back with its bit set.

One client needs one or two pages at a time. When a page is missing it stops until the
page has been brought in and tries again, and meanwhile some pages after the missing one
may be brought in as well. It can lose a page that it has waited for. The client still
gets on, provided the two pages and what is brought in after them fit into the queue
together (`wellFounded`).
-/

namespace SoftGpu.Clock

variable {α : Type*} [DecidableEq α]

structure Queue (α : Type*) where
  pages : List α
  ref : α → Bool

namespace Queue

def push (q : Queue α) (x : α) : Queue α := ⟨q.pages ++ [x], Function.update q.ref x true⟩

def life (cap : ℕ) (q : Queue α) (x : α) : ℕ :=
  q.pages.idxOf x + 1 + if q.ref x then cap else 0

end Queue

inductive Sweep : Queue α → α → Queue α → ℕ → Prop
  | take {x : α} {xs : List α} {ref : α → Bool} : ref x = false →
      Sweep ⟨x :: xs, ref⟩ x ⟨xs, ref⟩ 1
  | pass {x y : α} {xs : List α} {ref : α → Bool} {q : Queue α} {n : ℕ} : ref x = true →
      Sweep ⟨xs ++ [x], Function.update ref x false⟩ y q n → Sweep ⟨x :: xs, ref⟩ y q (n + 1)

namespace Queue
variable {cap : ℕ} {q : Queue α} {x y : α} {xs : List α} {ref : α → Bool}

theorem life_of_ref_le {q' : Queue α} (h : q'.pages = q.pages) :
    q'.life cap x ≤ q.life cap x + cap := by
  simp only [life, h]
  split_ifs <;> omega

theorem life_push_of_mem (h : x ∈ q.pages) (hne : x ≠ y) :
    (q.push y).life cap x = q.life cap x := by
  simp only [life, push, List.idxOf_append_of_mem h, Function.update_of_ne hne]

theorem life_push_self (h : y ∉ q.pages) : (q.push y).life cap y = q.pages.length + 1 + cap := by
  simp only [life, push, List.idxOf_append_of_notMem h, Function.update_self, List.idxOf_cons_self,
    Nat.add_zero, if_pos]

theorem life_pass (hnd : (x :: xs).Nodup) (hcap : (x :: xs).length = cap) (hx : ref x = true)
    (hy : y ∈ x :: xs) :
    life cap ⟨x :: xs, ref⟩ y = life cap ⟨xs ++ [x], Function.update ref x false⟩ y + 1 := by
  have hnot : x ∉ xs := (List.nodup_cons.mp hnd).1
  rw [List.length_cons] at hcap
  by_cases hyx : y = x
  · subst hyx
    simp only [life, List.idxOf_cons_self, hx, if_pos, Function.update_self,
      List.idxOf_append_of_notMem hnot, Bool.false_eq_true, if_false]
    omega
  · have hmem : y ∈ xs := (List.mem_cons.mp hy).resolve_left hyx
    simp only [life, List.idxOf_cons_ne xs (Ne.symm hyx), Function.update_of_ne hyx,
      List.idxOf_append_of_mem hmem]
    omega

end Queue

theorem Sweep.spec {cap n : ℕ} {q q' : Queue α} {y : α} (h : Sweep q y q' n)
    (hnd : q.pages.Nodup) (hcap : q.pages.length = cap) :
    q.pages.Perm (y :: q'.pages) ∧ q.life cap y = n ∧ 0 < n ∧
      ∀ x ∈ q'.pages, q.life cap x = q'.life cap x + n := by
  induction h with
  | @take x xs ref hx =>
    refine ⟨.refl _, by simp [Queue.life, hx], Nat.one_pos, fun z hz => ?_⟩
    have hne : x ≠ z := by
      rintro rfl
      exact (List.nodup_cons.mp hnd).1 hz
    simp only [Queue.life, List.idxOf_cons_ne xs hne]
    omega
  | @pass x y xs ref q n hx _ ih =>
    have hrot : (x :: xs).Perm (xs ++ [x]) := (List.perm_append_singleton x xs).symm
    obtain ⟨hperm, hlife, hpos, hrest⟩ :=
      ih (hrot.nodup_iff.mp hnd) (hrot.length_eq.symm.trans hcap)
    have hall : (x :: xs).Perm (y :: q.pages) := hrot.trans hperm
    have hpass := fun z => Queue.life_pass (y := z) hnd hcap hx
    refine ⟨hall, ?_, by omega, fun z hz => ?_⟩
    · rw [hpass y (hall.mem_iff.mpr List.mem_cons_self), hlife]
    · rw [hpass z (hall.mem_iff.mpr (List.mem_cons_of_mem y hz)), hrest z hz]
      omega

/-! ### The client -/

/-- The client has `work` left and looks for the page `first` and then for `second`. It
waits for `fault`; after that page, `run` says how many more may be brought in. -/
structure Client (α : Type*) where
  queue : Queue α
  free : ℕ
  work : ℕ
  first : α
  second : α
  fault : Option α
  run : Option (α × ℕ)

inductive Brings (q : Queue α) (v : α) : ℕ → Queue α → ℕ → Prop
  | place {free : ℕ} : Brings q v (free + 1) (q.push v) free
  | victim {y : α} {q' : Queue α} {n : ℕ} : Sweep q y q' n → Brings q v 0 (q'.push v) 0

/-- `win v` is the page `v` with those that are brought in after it, `window` of them at
most. -/
inductive Step (win : α → Finset α) (window : ℕ) : Client α → Client α → Prop
  /-- A try that gets on. -/
  | advance {s t : Client α} : s.fault = none → t.work < s.work → Step win window s t
  /-- A try that does not. The client looks at nothing before it misses its first page. -/
  | stall {s : Client α} {v : α} {ref : α → Bool} : s.fault = none → v ∉ s.queue.pages →
      v = s.second ∨ v = s.first ∧ ref = s.queue.ref →
      Step win window s { s with queue := ⟨s.queue.pages, ref⟩, fault := some v }
  /-- The page is there by now. -/
  | present {s : Client α} {v : α} : s.fault = some v → s.run = none → v ∈ s.queue.pages →
      Step win window s { s with fault := none }
  | demand {s : Client α} {v : α} {q : Queue α} {free : ℕ} {run : Option (α × ℕ)} :
      s.fault = some v → s.run = none → v ∉ s.queue.pages → Brings s.queue v s.free q free →
      (∀ x ∈ run, x.1 = v ∧ x.2 ≤ window) →
      Step win window s { s with queue := q, free := free, fault := none, run := run }
  | ahead {s : Client α} {v w : α} {k free : ℕ} {q : Queue α} : s.run = some (v, k + 1) →
      w ∈ win v → w ∉ s.queue.pages → Brings s.queue w s.free q free →
      Step win window s { s with queue := q, free := free, run := some (v, k) }
  | skip {s : Client α} {v : α} {k : ℕ} : s.run = some (v, k + 1) →
      Step win window s { s with run := some (v, k) }
  | finish {s : Client α} {v : α} {k : ℕ} : s.run = some (v, k) →
      Step win window s { s with run := none }

namespace Client

def needs (win : α → Finset α) (s : Client α) : Finset α := win s.first ∪ win s.second

structure Ok (win : α → Finset α) (cap : ℕ) (s : Client α) : Prop where
  nodup : s.queue.pages.Nodup
  full : s.queue.pages.length + s.free = cap
  fits : (s.needs win).card ≤ cap
  own : ∀ v, v ∈ win v

/-! ### The measure -/

def debt (s : Client α) (v : α) (k : ℕ) : ℕ := if v = s.first ∨ v = s.second then 0 else k

def stale (window : ℕ) (s : Client α) : ℕ :=
  (match s.run with
    | some (v, k) => s.debt v (k + 1)
    | none => 0) +
  match s.fault with
  | some v => s.debt v (window + 2)
  | none => 0

def strangers (win : α → Finset α) (s : Client α) : Finset α :=
  s.queue.pages.toFinset \ s.needs win

/-- A try that misses the second page may set every bit. That page has been in the queue
and the hand has gone round since the try before; the credit is how far it has come. -/
def credit (cap : ℕ) (s : Client α) : ℕ :=
  if s.second ∈ s.queue.pages then cap - s.queue.life cap s.second
  else if s.fault = some s.second then 0 else cap

def total (win : α → Finset α) (cap : ℕ) (s : Client α) : ℕ :=
  ∑ x ∈ s.strangers win, (s.queue.life cap x + s.credit cap)

def stay (cap : ℕ) (s : Client α) : ℕ :=
  if s.second ∈ s.queue.pages then s.queue.life cap s.second else 0

def stage (s : Client α) : ℕ :=
  (match s.fault with
    | none => 2
    | some v => if v ∈ s.queue.pages then 3 else 1) +
  match s.run with
  | none => 0
  | some (_, k) => k + 1

def measure (win : α → Finset α) (window cap : ℕ) (s : Client α) :
    ℕ ×ₗ ℕ ×ₗ ℕ ×ₗ ℕ ×ₗ ℕ ×ₗ ℕ ×ₗ ℕ :=
  toLex (s.work, toLex (s.stale window, toLex (s.free, toLex ((s.strangers win).card,
    toLex (s.total win cap, toLex (s.stay cap, s.stage))))))

end Client

theorem lex_left {β : Type*} [LT β] {a a' : ℕ} {b b' : β} (h : a < a') :
    toLex (a, b) < toLex (a', b') :=
  Prod.Lex.toLex_lt_toLex.mpr (.inl h)

theorem lex_right {β : Type*} [LT β] {a a' : ℕ} {b b' : β} (h : a ≤ a') (hb : b < b') :
    toLex (a, b) < toLex (a', b') := by
  obtain hlt | heq := Nat.lt_or_eq_of_le h
  · exact lex_left hlt
  · exact Prod.Lex.toLex_lt_toLex.mpr (.inr ⟨heq, hb⟩)

variable {win : α → Finset α} {window cap : ℕ} {s t : Client α} {v : α}

theorem Client.Ok.length (h : s.Ok win cap) (hfree : s.free = 0) : s.queue.pages.length = cap := by
  have hfull := h.full
  omega

theorem Client.Ok.stranger (h : s.Ok win cap) (hv : v ∈ s.needs win) (hnot : v ∉ s.queue.pages)
    (hfree : s.free = 0) : (s.strangers win).Nonempty := by
  by_contra hempty
  rw [Finset.not_nonempty_iff_eq_empty, Client.strangers,
    Finset.sdiff_eq_empty_iff_subset] at hempty
  have hlt : s.queue.pages.toFinset ⊂ s.needs win := by
    refine Finset.ssubset_iff_subset_ne.mpr ⟨hempty, fun heq => hnot ?_⟩
    rwa [← heq, List.mem_toFinset] at hv
  have hcard := Finset.card_lt_card hlt
  rw [List.toFinset_card_of_nodup h.nodup] at hcard
  have hfull := h.full
  have hfits := h.fits
  omega

/-! ### A page is brought in -/

section
variable {y : α} {q : Queue α} {n : ℕ}

theorem mem_push (x : α) : x ∈ (q.push v).pages ↔ x ∈ q.pages ∨ x = v := by
  simp [Queue.push]

theorem Sweep.mem (h : Sweep s.queue y q n) (hok : s.Ok win cap) (hfree : s.free = 0) (x : α) :
    x ∈ q.pages ↔ x ∈ s.queue.pages ∧ x ≠ y := by
  obtain ⟨hperm, -⟩ := h.spec hok.nodup (hok.length hfree)
  have hy : y ∉ q.pages := (List.nodup_cons.mp (hperm.nodup_iff.mp hok.nodup)).1
  rw [hperm.mem_iff, List.mem_cons]
  constructor
  · intro hx
    refine ⟨.inr hx, ?_⟩
    rintro rfl
    exact hy hx
  · rintro ⟨rfl | hx, hne⟩
    · exact absurd rfl hne
    · exact hx

theorem strangers_victim (hneeds : t.needs win = s.needs win) (hq : t.queue = q.push v)
    (h : Sweep s.queue y q n) (hok : s.Ok win cap) (hfree : s.free = 0) (hv : v ∈ s.needs win) :
    t.strangers win = (s.strangers win).erase y := by
  ext x
  simp only [Client.strangers, Finset.mem_sdiff, Finset.mem_erase, List.mem_toFinset, hneeds, hq,
    mem_push, h.mem hok hfree]
  constructor
  · rintro ⟨⟨hx, hne⟩ | rfl, hnot⟩
    · exact ⟨hne, hx, hnot⟩
    · exact absurd hv hnot
  · rintro ⟨hne, hx, hnot⟩
    exact ⟨.inl ⟨hx, hne⟩, hnot⟩

/-- The credit grows by what the hand has moved at most, and by less unless the second
page gets nearer to the front or out. -/
theorem credit_victim (hsecond : t.second = s.second) (hq : t.queue = q.push v)
    (h : Sweep s.queue y q n) (hok : s.Ok win cap) (hfree : s.free = 0)
    (hnot : v ∉ s.queue.pages)
    (hfault : v = s.second ∨ (t.fault = some s.second ↔ s.fault = some s.second)) :
    t.credit cap ≤ s.credit cap + n ∧
      (t.credit cap < s.credit cap + n ∨ t.stay cap < s.stay cap) := by
  obtain ⟨-, hlife, hpos, hrest⟩ := h.spec hok.nodup (hok.length hfree)
  have hmem := h.mem hok hfree
  by_cases hvs : v = s.second
  · have hnq : s.second ∉ q.pages := fun hm => hnot (hvs ▸ ((hmem _).mp hm).1)
    have hzero : t.credit cap = 0 := by
      rw [Client.credit, hsecond, hq, if_pos ((mem_push _).mpr (.inr hvs.symm)), hvs,
        Queue.life_push_self hnq]
      omega
    rw [hzero]
    exact ⟨Nat.zero_le _, .inl (by omega)⟩
  · have hiff := hfault.resolve_left hvs
    have htmem : s.second ∈ t.queue.pages ↔ s.second ∈ s.queue.pages ∧ s.second ≠ y := by
      rw [hq, mem_push, hmem]
      exact ⟨fun hm => hm.resolve_right (Ne.symm hvs), .inl⟩
    simp only [Client.credit, Client.stay, hsecond, htmem, hiff]
    by_cases hin : s.second ∈ s.queue.pages
    · by_cases hy : s.second = y
      · have hout : ¬(s.second ∈ s.queue.pages ∧ s.second ≠ y) := fun hm => hm.2 hy
        have hn : s.queue.life cap s.second = n := by rw [hy, hlife]
        rw [if_neg hout, if_neg hout, if_pos hin, if_pos hin, hn]
        split_ifs <;> omega
      · have hq' : s.second ∈ q.pages := (hmem _).mpr ⟨hin, hy⟩
        have hl := hrest _ hq'
        have hstays : s.second ∈ s.queue.pages ∧ s.second ≠ y := ⟨hin, hy⟩
        rw [if_pos hstays, if_pos hstays, if_pos hin, if_pos hin, hq,
          Queue.life_push_of_mem hq' (Ne.symm hvs)]
        omega
    · have hout : ¬(s.second ∈ s.queue.pages ∧ s.second ≠ y) := fun hm => hin hm.1
      rw [if_neg hout, if_neg hout, if_neg hin, if_neg hin]
      omega

theorem total_victim (hneeds : t.needs win = s.needs win) (hsecond : t.second = s.second)
    (hq : t.queue = q.push v) (h : Sweep s.queue y q n) (hok : s.Ok win cap) (hfree : s.free = 0)
    (hv : v ∈ s.needs win) (hnot : v ∉ s.queue.pages) (hy : y ∈ s.needs win)
    (hfault : v = s.second ∨ (t.fault = some s.second ↔ s.fault = some s.second)) :
    t.total win cap ≤ s.total win cap ∧
      (t.total win cap < s.total win cap ∨ t.stay cap < s.stay cap) := by
  have hsame : t.strangers win = s.strangers win := by
    rw [strangers_victim hneeds hq h hok hfree hv, Finset.erase_eq_of_notMem]
    simp [Client.strangers, hy]
  obtain ⟨-, -, -, hrest⟩ := h.spec hok.nodup (hok.length hfree)
  obtain ⟨hle, hor⟩ := credit_victim hsecond hq h hok hfree hnot hfault
  -- Every stranger gets `n` nearer to the front.
  have hlife : ∀ x ∈ s.strangers win, t.queue.life cap x + n = s.queue.life cap x := by
    intro x hx
    have hxq : x ∈ s.queue.pages ∧ x ∉ s.needs win := by
      simpa [Client.strangers] using hx
    have hne : x ≠ y := by
      rintro rfl
      exact hxq.2 hy
    have hmem : x ∈ q.pages := (h.mem hok hfree x).mpr ⟨hxq.1, hne⟩
    have hxv : x ≠ v := by
      rintro rfl
      exact hxq.2 hv
    rw [hq, Queue.life_push_of_mem hmem hxv, hrest x hmem]
  simp only [Client.total, hsame]
  refine ⟨Finset.sum_le_sum fun x hx => ?_, hor.imp_left fun hlt => ?_⟩
  · have := hlife x hx
    omega
  · refine Finset.sum_lt_sum_of_nonempty (hok.stranger hv hnot hfree) fun x hx => ?_
    have := hlife x hx
    omega

theorem Brings.measure_lt {free : ℕ} (hb : Brings s.queue v s.free q free) (hok : s.Ok win cap)
    (hv : v ∈ s.needs win) (hnot : v ∉ s.queue.pages) (hwork : t.work = s.work)
    (hneeds : t.needs win = s.needs win) (hsecond : t.second = s.second) (hq : t.queue = q)
    (hfree : t.free = free) (hstale : t.stale window ≤ s.stale window)
    (hfault : v = s.second ∨ (t.fault = some s.second ↔ s.fault = some s.second)) :
    t.measure win window cap < s.measure win window cap := by
  refine lex_right hwork.le (lex_right hstale ?_)
  obtain ⟨f, hf⟩ : ∃ f, s.free = f := ⟨_, rfl⟩
  rw [hf] at hb
  cases hb with
  | place => exact lex_left (by omega)
  | @victim y q' n hsweep =>
    refine lex_right (by omega) ?_
    have hstr := strangers_victim hneeds hq hsweep hok hf hv
    by_cases hy : y ∈ s.needs win
    · refine lex_right ?_ ?_
      · rw [hstr]
        exact Finset.card_erase_le
      · obtain ⟨hle, hlt | hlt⟩ := total_victim hneeds hsecond hq hsweep hok hf hv hnot hy hfault
        · exact lex_left hlt
        · exact lex_right hle (lex_left hlt)
    · refine lex_left ?_
      rw [hstr]
      refine Finset.card_erase_lt_of_mem ?_
      obtain ⟨hperm, -⟩ := hsweep.spec hok.nodup (hok.length hf)
      simp only [Client.strangers, Finset.mem_sdiff, List.mem_toFinset]
      exact ⟨hperm.mem_iff.mpr List.mem_cons_self, hy⟩

end

/-! ### Every step counts -/

theorem measure_lt_of_stage (hwork : t.work = s.work) (hstale : t.stale window ≤ s.stale window)
    (hfree : t.free = s.free) (hpages : t.queue.pages = s.queue.pages)
    (hfirst : t.first = s.first) (hsecond : t.second = s.second)
    (hlife : ∀ x, t.queue.life cap x + t.credit cap ≤ s.queue.life cap x + s.credit cap)
    (hstay : t.stay cap ≤ s.stay cap) (hstage : t.stage < s.stage) :
    t.measure win window cap < s.measure win window cap := by
  have hstr : t.strangers win = s.strangers win := by
    simp only [Client.strangers, Client.needs, hpages, hfirst, hsecond]
  refine lex_right hwork.le (lex_right hstale (lex_right hfree.le (lex_right ?_ (lex_right ?_
    (lex_right hstay hstage)))))
  · rw [hstr]
  · simp only [Client.total, hstr]
    exact Finset.sum_le_sum fun x _ => hlife x

theorem debt_eq_zero (hv : v = s.first ∨ v = s.second) (k : ℕ) : s.debt v k = 0 := if_pos hv

theorem debt_eq (hv : ¬(v = s.first ∨ v = s.second)) (k : ℕ) : s.debt v k = k := if_neg hv

theorem Client.Ok.needs_of_wanted (hok : s.Ok win cap) (hv : v = s.first ∨ v = s.second) :
    v ∈ s.needs win := by
  obtain rfl | rfl := hv
  · exact Finset.mem_union_left _ (hok.own _)
  · exact Finset.mem_union_right _ (hok.own _)

theorem stall_lt {ref : α → Bool} (hfault : s.fault = none) (hnot : v ∉ s.queue.pages)
    (hv : v = s.second ∨ v = s.first ∧ ref = s.queue.ref) :
    Client.measure win window cap { s with queue := ⟨s.queue.pages, ref⟩, fault := some v } <
      s.measure win window cap := by
  have hdebt : s.debt v (window + 2) = 0 := debt_eq_zero (hv.elim .inr fun h => .inl h.1) _
  have hstale : Client.stale window { s with queue := ⟨s.queue.pages, ref⟩, fault := some v } ≤
      s.stale window := by
    simp only [Client.stale, hfault]
    exact Nat.add_le_add_left hdebt.le _
  have hstage : Client.stage { s with queue := ⟨s.queue.pages, ref⟩, fault := some v } <
      s.stage := by
    simp only [Client.stage, hfault, if_neg hnot]
    omega
  by_cases hvs : v = s.second
  · subst hvs
    refine measure_lt_of_stage rfl hstale rfl rfl rfl rfl (fun x => ?_) ?_ hstage
    · have hle : Queue.life cap ⟨s.queue.pages, ref⟩ x ≤ s.queue.life cap x + cap :=
        Queue.life_of_ref_le rfl
      simpa [Client.credit, hnot, hfault] using hle
    · simp [Client.stay, hnot]
  · obtain ⟨rfl, rfl⟩ := hv.resolve_left hvs
    refine measure_lt_of_stage rfl hstale rfl rfl rfl rfl (fun x => ?_) (Nat.le_refl _) hstage
    simp [Client.credit, hfault, hvs]

theorem present_lt (hfault : s.fault = some v) (hrun : s.run = none) (hv : v ∈ s.queue.pages) :
    Client.measure win window cap { s with fault := none } < s.measure win window cap := by
  -- Either the second page is in the queue, or it is not the one that was waited for.
  have hcredit : Client.credit cap { s with fault := none } = s.credit cap := by
    simp only [Client.credit, hfault, reduceCtorEq, if_false, Option.some.injEq]
    split_ifs with hin heq
    · rfl
    · exact absurd (heq ▸ hv) hin
    · rfl
  refine measure_lt_of_stage rfl ?_ rfl rfl rfl rfl (fun x => ?_) (Nat.le_refl _) ?_
  · simp [Client.stale, hrun]
  · rw [hcredit]
  · simp [Client.stage, hfault, hv]

theorem demand_lt {q : Queue α} {free : ℕ} {run : Option (α × ℕ)} (hok : s.Ok win cap)
    (hfault : s.fault = some v) (hrun : s.run = none) (hnot : v ∉ s.queue.pages)
    (hb : Brings s.queue v s.free q free) (hwin : ∀ x ∈ run, x.1 = v ∧ x.2 ≤ window) :
    Client.measure win window cap
      { s with queue := q, free := free, fault := none, run := run } <
      s.measure win window cap := by
  have hs : s.stale window = s.debt v (window + 2) := by simp [Client.stale, hfault, hrun]
  -- What is brought in after the page is owed if the page itself was.
  have ht : Client.stale window { s with queue := q, free := free, fault := none, run := run } ≤
      s.debt v (window + 1) := by
    cases run with
    | none => simp [Client.stale]
    | some x =>
      obtain ⟨rfl, hle⟩ := hwin x rfl
      simp only [Client.stale, Client.debt]
      split_ifs <;> omega
  by_cases hw : v = s.first ∨ v = s.second
  · refine hb.measure_lt hok (hok.needs_of_wanted hw) hnot rfl rfl rfl rfl rfl ?_ ?_
    · rw [debt_eq_zero hw] at ht
      omega
    · by_cases hvs : v = s.second
      · exact .inl hvs
      · right
        simp [hfault, hvs]
  · refine lex_right (Nat.le_refl _) (lex_left ?_)
    rw [debt_eq hw] at hs ht
    omega

theorem ahead_lt {w : α} {k free : ℕ} {q : Queue α} (hok : s.Ok win cap)
    (hrun : s.run = some (v, k + 1)) (hwin : w ∈ win v) (hnot : w ∉ s.queue.pages)
    (hb : Brings s.queue w s.free q free) :
    Client.measure win window cap { s with queue := q, free := free, run := some (v, k) } <
      s.measure win window cap := by
  have hs : s.stale window = s.debt v (k + 2) + Client.stale window { s with run := none } := by
    simp [Client.stale, hrun, Client.debt]
  have ht : Client.stale window { s with queue := q, free := free, run := some (v, k) } =
      s.debt v (k + 1) + Client.stale window { s with run := none } := by
    simp [Client.stale, Client.debt]
  by_cases hw : v = s.first ∨ v = s.second
  · have hneed : w ∈ s.needs win := by
      obtain rfl | rfl := hw
      · exact Finset.mem_union_left _ hwin
      · exact Finset.mem_union_right _ hwin
    refine hb.measure_lt hok hneed hnot rfl rfl rfl rfl rfl ?_ (.inr Iff.rfl)
    rw [hs, ht, debt_eq_zero hw, debt_eq_zero hw]
  · refine lex_right (Nat.le_refl _) (lex_left ?_)
    rw [hs, ht, debt_eq hw, debt_eq hw]
    omega

theorem run_lt {run : Option (α × ℕ)} {k : ℕ} (hrun : s.run = some (v, k))
    (hless : run = none ∨ ∃ j < k, run = some (v, j)) :
    Client.measure win window cap { s with run := run } < s.measure win window cap := by
  refine measure_lt_of_stage rfl ?_ rfl rfl rfl rfl (fun x => Nat.le_refl _) (Nat.le_refl _) ?_
  · obtain rfl | ⟨j, hj, rfl⟩ := hless
    · simp [Client.stale, Client.debt]
    · simp only [Client.stale, hrun, Client.debt]
      split_ifs <;> omega
  · obtain rfl | ⟨j, hj, rfl⟩ := hless
    · simp [Client.stage, hrun]
    · simp only [Client.stage, hrun]
      omega

theorem Step.measure_lt (h : Step win window s t) (hok : s.Ok win cap) :
    t.measure win window cap < s.measure win window cap := by
  cases h with
  | advance _ hwork => exact lex_left hwork
  | stall hfault hnot hv => exact stall_lt hfault hnot hv
  | present hfault hrun hv => exact present_lt hfault hrun hv
  | demand hfault hrun hnot hb hwin => exact demand_lt hok hfault hrun hnot hb hwin
  | ahead hrun hwin hnot hb => exact ahead_lt hok hrun hwin hnot hb
  | skip hrun => exact run_lt hrun (.inr ⟨_, Nat.lt_succ_self _, rfl⟩)
  | finish hrun => exact run_lt hrun (.inl rfl)

/-- If the pages that the client needs fit into the queue with all that is brought in
after them, the client gets its work done. -/
theorem wellFounded (win : α → Finset α) (window cap : ℕ) :
    WellFounded fun t s : Client α => s.Ok win cap ∧ Step win window s t :=
  Subrelation.wf (fun h => h.2.measure_lt h.1)
    (InvImage.wf (Client.measure win window cap) wellFounded_lt)

end SoftGpu.Clock
