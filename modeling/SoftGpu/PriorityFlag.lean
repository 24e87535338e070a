import SoftGpu.Binding
import Mathlib.Data.Fintype.Basic

/-!
# The summary flag of the priorities

`set_channel_priority` at the level of its loads and stores. It takes no lock:
it stores one register, loads them all and stores what it found in
`mixed_priority_`, and any number of threads can be at it at the same time. The
outer loop stops after the first engine with a register that is not the default;
the inner loop goes to the end of the row.

A thread that has loaded a register that changes afterwards stores a flag that
is out of date.
-/

namespace SoftGpu.PriorityFlag

open Machine Binding

variable {τ : Type} [DecidableEq τ]

/-- Where a thread is in `set_channel_priority`. `rows`, the number of rows that were
scanned, is a ghost. -/
inductive Place
  | idle
  | store (engine channel : ℕ) (p : ℤ)
  | outer (e : ℕ) (mixed : Bool)
  | inner (e c : ℕ) (mixed : Bool)
  | flag (rows : ℕ) (mixed : Bool)
  deriving DecidableEq, Repr

structure State (τ : Type) where
  dev : Registers
  pc : τ → Place

def init (τ : Type) (engines channels : ℕ) : State τ := ⟨.new engines channels, fun _ => .idle⟩

inductive Action (τ : Type)
  | call (t : τ) (engine channel : ℕ) (p : ℤ)
  | step (t : τ)
  deriving DecidableEq, Repr

def State.goto (s : State τ) (t : τ) (pl : Place) :
    State τ := { s with pc := Function.update s.pc t pl }

def store (d : Registers) (engine channel : ℕ) (p : ℤ) : Registers :=
  { d with priority := fun e c => if e = engine ∧ c = channel then p else d.priority e c }

def enter (d : Registers) (engine channel : ℕ) (p : ℤ) : Place :=
  if d.numEngines ≤ engine ∨ d.numChannels ≤ channel then .idle
  else if priorityLeast < p ∨ p < priorityGreatest then .idle
  else .store engine channel p

def step (s : State τ) : Action τ → Option (State τ)
  | .call t engine channel p =>
    match s.pc t with
    | .idle => some (s.goto t (enter s.dev engine channel p))
    | _ => none
  | .step t =>
    match s.pc t with
    | .idle => none
    | .store engine channel p =>
      some ({ s with dev := store s.dev engine channel p }.goto t (.outer 0 false))
    | .outer e mixed =>
      some (s.goto t
        (if e < s.dev.numEngines ∧ mixed = false then .inner e 0 mixed else .flag e mixed))
    | .inner e c mixed =>
      if c < s.dev.numChannels then
        some (s.goto t (.inner e (c + 1) (mixed || decide (s.dev.priority e c ≠ priorityLeast))))
      else some (s.goto t (.outer (e + 1) mixed))
    | .flag _ mixed => some ({ s with dev := { s.dev with mixedPriority := mixed } }.goto t .idle)

/-! ### What a thread has seen -/

def Place.mixed : Place → Bool
  | .idle | .store .. => false
  | .outer _ mixed | .inner _ _ mixed | .flag _ mixed => mixed

def Place.loaded : Place → ℕ → ℕ → Prop
  | .idle, _, _ | .store .., _, _ => False
  | .outer rows _, e, _ | .flag rows _, e, _ => e < rows
  | .inner row col _, e, c => e < row ∨ e = row ∧ c < col

instance (pl : Place) (e c : ℕ) : Decidable (pl.loaded e c) :=
  match pl with
  | .idle | .store .. => .isFalse not_false
  | .outer .. | .flag .. => inferInstanceAs (Decidable (_ < _))
  | .inner .. => inferInstanceAs (Decidable (_ ∨ _))

def Place.scanning : Place → Prop
  | .idle | .store .. => False
  | _ => True

def Exact (d : Registers) : Prop :=
  d.mixedPriority = true ↔ ∃ e < d.numEngines, ∃ c < d.numChannels, d.priority e c ≠ priorityLeast

def Place.Current (d : Registers) (pl : Place) : Prop :=
  pl.mixed = true ↔
    ∃ e < d.numEngines, ∃ c < d.numChannels, pl.loaded e c ∧ d.priority e c ≠ priorityLeast

def Place.Within (d : Registers) : Place → Prop
  | .inner e _ _ => e < d.numEngines
  | .flag rows mixed => mixed = false → d.numEngines ≤ rows
  | _ => True

def unseenAt (s : State τ) : Place → Prop
  | .store engine channel p => (s.dev.priority engine channel = priorityLeast ↔ p = priorityLeast) ∨
      ∀ u, ¬(s.pc u).loaded engine channel
  | .idle | .outer .. | .inner .. | .flag .. => True

def unseen (s : State τ) : Action τ → Prop
  | .call .. => True
  | .step t => unseenAt s (s.pc t)

instance [Fintype τ] (s : State τ) (pl : Place) : Decidable (unseenAt s pl) :=
  match pl with
  | .store .. => inferInstanceAs (Decidable (_ ∨ _))
  | .idle | .outer .. | .inner .. | .flag .. => .isTrue trivial

instance [Fintype τ] (s : State τ) (a : Action τ) : Decidable (unseen s a) :=
  match a with
  | .call .. => .isTrue trivial
  | .step t => inferInstanceAs (Decidable (unseenAt s (s.pc t)))

structure Inv (s : State τ) : Prop where
  current : ∀ t, (s.pc t).Current s.dev
  within : ∀ t, (s.pc t).Within s.dev
  /-- Whoever changed a register after the flag was stored has still to store it. -/
  exact : Exact s.dev ∨ ∃ t, (s.pc t).scanning

section Steps
variable {s s' : State τ} {a : Action τ} {t : τ} {d : Registers}
  {engine channel e c rows : ℕ} {p : ℤ}
  {mixed : Bool}

theorem current_of_unseen {pl : Place} (h : pl.Current d)
    (hok : (d.priority engine channel = priorityLeast ↔ p = priorityLeast) ∨
      ¬pl.loaded engine channel) : pl.Current (store d engine channel p) := by
  rw [Place.Current] at h ⊢
  rw [h]
  have hsame : ∀ e c, pl.loaded e c →
      (d.priority e c ≠ priorityLeast ↔
        (store d engine channel p).priority e c ≠ priorityLeast) := by
    intro e c hl
    simp only [store]
    split
    · next heq =>
      obtain ⟨rfl, rfl⟩ := heq
      obtain hsame | hnot := hok
      · exact not_congr hsame
      · exact absurd hl hnot
    · exact Iff.rfl
  constructor
  · rintro ⟨e, he, c, hc, hl, hne⟩
    exact ⟨e, he, c, hc, hl, (hsame e c hl).mp hne⟩
  · rintro ⟨e, he, c, hc, hl, hne⟩
    exact ⟨e, he, c, hc, hl, (hsame e c hl).mpr hne⟩

theorem current_load (h : (Place.inner e c mixed).Current d) (he : e < d.numEngines)
    (hc : c < d.numChannels) :
    (Place.inner e (c + 1) (mixed || decide (d.priority e c ≠ priorityLeast))).Current d := by
  simp only [Place.Current, Place.mixed, Place.loaded] at h ⊢
  rw [Bool.or_eq_true, decide_eq_true_eq, h]
  constructor
  · rintro (⟨e', he', c', hc', hl, hne⟩ | hne)
    · exact ⟨e', he', c', hc', by omega, hne⟩
    · exact ⟨e, he, c, hc, by omega, hne⟩
  · rintro ⟨e', he', c', hc', hl, hne⟩
    by_cases heq : e' = e ∧ c' = c
    · obtain ⟨rfl, rfl⟩ := heq
      exact .inr hne
    · exact .inl ⟨e', he', c', hc', by omega, hne⟩

theorem current_row (h : (Place.inner e c mixed).Current d) (hc : d.numChannels ≤ c) :
    (Place.outer (e + 1) mixed).Current d := by
  simp only [Place.Current, Place.mixed, Place.loaded] at h ⊢
  rw [h]
  constructor
  · rintro ⟨e', he', c', hc', hl, hne⟩
    exact ⟨e', he', c', hc', by omega, hne⟩
  · rintro ⟨e', he', c', hc', hl, hne⟩
    exact ⟨e', he', c', hc', by omega, hne⟩

theorem current_inner (h : (Place.outer e mixed).Current d) :
    (Place.inner e 0 mixed).Current d := by
  simpa only [Place.Current, Place.mixed, Place.loaded, Nat.not_lt_zero,
    and_false, or_false] using h

theorem exact_of_flag (h : (Place.flag rows mixed).Current d)
    (hw : (Place.flag rows mixed).Within d) :
    Exact { d with mixedPriority := mixed } := by
  simp only [Place.Current, Place.mixed, Place.loaded] at h
  simp only [Place.Within] at hw
  rw [Exact]
  constructor
  · intro hm
    obtain ⟨e, he, c, hc, -, hne⟩ := h.mp hm
    exact ⟨e, he, c, hc, hne⟩
  · rintro ⟨e, he, c, hc, hne⟩
    cases mixed with
    | true => rfl
    | false => exact h.mpr ⟨e, he, c, hc, he.trans_le (hw rfl), hne⟩

theorem Inv.goto {pl : Place} (hi : Inv s) (hc : pl.Current s.dev) (hw : pl.Within s.dev)
    (hscan : (s.pc t).scanning → pl.scanning) : Inv (s.goto t pl) where
  current := by
    intro u
    by_cases hu : u = t
    · subst hu
      simpa [State.goto] using hc
    · simpa [State.goto, hu] using hi.current u
  within := by
    intro u
    by_cases hu : u = t
    · subst hu
      simpa [State.goto] using hw
    · simpa [State.goto, hu] using hi.within u
  exact := by
    obtain hex | ⟨u, hu⟩ := hi.exact
    · exact .inl hex
    · right
      by_cases hut : u = t
      · subst hut
        exact ⟨u, by simpa [State.goto] using hscan hu⟩
      · exact ⟨u, by simpa [State.goto, hut] using hu⟩

theorem idle_current : Place.idle.Current d := by simp [Place.Current, Place.mixed, Place.loaded]

theorem outer_zero_current : (Place.outer 0 false).Current d := by
  simp [Place.Current, Place.mixed, Place.loaded]

theorem within_of {d' : Registers} {pl : Place} (h : pl.Within d)
    (hn : d'.numEngines = d.numEngines) :
    pl.Within d' := by
  cases pl with
  | inner e c mixed => exact h.trans_eq hn.symm
  | flag rows mixed => exact fun hm => hn.trans_le (h hm)
  | _ => trivial

omit [DecidableEq τ] in
theorem inv_init (engines channels : ℕ) : Inv (init τ engines channels) where
  current := fun _ => idle_current
  within := fun _ => trivial
  exact := .inl (by simp [Exact, init, Registers.new, priorityLeast])

theorem inv_call (hi : Inv s) (hidle : s.pc t = .idle) :
    Inv (s.goto t (enter s.dev engine channel p)) := by
  have hnot : (s.pc t).scanning → (enter s.dev engine channel p).scanning := by
    rw [hidle]
    exact False.elim
  obtain heq | heq : enter s.dev engine channel p = .idle ∨
      enter s.dev engine channel p = .store engine channel p := by
    unfold enter
    split
    · exact .inl rfl
    · split
      · exact .inl rfl
      · exact .inr rfl
  · rw [heq] at hnot ⊢
    exact hi.goto idle_current trivial hnot
  · rw [heq] at hnot ⊢
    refine hi.goto ?_ trivial hnot
    simp [Place.Current, Place.mixed, Place.loaded]

theorem inv_store (hi : Inv s) (hok : unseenAt s (.store engine channel p)) :
    Inv ({ s with dev := store s.dev engine channel p }.goto t (.outer 0 false)) where
  current := by
    intro u
    by_cases hu : u = t
    · subst hu
      simpa [State.goto] using outer_zero_current
    · have hnot : (s.dev.priority engine channel = priorityLeast ↔ p = priorityLeast) ∨
          ¬(s.pc u).loaded engine channel := hok.imp_right fun h => h u
      simpa [State.goto, hu] using current_of_unseen (hi.current u) hnot
  within := by
    intro u
    by_cases hu : u = t
    · subst hu
      simp [State.goto, Place.Within]
    · have hin : (s.pc u).Within (store s.dev engine channel p) := within_of (hi.within u) rfl
      simpa [State.goto, hu] using hin
  exact := .inr ⟨t, by simp [State.goto, Place.scanning]⟩

theorem inv_flag (hi : Inv s) (hpc : s.pc t = .flag rows mixed) :
    Inv ({ s with dev := { s.dev with mixedPriority := mixed } }.goto t .idle) where
  current := by
    intro u
    by_cases hu : u = t
    · subst hu
      simpa [State.goto] using idle_current
    · have hcur : (s.pc u).Current { s.dev with mixedPriority := mixed } := hi.current u
      simpa [State.goto, hu] using hcur
  within := by
    intro u
    by_cases hu : u = t
    · subst hu
      simp [State.goto, Place.Within]
    · have hin : (s.pc u).Within { s.dev with mixedPriority := mixed } :=
        within_of (hi.within u) rfl
      simpa [State.goto, hu] using hin
  exact := .inl (exact_of_flag (hpc ▸ hi.current t) (hpc ▸ hi.within t))

theorem inv_step (hi : Inv s) (hok : unseen s a) (hs : step s a = some s') : Inv s' := by
  cases a with
  | call t engine channel p =>
    simp only [step] at hs
    split at hs
    · next hidle =>
      cases hs
      exact inv_call hi hidle
    · cases hs
  | step t =>
    simp only [unseen] at hok
    have hcur := hi.current t
    have hin := hi.within t
    cases hpc : s.pc t with
    | idle => simp [step, hpc] at hs
    | store engine channel p =>
      simp only [step, hpc, Option.some.injEq] at hs
      subst hs
      exact inv_store hi (hpc ▸ hok)
    | outer e mixed =>
      simp only [step, hpc, Option.some.injEq] at hs
      subst hs
      rw [hpc] at hcur
      split
      · next hmore => exact hi.goto (current_inner hcur) hmore.1 fun _ => trivial
      · next hdone =>
        refine hi.goto hcur ?_ fun _ => trivial
        intro hm
        by_contra hlt
        exact hdone ⟨not_le.mp hlt, hm⟩
    | inner e c mixed =>
      rw [hpc] at hcur hin
      simp only [step, hpc] at hs
      split at hs
      · next hc =>
        cases hs
        exact hi.goto (current_load hcur hin hc) hin fun _ => trivial
      · next hc =>
        cases hs
        exact hi.goto (current_row hcur (not_lt.mp hc)) trivial fun _ => trivial
    | flag rows mixed =>
      simp only [step, hpc, Option.some.injEq] at hs
      subst hs
      exact inv_flag hi hpc

end Steps

/-! ### A call that nobody interrupts -/

section Alone
variable {s : State τ} {t : τ} {engine channel e c : ℕ} {p : ℤ} {mixed : Bool}

@[simp] theorem goto_pc (s : State τ) (t : τ) (pl : Place) : (s.goto t pl).pc t = pl := by
  simp [State.goto]

@[simp] theorem goto_dev (s : State τ) (t : τ) (pl : Place) : (s.goto t pl).dev = s.dev := rfl

@[simp] theorem goto_goto (s : State τ) (t : τ) (pl pl' : Place) :
    (s.goto t pl).goto t pl' = s.goto t pl' := by simp [State.goto]

theorem row_alone (k : ℕ) (hk : s.dev.numChannels - c = k) (hpc : s.pc t = .inner e c mixed)
    (hcur : (s.pc t).Current s.dev) (he : e < s.dev.numEngines) :
    ∃ n mixed', exec step s (List.replicate n (.step t)) = some (s.goto t (.outer (e + 1) mixed')) ∧
      (Place.outer (e + 1) mixed').Current s.dev := by
  induction k generalizing s c mixed with
  | zero =>
    rw [hpc] at hcur
    have hc : ¬c < s.dev.numChannels := by omega
    exact ⟨1, mixed, by simp [exec, step, hpc, hc], current_row hcur (not_lt.mp hc)⟩
  | succ k ih =>
    rw [hpc] at hcur
    have hc : c < s.dev.numChannels := by omega
    let pl := Place.inner e (c + 1) (mixed || decide (s.dev.priority e c ≠ priorityLeast))
    have hnext : pl.Current s.dev := current_load hcur he hc
    have hstep : step s (.step t) = some (s.goto t pl) := by simp only [step, hpc, hc, if_true, pl]
    have hleft : (s.goto t pl).dev.numChannels - (c + 1) = k := by
      simp only [goto_dev]
      omega
    obtain ⟨n, mixed', hrun, hend⟩ := ih hleft (goto_pc s t pl) (by simpa using hnext) he
    refine ⟨n + 1, mixed', ?_, hend⟩
    rw [List.replicate_succ, exec, hstep, Option.bind_some, hrun, goto_goto]

theorem scan_alone (k : ℕ) (hk : s.dev.numEngines - e = k) (hpc : s.pc t = .outer e mixed)
    (hcur : (s.pc t).Current s.dev) :
    ∃ n rows mixed',
      exec step s (List.replicate n (.step t)) = some (s.goto t (.flag rows mixed')) ∧
      (Place.flag rows mixed').Current s.dev ∧ (Place.flag rows mixed').Within s.dev := by
  have hcur' : (Place.outer e mixed).Current s.dev := hpc ▸ hcur
  by_cases hmore : e < s.dev.numEngines ∧ mixed = false
  · induction k generalizing s e mixed with
    | zero => omega
    | succ k ih =>
      let pl := Place.inner e 0 mixed
      have hstep : step s (.step t) = some (s.goto t pl) := by
        simp only [step, hpc, hmore, and_self, if_true, pl]
      obtain ⟨n, mixed', hrun, hend⟩ := row_alone (s := s.goto t pl) _ rfl (goto_pc s t pl)
        (by simpa using current_inner hcur') hmore.1
      rw [goto_goto] at hrun
      have hfirst : exec step s (List.replicate (n + 1) (.step t)) =
          some (s.goto t (.outer (e + 1) mixed')) := by
        rw [List.replicate_succ, exec, hstep, Option.bind_some, hrun]
      let s' := s.goto t (.outer (e + 1) mixed')
      by_cases hagain : e + 1 < s.dev.numEngines ∧ mixed' = false
      · obtain ⟨n', rows, m, hrun', hend', hin⟩ := ih (s := s') (by simp only [s', goto_dev]; omega)
          (goto_pc ..) (by simpa [s'] using hend) hend hagain
        refine ⟨n + 1 + n', rows, m, ?_, hend', hin⟩
        rw [List.replicate_add, exec_append, hfirst, Option.bind_some, hrun', goto_goto]
      · refine ⟨n + 1 + 1, e + 1, mixed', ?_, hend, fun hm => ?_⟩
        · rw [List.replicate_add, exec_append, hfirst]
          simp [exec, step, hagain]
        · by_contra hlt
          exact hagain ⟨not_le.mp hlt, hm⟩
  · refine ⟨1, e, mixed, by simp [exec, step, hpc, hmore], hcur', fun hm => ?_⟩
    by_contra hlt
    exact hmore ⟨not_le.mp hlt, hm⟩

theorem call_alone {d : Registers} (hidle : s.pc t = .idle)
    (h : s.dev.setChannelPriority engine channel p = .ok d) :
    ∃ n, exec step s (.call t engine channel p :: List.replicate n (.step t)) =
      some { s with dev := d } := by
  unfold Registers.setChannelPriority at h
  split at h
  · cases h
  next hchan =>
  split at h
  · cases h
  next hprio =>
  cases h
  let s₁ : State τ := { s with dev := store s.dev engine channel p }.goto t (.outer 0 false)
  have hstart : exec step s [.call t engine channel p, .step t] = some s₁ := by
    simp [exec, step, hidle, enter, hchan, hprio, State.goto, s₁]
  obtain ⟨n, rows, mixed, hrun, hcur, hin⟩ := scan_alone (s := s₁) _ rfl (goto_pc ..)
    (by simpa [s₁] using outer_zero_current)
  have hexact := exact_of_flag hcur hin
  have hmixed : mixed = decide (∃ e < s.dev.numEngines, ∃ c < s.dev.numChannels,
      (store s.dev engine channel p).priority e c ≠ priorityLeast) := by
    rw [Bool.eq_iff_iff, decide_eq_true_eq]
    exact hexact
  have hend : step (s₁.goto t (.flag rows mixed)) (.step t) =
      some { s with dev := { store s.dev engine channel p with mixedPriority := mixed } } := by
    simp [step, s₁, State.goto, ← hidle]
  refine ⟨1 + n + 1, ?_⟩
  have hlist : Action.call t engine channel p :: List.replicate (1 + n + 1) (.step t) =
      [.call t engine channel p, .step t] ++ (List.replicate n (.step t) ++ [.step t]) := by
    simp [List.replicate_add]
  rw [hlist, exec_append, hstart, Option.bind_some, exec_append, hrun, Option.bind_some, exec, hend,
    Option.bind_some, hmixed]
  rfl

end Alone

/-! ### Calls that overlap -/

/-- In every run in which no store overtakes a scan, the flag is right as soon as all calls have
returned, and the check of the run loop, which looks at it first, passes over no channel of
higher priority. -/
theorem mixed_priority_exact (engines channels : ℕ) (s : State τ)
    (h : Reach step unseen (init τ engines channels) s) (hret : ∀ t, s.pc t = .idle) :
    Exact s.dev ∧ (s.dev.mixedPriority = false → ∀ e < s.dev.numEngines, ∀ c < s.dev.numChannels,
      ∀ c' < s.dev.numChannels, ¬s.dev.priority e c' < s.dev.priority e c) := by
  have hi : Inv s := h.invariant (inv_init engines channels)
    fun _ _ _ hi hok hs => inv_step hi hok hs
  have hex : Exact s.dev := by
    obtain hex | ⟨t, ht⟩ := hi.exact
    · exact hex
    · rw [hret t] at ht
      exact ht.elim
  refine ⟨hex, ?_⟩
  intro hm e he c hc c' hc' hlt
  have hleast : ∀ c < s.dev.numChannels, s.dev.priority e c = priorityLeast := by
    intro c hc
    by_contra hne
    have := hex.mpr ⟨e, he, c, hc, hne⟩
    rw [hm] at this
    cases this
  rw [hleast c hc, hleast c' hc'] at hlt
  exact lt_irrefl _ hlt

def bothStored : List (Action (Fin 2)) :=
  [.call 0 0 0 (-1), .call 1 0 1 0, .step 0, .step 1] ++
    List.replicate 6 (.step 0) ++ List.replicate 6 (.step 1)

theorem mixed_priority_exact_bothStored :
    ∃ s, exec (when unseen step) (init (Fin 2) 1 2) bothStored = some s ∧ (∀ t, s.pc t = .idle) ∧
      s.dev.mixedPriority = true ∧ Exact s.dev := by
  have hrun : (exec (when unseen step) (init (Fin 2) 1 2) bothStored).map
      (fun s => (decide (∀ t, s.pc t = .idle), s.dev.mixedPriority)) = some (true, true) := by
        decide
  obtain ⟨s, hs, hq⟩ := Option.map_eq_some_iff.mp hrun
  simp only [Prod.mk.injEq, decide_eq_true_eq] at hq
  exact ⟨s, hs, hq.1, hq.2, (mixed_priority_exact 1 2 s (.of_exec_when .refl hs) hq.1).1⟩

/-- Thread 1 sets channel 1 to the default it has already and scans; thread 0 raises channel 0,
scans and stores the flag; then thread 1 stores what it found. -/
def staleScan : List (Action (Fin 2)) :=
  .call 1 0 1 0 :: List.replicate 6 (.step 1) ++ .call 0 0 0 (-1) :: List.replicate 7 (.step 0) ++
    [.step 1]

theorem staleScan_not_exact :
    ¬∀ s : State (Fin 2), Reach step anyStep (init (Fin 2) 1 2) s → (∀ t, s.pc t = .idle) →
      Exact s.dev := by
  have hrun : (exec step (init (Fin 2) 1 2) staleScan).map
      (fun s => (decide (∀ t, s.pc t = .idle), s.dev.mixedPriority, s.dev.numEngines,
        s.dev.numChannels, s.dev.priority 0 0)) = some (true, false, 1, 2, -1) := by decide
  obtain ⟨s, hs, hq⟩ := Option.map_eq_some_iff.mp hrun
  simp only [Prod.mk.injEq, decide_eq_true_eq] at hq
  obtain ⟨hret, hm, he, hc, hp⟩ := hq
  intro h
  have hex := h s (.of_exec .refl hs) hret
  have hmixed := hex.mpr ⟨0, by omega, 0, by omega, by rw [hp]; decide⟩
  rw [hm] at hmixed
  cases hmixed

end SoftGpu.PriorityFlag
