import SoftGpu.Event
import SoftGpu.Machine
import SoftGpu.Staging

/-!
# Waiting for an interrupt

`wait_until` over the one interrupt line of the device. A waiter samples the
line's sequence, arms the interrupt of every channel it depends on, looks at its
predicate once more and sleeps unless the sequence has moved. An engine stores
GET, loads the channel's target, clears it when GET has reached it and then
signals. Every load, store and exchange is a step of its own.

A retirement may come at any time, on any channel. `seq` counts the signals of the
line, and a sample is the count at that moment; what the code loads and compares is
the word of the count, so a waiter that is overtaken by `2 ^ 32` signals between its
sample and its sleep does not notice them. With the char device the signal is a
request for a work item that bumps the sequence later; requests made before the item
runs coalesce.
-/

namespace SoftGpu.Interrupt

open Machine
open Staging (Chan Fence)

/-- What `wait_until` is called for: one fence, or a snapshot of the PUTs. -/
inductive Wait
  | fence (f : Fence)
  | snapshot (l : List Fence)
  deriving DecidableEq, Repr

def Wait.needs : Wait → List Fence
  | .fence f => [f]
  | .snapshot l => l

/-- Program points of `wait_until`. `spin` evaluates the predicate before the block
phase, `check` after arming and `recheck` after the sleep, one channel at a time;
`arm`, `load` and `cas` are `arm_irq` for one of the channels. -/
inductive Point
  | spin (i : ℕ)
  | sample
  | arm (seen i : ℕ)
  | load (seen i : ℕ)
  | cas (seen i cur : ℕ)
  | check (seen i : ℕ)
  | enter (seen : ℕ)
  | asleep (seen : ℕ)
  | recheck (i : ℕ)
  | done
  deriving DecidableEq, Repr

inductive EnginePoint
  | idle
  | stored (c : Chan)
  | clear (c : Chan)
  | signal (c : Chan)
  deriving DecidableEq, Repr

/-- `target` is `irq_target`, `seq` the number of signals so far; `requested` and `running`
belong to the work item. -/
structure State (Tid : Type*) where
  get : Chan → ℕ
  target : Chan → ℕ
  engine : ℕ → EnginePoint
  seq : ℕ
  requested : Bool
  running : Bool
  waiter : Tid → Option (Wait × Point)

variable {Tid : Type*}

def init : State Tid where
  get := fun _ => 0
  target := fun _ => 0
  engine := fun _ => .idle
  seq := 0
  requested := false
  running := false
  waiter := fun _ => none

inductive Action (Tid : Type*)
  | wait (t : Tid) (w : Wait)
  | run (t : Tid)
  | timeout (t : Tid)
  | interrupted (t : Tid)
  | retire (c : Chan)
  | engine (e : ℕ)
  | work
  deriving DecidableEq, Repr

def State.goto [DecidableEq Tid] (s : State Tid) (t : Tid) (w : Wait) (p : Point) : State Tid :=
  { s with waiter := Function.update s.waiter t (some (w, p)) }

def State.look (s : State Tid) (w : Wait) (i : ℕ) (all next late : Point) : Point :=
  match w.needs[i]? with
  | none => all
  | some f => if f.value ≤ s.get f.chan then next else late

def State.arms (s : State Tid) (w : Wait) (f : Fence) : Bool :=
  match w with
  | .fence _ => true
  | .snapshot _ => f.value ≠ 0 ∧ s.get f.chan < f.value

def waiterStep [DecidableEq Tid] (s : State Tid) (t : Tid) (w : Wait) : Point → Option (State Tid)
  | .spin i => some (s.goto t w (s.look w i .done (.spin (i + 1)) .sample))
  | .sample => some (s.goto t w (.arm s.seq 0))
  | .arm seen i => match w.needs[i]? with
    | none => some (s.goto t w (.check seen 0))
    | some f =>
      if s.arms w f = true then some (s.goto t w (.load seen i))
      else some (s.goto t w (.arm seen (i + 1)))
  | .load seen i => match w.needs[i]? with
    | none => none
    | some f =>
      if s.target f.chan = 0 ∨ f.value < s.target f.chan then
        some (s.goto t w (.cas seen i (s.target f.chan)))
      else some (s.goto t w (.arm seen (i + 1)))
  | .cas seen i cur => match w.needs[i]? with
    | none => none
    | some f =>
      if s.target f.chan = cur then
        some ({ s with target := Function.update s.target f.chan f.value }.goto t w
          (.arm seen (i + 1)))
      else if s.target f.chan = 0 ∨ f.value < s.target f.chan then
        some (s.goto t w (.cas seen i (s.target f.chan)))
      else some (s.goto t w (.arm seen (i + 1)))
  | .check seen i => some (s.goto t w (s.look w i .done (.check seen (i + 1)) (.enter seen)))
  | .enter seen =>
    some (s.goto t w (if Event.word s.seq = Event.word seen then .asleep seen else .recheck 0))
  | .asleep seen =>
    if Event.word s.seq = Event.word seen then none else some (s.goto t w (.recheck 0))
  | .recheck i => some (s.goto t w (s.look w i .done (.recheck (i + 1)) .sample))
  | .done => some { s with waiter := Function.update s.waiter t none }

def engineStep (kmod : Bool) (s : State Tid) (e : ℕ) : EnginePoint → Option (State Tid)
  | .idle => none
  | .stored c =>
    if s.target c ≠ 0 ∧ s.target c ≤ s.get c then
      some { s with engine := Function.update s.engine e (.clear c) }
    else some { s with engine := Function.update s.engine e .idle }
  | .clear c =>
    some { s with
      target := Function.update s.target c 0
      engine := Function.update s.engine e (.signal c) }
  | .signal _ =>
    if kmod then some { s with engine := Function.update s.engine e .idle, requested := true }
    else some { s with engine := Function.update s.engine e .idle, seq := s.seq + 1 }

def step [DecidableEq Tid] (kmod : Bool) (s : State Tid) : Action Tid → Option (State Tid)
  | .wait t w => match s.waiter t with
    | none => some (s.goto t w (.spin 0))
    | some _ => none
  | .run t => match s.waiter t with
    | none => none
    | some (w, p) => waiterStep s t w p
  | .timeout t => match s.waiter t with
    | some (w, .asleep _) => some (s.goto t w (.recheck 0))
    | _ => none
  | .interrupted t => match s.waiter t with
    | some (w, .asleep _) => if kmod then some (s.goto t w .sample) else none
    | _ => none
  | .retire c => match s.engine c.1 with
    | .idle => some { s with
        get := Function.update s.get c (s.get c + 1)
        engine := Function.update s.engine c.1 (.stored c) }
    | _ => none
  | .engine e => engineStep kmod s e (s.engine e)
  | .work =>
    if s.running then some { s with seq := s.seq + 1, running := false }
    else if s.requested then some { s with requested := false, running := true }
    else none

/-! ### Signals that are due -/

def State.Due (s : State Tid) : Prop :=
  (∃ e c, s.engine e = .clear c ∨ s.engine e = .signal c) ∨ s.requested = true ∨ s.running = true

def State.Alert (s : State Tid) (seen : ℕ) : Prop := seen < s.seq ∨ s.Due

def State.Armed (s : State Tid) (f : Fence) : Prop :=
  0 < s.target f.chan ∧ s.target f.chan ≤ f.value

def State.Covered (s : State Tid) (seen : ℕ) (f : Fence) : Prop :=
  s.get f.chan < f.value → s.Alert seen ∨ s.Armed f

def State.Watched (s : State Tid) (seen : ℕ) (f : Fence) : Prop :=
  s.Alert seen ∨ s.get f.chan < f.value ∧ s.Armed f ∨
    s.engine f.chan.1 = .stored f.chan ∧ 0 < s.target f.chan ∧ s.target f.chan ≤ s.get f.chan

def Wait.Pos : Wait → Prop
  | .fence f => 0 < f.value
  | .snapshot _ => True

def WaiterOk (s : State Tid) (w : Wait) : Point → Prop
  | .spin _ | .done | .recheck _ => True
  | .sample => w.Pos
  | .arm seen i => w.Pos ∧ seen ≤ s.seq ∧ ∀ f ∈ w.needs.take i, s.Covered seen f
  | .load seen i => w.Pos ∧ seen ≤ s.seq ∧ (∀ f ∈ w.needs.take i, s.Covered seen f) ∧
      ∀ f, w.needs[i]? = some f → 0 < f.value
  | .cas seen i cur => w.Pos ∧ seen ≤ s.seq ∧ (∀ f ∈ w.needs.take i, s.Covered seen f) ∧
      ∀ f, w.needs[i]? = some f → 0 < f.value ∧ (cur = 0 ∨ f.value < cur)
  | .check seen _ => w.Pos ∧ seen ≤ s.seq ∧ ∀ f ∈ w.needs, s.Covered seen f
  | .enter seen | .asleep seen => w.Pos ∧ seen ≤ s.seq ∧ ∃ f ∈ w.needs, s.Watched seen f

def Inv (s : State Tid) : Prop := ∀ t w p, s.waiter t = some (w, p) → WaiterOk s w p

structure Later (s s' : State Tid) : Prop where
  seq : s.seq ≤ s'.seq
  alert : ∀ seen, seen ≤ s.seq → s.Alert seen → s'.Alert seen
  covered : ∀ seen f, seen ≤ s.seq → s.Covered seen f → s'.Covered seen f
  watched : ∀ seen f, seen ≤ s.seq → s.Watched seen f → s'.Watched seen f

theorem WaiterOk.later {s s' : State Tid} {w : Wait} {p : Point} (h : WaiterOk s w p)
    (hl : Later s s') : WaiterOk s' w p := by
  cases p with
  | spin | done | recheck => trivial
  | sample => exact h
  | arm seen i =>
    obtain ⟨hw, hseen, hcov⟩ := h
    exact ⟨hw, hseen.trans hl.seq, fun f hf => hl.covered seen f hseen (hcov f hf)⟩
  | load seen i =>
    obtain ⟨hw, hseen, hcov, hpos⟩ := h
    exact ⟨hw, hseen.trans hl.seq, fun f hf => hl.covered seen f hseen (hcov f hf), hpos⟩
  | cas seen i cur =>
    obtain ⟨hw, hseen, hcov, hpos⟩ := h
    exact ⟨hw, hseen.trans hl.seq, fun f hf => hl.covered seen f hseen (hcov f hf), hpos⟩
  | check seen i =>
    obtain ⟨hw, hseen, hcov⟩ := h
    exact ⟨hw, hseen.trans hl.seq, fun f hf => hl.covered seen f hseen (hcov f hf)⟩
  | enter seen | asleep seen =>
    obtain ⟨hw, hseen, f, hf, hwatch⟩ := h
    exact ⟨hw, hseen.trans hl.seq, f, hf, hl.watched seen f hseen hwatch⟩

namespace Later
variable {s s' : State Tid}

theorem frame (hget : s'.get = s.get) (htarget : s'.target = s.target)
    (hengine : s'.engine = s.engine) (hseq : s'.seq = s.seq) (hreq : s'.requested = s.requested)
    (hrun : s'.running = s.running) : Later s s' := by
  have halert : ∀ seen, s.Alert seen ↔ s'.Alert seen := by
    intro seen
    simp only [State.Alert, State.Due, hengine, hseq, hreq, hrun]
  constructor
  · exact hseq.ge
  · exact fun seen _ h => (halert seen).mp h
  · intro seen f _ h
    simp only [State.Covered, State.Armed, hget, htarget, ← halert]
    exact h
  · intro seen f _ h
    simp only [State.Watched, State.Armed, hget, htarget, hengine, ← halert]
    exact h

theorem of_alert (hseq : s.seq ≤ s'.seq) (h : s.seq < s'.seq ∨ s'.Due) : Later s s' := by
  have halert : ∀ seen, seen ≤ s.seq → s'.Alert seen := by
    intro seen hseen
    obtain h | h := h
    · exact .inl (hseen.trans_lt h)
    · exact .inr h
  exact ⟨hseq, fun seen hs _ => halert seen hs, fun seen _ hs _ _ => .inl (halert seen hs),
    fun seen _ hs _ => .inl (halert seen hs)⟩

theorem lower {c : Chan} {v : ℕ} (hv : 0 < v) (hc : s.target c = 0 ∨ v < s.target c)
    (hget : s'.get = s.get) (htarget : s'.target = Function.update s.target c v)
    (hengine : s'.engine = s.engine) (hseq : s'.seq = s.seq) (hreq : s'.requested = s.requested)
    (hrun : s'.running = s.running) : Later s s' := by
  have halert : ∀ seen, s.Alert seen ↔ s'.Alert seen := by
    intro seen
    simp only [State.Alert, State.Due, hengine, hseq, hreq, hrun]
  have hbound : ∀ (r : Chan) (n : ℕ), 0 < s.target r ∧ s.target r ≤ n →
      0 < s'.target r ∧ s'.target r ≤ n := by
    intro r n ⟨h₁, h₂⟩
    by_cases hr : r = c
    · subst hr
      rw [htarget, Function.update_self]
      omega
    · rw [htarget, Function.update_of_ne hr]
      exact ⟨h₁, h₂⟩
  constructor
  · exact hseq.ge
  · exact fun seen _ h => (halert seen).mp h
  · intro seen f _ h hlt
    rw [hget] at hlt
    obtain h | h := h hlt
    · exact .inl ((halert seen).mp h)
    · exact .inr (hbound _ _ h)
  · intro seen f _ h
    obtain h | ⟨hlt, h⟩ | ⟨he, h⟩ := h
    · exact .inl ((halert seen).mp h)
    · exact .inr (.inl ⟨hget ▸ hlt, hbound _ _ h⟩)
    · exact .inr (.inr ⟨hengine ▸ he, hget ▸ hbound _ _ h⟩)

theorem due_update {e : ℕ} {p : EnginePoint} {e' : State Tid} (hd : s.Due)
    (he : ∀ c, s.engine e ≠ .clear c ∧ s.engine e ≠ .signal c)
    (hengine : e'.engine = Function.update s.engine e p) (hreq : e'.requested = s.requested)
    (hrun : e'.running = s.running) : e'.Due := by
  obtain ⟨e₀, c, h⟩ | h | h := hd
  · have hne : e₀ ≠ e := by
      intro heq
      subst heq
      obtain h | h := h
      · exact (he c).1 h
      · exact (he c).2 h
    refine .inl ⟨e₀, c, ?_⟩
    rw [hengine, Function.update_of_ne hne]
    exact h
  · exact .inr (.inl (hreq.trans h))
  · exact .inr (.inr (hrun.trans h))

theorem retire {c : Chan} (hidle : s.engine c.1 = .idle) : Later s { s with
    get := Function.update s.get c (s.get c + 1)
    engine := Function.update s.engine c.1 (.stored c) } := by
  have halert : ∀ seen, s.Alert seen → State.Alert { s with
      get := Function.update s.get c (s.get c + 1)
      engine := Function.update s.engine c.1 (.stored c) } seen := by
    intro seen h
    obtain h | h := h
    · exact .inl h
    · exact .inr (due_update h (fun _ => by simp [hidle]) rfl rfl rfl)
  constructor
  · exact le_rfl
  · exact fun seen _ h => halert seen h
  · intro seen f _ h hlt
    have hold : s.get f.chan < f.value := by
      by_cases hf : f.chan = c
      · rw [hf] at hlt ⊢
        simp only [Function.update_self] at hlt
        omega
      · simpa [hf] using hlt
    obtain h | h := h hold
    · exact .inl (halert seen h)
    · exact .inr h
  · intro seen f _ h
    obtain h | ⟨hlt, h⟩ | ⟨he, h⟩ := h
    · exact .inl (halert seen h)
    · by_cases hf : f.chan = c
      · by_cases hpass : s.get c + 1 < f.value
        · exact .inr (.inl ⟨by simpa [hf] using hpass, h⟩)
        · -- This store passes the fence; the engine loads the target next.
          refine .inr (.inr ⟨by simp [hf], h.1, h.2.trans ?_⟩)
          simp only [hf, Function.update_self]
          omega
      · exact .inr (.inl ⟨by simpa [hf] using hlt, h⟩)
    · have hne : f.chan.1 ≠ c.1 := by
        intro heq
        rw [heq, hidle] at he
        cases he
      have hf : f.chan ≠ c := fun heq => hne (congrArg Prod.fst heq)
      exact .inr (.inr ⟨by simpa [hne] using he, by simpa [hf] using h⟩)

theorem unfired {e : ℕ} {c : Chan} (hstored : s.engine e = .stored c)
    (hno : ¬(s.target c ≠ 0 ∧ s.target c ≤ s.get c)) :
    Later s { s with engine := Function.update s.engine e .idle } := by
  have halert : ∀ seen, s.Alert seen → State.Alert
      { s with engine := Function.update s.engine e .idle } seen := by
    intro seen h
    obtain h | h := h
    · exact .inl h
    · exact .inr (due_update h (fun _ => by simp [hstored]) rfl rfl rfl)
  constructor
  · exact le_rfl
  · exact fun seen _ h => halert seen h
  · intro seen f _ h hlt
    obtain h | h := h hlt
    · exact .inl (halert seen h)
    · exact .inr h
  · intro seen f _ h
    obtain h | h | ⟨he, h⟩ := h
    · exact .inl (halert seen h)
    · exact .inr (.inl h)
    · have hne : f.chan.1 ≠ e := by
        intro heq
        rw [heq, hstored] at he
        obtain rfl : c = f.chan := by simpa using he
        exact hno ⟨by omega, h.2⟩
      exact .inr (.inr ⟨by simpa [hne] using he, h⟩)

theorem engineStep {kmod : Bool} {e : ℕ}
    (hs : Interrupt.engineStep kmod s e (s.engine e) = some s') : Later s s' := by
  cases he : s.engine e with
  | idle =>
    rw [he] at hs
    cases hs
  | stored c =>
    simp only [he, Interrupt.engineStep] at hs
    split at hs
    · obtain rfl := Option.some.inj hs
      exact .of_alert le_rfl (.inr (.inl ⟨e, c, .inl (by simp)⟩))
    · next hno =>
      obtain rfl := Option.some.inj hs
      exact .unfired he hno
  | clear c =>
    simp only [he, Interrupt.engineStep] at hs
    obtain rfl := Option.some.inj hs
    exact .of_alert le_rfl (.inr (.inl ⟨e, c, .inr (by simp)⟩))
  | signal c =>
    simp only [he, Interrupt.engineStep] at hs
    split at hs
    · obtain rfl := Option.some.inj hs
      exact .of_alert le_rfl (.inr (.inr (.inl rfl)))
    · obtain rfl := Option.some.inj hs
      exact .of_alert (Nat.le_succ _) (.inl (Nat.lt_succ_self _))

end Later

/-! ### The waiters -/

section Waiters
variable {s s' : State Tid} {t : Tid} {w : Wait}

theorem Inv.goto [DecidableEq Tid] (h : Inv s) (hl : Later s s')
    (hw : s'.waiter = s.waiter) {p : Point}
    (hp : WaiterOk s' w p) : Inv (s'.goto t w p) := by
  intro v w' p' hv
  have hframe : Later s' (s'.goto t w p) := .frame rfl rfl rfl rfl rfl rfl
  by_cases hvt : v = t
  · subst hvt
    obtain ⟨rfl, rfl⟩ : w = w' ∧ p = p' := by simpa [State.goto] using hv
    exact hp.later hframe
  · rw [State.goto] at hv
    simp only [Function.update_of_ne hvt, hw] at hv
    exact ((h v w' p' hv).later hl).later hframe

theorem WaiterOk.look {i : ℕ} {all next late : Point} (hall : WaiterOk s w all)
    (hnext : WaiterOk s w next)
    (hlate : ∀ f ∈ w.needs, s.get f.chan < f.value → WaiterOk s w late) :
    WaiterOk s w (s.look w i all next late) := by
  unfold State.look
  split
  · exact hall
  · next f hf =>
    split
    · exact hnext
    · next hlt => exact hlate f (List.mem_of_getElem? hf) (by omega)

theorem Wait.pos_of_late {f : Fence} (hf : f ∈ w.needs) (hlt : s.get f.chan < f.value) : w.Pos := by
  cases w with
  | fence g =>
    obtain rfl := List.mem_singleton.mp hf
    exact (Nat.zero_le _).trans_lt hlt
  | snapshot l => trivial

theorem Wait.pos_of_arms {i : ℕ} {f : Fence} (hw : w.Pos) (hf : w.needs[i]? = some f)
    (ha : s.arms w f = true) : 0 < f.value := by
  cases w with
  | fence g =>
    have hmem := List.mem_of_getElem? hf
    obtain rfl := List.mem_singleton.mp hmem
    exact hw
  | snapshot l =>
    simp only [State.arms, decide_eq_true_eq] at ha
    omega

theorem mem_take_succ {i : ℕ} {f g : Fence} (hf : w.needs[i]? = some f)
    (hg : g ∈ w.needs.take (i + 1)) : g ∈ w.needs.take i ∨ g = f := by
  rw [List.take_add_one, hf, Option.toList_some, List.mem_append, List.mem_singleton] at hg
  exact hg

theorem Inv.waiterStep [DecidableEq Tid] {p : Point} (h : Inv s) (hp : s.waiter t = some (w, p))
    (hs : Interrupt.waiterStep s t w p = some s') : Inv s' := by
  have hok := h t w p hp
  have hself : Later s s := .frame rfl rfl rfl rfl rfl rfl
  -- A target that is set and not above the fence needs no exchange.
  have hkept : ∀ {seen i : ℕ} {f : Fence}, w.needs[i]? = some f →
      (∀ g ∈ w.needs.take i, s.Covered seen g) →
      ¬(s.target f.chan = 0 ∨ f.value < s.target f.chan) →
      ∀ g ∈ w.needs.take (i + 1), s.Covered seen g := by
    intro seen i f hf hcov hno g hg
    obtain hg | rfl := mem_take_succ hf hg
    · exact hcov g hg
    · exact fun _ => .inr ⟨by omega, by omega⟩
  cases p with
  | spin i =>
    obtain rfl := Option.some.inj hs
    exact h.goto hself rfl (.look trivial trivial fun f hf hlt => Wait.pos_of_late hf hlt)
  | sample =>
    obtain rfl := Option.some.inj hs
    exact h.goto hself rfl ⟨hok, le_rfl, by simp⟩
  | arm seen i =>
    obtain ⟨hw, hseen, hcov⟩ := hok
    simp only [Interrupt.waiterStep] at hs
    split at hs
    · next hnone =>
      obtain rfl := Option.some.inj hs
      rw [List.getElem?_eq_none_iff] at hnone
      rw [List.take_of_length_le hnone] at hcov
      exact h.goto hself rfl ⟨hw, hseen, hcov⟩
    · next f hf =>
      split at hs
      · next ha =>
        obtain rfl := Option.some.inj hs
        refine h.goto hself rfl ⟨hw, hseen, hcov, fun g hg => ?_⟩
        obtain rfl := Option.some.inj (hf.symm.trans hg)
        exact Wait.pos_of_arms hw hf ha
      · next ha =>
        obtain rfl := Option.some.inj hs
        refine h.goto hself rfl ⟨hw, hseen, fun g hg => ?_⟩
        obtain hg | rfl := mem_take_succ hf hg
        · exact hcov g hg
        · -- Only a snapshot skips a channel, and then it has retired.
          intro hlt
          refine absurd ?_ ha
          cases w with
          | fence _ => rfl
          | snapshot l =>
            simp only [State.arms, decide_eq_true_eq]
            omega
  | load seen i =>
    obtain ⟨hw, hseen, hcov, hpos⟩ := hok
    simp only [Interrupt.waiterStep] at hs
    split at hs
    · cases hs
    · next f hf =>
      split at hs
      · next hlow =>
        obtain rfl := Option.some.inj hs
        refine h.goto hself rfl ⟨hw, hseen, hcov, fun g hg => ?_⟩
        obtain rfl := Option.some.inj (hf.symm.trans hg)
        exact ⟨hpos f hf, hlow⟩
      · next hno =>
        obtain rfl := Option.some.inj hs
        exact h.goto hself rfl ⟨hw, hseen, hkept hf hcov hno⟩
  | cas seen i cur =>
    obtain ⟨hw, hseen, hcov, hpos⟩ := hok
    simp only [Interrupt.waiterStep] at hs
    split at hs
    · cases hs
    · next f hf =>
      split at hs
      · next hcur =>
        obtain rfl := Option.some.inj hs
        obtain ⟨hv, hlow⟩ := hpos f hf
        have hl : Later s { s with target := Function.update s.target f.chan f.value } :=
          .lower hv (hcur ▸ hlow) rfl rfl rfl rfl rfl rfl
        refine h.goto hl rfl ⟨hw, hseen, fun g hg => ?_⟩
        obtain hg | rfl := mem_take_succ hf hg
        · exact hl.covered seen g hseen (hcov g hg)
        · exact fun _ => .inr ⟨by simpa using hv, by simp⟩
      · split at hs
        · next hlow =>
          obtain rfl := Option.some.inj hs
          refine h.goto hself rfl ⟨hw, hseen, hcov, fun g hg => ?_⟩
          obtain rfl := Option.some.inj (hf.symm.trans hg)
          exact ⟨(hpos f hf).1, hlow⟩
        · next hno =>
          obtain rfl := Option.some.inj hs
          exact h.goto hself rfl ⟨hw, hseen, hkept hf hcov hno⟩
  | check seen i =>
    obtain ⟨hw, hseen, hcov⟩ := hok
    obtain rfl := Option.some.inj hs
    refine h.goto hself rfl (.look trivial ⟨hw, hseen, hcov⟩ fun f hf hlt => ⟨hw, hseen, f, hf, ?_⟩)
    obtain hc | hc := hcov f hf hlt
    · exact .inl hc
    · exact .inr (.inl ⟨hlt, hc⟩)
  | enter seen =>
    obtain rfl := Option.some.inj hs
    refine h.goto hself rfl ?_
    split
    · exact hok
    · trivial
  | asleep seen =>
    simp only [Interrupt.waiterStep] at hs
    split at hs
    · cases hs
    · obtain rfl := Option.some.inj hs
      exact h.goto hself rfl trivial
  | recheck i =>
    obtain rfl := Option.some.inj hs
    exact h.goto hself rfl (.look trivial trivial fun f hf hlt => Wait.pos_of_late hf hlt)
  | done =>
    obtain rfl := Option.some.inj hs
    intro v w' p' hv
    by_cases hvt : v = t
    · subst hvt
      simp at hv
    · simp only [Function.update_of_ne hvt] at hv
      exact (h v w' p' hv).later (.frame rfl rfl rfl rfl rfl rfl)

end Waiters

theorem init_inv : Inv (init : State Tid) := by
  intro t w p hp
  cases hp

variable [DecidableEq Tid]

theorem step_inv {kmod : Bool} {s s' : State Tid} {a : Action Tid} (h : Inv s)
    (hs : step kmod s a = some s') : Inv s' := by
  have hself : Later s s := .frame rfl rfl rfl rfl rfl rfl
  have hlater : Later s s' → s'.waiter = s.waiter → Inv s' := by
    intro hl hw t w p hp
    rw [hw] at hp
    exact (h t w p hp).later hl
  cases a with
  | wait t w =>
    simp only [step] at hs
    split at hs
    · obtain rfl := Option.some.inj hs
      exact h.goto hself rfl trivial
    · cases hs
  | run t =>
    simp only [step] at hs
    split at hs
    · cases hs
    · next w p hp => exact h.waiterStep hp hs
  | timeout t =>
    simp only [step] at hs
    split at hs
    · obtain rfl := Option.some.inj hs
      exact h.goto hself rfl trivial
    · cases hs
  | interrupted t =>
    simp only [step] at hs
    split at hs
    · next w seen hp =>
      split at hs
      · obtain rfl := Option.some.inj hs
        exact h.goto hself rfl (h t w _ hp).1
      · cases hs
    · cases hs
  | retire c =>
    simp only [step] at hs
    split at hs
    · next hidle =>
      obtain rfl := Option.some.inj hs
      exact hlater (.retire hidle) rfl
    · cases hs
  | engine e =>
    refine hlater (.engineStep hs) ?_
    simp only [step, engineStep] at hs
    split at hs
    · cases hs
    · split at hs <;> obtain rfl := Option.some.inj hs <;> rfl
    · obtain rfl := Option.some.inj hs
      rfl
    · split at hs <;> obtain rfl := Option.some.inj hs <;> rfl
  | work =>
    simp only [step] at hs
    split at hs
    · obtain rfl := Option.some.inj hs
      exact hlater (.of_alert (Nat.le_succ _) (.inl (Nat.lt_succ_self _))) rfl
    · split at hs
      · obtain rfl := Option.some.inj hs
        exact hlater (.of_alert le_rfl (.inr (.inr (.inr rfl)))) rfl
      · cases hs

theorem reach_inv {kmod : Bool} {s : State Tid} (h : Reach (step kmod) anyStep init s) : Inv s :=
  h.invariant init_inv fun _ _ _ hi _ hs => step_inv hi hs

theorem waiterStep_line {s s' : State Tid} {t : Tid} {w : Wait} {p : Point}
    (hs : waiterStep s t w p = some s') :
    s'.requested = s.requested ∧ s'.running = s.running := by
  cases p with
  | arm =>
    simp only [waiterStep] at hs
    split at hs
    · obtain rfl := Option.some.inj hs
      exact ⟨rfl, rfl⟩
    · split_ifs at hs <;> obtain rfl := Option.some.inj hs <;> exact ⟨rfl, rfl⟩
  | load | cas =>
    simp only [waiterStep] at hs
    split at hs
    · cases hs
    · split_ifs at hs <;> obtain rfl := Option.some.inj hs <;> exact ⟨rfl, rfl⟩
  | asleep seen =>
    simp only [waiterStep] at hs
    split_ifs at hs
    obtain rfl := Option.some.inj hs
    exact ⟨rfl, rfl⟩
  | _ =>
    obtain rfl := Option.some.inj hs
    exact ⟨rfl, rfl⟩

theorem step_futex {s s' : State Tid} {a : Action Tid} (hreq : s.requested = false)
    (hrun : s.running = false) (hs : step false s a = some s') :
    s'.requested = false ∧ s'.running = false := by
  cases a with
  | work => simp [step, hreq, hrun] at hs
  | run t =>
    simp only [step] at hs
    split at hs
    · cases hs
    · obtain ⟨h₁, h₂⟩ := waiterStep_line hs
      exact ⟨h₁.trans hreq, h₂.trans hrun⟩
  | engine e =>
    simp only [step, engineStep] at hs
    split at hs
    · cases hs
    · split_ifs at hs <;> obtain rfl := Option.some.inj hs <;> exact ⟨hreq, hrun⟩
    · obtain rfl := Option.some.inj hs
      exact ⟨hreq, hrun⟩
    · obtain rfl := Option.some.inj hs
      exact ⟨hreq, hrun⟩
  | interrupted t =>
    simp only [step] at hs
    split at hs <;> cases hs
  | wait | timeout | retire =>
    simp only [step] at hs
    split at hs <;> cases hs
    exact ⟨hreq, hrun⟩

theorem reach_futex {s : State Tid} (h : Reach (step false) anyStep init s) :
    s.requested = false ∧ s.running = false := by
  induction h with
  | refl => exact ⟨rfl, rfl⟩
  | tail _ _ hs ih => exact step_futex ih.1 ih.2 hs

/-- An engine stands between its store of GET and the signal that follows. -/
def State.Signalling (s : State Tid) : Prop :=
  ∃ e c, s.engine e = .stored c ∧ s.target c ≠ 0 ∧ s.target c ≤ s.get c ∨
    s.engine e = .clear c ∨ s.engine e = .signal c

def State.Passed (s : State Tid) (w : Wait) : Prop := ∀ f ∈ w.needs, f.value ≤ s.get f.chan

/-- No lost fence interrupt. The line has been signalled less than `2 ^ 32` times since a
waiter took its sample. If the waiter is asleep on the line's sequence although its wait
is over, it has its signal ahead: an engine has stored GET and will signal, or the char
device's work item has been requested. So when the engines and the work item are idle
the sequence has moved, and the waiter wakes without the timeout. -/
theorem no_lost_interrupt {kmod : Bool} {s : State Tid} (h : Reach (step kmod) anyStep init s) :
    (∀ t w seen, s.waiter t = some (w, .asleep seen) → s.seq < seen + 2 ^ 32 →
      Event.word seen = Event.word s.seq → s.Passed w →
      s.Signalling ∨ kmod = true ∧ (s.requested = true ∨ s.running = true)) ∧
    ∀ t w seen, s.waiter t = some (w, .asleep seen) → s.seq < seen + 2 ^ 32 → s.Passed w →
      (∀ e, s.engine e = .idle) → s.requested = false → s.running = false →
      Event.word seen ≠ Event.word s.seq ∧
        step kmod s (.run t) = some (s.goto t w (.recheck 0)) := by
  have hinv := reach_inv h
  have hmain : ∀ t w seen, s.waiter t = some (w, .asleep seen) → s.Passed w →
      seen < s.seq ∨ s.Signalling ∨ s.requested = true ∨ s.running = true := by
    intro t w seen hw hpassed
    obtain ⟨-, -, f, hf, hwatch⟩ := hinv t w _ hw
    obtain (hlt | ⟨e, c, hdue⟩ | hdue) | ⟨hlt, -⟩ | ⟨he, hpos, hle⟩ := hwatch
    · exact .inl hlt
    · exact .inr (.inl ⟨e, c, .inr hdue⟩)
    · exact .inr (.inr hdue)
    · exact absurd (hpassed f hf) (by omega)
    · exact .inr (.inl ⟨_, _, .inl ⟨he, by omega, hle⟩⟩)
  have hword : ∀ t w seen, s.waiter t = some (w, .asleep seen) → s.seq < seen + 2 ^ 32 →
      (Event.word seen = Event.word s.seq ↔ seen = s.seq) := fun t w seen hw hlt =>
    Event.word_eq_iff_of_lt (hinv t w _ hw).2.1 hlt
  constructor
  · intro t w seen hw hbound hseen hpassed
    rw [hword t w seen hw hbound] at hseen
    obtain hlt | hsig | hwork := hmain t w seen hw hpassed
    · omega
    · exact .inl hsig
    · refine .inr ⟨?_, hwork⟩
      cases kmod with
      | false =>
        obtain ⟨hreq, hrun⟩ := reach_futex h
        simp [hreq, hrun] at hwork
      | true => rfl
  · intro t w seen hw hbound hpassed hidle hreq hrun
    have hlt : seen < s.seq := by
      obtain hlt | ⟨e, c, hsig⟩ | hwork := hmain t w seen hw hpassed
      · exact hlt
      · simp [hidle e] at hsig
      · simp [hreq, hrun] at hwork
    have hne : Event.word seen ≠ Event.word s.seq := by
      rw [Ne, hword t w seen hw hbound]
      omega
    refine ⟨hne, ?_⟩
    simp only [step, hw, waiterStep]
    exact if_neg (Ne.symm hne)

/-- A waiter goes to sleep on fence 1 of a channel, which then retires. -/
def sleepThenRetire : List (Action Unit) :=
  .wait () (.fence ⟨(0, 0), 1⟩) :: List.replicate 8 (.run ()) ++ [.retire (0, 0)]

theorem no_lost_interrupt_one_fence :
    ∃ s, exec (step false) (init : State Unit) sleepThenRetire = some s ∧
      s.waiter () = some (.fence ⟨(0, 0), 1⟩, .asleep 0) ∧ s.seq = 0 ∧ s.Signalling := by
  have hrun : (exec (step false) (init : State Unit) sleepThenRetire).map
      (fun s => (s.waiter (), s.seq, s.get (0, 0))) =
      some (some (.fence ⟨(0, 0), 1⟩, .asleep 0), 0, 1) := by decide +kernel
  obtain ⟨s, hs, hq⟩ := Option.map_eq_some_iff.mp hrun
  simp only [Prod.mk.injEq] at hq
  obtain ⟨hw, hseq, hget⟩ := hq
  have hreach : Reach (step false) anyStep init s := .of_exec .refl hs
  obtain ⟨hsig, -⟩ := no_lost_interrupt hreach
  refine ⟨s, hs, hw, hseq, ?_⟩
  obtain hsig | ⟨hk, -⟩ := hsig () _ 0 hw (by omega) (by rw [hseq]) fun f hf => by
    obtain rfl := List.mem_singleton.mp hf
    exact hget.ge
  · exact hsig
  · cases hk

/-! ### When the word repeats -/

/-- Waiter `true` waits for fence 1 of channel (1, 0) and is about to sleep on its sample
0. That fence has passed. Channel (0, 0) has retired `got` commands and the line has been
signalled `seq` times. -/
def overtaken (got seq target : ℕ) (e : EnginePoint) (other : Option (Wait × Point)) :
    State Bool where
  get r := if r = (0, 0) then got else if r = (1, 0) then 1 else 0
  target r := if r = (0, 0) then target else 0
  engine j := if j = 0 then e else .idle
  seq := seq
  requested := false
  running := false
  waiter t := if t then some (.fence ⟨(1, 0), 1⟩, .enter 0) else other

section Overtaken
variable {got seq target : ℕ} {e : EnginePoint} {other : Option (Wait × Point)}

@[simp] theorem overtaken_waiter :
    (overtaken got seq target e other).waiter false = other := rfl

@[simp] theorem overtaken_get : (overtaken got seq target e other).get (0, 0) = got := rfl

@[simp] theorem overtaken_target : (overtaken got seq target e other).target (0, 0) = target := rfl

@[simp] theorem overtaken_engine : (overtaken got seq target e other).engine 0 = e := rfl

@[simp] theorem overtaken_seq : (overtaken got seq target e other).seq = seq := rfl

@[simp] theorem overtaken_goto (w : Wait) (p : Point) :
    (overtaken got seq target e other).goto false w p =
      overtaken got seq target e (some (w, p)) := by
  simp only [overtaken, State.goto, State.mk.injEq, true_and]
  funext t
  cases t <;> simp

@[simp] theorem overtaken_arm (v : ℕ) :
    { overtaken got seq target e other with
      target := Function.update (overtaken got seq target e other).target (0, 0) v
      seq := seq } = overtaken got seq v e other := by
  simp only [overtaken, State.mk.injEq, true_and, and_true]
  funext r
  by_cases hr : r = (0, 0) <;> simp [hr]

@[simp] theorem overtaken_done :
    { overtaken got seq target e other with
      seq := seq
      waiter := Function.update (overtaken got seq target e other).waiter false none } =
      overtaken got seq target e none := by
  simp only [overtaken, State.mk.injEq, true_and]
  funext t
  cases t <;> simp

theorem update_engine (e e' : EnginePoint) :
    Function.update (fun j : ℕ => if j = 0 then e else .idle) 0 e' =
      fun j => if j = 0 then e' else .idle := by
  funext j
  by_cases hj : j = 0 <;> simp [hj]

theorem overtaken_retire :
    step false (overtaken got seq target .idle other) (.retire (0, 0)) =
      some (overtaken (got + 1) seq target (.stored (0, 0)) other) := by
  simp only [step, overtaken, if_true, update_engine, Option.some.injEq, State.mk.injEq, and_true]
  funext r
  by_cases hr : r = (0, 0) <;> simp [hr]

theorem overtaken_engineStep :
    step false (overtaken got seq target e other) (.engine 0) =
      engineStep false (overtaken got seq target e other) 0 e := rfl

theorem overtaken_signals (hpos : 0 < target) (hle : target ≤ got) :
    exec (step false) (overtaken got seq target (.stored (0, 0)) other)
      (List.replicate 3 (.engine 0)) = some (overtaken got (seq + 1) 0 .idle other) := by
  have hfires : engineStep false (overtaken got seq target (.stored (0, 0)) other) 0
      (.stored (0, 0)) = some (overtaken got seq target (.clear (0, 0)) other) := by
    simp [engineStep, overtaken, update_engine, hle, Nat.ne_of_gt hpos]
  have hclear : engineStep false (overtaken got seq target (.clear (0, 0)) other) 0
      (.clear (0, 0)) = some (overtaken got seq 0 (.signal (0, 0)) other) := by
    simp only [engineStep, overtaken, update_engine, Option.some.injEq, State.mk.injEq, true_and,
      and_true]
    funext r
    by_cases hr : r = (0, 0) <;> simp [hr]
  have hsignal : engineStep false (overtaken got seq 0 (.signal (0, 0)) other) 0
      (.signal (0, 0)) = some (overtaken got (seq + 1) 0 .idle other) := by
    simp [engineStep, overtaken, update_engine]
  simp only [List.replicate_succ, List.replicate_zero, exec, overtaken_engineStep, hfires, hclear,
    hsignal, Option.bind_some]

def nextFence (n : ℕ) : List (Action Bool) :=
  .wait false (.fence ⟨(0, 0), n + 1⟩) :: List.replicate 7 (.run false) ++
    (.retire (0, 0) :: List.replicate 3 (.engine 0)) ++ List.replicate 4 (.run false)

theorem overtaken_next (n : ℕ) :
    exec (step false) (overtaken n seq 0 .idle none) (nextFence n) =
      some (overtaken (n + 1) (seq + 1) 0 .idle none) := by
  have hwait : exec (step false) (overtaken n seq 0 .idle none)
      (.wait false (.fence ⟨(0, 0), n + 1⟩) :: List.replicate 7 (.run false)) =
      some (overtaken n seq (n + 1) .idle (some (.fence ⟨(0, 0), n + 1⟩, .enter seq))) := by
    simp [exec, step, waiterStep, State.look, Wait.needs, State.arms, Nat.not_succ_le_self]
  have hretire : ∀ other, exec (step false) (overtaken n seq (n + 1) .idle other)
      (.retire (0, 0) :: List.replicate 3 (.engine 0)) =
      some (overtaken (n + 1) (seq + 1) 0 .idle other) := fun other => by
    rw [exec, overtaken_retire, Option.bind_some, overtaken_signals (Nat.succ_pos n) le_rfl]
  have hwake : exec (step false) (overtaken (n + 1) (seq + 1) 0 .idle
      (some (.fence ⟨(0, 0), n + 1⟩, .enter seq))) (List.replicate 4 (.run false)) =
      some (overtaken (n + 1) (seq + 1) 0 .idle none) := by
    simp [exec, step, waiterStep, State.look, Wait.needs, Event.word_succ_ne]
  rw [nextFence, exec_append, exec_append, hwait, Option.bind_some, hretire, Option.bind_some,
    hwake]

end Overtaken

def sampled : List (Action Bool) :=
  .wait true (.fence ⟨(1, 0), 1⟩) :: List.replicate 7 (.run true) ++
    .retire (1, 0) :: List.replicate 3 (.engine 1)

theorem sampled_run : exec (step false) init sampled = some (overtaken 0 1 0 .idle none) := by
  have hend : overtaken 0 1 0 .idle none = { (init : State Bool) with
      get := Function.update (fun _ => 0) (1, 0) 1
      seq := 1
      waiter := Function.update (fun _ => none) true (some (.fence ⟨(1, 0), 1⟩, .enter 0)) } := by
    simp only [overtaken, init, State.mk.injEq, ite_self, true_and]
    constructor
    · funext r
      by_cases hr : r = (1, 0) <;> simp [hr]
    · funext t
      cases t <;> simp
  rw [hend]
  simp [sampled, exec, step, waiterStep, engineStep, init, State.look, State.goto, Wait.needs,
    State.arms]

theorem overtaken_reach (n : ℕ) :
    Reach (step false) anyStep init (overtaken n (n + 1) 0 .idle none) := by
  induction n with
  | zero => exact .of_exec .refl sampled_run
  | succ n ih => exact .of_exec ih (overtaken_next n)

/-- Without a bound on the signals the waiter sleeps on, all engines idle. -/
theorem repeated_word_loses_interrupt :
    ¬∀ (s : State Bool) (t : Bool) (w : Wait) (seen : ℕ), Reach (step false) anyStep init s →
      s.waiter t = some (w, .asleep seen) → Event.word seen = Event.word s.seq → s.Passed w →
      s.Signalling := by
  intro hall
  have hreach := overtaken_reach (2 ^ 32 - 1)
  have hn : (2 ^ 32 - 1 + 1 : ℕ) = 2 ^ 32 := by omega
  rw [hn] at hreach
  have hstep : step false (overtaken (2 ^ 32 - 1) (2 ^ 32) 0 .idle none) (.run true) =
      some ((overtaken (2 ^ 32 - 1) (2 ^ 32) 0 .idle none).goto true
        (.fence ⟨(1, 0), 1⟩) (.asleep 0)) := by
    simp only [step, overtaken, if_true, waiterStep, Event.word_wrap]
  obtain ⟨e, c, hsig⟩ := hall _ true (.fence ⟨(1, 0), 1⟩) 0 (hreach.tail trivial hstep)
    (by simp [State.goto]) Event.word_wrap.symm fun f hf => by
      obtain rfl := List.mem_singleton.mp hf
      exact le_rfl
  simp [State.goto, overtaken] at hsig

end SoftGpu.Interrupt
