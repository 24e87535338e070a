import SoftGpu.Runlist

/-!
# Bounded priority inversion

Channel `h` can run and stays so while no priority changes, and a SET_PRIORITY call
that is still under way has seen to the flag. A place of the engine is `Safe` when no
command of a channel with a lower priority can start before the engine has looked at
`h` again: the scan has `h` ahead or a candidate that is as good, or the check at a
command boundary has `h` ahead. Every step keeps `Safe`, and every start of a command
leads to a safe place, so at most one command starts from a place that is not safe.
-/

namespace SoftGpu.Runlist

open Machine

def Ready (s : State) (e h : ℕ) : Prop := Runnable s e h ∧ (s.ch e h).faultFail = 0

instance (s : State) (e h : ℕ) : Decidable (Ready s e h) :=
  inferInstanceAs (Decidable (_ ∧ _))

def Action.setsPriority : Action → Bool
  | .setPriority .. => true
  | _ => false

def startsLower (s : State) (e h : ℕ) (a : Action) : Bool :=
  (starts s e a).any fun c => decide ((s.ch e h).priority < (s.ch e c).priority)

def lowerStarts (e h : ℕ) : State → List Action → ℕ
  | _, [] => 0
  | s, a :: as => (if startsLower s e h a then 1 else 0) +
    match step s a with
    | some t => lowerStarts e h t as
    | none => 0

/-- The run can be taken, `h` is ready in every state of it, and no priority is set. -/
def staysReady (e h : ℕ) : State → List Action → Bool
  | s, [] => decide (Ready s e h)
  | s, a :: as => decide (Ready s e h) && !a.setsPriority &&
    match step s a with
    | some t => staysReady e h t as
    | none => false

theorem staysReady_cons {s : State} {e h : ℕ} {a : Action} {as : List Action}
    (hr : staysReady e h s (a :: as) = true) : Ready s e h ∧ (∀ e' c p, a ≠ .setPriority e' c p) ∧
      ∃ t, step s a = some t ∧ staysReady e h t as = true := by
  simp only [staysReady, Bool.and_eq_true, decide_eq_true_eq, Bool.not_eq_true'] at hr
  obtain ⟨⟨hready, ha⟩, hrest⟩ := hr
  refine ⟨hready, fun e' c p hp => ?_, ?_⟩
  · subst hp
    cases ha
  · split at hrest
    next t ht => exact ⟨t, ht, hrest⟩
    next => cases hrest

/-! ### Safe places -/

def Ahead (s : State) (e h i : ℕ) : Prop := ∃ j, i ≤ j ∧ j < s.numChannels ∧ s.scanned e j = h

def At (s : State) (e h i put : ℕ) : Prop := s.scanned e i = h ∧ (s.ch e h).get < put

def Faithful (s : State) (e : ℕ) (best : Option Pick) : Prop :=
  ∀ p, best = some p → p.prio = (s.ch e p.channel).priority

def Good (s : State) (e h : ℕ) (best : Option Pick) : Prop :=
  ∃ p, best = some p ∧ p.prio ≤ (s.ch e h).priority

def Safe (s : State) (e h : ℕ) : Prop :=
  match (s.eng e).pc with
  | .loadPut i best => Faithful s e best ∧ (Good s e h best ∨ Ahead s e h i)
  | .failRetire i best => Faithful s e best ∧ (Good s e h best ∨ Ahead s e h (i + 1))
  | .takeFail i best put | .loadParked i best put | .waitCheck i best put | .loadPrio i best put =>
    Faithful s e best ∧ (Good s e h best ∨ Ahead s e h (i + 1) ∨ At s e h i put)
  | .head c _ => (s.ch e c).priority ≤ (s.ch e h).priority
  | .loadSelf c _ mixed _ => (s.ch e c).priority ≤ (s.ch e h).priority ∨ mixed = true
  | .other c _ self _ better j _ =>
    (s.ch e c).priority ≤ (s.ch e h).priority ∨
      better = true ∧ self = (s.ch e c).priority ∧ j ≤ h
  | .executing .. | .pushing .. | .publish .. | .reload .. | .boundary .. => True

structure Flagged (s : State) : Prop where
  range : ∀ e c, (s.ch e c).priority ≤ 0
  mixed : s.setting = false → ∀ e < s.numEngines, ∀ c < s.numChannels,
    (s.ch e c).priority ≠ 0 → s.mixedPriority = true

variable {s t : State} {e h c i j put : ℕ} {best : Option Pick} {a : Action}

/-! ### The flag -/

theorem Flagged.new (engines channels : ℕ) : Flagged (.new engines channels) where
  range := fun _ _ => le_refl 0
  mixed := fun _ _ _ _ _ h => absurd rfl h

theorem Flagged.step (hf : Flagged s) (hs : step s a = some t) : Flagged t := by
  by_cases ha : ∃ e c p, a = .setPriority e c p
  · obtain ⟨e, c, p, rfl⟩ := ha
    simp only [Runlist.step, Option.ite_none_right_eq_some, Option.some.injEq] at hs
    obtain ⟨⟨-, -, -, -, hp⟩, rfl⟩ := hs
    refine ⟨fun e' c' => ?_, fun hset => absurd hset (by simp)⟩
    by_cases hc : e' = e ∧ c' = c
    · obtain ⟨rfl, rfl⟩ := hc
      simpa using hp
    · simpa [State.setCh_ne s e c _ hc] using hf.range e' c'
  have ha' : ∀ e c p, a ≠ .setPriority e c p := fun e c p he => ha ⟨e, c, p, he⟩
  have hp := step_priority ha' hs
  refine ⟨fun e c => hp e c ▸ hf.range e c, ?_⟩
  by_cases hm : a = .setMixed
  · subst hm
    simp only [Runlist.step, Option.ite_none_right_eq_some, Option.some.injEq] at hs
    obtain ⟨-, rfl⟩ := hs
    intro _ e he c hc hne
    exact decide_eq_true ⟨e, he, c, hc, hne⟩
  obtain ⟨hset, hmixed⟩ := step_flags ha' hm hs
  intro hidle e he c hc hne
  rw [hmixed]
  exact hf.mixed (hset ▸ hidle) e (step_numEngines hs ▸ he) c (step_numChannels hs ▸ hc)
    (hp e c ▸ hne)

theorem Flagged.mixed_of_lt (hf : Flagged s) (hset : s.setting = true → s.mixedPriority = true)
    (he : e < s.numEngines) (hh : h < s.numChannels)
    (hlt : (s.ch e h).priority < (s.ch e c).priority) : s.mixedPriority = true := by
  have hc := hf.range e c
  cases hs : s.setting with
  | true => exact hset hs
  | false => exact hf.mixed hs e he h hh (by omega)

/-! ### Steps of the other threads -/

theorem Safe.frame (hs : Safe s e h) (heng : t.eng e = s.eng e)
    (hn : t.numChannels = s.numChannels)
    (hp : ∀ c, (t.ch e c).priority = (s.ch e c).priority)
    (hg : (t.ch e h).get = (s.ch e h).get) : Safe t e h := by
  simp only [Safe, Faithful, Good, Ahead, At, State.scanned, heng, hn, hp, hg] at hs ⊢
  exact hs

/-! ### Steps of the engine -/

theorem Faithful.of_priority (hb : Faithful s e best)
    (hp : ∀ c, (t.ch e c).priority = (s.ch e c).priority) : Faithful t e best :=
  fun p hbest => (hb p hbest).trans (hp p.channel).symm

theorem Good.of_priority (hb : Good s e h best)
    (hp : ∀ c, (t.ch e c).priority = (s.ch e c).priority) : Good t e h best := by
  obtain ⟨p, hbest, hle⟩ := hb
  exact ⟨p, hbest, hp h ▸ hle⟩

theorem Ahead.of_rr (ha : Ahead s e h i) (hn : t.numChannels = s.numChannels)
    (hrr : (t.eng e).rr = (s.eng e).rr) : Ahead t e h i := by
  simpa only [Ahead, State.scanned, hn, hrr] using ha

theorem ahead_zero (hh : h < s.numChannels) : Ahead s e h 0 :=
  ⟨place s e h, Nat.zero_le _, place_lt hh, scanned_place hh⟩

theorem safe_endVisit (hh : h < s.numChannels) : Safe (s.endVisit e) e h := by
  simp only [Safe, State.endVisit, State.setPc_pc]
  exact ⟨nofun, .inr (ahead_zero hh)⟩

theorem Ahead.next (ha : Ahead s e h i) : s.scanned e i = h ∨ Ahead s e h (i + 1) := by
  obtain ⟨j, hij, hjn, hj⟩ := ha
  rcases Nat.eq_or_lt_of_le hij with rfl | hlt
  · exact .inl hj
  · exact .inr ⟨j, hlt, hjn, hj⟩

theorem safe_loadPut (hl : Local s e t) (hrr : (t.eng e).rr = (s.eng e).rr)
    (hpc : (t.eng e).pc = .loadPut i best) (hb : Faithful s e best)
    (hgo : Good s e h best ∨ Ahead s e h i) : Safe t e h := by
  simp only [Safe, hpc]
  exact ⟨hb.of_priority hl.priority, hgo.imp (fun hg => hg.of_priority hl.priority)
    fun ha => ha.of_rr hl.numChannels hrr⟩

theorem safe_choose (hi : s.numChannels ≤ i) (hb : Faithful s e best)
    (hgo : Good s e h best ∨ Ahead s e h i) : Safe (s.choose e best) e h := by
  have hgood : Good s e h best := by
    refine hgo.resolve_right ?_
    rintro ⟨j, hij, hjn, -⟩
    omega
  obtain ⟨p, rfl, hp⟩ := hgood
  simp only [State.choose, Safe, State.setPc_pc]
  exact (hb p rfl) ▸ hp

theorem safe_takeFail (hr : Ready s e h) (hb : Faithful s e best)
    (hgo : Good s e h best ∨ Ahead s e h (i + 1) ∨ At s e h i put) :
    Safe (s.takeFail e i best put) e h := by
  have hl := Local.takeFail s e i best put
  simp only [State.takeFail] at hl ⊢
  split_ifs at hl ⊢ with h₁ h₂
  · simp only [Safe, State.setPc_pc]
    refine ⟨hb, hgo.imp id (Or.imp (fun ha => ?_) fun ha => ?_)⟩
    · exact ha.of_rr rfl (by simp)
    · exact ⟨by simpa using ha.1, ha.2⟩
  · -- the failed migration is another channel's
    have hne : s.scanned e i ≠ h := by
      rintro rfl
      exact h₁ hr.2
    exact safe_loadPut hl (by simp) (by simp) hb
      (hgo.imp id fun ha => ha.resolve_right fun hat => hne hat.1)
  · have hne : s.scanned e i ≠ h := by
      rintro rfl
      exact h₁ hr.2
    simp only [Safe, State.setPc_pc]
    refine ⟨hb.of_priority hl.priority, hgo.imp (fun hg => hg.of_priority hl.priority) fun ha => ?_⟩
    exact (ha.resolve_right fun hat => hne hat.1).of_rr rfl (by simp)

theorem safe_loadParked (hr : Ready s e h) (hb : Faithful s e best)
    (hgo : Good s e h best ∨ Ahead s e h (i + 1) ∨ At s e h i put) :
    Safe (s.loadParked e i best put) e h := by
  have hl := Local.loadParked s e i best put
  -- a channel that is passed over is not `h`
  have hpass : ∀ {P : Prop}, P → ((s.scanned e i = h → (s.ch e h).get < put → ¬P)) →
      Good s e h best ∨ Ahead s e h (i + 1) := fun hP hat =>
    hgo.imp id fun ha => ha.resolve_right fun ⟨hsc, hput⟩ => hat hsc hput hP
  simp only [State.loadParked] at hl ⊢
  split_ifs at hl ⊢ with h₁ h₂ h₃
  · refine safe_loadPut hl (by simp) (by simp) hb (hpass h₁ fun hsc _ => ?_)
    rw [hsc, hr.1.1]
    exact Bool.false_ne_true
  · refine safe_loadPut hl (by simp) (by simp) hb (hpass h₂ fun hsc hput => ?_)
    rw [hsc]
    omega
  · refine safe_loadPut hl (by simp) (by simp) hb (hpass h₃ fun hsc hput => ?_)
    rw [hsc]
    omega
  · simp only [Safe, State.setPc_pc]
    refine ⟨hb, hgo.imp id (Or.imp (fun ha => ?_) fun ha => ?_)⟩
    · exact ha.of_rr rfl (by simp)
    · exact ⟨by simpa using ha.1, ha.2⟩

theorem good_better (hsc : c = h ∨ Good s e h best) :
    Good s e h (State.better best ⟨c, (s.ch e c).priority, put⟩) := by
  cases best with
  | none =>
    rcases hsc with rfl | ⟨p, hp, -⟩
    · exact ⟨_, rfl, le_refl _⟩
    · cases hp
  | some q =>
    simp only [State.better]
    rcases hsc with rfl | ⟨p, hp, hle⟩
    · split_ifs with hlt
      · exact ⟨_, rfl, le_refl _⟩
      · exact ⟨q, rfl, not_lt.mp hlt⟩
    · obtain rfl := Option.some.inj hp
      split_ifs with hlt
      · exact ⟨_, rfl, hlt.le.trans hle⟩
      · exact ⟨q, rfl, hle⟩

theorem faithful_better (hb : Faithful s e best) :
    Faithful s e (State.better best ⟨c, (s.ch e c).priority, put⟩) := by
  cases best with
  | none =>
    rintro p ⟨⟩
    rfl
  | some q =>
    simp only [State.better]
    split_ifs
    · rintro p ⟨⟩
      rfl
    · exact hb

theorem safe_otherStep {self : ℤ} {due better : Bool} {stage : Stage} (hr : Ready s e h)
    (hh : h < s.numChannels)
    (hs : (s.ch e c).priority ≤ (s.ch e h).priority ∨
      better = true ∧ self = (s.ch e c).priority ∧ j ≤ h) :
    Safe (s.otherStep e c put self due better j stage) e h := by
  by_cases hlow : (s.ch e c).priority ≤ (s.ch e h).priority
  · -- whatever it finds, the engine goes on with `c` or scans again
    simp only [State.otherStep, State.noOther]
    split_ifs
    · simp only [Safe, State.setPc_pc]
      exact .inl hlow
    · simp only [Safe, State.setPc_pc]
      exact hlow
    · split
      · simp only [Safe, State.setPc_pc]
        exact .inl hlow
      · exact safe_endVisit hh
    · simp only [Safe, State.setPc_pc]
      exact .inl hlow
  obtain ⟨rfl, rfl, hj⟩ := hs.resolve_left hlow
  have hpass : j = h → s.passes e c (s.ch e c).priority true j stage = true := by
    rintro rfl
    have hne : j ≠ c := fun hjc => hlow (hjc ▸ le_refl _)
    obtain ⟨⟨hparked, hput, hwait⟩, -⟩ := hr
    cases stage with
    | prio => simpa [State.passes, hne] using not_le.mp hlow
    | parked => simpa [State.passes] using hparked
    | put => simpa [State.passes] using hput
    | wait => simpa [State.passes] using hwait
  simp only [State.otherStep]
  rw [if_neg (by omega)]
  split
  · split
    · simp only [Safe, State.setPc_pc]
      exact .inr ⟨trivial, rfl, hj⟩
    · exact safe_endVisit hh
  next hno =>
    simp only [Safe, State.setPc_pc]
    have hjh : j ≠ h := fun hjh => hno (hpass hjh)
    exact .inr ⟨trivial, rfl, by omega⟩

theorem safe_engineStep (hr : Ready s e h) (hh : h < s.numChannels) (hs : Safe s e h)
    (ht : s.engineStep e = some t) : Safe t e h := by
  have hl := Local.engineStep ht
  unfold State.engineStep at ht
  split at ht <;> simp only [Option.some.injEq, reduceCtorEq] at ht <;> subst ht
  next i best hpc =>
    simp only [Safe, hpc] at hs
    split
    next hi => exact safe_choose hi hs.1 hs.2
    next hi =>
      simp only [Safe, State.setPc_pc]
      refine ⟨hs.1, hs.2.imp id fun ha => ?_⟩
      rcases ha.next with hsc | ha
      · exact .inr ⟨by simpa using hsc, hsc ▸ hr.1.2.1⟩
      · exact .inl (ha.of_rr rfl (by simp))
  next i best put hpc =>
    simp only [Safe, hpc] at hs
    exact safe_takeFail hr hs.1 hs.2
  next i best hpc =>
    simp only [Safe, hpc] at hs
    exact safe_loadPut hl (by simp) (by simp) hs.1 hs.2
  next i best put hpc =>
    simp only [Safe, hpc] at hs
    exact safe_loadParked hr hs.1 hs.2
  next i best put hpc =>
    simp only [Safe, hpc] at hs
    split_ifs at hl ⊢ with hw
    · refine safe_loadPut hl (by simp) (State.setPc_pc _ _ _) hs.1 (hs.2.imp id fun ha => ?_)
      refine ha.resolve_right fun hat => ?_
      rw [hat.1, hr.1.2.2] at hw
      cases hw
    · simp only [Safe, State.setPc_pc]
      refine ⟨hs.1, hs.2.imp id (Or.imp (fun ha => ?_) fun ha => ?_)⟩
      · exact ha.of_rr rfl (by simp)
      · exact ⟨by simpa using ha.1, ha.2⟩
  next i best put hpc =>
    simp only [Safe, hpc] at hs
    refine safe_loadPut hl (by simp) (State.setPc_pc _ _ _) (faithful_better hs.1) ?_
    rcases hs.2 with hg | ha | hat
    · exact .inl (good_better (.inr hg))
    · exact .inr ha
    · exact .inl (good_better (.inl hat.1))
  next c put hpc =>
    simp only [Safe, hpc] at hs
    simp only [State.atHead]
    split_ifs
    · exact safe_endVisit hh
    · exact safe_endVisit hh
    · split <;> simp only [Safe, State.setPc_pc]
  next => exact safe_endVisit (s := s.pushFault _) hh
  next => simp only [Safe, State.setPc_pc]
  next =>
    split_ifs
    · exact safe_endVisit hh
    · simp only [Safe, State.setPc_pc]
    · simp only [Safe, State.setPc_pc]
  next c put mixed due hpc =>
    simp only [Safe, hpc] at hs
    simp only [Safe, State.setPc_pc]
    exact hs.imp id fun hm => ⟨hm, rfl, Nat.zero_le h⟩
  next c put self due better j stage hpc =>
    simp only [Safe, hpc] at hs
    exact safe_otherStep hr hh hs

theorem Safe.step (hs : Safe s e h) (hf : Flagged s)
    (hset : s.setting = true → s.mixedPriority = true) (he : e < s.numEngines)
    (hh : h < s.numChannels) (hr : Ready s e h) (ha : ∀ e' c p, a ≠ .setPriority e' c p)
    (ht : step s a = some t) : Safe t e h := by
  by_cases hown : a.engineOf = some e
  swap
  · obtain ⟨heng, hget⟩ := step_frame hown ht
    exact hs.frame heng (step_numChannels ht) (step_priority ha ht e) (hget h)
  cases a with
  | engine e' =>
    obtain rfl := Option.some.inj hown
    simp only [Runlist.step, Option.ite_none_right_eq_some] at ht
    exact safe_engineStep hr hh hs ht.2
  | execute e' out =>
    obtain rfl := Option.some.inj hown
    simp only [Runlist.step] at ht
    split at ht
    next c put hpc =>
      simp only [Option.ite_none_right_eq_some, Option.some.injEq] at ht
      obtain ⟨-, rfl⟩ := ht
      cases out <;> simp only [State.finishExecute, Safe, State.setPc_pc]
    next => cases ht
  | boundary e' due =>
    obtain rfl := Option.some.inj hown
    simp only [Runlist.step] at ht
    split at ht
    next c put hpc =>
      simp only [Option.ite_none_right_eq_some, Option.some.injEq] at ht
      obtain ⟨-, rfl⟩ := ht
      by_cases hlow : (s.ch e' c).priority ≤ (s.ch e' h).priority
      · simp only [State.atBoundary]
        split_ifs <;> simp only [Safe, State.setPc_pc]
        · exact .inl hlow
        · exact hlow
      · have hmixed := hf.mixed_of_lt hset he hh (not_le.mp hlow)
        simp [State.atBoundary, hmixed, Safe]
    next => cases ht
  | _ => cases hown

/-! ### At most one start -/

theorem startsLower_safe (hs : Safe s e h) : startsLower s e h a = false := by
  rw [Bool.eq_false_iff]
  intro hlow
  obtain ⟨c, hc, hlt⟩ := (Option.any_eq_true _ _).mp hlow
  cases a with
  | engine e' =>
    simp only [starts] at hc
    split at hc
    next c' put hpc =>
      simp only [Option.ite_none_right_eq_some, Option.some.injEq] at hc
      obtain ⟨-, rfl⟩ := hc
      simp only [Safe, hpc] at hs
      exact absurd (of_decide_eq_true hlt) (not_lt.mpr hs)
    next => cases hc
  | _ => cases hc

theorem safe_of_starts (hst : starts s e a = some c) (ht : step s a = some t) : Safe t e h := by
  cases a with
  | engine e' =>
    simp only [starts] at hst
    split at hst
    next c' put hpc =>
      simp only [Option.ite_none_right_eq_some, Option.some.injEq] at hst
      obtain ⟨⟨rfl, hget, hw⟩, rfl⟩ := hst
      simp only [Runlist.step, Option.ite_none_right_eq_some, State.engineStep, hpc,
        Option.some.injEq] at ht
      obtain ⟨-, rfl⟩ := ht
      simp only [State.atHead, hget, hw, Bool.false_eq_true, if_false]
      split <;> simp only [Safe, State.setPc_pc]
    next => cases hst
  | _ => cases hst

theorem step_setting (ha : ∀ e' c p, a ≠ .setPriority e' c p)
    (hset : s.setting = true → s.mixedPriority = true) (ht : step s a = some t) :
    t.setting = true → t.mixedPriority = true := by
  by_cases hm : a = .setMixed
  · subst hm
    simp only [Runlist.step, Option.ite_none_right_eq_some, Option.some.injEq] at ht
    obtain ⟨-, rfl⟩ := ht
    exact fun hs => absurd hs Bool.false_ne_true
  · obtain ⟨hsetting, hmixed⟩ := step_flags ha hm ht
    rw [hsetting, hmixed]
    exact hset

theorem lowerStarts_safe {as : List Action} (hs : Safe s e h) (hf : Flagged s)
    (hset : s.setting = true → s.mixedPriority = true) (he : e < s.numEngines)
    (hh : h < s.numChannels) (hr : staysReady e h s as = true) : lowerStarts e h s as = 0 := by
  induction as generalizing s with
  | nil => rfl
  | cons a as ih =>
    obtain ⟨hready, ha, t, ht, hrest⟩ := staysReady_cons hr
    simp only [lowerStarts, startsLower_safe hs, Bool.false_eq_true, if_false, ht, Nat.zero_add]
    exact ih (hs.step hf hset he hh hready ha ht) (hf.step ht) (step_setting ha hset ht)
      (step_numEngines ht ▸ he) (step_numChannels ht ▸ hh) hrest

/-- While channel `h` stays ready and no priority is set, at most one command of a
channel with a lower priority starts. A SET_PRIORITY call that is under way when `h`
becomes ready has raised the flag, or found it raised. -/
theorem priority_inversion_bounded {engines channels : ℕ} {as : List Action}
    (hreach : Reach step anyStep (.new engines channels) s)
    (hset : s.setting = true → s.mixedPriority = true) (he : e < s.numEngines)
    (hh : h < s.numChannels) (hr : staysReady e h s as = true) : lowerStarts e h s as ≤ 1 := by
  have hf : Flagged s := hreach.invariant (P := Flagged) (.new engines channels)
    fun _ _ _ hi _ hs => hi.step hs
  clear hreach
  induction as generalizing s with
  | nil => exact Nat.zero_le 1
  | cons a as ih =>
    obtain ⟨hready, ha, t, ht, hrest⟩ := staysReady_cons hr
    have hf' := hf.step ht
    have hset' := step_setting ha hset ht
    have he' : e < t.numEngines := step_numEngines ht ▸ he
    have hh' : h < t.numChannels := step_numChannels ht ▸ hh
    simp only [lowerStarts, ht]
    split
    next hlow =>
      -- the one start; from there on the engine is at safe places
      obtain ⟨c, hc, -⟩ := (Option.any_eq_true _ _).mp hlow
      rw [lowerStarts_safe (safe_of_starts hc ht) hf' hset' he' hh' hrest]
    next =>
      rw [Nat.zero_add]
      exact ih hset' he' hh' hrest hf'

/-- Channel 1 has the higher priority. Its command arrives when the scan has passed it
and channel 0 is the candidate. -/
def lateArrival : List Action :=
  [.setPriority 0 1 (-1), .setMixed, .submit 0 0 [.work, .work]] ++ List.replicate 8 (.engine 0) ++
    [.submit 0 1 [.work]]

/-- The engine executes one command of channel 0 and then one of channel 1. -/
def inversion : List Action :=
  [.engine 0, .engine 0, .execute 0 (.done 0 .init), .engine 0, .engine 0, .boundary 0 false] ++
    List.replicate 18 (.engine 0)

theorem priority_inversion_bounded_lateArrival :
    ∃ s, exec step (.new 1 2) lateArrival = some s ∧ staysReady 0 1 s inversion = true ∧
      lowerStarts 0 1 s inversion = 1 ∧ lowerStarts 0 1 s inversion ≤ 1 ∧
      (exec step s inversion).map (fun t => (t.eng 0).pc) = some (.executing 1 1) := by
  have hrun : (exec step (.new 1 2) lateArrival).map (fun s =>
      (decide ((s.setting = true → s.mixedPriority = true) ∧ s.numEngines = 1 ∧
        s.numChannels = 2),
        staysReady 0 1 s inversion, lowerStarts 0 1 s inversion,
        (exec step s inversion).map fun t => (t.eng 0).pc)) =
      some (true, true, 1, some (.executing 1 1)) := by decide +kernel
  obtain ⟨s, hs, hq⟩ := Option.map_eq_some_iff.mp hrun
  simp only [Prod.mk.injEq, decide_eq_true_eq] at hq
  obtain ⟨⟨hset, hn, hm⟩, hready, hone, hpc⟩ := hq
  refine ⟨s, hs, hready, hone, ?_, hpc⟩
  exact priority_inversion_bounded (.of_exec .refl hs) hset (by omega) (by omega) hready

def flagPending : List Action :=
  [.submit 0 0 [.work, .work, .work]] ++ List.replicate 10 (.engine 0) ++
    [.setPriority 0 1 (-1), .submit 0 1 [.work]]

def uncheckedSlices : List Action :=
  let again := [.execute 0 (.done 0 .init), .engine 0, .engine 0, .boundary 0 false, .engine 0]
  again ++ again

theorem pending_flag_skips_checks :
    ¬∀ (engines channels : ℕ) (s : State) (e h : ℕ) (as : List Action),
      Reach step anyStep (.new engines channels) s → e < s.numEngines → h < s.numChannels →
      staysReady e h s as = true → lowerStarts e h s as ≤ 1 := by
  intro hall
  have hrun : (exec step (.new 1 2) flagPending).map (fun s =>
      (decide (s.numEngines = 1 ∧ s.numChannels = 2), staysReady 0 1 s uncheckedSlices,
        lowerStarts 0 1 s uncheckedSlices)) = some (true, true, 2) := by decide +kernel
  obtain ⟨s, hs, hq⟩ := Option.map_eq_some_iff.mp hrun
  simp only [Prod.mk.injEq, decide_eq_true_eq] at hq
  obtain ⟨⟨hn, hm⟩, hready, htwo⟩ := hq
  have hle := hall 1 2 s 0 1 uncheckedSlices (.of_exec .refl hs) (by omega) (by omega) hready
  omega

end SoftGpu.Runlist
