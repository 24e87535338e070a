import SoftGpu.Runlist

/-!
# Round robin among equal priorities

A visit moves the cursor of its engine behind the channel that was visited, whatever
its priority. Channel `c` was visited and channel `d` of the same priority waits: then
`d` comes before `c` in the scans, until a visit moves the cursor past `d` and not
past `c`. Only the visit of a channel with a higher priority can do that: among equals
the first one in the scan is taken. In a run without such a visit `c` is not visited
again before `d`.
-/

namespace SoftGpu.Runlist

open Machine

def Waits (e c d : ℕ) (s : State) : Prop :=
  Runnable s e d ∧ (s.ch e d).priority = (s.ch e c).priority

def passesBy (e c d : ℕ) (s : State) (a : Action) : Prop :=
  Waits e c d s ∧ visits s e a ≠ some c ∧ visits s e a ≠ some d

instance (e c d : ℕ) (s : State) : Decidable (Waits e c d s) :=
  inferInstanceAs (Decidable (_ ∧ _))

def visited (e : ℕ) : State → List Action → List ℕ
  | _, [] => []
  | s, a :: as => (visits s e a).toList ++
    match step s a with
    | some t => visited e t as
    | none => []

def keepsOrder (s : State) (e c d : ℕ) (p : Pick) : Prop :=
  p.prio < (s.ch e d).priority → place s e d < place s e p.channel →
    place s e c ≤ place s e p.channel

def orderAt (s : State) (e c d : ℕ) : Pc → Prop
  | .loadPut i (some p) => s.numChannels ≤ i → keepsOrder s e c d p
  | .takeFail i _ _ => s.scanned e i = d → (s.ch e d).faultFail = 0
  | _ => True

def inOrder (e c d : ℕ) (s : State) : Action → Prop
  | .engine e' => e' = e → orderAt s e c d (s.eng e).pc
  | _ => True

instance (s : State) (e c d : ℕ) (p : Pick) : Decidable (keepsOrder s e c d p) :=
  inferInstanceAs (Decidable (_ → _ → _))

instance (s : State) (e c d : ℕ) : ∀ pc, Decidable (orderAt s e c d pc)
  | .loadPut i (some p) => inferInstanceAs (Decidable (s.numChannels ≤ i → keepsOrder s e c d p))
  | .takeFail i _ _ =>
    inferInstanceAs (Decidable (s.scanned e i = d → (s.ch e d).faultFail = 0))
  | .loadPut _ none | .failRetire .. | .loadParked .. | .waitCheck .. | .loadPrio .. | .head ..
  | .executing .. | .pushing .. | .publish .. | .reload .. | .boundary .. | .loadSelf ..
  | .other .. => .isTrue trivial

instance (e c d : ℕ) (s : State) (a : Action) : Decidable (inOrder e c d s a) :=
  match a with
  | .engine e' => inferInstanceAs (Decidable (e' = e → orderAt s e c d (s.eng e).pc))
  | .execute .. | .boundary .. | .popFault | .serviced _ | .storeFail | .unpark | .submit ..
  | .setPriority .. | .setMixed => .isTrue trivial

/-! ### The order after a visit -/

variable {s t : State} {e c d x i put : ℕ} {best : Option Pick} {a : Action}

theorem place_after (hrr : (t.eng e).rr = (x + 1) % s.numChannels)
    (hn : t.numChannels = s.numChannels) (hx : x < s.numChannels) (hc : c < s.numChannels) :
    place t e c = if place s e x < place s e c then place s e c - place s e x - 1
      else place s e c + s.numChannels - place s e x - 1 := by
  have hlt := place_lt (e := e) hc
  have hltx := place_lt (e := e) hx
  -- the channel at that place of the new scan is `c`
  have hscan : ∀ j, t.scanned e j = ((s.eng e).rr + (place s e x + 1 + j)) % s.numChannels := by
    intro j
    have hx' : ((s.eng e).rr + place s e x) % s.numChannels = x := scanned_place hx
    calc t.scanned e j = (x + (1 + j)) % s.numChannels := by
          rw [State.scanned, hrr, hn, Nat.mod_add_mod, Nat.add_assoc]
      _ = ((s.eng e).rr + place s e x + (1 + j)) % s.numChannels := by
          rw [← Nat.mod_add_mod ((s.eng e).rr + place s e x), hx']
      _ = ((s.eng e).rr + (place s e x + 1 + j)) % s.numChannels := by
          rw [Nat.add_assoc, Nat.add_assoc]
  symm
  refine eq_place (by rw [hn]; split <;> omega) ?_
  rw [hscan]
  split
  next h =>
    rw [show place s e x + 1 + (place s e c - place s e x - 1) = place s e c by omega]
    exact scanned_place hc
  next h =>
    rw [show place s e x + 1 + (place s e c + s.numChannels - place s e x - 1) =
      place s e c + s.numChannels by omega, ← Nat.add_assoc, Nat.add_mod_right]
    exact scanned_place hc

theorem place_lt_after (hrr : (t.eng e).rr = (x + 1) % s.numChannels)
    (hn : t.numChannels = s.numChannels) (hx : x < s.numChannels) (hc : c < s.numChannels)
    (hd : d < s.numChannels) (hcx : c ≠ x) (hdx : d ≠ x)
    (hkeep : place s e d < place s e x → place s e c ≤ place s e x)
    (hlt : place s e d < place s e c) : place t e d < place t e c := by
  have hcx' : place s e c ≠ place s e x := fun h => hcx (place_inj hc hx h)
  have hdx' : place s e d ≠ place s e x := fun h => hdx (place_inj hd hx h)
  have hltx := place_lt (e := e) hx
  have hltc := place_lt (e := e) hc
  rw [place_after hrr hn hx hc, place_after hrr hn hx hd]
  split_ifs <;> omega

theorem place_lt_visited (hrr : (t.eng e).rr = (c + 1) % s.numChannels)
    (hn : t.numChannels = s.numChannels) (hc : c < s.numChannels) (hd : d < s.numChannels)
    (hdc : d ≠ c) : place t e d < place t e c := by
  have hne : place s e d ≠ place s e c := fun h => hdc (place_inj hd hc h)
  have hltc := place_lt (e := e) hc
  have hltd := place_lt (e := e) hd
  rw [place_after hrr hn hc hc, place_after hrr hn hc hd]
  split_ifs <;> omega

/-! ### The order during a scan -/

/-- The candidate at place `i` of a scan: it is not `c`, and once the scan has passed
`d` it is better than `d`, or as good and not behind it. -/
structure Candidate (s : State) (e c d i : ℕ) (best : Option Pick) : Prop where
  other : ∀ q, best = some q →
    q.channel ≠ c ∧ q.channel < s.numChannels ∧ place s e q.channel < i
  good : place s e d < i → ∃ q, best = some q ∧ q.prio ≤ (s.ch e d).priority ∧
    (q.prio < (s.ch e d).priority ∨ place s e q.channel ≤ place s e d)

def SeesHead (s : State) (e d i put : ℕ) : Prop := place s e d = i → (s.ch e d).get < put

structure Ordered (s : State) (e c d : ℕ) : Prop where
  lt : place s e d < place s e c
  scan : match (s.eng e).pc with
    | .loadPut i best => Candidate s e c d i best
    | .failRetire i best => Candidate s e c d (i + 1) best
    | .takeFail i best put | .loadParked i best put | .waitCheck i best put
    | .loadPrio i best put =>
      i < s.numChannels ∧ Candidate s e c d i best ∧ SeesHead s e d i put
    | _ => True

theorem place_eq (hrr : (t.eng e).rr = (s.eng e).rr) (hn : t.numChannels = s.numChannels) (c : ℕ) :
    place t e c = place s e c := by
  rw [place, place, hrr, hn]

theorem Candidate.of_local (h : Candidate s e c d i best) (hrr : (t.eng e).rr = (s.eng e).rr)
    (hn : t.numChannels = s.numChannels) (hp : (t.ch e d).priority = (s.ch e d).priority) :
    Candidate t e c d i best where
  other := fun q hq => by
    rw [hn, place_eq hrr hn]
    exact h.other q hq
  good := fun hi => by
    rw [place_eq hrr hn] at hi
    simpa only [hp, place_eq hrr hn] using h.good hi

theorem Candidate.next (h : Candidate s e c d i best) (hi : place s e d ≠ i) :
    Candidate s e c d (i + 1) best where
  other := fun q hq => by
    obtain ⟨hc, hn, hlt⟩ := h.other q hq
    exact ⟨hc, hn, Nat.lt_succ_of_lt hlt⟩
  good := fun hlt => h.good (by omega)

theorem candidate_nil : Candidate s e c d 0 none where
  other := nofun
  good := nofun

/-- The channel at place `i` is taken into account. The candidate never becomes `c`,
because `d` came before. -/
theorem Candidate.better (h : Candidate s e c d i best) (hi : i < s.numChannels)
    (hlt : place s e d < place s e c)
    (hp : (s.ch e d).priority = (s.ch e c).priority) (hd : d < s.numChannels) :
    Candidate s e c d (i + 1) (State.better best
      ⟨s.scanned e i, (s.ch e (s.scanned e i)).priority, put⟩) := by
  have hatC : s.scanned e i = c → place s e c = i := fun hsc => (eq_place hi hsc).symm
  have hrange : s.scanned e i < s.numChannels := Nat.mod_lt _ (Nat.zero_lt_of_lt hi)
  have hplace : place s e (s.scanned e i) < i + 1 := by
    rw [place_scanned hi]
    exact Nat.lt_succ_self i
  refine ⟨fun q hq => ?_, fun hlt' => ?_⟩
  · cases best with
    | none =>
      obtain rfl := Option.some.inj hq
      refine ⟨fun hsc => ?_, hrange, hplace⟩
      obtain ⟨q, hq', -⟩ := h.good (hatC hsc ▸ hlt)
      cases hq'
    | some b =>
      simp only [State.better] at hq
      split_ifs at hq with hb
      · obtain rfl := Option.some.inj hq
        refine ⟨fun hsc => ?_, hrange, hplace⟩
        -- at the place of `c` the candidate is as good as `d`, hence as `c`
        obtain ⟨q, hq', hle, -⟩ := h.good (hatC hsc ▸ hlt)
        obtain rfl := Option.some.inj hq'
        simp only [show s.scanned e i = c from hsc] at hb
        omega
      · obtain rfl := Option.some.inj hq
        obtain ⟨hc, hn, hbi⟩ := h.other b rfl
        exact ⟨hc, hn, Nat.lt_succ_of_lt hbi⟩
  · by_cases hid : place s e d = i
    · have hsc : s.scanned e i = d := hid ▸ scanned_place hd
      cases best with
      | none => exact ⟨_, rfl, by rw [hsc], .inr (by rw [hsc])⟩
      | some b =>
        simp only [State.better, hsc]
        split_ifs with hb
        · exact ⟨_, rfl, le_refl _, .inr (le_refl _)⟩
        · -- the first one among equals stays
          obtain ⟨-, -, hbi⟩ := h.other b rfl
          exact ⟨b, rfl, not_lt.mp hb, .inr (by omega)⟩
    · obtain ⟨q, rfl, hle, hfirst⟩ := h.good (by omega)
      simp only [State.better]
      split_ifs with hb
      · exact ⟨_, rfl, hb.le.trans hle, .inl (hb.trans_le hle)⟩
      · exact ⟨q, rfl, hle, hfirst⟩

theorem Ordered.frame (h : Ordered s e c d) (heng : t.eng e = s.eng e)
    (hn : t.numChannels = s.numChannels) (hp : (t.ch e d).priority = (s.ch e d).priority)
    (hg : (t.ch e d).get = (s.ch e d).get) : Ordered t e c d := by
  have hrr : (t.eng e).rr = (s.eng e).rr := by rw [heng]
  have hpl := place_eq hrr hn
  refine ⟨by rw [hpl, hpl]; exact h.lt, ?_⟩
  have hscan := h.scan
  rw [heng]
  split at hscan
  all_goals first
    | exact trivial
    | exact hscan.of_local hrr hn hp
    | exact ⟨hn ▸ hscan.1, hscan.2.1.of_local hrr hn hp,
        fun hi => hg ▸ hscan.2.2 (hpl d ▸ hi)⟩

/-! ### Steps of the engine -/

def Outside : Pc → Prop
  | .loadPut i best => i = 0 ∧ best = none
  | .failRetire .. | .takeFail .. | .loadParked .. | .waitCheck .. | .loadPrio .. => False
  | _ => True

theorem Ordered.outside (h : Ordered s e c d) (hl : Local s e t)
    (hrr : (t.eng e).rr = (s.eng e).rr)
    (hscan : Outside (t.eng e).pc) : Ordered t e c d := by
  have hpl := place_eq hrr hl.numChannels
  refine ⟨by rw [hpl, hpl]; exact h.lt, ?_⟩
  cases hpc : (t.eng e).pc with
  | loadPut i best =>
    rw [hpc] at hscan
    obtain ⟨rfl, rfl⟩ := hscan
    exact candidate_nil
  | failRetire | takeFail | loadParked | waitCheck | loadPrio =>
    rw [hpc] at hscan
    exact hscan.elim
  | _ => trivial

theorem Ordered.loadPut (h : Ordered s e c d) (hl : Local s e t)
    (hrr : (t.eng e).rr = (s.eng e).rr) (hpc : (t.eng e).pc = .loadPut i best)
    (hc : Candidate s e c d i best) : Ordered t e c d := by
  have hpl := place_eq hrr hl.numChannels
  refine ⟨by rw [hpl, hpl]; exact h.lt, ?_⟩
  rw [hpc]
  exact hc.of_local hrr hl.numChannels (hl.priority d)

theorem Ordered.failRetire (h : Ordered s e c d) (hl : Local s e t)
    (hrr : (t.eng e).rr = (s.eng e).rr) (hpc : (t.eng e).pc = .failRetire i best)
    (hc : Candidate s e c d (i + 1) best) : Ordered t e c d := by
  have hpl := place_eq hrr hl.numChannels
  refine ⟨by rw [hpl, hpl]; exact h.lt, ?_⟩
  rw [hpc]
  exact hc.of_local hrr hl.numChannels (hl.priority d)

theorem Ordered.look {pc : Pc} (h : Ordered s e c d) (hi : i < s.numChannels)
    (hc : Candidate s e c d i best) (hsee : SeesHead s e d i put)
    (hpc : pc = .takeFail i best put ∨ pc = .loadParked i best put ∨ pc = .waitCheck i best put ∨
      pc = .loadPrio i best put) : Ordered (s.setPc e pc) e c d := by
  have hrr := s.setPc_rr e pc e
  have hpl := place_eq (t := s.setPc e pc) hrr rfl
  refine ⟨by rw [hpl, hpl]; exact h.lt, ?_⟩
  rw [State.setPc_pc]
  have hall : i < s.numChannels ∧ Candidate (s.setPc e pc) e c d i best ∧
      SeesHead (s.setPc e pc) e d i put :=
    ⟨hi, hc.of_local hrr rfl rfl, fun hd => hsee (hpl d ▸ hd)⟩
  rcases hpc with rfl | rfl | rfl | rfl <;> exact hall

theorem Ordered.choose (h : Ordered s e c d) (hd : d < s.numChannels) (hcn : c < s.numChannels)
    (hi : s.numChannels ≤ i) (hc : Candidate s e c d i best)
    (hok : ∀ p, best = some p → keepsOrder s e c d p)
    (hnd : ∀ p, best = some p → p.channel ≠ d) : Ordered (s.choose e best) e c d := by
  obtain ⟨p, rfl, -, hp⟩ := hc.good (by have := place_lt (e := e) hd; omega)
  obtain ⟨hpc, hpn, -⟩ := hc.other p rfl
  refine ⟨?_, by simp [State.choose]⟩
  refine place_lt_after (x := p.channel) (s := s) (by simp [State.choose]) rfl hpn hcn hd
    (Ne.symm hpc) (Ne.symm (hnd p rfl)) (fun hlt => ?_) h.lt
  rcases hp with hhigh | hfirst
  · exact hok p rfl hhigh hlt
  · omega

theorem Ordered.takeFail (h : Ordered s e c d) (hd : d < s.numChannels)
    (hi : i < s.numChannels) (hc : Candidate s e c d i best) (hsee : SeesHead s e d i put)
    (hok : s.scanned e i = d → (s.ch e d).faultFail = 0) :
    Ordered (s.takeFail e i best put) e c d := by
  have hl := Local.takeFail s e i best put
  have hne : (s.ch e (s.scanned e i)).faultFail ≠ 0 → place s e d ≠ i := by
    rintro hf rfl
    rw [scanned_place hd] at hf hok
    exact hf (hok rfl)
  simp only [State.takeFail] at hl ⊢
  split_ifs at hl ⊢ with h₁ h₂
  · exact h.look hi hc hsee (.inr (.inl rfl))
  · exact h.loadPut hl (by simp) (State.setPc_pc _ _ _) (hc.next (hne h₁))
  · exact h.failRetire hl (by simp) (State.setPc_pc _ _ _) (hc.next (hne h₁))

theorem Ordered.loadParked (h : Ordered s e c d) (hd : d < s.numChannels)
    (hi : i < s.numChannels) (hc : Candidate s e c d i best) (hsee : SeesHead s e d i put)
    (hw : Waits e c d s) : Ordered (s.loadParked e i best put) e c d := by
  have hl := Local.loadParked s e i best put
  simp only [State.loadParked] at hl ⊢
  split_ifs at hl ⊢ with h₁ h₂ h₃
  · refine h.loadPut hl (by simp) (State.setPc_pc _ _ _) (hc.next ?_)
    rintro rfl
    rw [scanned_place hd, hw.1.1] at h₁
    cases h₁
  · refine h.loadPut hl (by simp) (State.setPc_pc _ _ _) (hc.next ?_)
    rintro rfl
    have := hsee rfl
    rw [scanned_place hd] at h₂
    omega
  · refine h.loadPut hl (by simp) (State.setPc_pc _ _ _) (hc.next ?_)
    rintro rfl
    have := hsee rfl
    rw [scanned_place hd] at h₃
    omega
  · exact h.look hi hc hsee (.inr (.inr (.inl rfl)))

theorem Ordered.engineStep (h : Ordered s e c d) (hd : d < s.numChannels)
    (hcn : c < s.numChannels) (hw : Waits e c d s) (hok : inOrder e c d s (.engine e))
    (hnd : visits s e (.engine e) ≠ some d) (ht : s.engineStep e = some t) : Ordered t e c d := by
  have hl := Local.engineStep ht
  have hscan := h.scan
  unfold State.engineStep at ht
  split at ht <;> simp only [Option.some.injEq, reduceCtorEq] at ht <;> subst ht
  next i best hpc =>
    rw [hpc] at hscan
    split_ifs at hl ⊢ with hi
    · refine h.choose hd hcn hi hscan (fun p hp => ?_) fun p hp hpd => hnd ?_
      · subst hp
        simp only [inOrder, hpc, orderAt] at hok
        exact hok trivial hi
      · subst hp
        simp only [visits, hpc]
        rw [if_pos ⟨trivial, hi⟩, hpd]
    · refine h.look (by omega) hscan (fun hdi => ?_) (.inl rfl)
      subst hdi
      rw [scanned_place hd]
      exact hw.1.2.1
  next i best put hpc =>
    rw [hpc] at hscan
    simp only [inOrder, hpc, orderAt] at hok
    exact h.takeFail hd hscan.1 hscan.2.1 hscan.2.2 (hok trivial)
  next i best hpc =>
    rw [hpc] at hscan
    exact h.loadPut hl (by simp) (State.setPc_pc _ _ _) hscan
  next i best put hpc =>
    rw [hpc] at hscan
    exact h.loadParked hd hscan.1 hscan.2.1 hscan.2.2 hw
  next i best put hpc =>
    rw [hpc] at hscan
    obtain ⟨hi, hc, hsee⟩ := hscan
    split_ifs at hl ⊢ with hb
    · refine h.loadPut hl (by simp) (State.setPc_pc _ _ _) (hc.next ?_)
      rintro rfl
      rw [scanned_place hd, hw.1.2.2] at hb
      cases hb
    · exact h.look hi hc hsee (.inr (.inr (.inr rfl)))
  next i best put hpc =>
    rw [hpc] at hscan
    obtain ⟨hi, hc, hsee⟩ := hscan
    exact h.loadPut hl (by simp) (State.setPc_pc _ _ _) (hc.better hi h.lt hw.2 hd)
  next c' put hpc =>
    refine h.outside hl ?_ ?_
    · simp only [State.atHead]
      split_ifs
      · exact State.setPc_rr _ _ _ _
      · exact State.setPc_rr _ _ _ _
      · split <;> exact State.setPc_rr _ _ _ _
    · simp only [State.atHead]
      split_ifs
      · simp [Outside, State.endVisit]
      · simp [Outside, State.endVisit]
      · split <;> simp [Outside]
  next => exact h.outside hl (State.setPc_rr _ _ _ _) (by simp [Outside, State.endVisit])
  next => exact h.outside hl (State.setPc_rr _ _ _ _) (by simp [Outside])
  next =>
    split_ifs at hl ⊢
    · exact h.outside hl (State.setPc_rr _ _ _ _) (by simp [Outside, State.endVisit])
    · exact h.outside hl (State.setPc_rr _ _ _ _) (by simp [Outside])
    · exact h.outside hl (State.setPc_rr _ _ _ _) (by simp [Outside])
  next => exact h.outside hl (State.setPc_rr _ _ _ _) (by simp [Outside])
  next c' put self due better j stage hpc =>
    refine h.outside hl ?_ ?_
    · simp only [State.otherStep, State.noOther]
      split_ifs
      · exact State.setPc_rr _ _ _ _
      · exact State.setPc_rr _ _ _ _
      · split <;> exact State.setPc_rr _ _ _ _
      · exact State.setPc_rr _ _ _ _
    · simp only [State.otherStep, State.noOther]
      split_ifs
      · simp [Outside]
      · simp [Outside]
      · split <;> simp [Outside, State.endVisit]
      · simp [Outside]

theorem waits_priority (hdc : d ≠ c) (hs : Waits e c d s) (ht : Waits e c d t)
    (hstep : step s a = some t) : (t.ch e d).priority = (s.ch e d).priority := by
  by_cases ha : ∃ e' c' p, a = .setPriority e' c' p
  · obtain ⟨e', c', p, rfl⟩ := ha
    simp only [Runlist.step, Option.ite_none_right_eq_some, Option.some.injEq] at hstep
    obtain ⟨-, rfl⟩ := hstep
    by_cases hd : e = e' ∧ d = c'
    · obtain ⟨rfl, rfl⟩ := hd
      have hc : (s.setCh e d { s.ch e d with priority := p }).ch e c = s.ch e c :=
        State.setCh_ne s e d _ fun h => hdc h.2.symm
      exact ht.2.trans ((congrArg Chan.priority hc).trans hs.2.symm)
    · exact congrArg Chan.priority (State.setCh_ne s e' c' _ hd)
  · exact step_priority (fun e' c' p hp => ha ⟨e', c', p, hp⟩) hstep e d

theorem Ordered.step (h : Ordered s e c d) (hdc : d ≠ c) (hd : d < s.numChannels)
    (hcn : c < s.numChannels) (hok : inOrder e c d s a) (hs : passesBy e c d s a)
    (ht : Waits e c d t)
    (hstep : step s a = some t) : Ordered t e c d := by
  by_cases hown : a.engineOf = some e
  swap
  · obtain ⟨heng, hget⟩ := step_frame hown hstep
    exact h.frame heng (step_numChannels hstep) (waits_priority hdc hs.1 ht hstep) (hget d)
  have hl := step_local hown hstep
  cases a with
  | engine e' =>
    obtain rfl := Option.some.inj hown
    simp only [Runlist.step, Option.ite_none_right_eq_some] at hstep
    exact h.engineStep hd hcn hs.1 hok hs.2.2 hstep.2
  | execute e' out =>
    obtain rfl := Option.some.inj hown
    simp only [Runlist.step] at hstep
    split at hstep
    next c' put hpc =>
      simp only [Option.ite_none_right_eq_some, Option.some.injEq] at hstep
      obtain ⟨-, rfl⟩ := hstep
      cases out <;> exact h.outside hl (State.setPc_rr _ _ _ _)
        (by simp [Outside, State.finishExecute])
    next => cases hstep
  | boundary e' due =>
    obtain rfl := Option.some.inj hown
    simp only [Runlist.step] at hstep
    split at hstep
    next c' put hpc =>
      simp only [Option.ite_none_right_eq_some, Option.some.injEq] at hstep
      obtain ⟨-, rfl⟩ := hstep
      refine h.outside hl ?_ ?_
      · simp only [State.atBoundary]
        split_ifs <;> exact State.setPc_rr _ _ _ _
      · simp only [State.atBoundary]
        split_ifs <;> simp [Outside]
    next => cases hstep
  | _ => cases hown

theorem ordered_visited (hcn : c < s.numChannels) (hd : d < s.numChannels) (hdc : d ≠ c)
    (hvisit : visits s e a = some c) (hstep : step s a = some t) : Ordered t e c d := by
  cases a with
  | engine e' =>
    simp only [visits] at hvisit
    split at hvisit
    next i p hpc =>
      simp only [Option.ite_none_right_eq_some, Option.some.injEq] at hvisit
      obtain ⟨⟨rfl, hi⟩, rfl⟩ := hvisit
      simp only [step, Option.ite_none_right_eq_some, State.engineStep, hpc, if_pos hi,
        Option.some.injEq] at hstep
      obtain ⟨-, rfl⟩ := hstep
      exact ⟨place_lt_visited (s := s) (by simp [State.choose]) rfl hcn hd hdc,
        by simp [State.choose]⟩
    next => cases hvisit
  | _ => cases hvisit

theorem Ordered.run {as : List Action} (h : Ordered s e c d) (hdc : d ≠ c)
    (hd : d < s.numChannels) (hcn : c < s.numChannels)
    (hrun : exec (when (fun s a => inOrder e c d s a ∧ Waits e c d s) Runlist.step) s as = some t)
    (hc' : c ∉ visited e s as) (hd' : d ∉ visited e s as) (hw : Waits e c d t) :
    Ordered t e c d := by
  induction as generalizing s with
  | nil =>
    obtain rfl := Option.some.inj hrun
    exact h
  | cons a as ih =>
    simp only [exec, when, Option.bind_eq_some_iff, Option.ite_none_right_eq_some] at hrun
    obtain ⟨u, ⟨⟨hok, hws⟩, hu⟩, hrest⟩ := hrun
    simp only [visited, hu, List.mem_append, Option.mem_toList, not_or] at hc' hd'
    have hwu : Waits e c d u := by
      cases as with
      | nil =>
        obtain rfl := Option.some.inj hrest
        exact hw
      | cons b bs =>
        simp only [exec, when, Option.bind_eq_some_iff, Option.ite_none_right_eq_some] at hrest
        obtain ⟨v, ⟨⟨-, hwu⟩, -⟩, -⟩ := hrest
        exact hwu
    have hn := step_numChannels hu
    exact ih (h.step hdc hd hcn hok ⟨hws, hc'.1, hd'.1⟩ hwu hu) (by omega) (by omega) hrest
      hc'.2 hd'.2

theorem Ordered.visits_ne (h : Ordered s e c d) : visits s e a ≠ some c := by
  intro hvisit
  have hscan := h.scan
  cases a with
  | engine e' =>
    simp only [visits] at hvisit
    split at hvisit
    next i p hpc =>
      simp only [Option.ite_none_right_eq_some, Option.some.injEq] at hvisit
      rw [hpc] at hscan
      exact (hscan.other p rfl).1 hvisit.2
    next => cases hvisit
  | _ => cases hvisit

/-- Channel `c` is visited, then other channels, and then `c` again. A channel `d` of the
same priority that waits all the time in between is visited in between, if every step
keeps the order. -/
theorem equal_priorities_take_turns {b : Action} {u : State} {as : List Action}
    (hcn : c < s.numChannels) (hd : d < s.numChannels) (hdc : d ≠ c)
    (hvisit : visits s e a = some c) (hstep : step s a = some t)
    (hrun : exec (when (fun s a => inOrder e c d s a ∧ Waits e c d s) step) t as = some u)
    (hwaits : Waits e c d u) (hagain : visits u e b = some c) (honce : c ∉ visited e t as) :
    d ∈ visited e t as := by
  by_contra hnot
  have hn := step_numChannels hstep
  have hord := (ordered_visited hcn hd hdc hvisit hstep).run hdc (by omega) (by omega) hrun
    honce hnot hwaits
  exact hord.visits_ne hagain

/-- Two channels with two commands each. The scan ends with channel 0. -/
def evenScan : List Action :=
  [.submit 0 0 [.work, .work], .submit 0 1 [.work, .work]] ++ List.replicate 10 (.engine 0)

/-- The time slice is over after the first command of either channel. -/
def turns : List Action :=
  let slice := [.engine 0, .execute 0 (.done 0 .init), .engine 0, .engine 0, .boundary 0 true] ++
    List.replicate 6 (.engine 0)
  slice ++ List.replicate 11 (.engine 0) ++ slice ++ List.replicate 9 (.engine 0)

theorem equal_priorities_take_turns_slices : ∃ s t u,
    exec step (.new 1 2) evenScan = some s ∧ visits s 0 (.engine 0) = some 0 ∧
      step s (.engine 0) = some t ∧ exec step t turns = some u ∧
      visits u 0 (.engine 0) = some 0 ∧ 1 ∈ visited 0 t turns := by
  have hrun : ((exec step (.new 1 2) evenScan).bind fun s => (step s (.engine 0)).bind fun t =>
      (exec (when (fun s a => inOrder 0 0 1 s a ∧ Waits 0 0 1 s) step) t turns).map fun u =>
        decide (visits s 0 (.engine 0) = some 0 ∧ s.numChannels = 2 ∧ Waits 0 0 1 u ∧
          visits u 0 (.engine 0) = some 0 ∧ 0 ∉ visited 0 t turns)) = some true := by
    decide +kernel
  obtain ⟨s, hs, hrun⟩ := Option.bind_eq_some_iff.mp hrun
  obtain ⟨t, ht, hrun⟩ := Option.bind_eq_some_iff.mp hrun
  obtain ⟨u, hu, hq⟩ := Option.map_eq_some_iff.mp hrun
  obtain ⟨hvisit, hn, hwaits, hagain, honce⟩ := of_decide_eq_true hq
  have hu' : exec step t turns = some u := exec_of_when hu
  exact ⟨s, t, u, hs, hvisit, ht, hu', hagain, equal_priorities_take_turns (by omega) (by omega)
    (by decide) hvisit ht hu hwaits hagain honce⟩

/-- Channels 0 and 1 have the default priority and a command each, channel 0 one more;
channel 2 has a higher priority. The scan ends with channel 0. -/
def firstScan : List Action :=
  [.setPriority 0 2 (-1), .setMixed, .submit 0 0 [.work, .work], .submit 0 1 [.work]] ++
    List.replicate 13 (.engine 0)

/-- A command arrives on channel 2 while channel 0 executes its first one. The visit to
channel 2 moves the cursor from channel 1 to channel 0. -/
def preempted : List Action :=
  [.engine 0, .submit 0 2 [.work], .execute 0 (.done 0 .init), .engine 0, .engine 0,
    .boundary 0 false] ++ List.replicate 24 (.engine 0) ++ [.execute 0 (.done 0 .init)] ++
    List.replicate 15 (.engine 0)

theorem preempted_channel_overtakes :
    ¬∀ (s t u : State) (c d : ℕ) (a b : Action) (as : List Action),
      Reach step anyStep (.new 1 3) s → c < s.numChannels → d < s.numChannels → d ≠ c →
      visits s 0 a = some c → step s a = some t →
      exec (when (fun s _ => Waits 0 c d s) step) t as = some u → Waits 0 c d u →
      visits u 0 b = some c → (step u b).isSome → c ∉ visited 0 t as → d ∈ visited 0 t as := by
  intro hall
  have hrun : ((exec step (.new 1 3) firstScan).bind fun s => (step s (.engine 0)).bind fun t =>
      (exec (when (fun s _ => Waits 0 0 1 s) step) t preempted).map fun u =>
        decide (visits s 0 (.engine 0) = some 0 ∧ s.numChannels = 3 ∧ Waits 0 0 1 u ∧
          visits u 0 (.engine 0) = some 0 ∧ (step u (.engine 0)).isSome ∧
          visited 0 t preempted = [2])) = some true := by
    decide +kernel
  obtain ⟨s, hs, hrun⟩ := Option.bind_eq_some_iff.mp hrun
  obtain ⟨t, ht, hrun⟩ := Option.bind_eq_some_iff.mp hrun
  obtain ⟨u, hu, hq⟩ := Option.map_eq_some_iff.mp hrun
  obtain ⟨hvisit, hn, hwaits, hagain, hstep, hvisited⟩ := of_decide_eq_true hq
  have hd := hall s t u 0 1 (.engine 0) (.engine 0) preempted (.of_exec .refl hs) (by omega)
    (by omega) (by decide) hvisit ht hu hwaits hagain hstep (by rw [hvisited]; decide)
  rw [hvisited] at hd
  exact absurd hd (by decide)

end SoftGpu.Runlist
