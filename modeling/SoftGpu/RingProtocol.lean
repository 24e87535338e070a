import SoftGpu.RingInvariant

/-!
# What the ring guarantees

One step never lowers PUT, the mirror or GET and never overwrites a cell whose
command is published and not retired. The retirement log is the issue order cut
at GET. Progress: whatever the producers and the engine are doing, the enqueues
already begun can be carried through until every claimed command has retired.
-/

namespace SoftGpu.Ring
open Machine

variable {Tid Cmd : Type*} [DecidableEq Tid] {cfg : Config Cmd} {s s' : State Tid Cmd}
  {a : Action Tid Cmd}

structure StepEffect (cfg : Config Cmd) (s s' : State Tid Cmd) (a : Action Tid Cmd) : Prop where
  put_le : s.put ≤ s'.put
  mirror_le : s.mirror ≤ s'.mirror
  get_le : s.get ≤ s'.get
  issued : s'.issued = s.issued ∨ ∃ t c, a = .reserve t c ∧ s.point t = .idle ∧
    s'.point t = .reserved s.issued.length c ∧ s'.issued = s.issued ++ [c]
  cells : ∀ q, s.get ≤ q → q < s.put → s'.ring (q &&& cfg.mask) = s.ring (q &&& cfg.mask)

theorem producerStep_effect (h : Inv cfg s) {t : Tid} (hpr : a.producer = some t)
    (hs : producerStep cfg s t a = some s') : StepEffect cfg s s' a := by
  have hget := h.get_le
  cases a with
  | acquire =>
    simp only [producerStep, Option.ite_none_right_eq_some, Option.some.injEq] at hs
    obtain ⟨-, rfl⟩ := hs
    exact ⟨le_rfl, le_rfl, le_rfl, .inl rfl, fun _ _ _ => rfl⟩
  | release =>
    simp only [producerStep] at hs
    split at hs <;> simp only [Option.ite_none_right_eq_some, Option.some.injEq, reduceCtorEq] at hs
    obtain ⟨-, rfl⟩ := hs
    exact ⟨le_rfl, le_rfl, le_rfl, .inl rfl, fun _ _ _ => rfl⟩
  | reserve u cmd =>
    simp only [Action.producer, Option.some.injEq] at hpr
    subst hpr
    simp only [producerStep] at hs
    split at hs <;> try simp only [reduceCtorEq] at hs
    rename_i hidle
    obtain ⟨r, rfl, -, -⟩ := h.fresh hidle hs
    exact ⟨le_rfl, le_rfl, le_rfl, .inr ⟨u, cmd, rfl, hidle, by simp, rfl⟩, fun _ _ _ => rfl⟩
  | test =>
    simp only [producerStep] at hs
    split at hs <;> try simp only [reduceCtorEq] at hs
    split_ifs at hs <;> rw [Option.some.injEq] at hs <;> subst hs <;>
      exact ⟨le_rfl, le_rfl, le_rfl, .inl rfl, fun _ _ _ => rfl⟩
  | unstall =>
    simp only [producerStep] at hs
    split at hs <;> try simp only [reduceCtorEq] at hs
    split_ifs at hs
    rw [Option.some.injEq] at hs
    subst hs
    exact ⟨le_rfl, le_rfl, le_rfl, .inl rfl, fun _ _ _ => rfl⟩
  | write =>
    simp only [producerStep] at hs
    split at hs <;> simp only [Option.some.injEq, reduceCtorEq] at hs
    rename_i k c ht
    subst hs
    have hput := h.put_le_claim (t := t) (k := k) (c := c) (by simp [ht, Point.early])
      (by simp [ht, Point.claim]) (by simp [ht])
    exact ⟨le_rfl, le_rfl, le_rfl, .inl rfl, fun q hq hqp =>
      h.write_cell ht hq (by omega) (by omega)⟩
  | await =>
    simp only [producerStep] at hs
    split at hs <;> try simp only [reduceCtorEq] at hs
    split_ifs at hs
    rw [Option.some.injEq] at hs
    subst hs
    exact ⟨le_rfl, le_rfl, le_rfl, .inl rfl, fun _ _ _ => rfl⟩
  | ring =>
    simp only [producerStep] at hs
    split at hs <;> simp only [Option.some.injEq, reduceCtorEq] at hs
    rename_i k c ht
    subst hs
    have hput := h.put_le_claim (t := t) (k := k) (c := c) (by simp [ht, Point.early])
      (by simp [ht, Point.claim]) (by simp [ht])
    exact ⟨hput.trans (Nat.le_succ k), le_rfl, le_rfl, .inl rfl, fun _ _ _ => rfl⟩
  | hand =>
    simp only [producerStep] at hs
    split at hs <;> simp only [Option.some.injEq, reduceCtorEq] at hs
    rename_i k c ht
    subst hs
    have hk := (h.points t).turn k c (.inr ht)
    exact ⟨le_rfl, by change s.mirror ≤ k + 1; omega, le_rfl, .inl rfl, fun _ _ _ => rfl⟩
  | ret =>
    simp only [producerStep] at hs
    split at hs <;> simp only [Option.some.injEq, reduceCtorEq] at hs
    subst hs
    exact ⟨le_rfl, le_rfl, le_rfl, .inl rfl, fun _ _ _ => rfl⟩
  | _ => simp [producerStep] at hs

structure DeviceEffect (s s' : State Tid Cmd) : Prop where
  put : s'.put = s.put
  mirror : s'.mirror = s.mirror
  issued : s'.issued = s.issued
  point : s'.point = s.point
  ring : s'.ring = s.ring
  get_le : s.get ≤ s'.get

namespace DeviceEffect

omit [DecidableEq Tid] in
theorem refl (s : State Tid Cmd) : DeviceEffect s s := ⟨rfl, rfl, rfl, rfl, rfl, le_rfl⟩

omit [DecidableEq Tid] in
theorem trans {s₁ s₂ s₃ : State Tid Cmd} (h₁ : DeviceEffect s₁ s₂) (h₂ : DeviceEffect s₂ s₃) :
    DeviceEffect s₁ s₃ where
  put := h₂.put.trans h₁.put
  mirror := h₂.mirror.trans h₁.mirror
  issued := h₂.issued.trans h₁.issued
  point := h₂.point.trans h₁.point
  ring := h₂.ring.trans h₁.ring
  get_le := h₁.get_le.trans h₂.get_le

end DeviceEffect

omit [DecidableEq Tid] in
theorem engineStep_effect (hs : engineStep cfg s a = some s') : DeviceEffect s s' := by
  have hmove : ∀ {e : EnginePoint Cmd} {pk ff st bw : Bool} {fs : FaultStage}, DeviceEffect s
      { s with
        engine := e, parked := pk, faultFail := ff, fault := fs, sticky := st, backwards := bw } :=
    ⟨rfl, rfl, rfl, rfl, rfl, le_rfl⟩
  have hadv : ∀ {e : EnginePoint Cmd} {st : Bool} {c : Cmd}, DeviceEffect s
      { s.advance c with engine := e, sticky := st } :=
    ⟨rfl, rfl, rfl, rfl, rfl, Nat.le_succ _⟩
  cases a with
  | exchange | probe =>
    simp only [engineStep] at hs
    split at hs <;> try simp only [reduceCtorEq] at hs
    split_ifs at hs <;> exact Option.some.inj hs ▸ hmove
  | retire =>
    simp only [engineStep] at hs
    split at hs <;> try simp only [reduceCtorEq] at hs
    exact Option.some.inj hs ▸ hadv
  | failHead =>
    simp only [engineStep] at hs
    split at hs <;> try simp only [reduceCtorEq] at hs
    split_ifs at hs
    · exact Option.some.inj hs ▸ hmove
    · exact Option.some.inj hs ▸ hadv
  | load | leave =>
    simp only [engineStep] at hs
    split at hs <;> try simp only [reduceCtorEq] at hs
    exact Option.some.inj hs ▸ hmove
  | start | reload | park =>
    simp only [engineStep] at hs
    split at hs <;> try simp only [reduceCtorEq] at hs
    split_ifs at hs
    exact Option.some.inj hs ▸ hmove
  | _ => simp [engineStep] at hs

omit [DecidableEq Tid] in
theorem faultStep_effect (hs : faultStep s a = some s') : DeviceEffect s s' := by
  cases a with
  | migrated | migrationFailed | unpark =>
    simp only [faultStep, Option.ite_none_right_eq_some, Option.some.injEq] at hs
    obtain ⟨-, rfl⟩ := hs
    exact ⟨rfl, rfl, rfl, rfl, rfl, le_rfl⟩
  | _ => simp [faultStep] at hs

theorem step_effect (h : Inv cfg s) (hs : step cfg s a = some s') : StepEffect cfg s s' a := by
  have hdev : DeviceEffect s s' → StepEffect cfg s s' a := fun hd =>
    ⟨hd.put.ge, hd.mirror.ge, hd.get_le, .inl hd.issued, fun _ _ _ => by rw [hd.ring]⟩
  rcases step_cases hs with ⟨t, ht, hp⟩ | he | hf
  · exact producerStep_effect h ht hp
  · exact hdev (engineStep_effect he)
  · exact hdev (faultStep_effect hf)

/-! ### Progress -/

def noClaim (_ : State Tid Cmd) (a : Action Tid Cmd) : Prop := ∀ t c, a ≠ .reserve t c

theorem device_move (cfg : Config Cmd) (s : State Tid Cmd) (a : Action Tid Cmd)
    (s' : State Tid Cmd) (ha : a.producer = none)
    (hs : engineStep cfg s a = some s' ∨ engineStep cfg s a = none ∧ faultStep s a = some s') :
    Reach (step cfg) noClaim s s' ∧ DeviceEffect s s' := by
  have hne : noClaim s a := by
    rintro t c rfl
    simp [Action.producer] at ha
  rcases hs with he | ⟨he, hf⟩
  · exact ⟨.tail .refl hne (by simp [step, ha, he]), engineStep_effect he⟩
  · exact ⟨.tail .refl hne (by simp [step, ha, he, hf]), faultStep_effect hf⟩

def DeviceRuns (cfg : Config Cmd) (s : State Tid Cmd) (Q : State Tid Cmd → Prop) : Prop :=
  ∃ s', Reach (step cfg) noClaim s s' ∧ DeviceEffect s s' ∧ Q s'

namespace DeviceRuns
variable {P Q : State Tid Cmd → Prop}

theorem here (hq : Q s) : DeviceRuns cfg s Q := ⟨s, .refl, .refl s, hq⟩

theorem next (a : Action Tid Cmd) (s' : State Tid Cmd) (ha : a.producer = none)
    (hs : engineStep cfg s a = some s') (h : DeviceRuns cfg s' Q) : DeviceRuns cfg s Q := by
  obtain ⟨u, hr, hd, hq⟩ := h
  have hm := device_move cfg s a s' ha (.inl hs)
  exact ⟨u, hm.1.trans hr, hm.2.trans hd, hq⟩

theorem served (a : Action Tid Cmd) (s' : State Tid Cmd) (ha : a.producer = none)
    (he : engineStep cfg s a = none) (hs : faultStep s a = some s') (h : DeviceRuns cfg s' Q) :
    DeviceRuns cfg s Q := by
  obtain ⟨u, hr, hd, hq⟩ := h
  have hm := device_move cfg s a s' ha (.inr ⟨he, hs⟩)
  exact ⟨u, hm.1.trans hr, hm.2.trans hd, hq⟩

theorem andThen (h : DeviceRuns cfg s P) (hpq : ∀ u, Reach (step cfg) noClaim s u →
    DeviceEffect s u → P u → DeviceRuns cfg u Q) : DeviceRuns cfg s Q := by
  obtain ⟨u, hr, hd, hp⟩ := h
  obtain ⟨v, hr', hd', hq⟩ := hpq u hr hd hp
  exact ⟨v, hr.trans hr', hd.trans hd', hq⟩

end DeviceRuns

theorem to_scan (cfg : Config Cmd) (s : State Tid Cmd) :
    DeviceRuns cfg s fun u => u.engine = .scan := by
  have hvisit : ∀ s : State Tid Cmd, ∀ p, s.engine = .visit p →
      DeviceRuns cfg s fun u => u.engine = .scan := fun s p he =>
    .next .leave { s with engine := .scan } rfl (by simp [engineStep, he]) (.here rfl)
  have hfailing : ∀ s : State Tid Cmd, ∀ p, s.engine = .failing p →
      DeviceRuns cfg s fun u => u.engine = .scan := by
    intro s p he
    by_cases hp : p = s.get
    · exact .next .failHead { s with engine := .scan } rfl
        (by simp [engineStep, he, hp]) (.here rfl)
    · exact .next .failHead
        { s.advance (s.ring (s.get &&& cfg.mask)) with engine := .scan } rfl
        (by simp only [engineStep, he, if_neg hp]) (.here rfl)
  have hprobed : ∀ s : State Tid Cmd, ∀ p, s.engine = .probed p →
      DeviceRuns cfg s fun u => u.engine = .scan := by
    intro s p he
    by_cases hp : s.parked = true ∨ p = s.get
    · exact .next .probe { s with engine := .scan } rfl (by simp [engineStep, he, hp]) (.here rfl)
    · by_cases hlt : p < s.get
      · exact .next .probe { s with engine := .scan, sticky := true, backwards := true } rfl
          (by simp only [engineStep, he, if_neg hp, if_pos hlt]) (.here rfl)
      · exact .next .probe { s with engine := .visit p } rfl
          (by simp only [engineStep, he, if_neg hp, if_neg hlt]) (hvisit _ p rfl)
  cases he : s.engine with
  | scan => exact .here he
  | visit p => exact hvisit s p he
  | failing p => exact hfailing s p he
  | probed p => exact hprobed s p he
  | executing p c =>
    exact .next (.retire false) { s.advance c with engine := .visit p } rfl
      (by simp [engineStep, he, State.advance]) (hvisit _ p rfl)
  | loaded p =>
    by_cases hf : s.faultFail = true
    · exact .next .exchange { s with engine := .failing p, faultFail := false, sticky := true } rfl
        (by simp [engineStep, he, hf]) (hfailing _ p rfl)
    · exact .next .exchange { s with engine := .probed p } rfl
        (by simp [engineStep, he, hf]) (hprobed _ p rfl)

theorem reach_keep_inv {ok : State Tid Cmd → Action Tid Cmd → Prop} (h : Inv cfg s)
    (hr : Reach (step cfg) ok s s') : Inv cfg s' :=
  hr.invariant h fun _ _ _ hi _ hs => step_inv hi hs

theorem unparked (h : Inv cfg s) (he : s.engine = .scan) :
    DeviceRuns cfg s fun u => u.engine = .scan ∧ u.parked = false := by
  by_cases hp : s.parked = true
  · cases hf : s.fault with
    | none => exact absurd hf (h.faulted hp)
    | pending =>
      exact .served .migrated { s with parked := false, fault := .none } rfl (by simp [engineStep])
        (by simp [faultStep, hf]) (.here ⟨he, rfl⟩)
    | reported =>
      exact .served .unpark { s with parked := false, fault := .none } rfl (by simp [engineStep])
        (by simp [faultStep, hf]) (.here ⟨he, rfl⟩)
  · exact .here ⟨he, by simpa using hp⟩

/-- The outstanding fault of the channel is served and a stored failure is
consumed, so the scan can pass. -/
theorem settle (h : Inv cfg s) : DeviceRuns cfg s fun u =>
    u.engine = .scan ∧ u.parked = false ∧ u.faultFail = false := by
  refine (to_scan cfg s).andThen fun s₁ hr₁ _ he₁ => ?_
  refine (unparked (reach_keep_inv h hr₁) he₁).andThen fun s₂ _ _ ⟨he₂, hp₂⟩ => ?_
  by_cases hf : s₂.faultFail = true
  · refine .next .load { s₂ with engine := .loaded s₂.put } rfl (by simp [engineStep, he₂]) ?_
    refine .next .exchange
      { s₂ with engine := .failing s₂.put, faultFail := false, sticky := true } rfl
      (by simp [engineStep, hf]) ?_
    by_cases hput : s₂.put = s₂.get
    · exact .next .failHead { s₂ with engine := .scan, faultFail := false, sticky := true } rfl
        (by simp [engineStep, hput]) (.here ⟨rfl, hp₂, rfl⟩)
    · exact .next .failHead
        { s₂.advance (s₂.ring (s₂.get &&& cfg.mask)) with
          engine := .scan, faultFail := false, sticky := true } rfl
        (by simp only [engineStep, if_neg hput]; rfl) (.here ⟨rfl, hp₂, rfl⟩)
  · exact .here ⟨he₂, hp₂, by simpa using hf⟩

theorem drain (h : Inv cfg s) : DeviceRuns cfg s fun u => u.get = u.put := by
  induction hn : s.put - s.get using Nat.strong_induction_on generalizing s with
  | _ n ih =>
    refine (settle h).andThen fun s₁ hr₁ hd₁ ⟨he, hp, hf⟩ => ?_
    have h₁ := reach_keep_inv h hr₁
    have hle := h₁.get_le
    by_cases hput : s₁.get = s₁.put
    · exact .here hput
    · -- Load, exchange, probe, start and retire the head, then go on by induction.
      set c := s₁.ring (s₁.get &&& cfg.mask)
      have hrun : DeviceRuns cfg s₁ fun u => u.get = s₁.get + 1 := by
        refine .next .load { s₁ with engine := .loaded s₁.put } rfl (by simp [engineStep, he]) ?_
        refine .next .exchange { s₁ with engine := .probed s₁.put } rfl
          (by simp [engineStep, hf]) ?_
        refine .next .probe { s₁ with engine := .visit s₁.put } rfl ?_ ?_
        · simp only [engineStep, hp, Bool.false_eq_true, false_or, if_neg (Ne.symm hput),
            if_neg (not_lt.mpr hle)]
        refine .next .start { s₁ with engine := .executing s₁.put c } rfl
          (by simp only [engineStep, if_neg (Ne.symm hput), c]) ?_
        exact .next (.retire false) { s₁.advance c with engine := .visit s₁.put } rfl
          (by simp [engineStep, State.advance]) (.here rfl)
      refine hrun.andThen fun s₂ hr₂ hd₂ hg₂ => ?_
      have hlt : s₂.put - s₂.get < n := by
        have h₂ := hd₁.put
        have h₃ := hd₁.get_le
        have h₄ := hd₂.put
        omega
      exact ih _ hlt (reach_keep_inv h₁ hr₂) rfl

def Pushes (cfg : Config Cmd) (s : State Tid Cmd) (k : ℕ) : Prop :=
  ∃ s', Reach (step cfg) noClaim s s' ∧ s'.issued = s.issued ∧ s'.mirror = k + 1

theorem Pushes.of_step {k : ℕ} (a : Action Tid Cmd) (s' : State Tid Cmd) (ha : noClaim s a)
    (hs : step cfg s a = some s') (hi : s'.issued = s.issued) (h : Pushes cfg s' k) :
    Pushes cfg s k := by
  obtain ⟨u, hr, hu, hm⟩ := h
  exact ⟨u, (Reach.tail .refl ha hs).trans hr, hu.trans hi, hm⟩

/-- The producer whose slot is the mirror's gets through `enqueue` once the
engine has caught up, whatever its program point. -/
theorem push (h : Inv cfg s) {t : Tid} {k : ℕ} {c : Cmd} (he : (s.point t).early = true)
    (hc : (s.point t).claim = some (k, c)) (hk : s.mirror = k) (hg : k ≤ s.get) :
    Pushes cfg s k := by
  have hd := depth_pos cfg
  have hrung : ∀ s : State Tid Cmd, s.point t = .rung k c → Pushes cfg s k := fun s hp =>
    .of_step (.hand t)
      { s with mirror := k + 1, point := Function.update s.point t (.published k c) }
      (by simp [noClaim]) (by simp only [step, Action.producer, producerStep, hp]) rfl
      ⟨_, .refl, rfl, rfl⟩
  have hturn : ∀ s : State Tid Cmd, s.point t = .turn k c → Pushes cfg s k := fun s hp =>
    .of_step (.ring t) { s with put := k + 1, point := Function.update s.point t (.rung k c) }
      (by simp [noClaim]) (by simp only [step, Action.producer, producerStep, hp]) rfl
      (hrung _ (by simp))
  have hwritten : ∀ s : State Tid Cmd, s.mirror = k → s.point t = .written k c →
      Pushes cfg s k := fun s hm hp =>
    .of_step (.await t) (s.goto t (.turn k c)) (by simp [noClaim])
      (by simp only [step, Action.producer, producerStep, hp, hm, or_true, if_true]) rfl
      (hturn _ (by simp [State.goto]))
  have hcleared : ∀ s : State Tid Cmd, s.mirror = k → s.point t = .cleared k c →
      Pushes cfg s k := fun s hm hp =>
    .of_step (.write t)
      { s with
        ring := Function.update s.ring (k &&& cfg.mask) c
        point := Function.update s.point t (.written k c) }
      (by simp [noClaim]) (by simp only [step, Action.producer, producerStep, hp]) rfl
      (hwritten _ hm (by simp))
  cases hp : s.point t with
  | idle => simp [hp, Point.early] at he
  | published => simp [hp, Point.early] at he
  | reserved j d =>
    simp only [hp, Point.claim, Option.some.injEq, Prod.mk.injEq] at hc
    obtain ⟨rfl, rfl⟩ := hc
    refine .of_step (.test t) (s.goto t (.cleared j d)) (by simp [noClaim]) ?_ rfl
      (hcleared _ hk (by simp [State.goto]))
    simp only [step, Action.producer, producerStep, hp]
    rw [if_neg (by omega)]
  | stalled j d =>
    simp only [hp, Point.claim, Option.some.injEq, Prod.mk.injEq] at hc
    obtain ⟨rfl, rfl⟩ := hc
    refine .of_step (.unstall t) (s.goto t (.cleared j d)) (by simp [noClaim]) ?_ rfl
      (hcleared _ hk (by simp [State.goto]))
    have hj := (h.points t).stalled j d hp
    simp only [step, Action.producer, producerStep, hp]
    rw [if_pos (by omega)]
  | cleared j d =>
    simp only [hp, Point.claim, Option.some.injEq, Prod.mk.injEq] at hc
    obtain ⟨rfl, rfl⟩ := hc
    exact hcleared s hk hp
  | written j d =>
    simp only [hp, Point.claim, Option.some.injEq, Prod.mk.injEq] at hc
    obtain ⟨rfl, rfl⟩ := hc
    exact hwritten s hk hp
  | turn j d =>
    simp only [hp, Point.claim, Option.some.injEq, Prod.mk.injEq] at hc
    obtain ⟨rfl, rfl⟩ := hc
    exact hturn s hp
  | rung j d =>
    simp only [hp, Point.claim, Option.some.injEq, Prod.mk.injEq] at hc
    obtain ⟨rfl, rfl⟩ := hc
    exact hrung s hp

theorem all_retire (h : Inv cfg s) : ∃ s', Reach (step cfg) noClaim s s' ∧
    s'.issued = s.issued ∧ s'.get = s.issued.length := by
  induction hn : s.issued.length - s.mirror using Nat.strong_induction_on generalizing s with
  | _ n ih =>
    obtain ⟨s₁, hr₁, hd₁, hg₁⟩ := drain h
    have h₁ := reach_keep_inv h hr₁
    have hle := h₁.mirror_le
    have hlen := h₁.put_le
    by_cases hm : s₁.mirror = s₁.issued.length
    · exact ⟨s₁, hr₁, hd₁.issued, by rw [← hd₁.issued]; omega⟩
    · obtain ⟨t, he, c, hc⟩ := h₁.cover s₁.mirror le_rfl (by omega)
      obtain ⟨s₂, hr₂, hi₂, hm₂⟩ := push h₁ he hc rfl (by omega)
      have h₂ := reach_keep_inv h₁ hr₂
      have hlt : s₂.issued.length - s₂.mirror < n := by
        have hml := h.mirror_le.trans h.put_le
        rw [hi₂, hd₁.issued, hm₂, hd₁.mirror]
        rw [hd₁.issued, hd₁.mirror] at hm
        omega
      obtain ⟨s₃, hr₃, hi₃, hg₃⟩ := ih _ hlt h₂ rfl
      refine ⟨s₃, (hr₁.trans hr₂).trans hr₃, ?_, ?_⟩
      · rw [hi₃, hi₂, hd₁.issued]
      · rw [hg₃, hi₂, hd₁.issued]

/-! ### The protocol -/

/-- Command ring protocol, for every depth `2 ^ order`, any producers, either
mode and every interleaving. In a reachable state PUT lies between GET and GET
plus the depth and the engine has never seen it behind GET; no step lowers PUT
or touches the cell of a published, unretired command; that cell holds what its
producer wrote; the retirements are the issued commands up to GET, each once
and in slot order; a returned fence is the slot of its command plus one, and
GET has reached it iff that command and all earlier ones have retired; and the
run can always be continued until every issued command has retired. -/
theorem ring_protocol [Inhabited Cmd] (cfg : Config Cmd) (s : State Tid Cmd)
    (h : Reach (step cfg) anyStep init s) :
    (s.get ≤ s.put ∧ s.put ≤ s.get + cfg.depth ∧ s.backwards = false) ∧
    (∀ a s', step cfg s a = some s' → s.put ≤ s'.put ∧
      ∀ q, s.get ≤ q → q < s.put → s'.ring (q &&& cfg.mask) = s.ring (q &&& cfg.mask)) ∧
    (∀ q, s.get ≤ q → q < s.put → s.issued[q]? = some (s.ring (q &&& cfg.mask))) ∧
    s.retired = (s.issued.take s.get).zipIdx ∧
    (∀ f c, (f, c) ∈ s.returned → 0 < f ∧ s.issued[f - 1]? = some c ∧
      (f ≤ s.get ↔ ∀ q < f, ∃ d, s.issued[q]? = some d ∧ (d, q) ∈ s.retired)) ∧
    ∃ s', Reach (step cfg) noClaim s s' ∧ s'.issued = s.issued ∧
      s'.retired = s.issued.zipIdx := by
  have hi := reach_inv h
  have hput := hi.put_le
  refine ⟨⟨hi.get_le, hi.window, hi.forwards⟩, ?_, ?_, hi.log, ?_, ?_⟩
  · intro a s' hs
    have he := step_effect hi hs
    exact ⟨he.put_le, he.cells⟩
  · intro q hq hqp
    obtain ⟨c, hc⟩ : ∃ c, s.issued[q]? = some c := ⟨_, List.getElem?_eq_getElem (by omega)⟩
    rw [hc, hi.content q c hq hqp hc]
  · intro f c hf
    obtain ⟨hpos, hmir, hc⟩ := hi.fences f c hf
    have hlen := hi.mirror_le
    refine ⟨hpos, hc, fun hle q hq => ?_, fun hall => ?_⟩
    · obtain ⟨d, hd⟩ : ∃ d, s.issued[q]? = some d := ⟨_, List.getElem?_eq_getElem (by omega)⟩
      refine ⟨d, hd, ?_⟩
      rw [hi.log, List.mk_mem_zipIdx_iff_getElem?, List.getElem?_take_of_lt (by omega), hd]
    · -- The last of them has retired, and the log holds only slots below GET.
      obtain ⟨d, -, hd⟩ := hall (f - 1) (by omega)
      rw [hi.log, List.mk_mem_zipIdx_iff_getElem?] at hd
      have hlt := (List.getElem?_eq_some_iff.mp hd).1
      simp only [List.length_take] at hlt
      omega
  · obtain ⟨s', hr, hiss, hget⟩ := all_retire hi
    refine ⟨s', hr, hiss, ?_⟩
    rw [(reach_keep_inv hi hr).log, hiss, hget, List.take_length]

/-- Two producers race for the two cells of a ring in ticket mode; the second
writes first and waits for its turn. -/
def race : List (Action (Fin 2) ℕ) :=
  [.reserve 0 7, .reserve 1 8, .test 1, .write 1, .test 0, .write 0, .await 0, .ring 0, .hand 0,
    .await 1, .ring 1, .hand 1, .ret 1, .ret 0, .load, .exchange, .probe, .start, .retire false]

theorem ring_protocol_race :
    ∃ s, exec (step ⟨.ticket, 1, fun _ => false⟩) init race = some s ∧
      s.returned = [(2, 8), (1, 7)] ∧ s.get = 1 ∧ s.put ≤ s.get + 2 ∧
      s.retired = (s.issued.take 1).zipIdx := by
  have hrun : (exec (step ⟨.ticket, 1, fun _ => false⟩) init race).map
      (fun s => (s.returned, s.get)) = some ([(2, 8), (1, 7)], 1) := by decide
  obtain ⟨s, hs, hq⟩ := Option.map_eq_some_iff.mp hrun
  rw [Prod.mk.injEq] at hq
  obtain ⟨⟨-, hwin, -⟩, -, -, hlog, -⟩ := ring_protocol _ s (.of_exec .refl hs)
  rw [hq.2] at hlog
  exact ⟨s, hs, hq.1, hq.2, hwin, hlog⟩

end SoftGpu.Ring
