import SoftGpu.StagedInvariant

/-!
# The steps of a staged copy

Each step of a copy moves its own chunks: the chunk whose slot it has waited for comes aboard, a
chunk that has been copied out is delivered, one that met an error is lost. The chunks, commands
and slots of the other copies stay as they are.
-/

namespace SoftGpu.StagedCopy
open Machine Staging
open SlotLog (Covers Retired)
open Relay (Place)

variable {n : ℕ} {cfg : Config} {x x' : State n} {place place' : ℕ × ℕ → Place ℕ} {t : Fin n}
  {c : Copy} {o : Option Copy} {s : Staging.State n}

structure Turn (cfg : Config) (x x' : State n) (place place' : ℕ × ℕ → Place ℕ)
    (t : Fin n) (c : Copy)
    (o : Option Copy) : Prop where
  pool : PoolInv cfg x'.pool
  copies : x'.pool.copies = Function.update x.pool.copies t o
  retired : x'.pool.retired = x.pool.retired
  sticky : x'.pool.sticky = x.pool.sticky
  published : ∀ ch, x.pool.published ch ≤ x'.pool.published ch
  slot : ∀ i, i ∉ c.held → (x'.pool.slot i).busy = false → x'.pool.slot i = x.pool.slot i
  calls : x'.calls = x.calls
  call : x'.call = x.call
  job : x'.job = x.job
  moved : x'.moved = x.moved
  failed : x'.failed = x.failed
  copied : ∀ u, u ≠ t → x'.copied u = x.copied u
  fence : ∀ k, k ≠ x.call t → x'.fence k = x.fence k
  result : ∀ k, k ≠ x.call t → x'.result k = x.result k
  place : ∀ p : ℕ × ℕ, p.1 ≠ x.call t → place' p = place p
  relay : Relay.Ok (x.len cfg) (x'.relay place')
  ring : ∀ chan f d, x.ring chan f = some d → x'.ring chan f = some d
  pushed : ∀ chan f d, x'.ring chan f = some d → x.ring chan f = some d ∨
    d.call = x.call t ∧ d.slot ∈ c.held
  drained : ∀ chan f d, x.ring chan f = some d → d.call ≠ x.call t →
    x'.drained chan f = x.drained chan f
  waited : ∀ chan f, x'.drained chan f = true → f ≤ x.pool.retired chan
  live : ∀ chan f d, x.ring chan f = some d → Live x' chan f d → Live x chan f d
  entry : ∀ chan f d, x'.ring chan f = some d → d.call = x.call t → EntryOk cfg x' place' chan f d
  unique : ∀ chan f d chan' f' d', x'.ring chan f = some d → x'.ring chan' f' = some d' →
    d.call = x.call t → d'.call = x.call t → d.chunk = d'.chunk → chan = chan' ∧ f = f'
  located : ∀ q i a b, place' (x.call t, q) = .aboard i a b →
    (∃ chan f d, x'.ring chan f = some d ∧ Live x' chan f d ∧
      (d.call, d.chunk) = (x.call t, q) ∧ d.slot = i) ∨
      ∃ c' ∈ o, InHand cfg x' (x.call t, q) i t c'
  copy : ∀ c' ∈ o, CopyOk cfg x' place' t c' ∧ Guarded x' c'
  free : ∀ i ∈ c.held, (x'.pool.slot i).busy = false → Settling x' i (x'.pool.slot i).fence
  running : o ≠ none → x'.result (x.call t) = none
  returned : x'.result (x.call t) = some true → Returned cfg x' place' (x.call t)

theorem ChunkInv.turn (h : ChunkInv cfg x place) (hc : x.pool.copies t = some c)
    (ht : Turn cfg x x' place place' t c o) : ChunkInv cfg x' place' := by
  have hself : x'.pool.copies t = o := by rw [ht.copies, Function.update_self]
  have hother : ∀ u, u ≠ t → x'.pool.copies u = x.pool.copies u := fun u hu => by
    rw [ht.copies, Function.update_of_ne hu]
  have hcall : ∀ u e, u ≠ t → x.pool.copies u = some e → x.call u ≠ x.call t :=
    fun u e hut hu heq =>
    hut (h.distinct u t (by simp [hu]) (by simp [hc]) heq)
  have hnum := h.numbered t (by simp [hc])
  have hfresh : ∀ k, x.calls ≤ k → k ≠ x.call t := by
    rintro k hk rfl
    omega
  have hlen : x'.len cfg = x.len cfg := by
    funext p
    rw [State.len, State.len, ht.job]
  -- A live command that refers to a slot in other hands was there before.
  have hold : ∀ i, i ∉ c.held → ∀ chan f d, x'.ring chan f = some d →
    Live x' chan f d → d.slot = i →
      x.ring chan f = some d ∧ Live x chan f d := by
    intro i hi chan f d hd hl hslot
    obtain hd | ⟨-, hheld⟩ := ht.pushed chan f d hd
    · exact ⟨hd, ht.live chan f d hd hl⟩
    · rw [hslot] at hheld
      exact absurd hheld hi
  have hstill : ∀ chan f d, x.ring chan f = some d → d.call ≠ x.call t →
      (Live x' chan f d ↔ Live x chan f d) := by
    intro chan f d hd hne
    rw [Live, Live, ht.retired, ht.failed, ht.drained chan f d hd hne]
  refine ⟨ht.pool, ?_, hlen ▸ ht.relay, ?_, ?_, ?_, ?_, ?_, ?_, ?_, ?_, ?_, ?_, ?_, ?_⟩
  · intro ch
    rw [ht.retired]
    exact (h.order ch).trans (ht.published ch)
  · intro u hu
    rw [ht.call, ht.calls]
    by_cases hut : u = t
    · subst hut
      exact ⟨hnum.1, ht.running (hself ▸ hu)⟩
    · rw [hother u hut] at hu
      obtain ⟨e, he⟩ := Option.ne_none_iff_exists'.mp hu
      rw [ht.result _ (hcall u e hut he)]
      exact h.numbered u hu
  · intro u v hu hv
    rw [ht.call]
    have hback : ∀ u, x'.pool.copies u ≠ none → x.pool.copies u ≠ none := by
      intro u hu
      by_cases hut : u = t
      · subst hut
        simp [hc]
      · rwa [hother u hut] at hu
    exact h.distinct u v (hback u hu) (hback v hv)
  · rw [ht.calls]
    intro k hk
    rw [ht.result k (hfresh k hk)]
    refine ⟨(h.fresh k hk).1, fun q => ?_⟩
    rw [ht.place (k, q) (hfresh k hk)]
    exact (h.fresh k hk).2 q
  · intro chan f d hd
    by_cases heq : d.call = x.call t
    · exact ht.entry chan f d hd heq
    · obtain hd | ⟨heq', -⟩ := ht.pushed chan f d hd
      · exact (h.entry chan f d hd).frame (ht.published chan) ht.calls.ge (congrFun ht.job _)
          (congrFun ht.retired _) (congrFun ht.moved _) (congrFun (congrFun ht.failed _) _)
          (ht.drained chan f d hd heq) (ht.place _ heq)
      · exact absurd heq' heq
  · intro chan f d chan' f' d' hd hd' hcall' hchunk
    by_cases heq : d.call = x.call t
    · exact ht.unique chan f d chan' f' d' hd hd' heq (hcall' ▸ heq) hchunk
    · have heq' : d'.call ≠ x.call t := hcall' ▸ heq
      have hd := (ht.pushed chan f d hd).resolve_right fun hp => heq hp.1
      have hd' := (ht.pushed chan' f' d' hd').resolve_right fun hp => heq' hp.1
      exact h.unique chan f d chan' f' d' hd hd' hcall' hchunk
  · rw [ht.failed, ht.sticky, ht.retired]
    exact h.failed
  · rw [ht.retired]
    exact ht.waited
  · rw [ht.retired, ht.moved]
    intro chan hnone
    apply h.idle
    cases hd : x.ring chan (x.pool.retired chan + 1) with
    | none => rfl
    | some d =>
      rw [ht.ring chan _ d hd] at hnone
      cases hnone
  · intro p i a b hp
    by_cases heq : p.1 = x.call t
    · obtain ⟨k, q⟩ := p
      subst heq
      obtain hring | ⟨c', hc', hh⟩ := ht.located q i a b hp
      · exact .inl hring
      · exact .inr ⟨t, c', hself.trans hc', hh⟩
    · rw [ht.place p heq] at hp
      obtain ⟨chan, f, d, hd, hl, hpd, hslot⟩ | ⟨u, e, hu, hh⟩ := h.located p i a b hp
      · have hne : d.call ≠ x.call t := fun hd => heq (hpd ▸ hd)
        exact .inl ⟨chan, f, d, ht.ring chan f d hd, (hstill chan f d hd hne).mpr hl, hpd, hslot⟩
      · have hut : u ≠ t := by
          rintro rfl
          obtain ⟨-, -, rfl⟩ | ⟨-, -, rfl⟩ := hh <;> exact heq rfl
        refine .inr ⟨u, e, (hother u hut).trans hu, ?_⟩
        rw [InHand, ht.call]
        exact hh
  · intro u e hu
    by_cases hut : u = t
    · subst hut
      exact ht.copy e (hself.symm.trans hu)
    · have hu := (hother u hut).symm.trans hu
      obtain ⟨hok, hguard⟩ := h.copies u e hu
      have hne := hcall u e hut hu
      constructor
      · refine hok.frame (congrFun ht.call u) (congrFun ht.job _) (ht.fence _ hne) ?_ ?_ ?_ ?_
        · intro chan f d hd
          refine ⟨fun hd' => ?_, ht.ring chan f d⟩
          exact (ht.pushed chan f d hd').resolve_right fun hp => hne (hd.symm.trans hp.1)
        · intro chan f d hd hd' hdr
          rw [ht.drained chan f d hd (hd' ▸ hne), hdr]
        · exact fun q _ => ht.place _ hne
        · rintro i q (⟨-, -, rfl⟩ | ⟨-, -, rfl⟩) <;> exact ⟨ht.place _ hne, ht.copied u hut⟩
      · apply hguard.frame
        intro chan f d hd hl hheld
        exact hold d.slot (h.pool.apart u t e c hut hu hc _ hheld) chan f d hd hl rfl
  · intro i hfree
    by_cases hi : i ∈ c.held
    · exact ht.free i hi hfree
    · have hslot := ht.slot i hi hfree
      rw [hslot] at hfree ⊢
      exact (h.free i hfree).frame (hold i hi)
  · intro k hk
    by_cases heq : k = x.call t
    · subst heq
      exact ht.returned hk
    · rw [ht.result k heq] at hk
      exact (h.returned k hk).frame (congrFun ht.job k) (ht.fence k heq) ht.ring
        fun q _ => ht.place _ heq

/-! ### What every step leaves alone -/

section Record
variable (cfg : Config) (x : State n) (t : Fin n) (c : Copy)

@[simp] theorem record_pool : (x.record cfg t c).pool = x.pool := by
    unfold State.record; split <;> rfl
@[simp] theorem record_calls : (x.record cfg t c).calls = x.calls := by
    unfold State.record; split <;> rfl
@[simp] theorem record_call : (x.record cfg t c).call = x.call := by
    unfold State.record; split <;> rfl
@[simp] theorem record_job : (x.record cfg t c).job = x.job := by unfold State.record; split <;> rfl
@[simp] theorem record_moved : (x.record cfg t c).moved = x.moved := by
    unfold State.record; split <;> rfl
@[simp] theorem record_failed : (x.record cfg t c).failed = x.failed := by
    unfold State.record; split <;> rfl
@[simp] theorem record_result : (x.record cfg t c).result = x.result := by
    unfold State.record; split <;> rfl
@[simp] theorem record_slots : (x.record cfg t c).slots = x.slots := by
    unfold State.record; split <;> rfl
@[simp] theorem record_reads : (x.record cfg t c).reads = x.reads := by
    unfold State.record; split <;> rfl
@[simp] theorem record_writes : (x.record cfg t c).writes = x.writes := by
    unfold State.record; split <;> rfl
@[simp] theorem record_copied : (x.record cfg t c).copied = x.copied := by
    unfold State.record; split <;> rfl

end Record

def turned (cfg : Config) (x : State n) (t : Fin n) (c : Copy) (s : Staging.State n) : State n :=
  (x.record cfg t c).finish t c s

theorem record_fence {k : ℕ} (hk : k ≠ x.call t) : (x.record cfg t c).fence k = x.fence k := by
  unfold State.record
  split
  · cases c.kind with
    | h2d => exact Function.update_of_ne hk ..
    | d2h => rfl
  · rfl
  · rfl

theorem turned_fence {k : ℕ} (hk : k ≠ x.call t) : (turned cfg x t c s).fence k = x.fence k := by
  simp only [turned, State.finish, record_call]
  cases s.copies t with
  | some c' => exact record_fence hk
  | none =>
    cases c.kind with
    | h2d => exact record_fence hk
    | d2h => exact (Function.update_of_ne hk ..).trans (record_fence hk)

theorem turned_result {k : ℕ} (hk : k ≠ x.call t) : (turned cfg x t c s).result k = x.result k := by
  simp only [turned, State.finish, record_call, record_result]
  cases s.copies t with
  | some c' => rfl
  | none => exact Function.update_of_ne hk ..

theorem turned_ring (cfg : Config) (x : State n) (t : Fin n) (c : Copy)
    (s : Staging.State n) (chan : Chan)
    (f : ℕ) : (turned cfg x t c s).ring chan f = x.ring chan f ∨
      ∃ i, c.point = .enqueue i ∧ chan = c.chan ∧ f = x.pool.published c.chan + 1 ∧
        (turned cfg x t c s).ring chan f = some (x.command cfg t c i) := by
  simp only [turned, State.finish, State.record]
  split
  · next i hp =>
    by_cases heq : (chan, f) = (c.chan, x.pool.published c.chan + 1)
    · rw [Prod.mk.injEq] at heq
      obtain ⟨rfl, rfl⟩ := heq
      exact .inr ⟨i, hp, rfl, rfl, put_self ..⟩
    · exact .inl (put_of_ne _ _ heq)
  · exact .inl rfl
  · exact .inl rfl

theorem turned_drained (cfg : Config) (x : State n) (t : Fin n) (c : Copy) (s : Staging.State n)
    (chan : Chan) (f : ℕ) : (turned cfg x t c s).drained chan f = x.drained chan f ∨
      ∃ w, c.point = .drain w ∧ chan = c.chan ∧ f = w.fence := by
  simp only [turned, State.finish, State.record]
  split
  · exact .inl rfl
  · next w hp =>
    by_cases heq : (chan, f) = (c.chan, w.fence)
    · rw [Prod.mk.injEq] at heq
      exact .inr ⟨w, hp, heq.1, heq.2⟩
    · exact .inl (put_of_ne _ _ heq)
  · exact .inl rfl

theorem move_copies {s s' : Staging.State n} (h : Move cfg s t c s') :
    s'.copies = Function.update s.copies t (s'.copies t) := by
  funext u
  by_cases hut : u = t
  · subst hut
    rw [Function.update_self]
  · rw [Function.update_of_ne hut, h.copies_of_ne hut]

theorem move_retired {s s' : Staging.State n} (h : Move cfg s t c s') : s'.retired = s.retired := by
  cases h <;> rfl

theorem move_slot {s s' : Staging.State n} (h : Move cfg s t c s') {i : ℕ} (hi : i ∉ c.held)
    (hfree : (s'.slot i).busy = false) : s'.slot i = s.slot i := by
  cases h with
  | acquire k j hp hk hk' =>
    have hik : i ≠ k := by
      rintro rfl
      simp at hfree
    exact Function.update_of_ne hik ..
  | released k f hp | failed k f hp =>
    have hik : i ≠ k := by
      rintro rfl
      simp [Copy.held, hp] at hi
    exact Function.update_of_ne hik ..
  | _ => rfl

theorem command_chunk {i : ℕ} (hp : c.point = .enqueue i) :
    (x.command cfg t c i).chunk = sent cfg c := by
  cases hk : c.kind with
  | h2d => simp [State.command, sent, hk, hp]
  | d2h => simp [State.command, sent, hk, Nat.mul_div_cancel _ cfg.chunk_pos]

@[simp] theorem turned_calls : (turned cfg x t c s).calls = x.calls := record_calls ..
@[simp] theorem turned_call : (turned cfg x t c s).call = x.call := record_call ..
@[simp] theorem turned_job : (turned cfg x t c s).job = x.job := record_job ..
@[simp] theorem turned_moved : (turned cfg x t c s).moved = x.moved := record_moved ..
@[simp] theorem turned_failed : (turned cfg x t c s).failed = x.failed := record_failed ..
@[simp] theorem turned_pool : (turned cfg x t c s).pool = s := rfl
@[simp] theorem turned_copied : (turned cfg x t c s).copied t = 0 := Function.update_self ..

@[simp] theorem turned_len : (turned cfg x t c s).len cfg = x.len cfg := by
  funext p
  rw [State.len, State.len, turned_job]

theorem turned_relay (place' : ℕ × ℕ → Place ℕ) :
    (turned cfg x t c s).relay place' = x.relay place' := by
  simp [State.relay, turned, State.finish]

theorem turned_ring_eq (hp : ∀ i, c.point ≠ .enqueue i) : (turned cfg x t c s).ring = x.ring := by
  funext chan f
  obtain heq | ⟨i, hi, -⟩ := turned_ring cfg x t c s chan f
  · exact heq
  · exact absurd hi (hp i)

theorem turned_drained_eq (hp : ∀ w, c.point ≠ .drain w) :
    (turned cfg x t c s).drained = x.drained := by
  funext chan f
  obtain heq | ⟨w, hw, -⟩ := turned_drained cfg x t c s chan f
  · exact heq
  · exact absurd hw (hp w)

theorem turned_fence_eq (hp : ∀ i, c.point ≠ .enqueue i) (hs : s.copies t ≠ none ∨ c.kind = .h2d) :
    (turned cfg x t c s).fence = x.fence := by
  have hrecord : (x.record cfg t c).fence = x.fence := by
    unfold State.record
    split
    · next i hi => exact absurd hi (hp i)
    · rfl
    · rfl
  rw [← hrecord]
  simp only [turned, State.finish]
  split
  · next hnone hk =>
    obtain hs | hs := hs
    · exact absurd hnone hs
    · rw [hk] at hs
      cases hs
  · rfl

theorem turned_old {chan : Chan} {f : ℕ} {d : Dma}
    (hd : (turned cfg x t c s).ring chan f = some d) :
    x.ring chan f = some d ∨ ∃ i, c.point = .enqueue i ∧ chan = c.chan ∧
      f = x.pool.published c.chan + 1 ∧ d = x.command cfg t c i := by
  obtain heq | ⟨i, hp, hchan, hf, heq⟩ := turned_ring cfg x t c s chan f
  · exact .inl (heq ▸ hd)
  · exact .inr ⟨i, hp, hchan, hf, Option.some.inj (hd.symm.trans heq)⟩

theorem turned_live (hm : Move cfg x.pool t c s) {chan : Chan} {f : ℕ} {d : Dma}
    (hne : ∀ w, c.point = .drain w → (chan, f) ≠ (c.chan, w.fence)) :
    Live (turned cfg x t c s) chan f d ↔ Live x chan f d := by
  have hdrained : (turned cfg x t c s).drained chan f = x.drained chan f := by
    obtain heq | ⟨w, hp, rfl, rfl⟩ := turned_drained cfg x t c s chan f
    · exact heq
    · exact absurd rfl (hne w hp)
  rw [Live, Live, turned_pool, move_retired hm, turned_failed, hdrained]

theorem ChunkInv.ring_turned (h : ChunkInv cfg x place) {chan : Chan} {f : ℕ} {d : Dma}
    (hd : x.ring chan f = some d) : (turned cfg x t c s).ring chan f = some d := by
  obtain heq | ⟨i, -, rfl, rfl, -⟩ := turned_ring cfg x t c s chan f
  · rw [heq, hd]
  · have hle := (h.entry _ _ d hd).published
    omega

theorem ChunkInv.live_of_turned (h : ChunkInv cfg x place) (hc : x.pool.copies t = some c)
    (hm : Move cfg x.pool t c s) {chan : Chan} {f : ℕ} {d : Dma}
    (hl : Live (turned cfg x t c s) chan f d) :
    Live x chan f d := by
  rw [Live, turned_pool, move_retired hm, turned_failed] at hl
  rw [Live]
  cases hk : d.kind with
  | h2d => simpa [hk] using hl
  | d2h =>
    simp only [hk] at hl ⊢
    refine ⟨?_, hl.2⟩
    obtain heq | ⟨w, hp, rfl, rfl⟩ := turned_drained cfg x t c s chan f
    · rw [← heq]
      exact hl.1
    · obtain ⟨-, -, -, -, -, -, hdr⟩ := (h.copies t c hc).1.drain w hp
      exact hdr

theorem ChunkInv.only_turned (h : ChunkInv cfg x place) (hc : x.pool.copies t = some c)
    (hm : Move cfg x.pool t c s) {i : ℕ} {P : Kind → Chan → ℕ → Prop} (hi : c.point ≠ .enqueue i)
    (ho : Only x i P) : Only (turned cfg x t c s) i P := by
  apply ho.frame
  intro chan f d hd hl hslot
  refine ⟨?_, h.live_of_turned hc hm hl⟩
  obtain hd | ⟨i', hp, rfl, rfl, rfl⟩ := turned_old hd
  · exact hd
  · exact absurd (hslot ▸ hp) hi

theorem ChunkInv.located_own (h : ChunkInv cfg x place)
    (hc : x.pool.copies t = some c) {q i a b : ℕ}
    (hp : place (x.call t, q) = .aboard i a b) :
    (∃ chan f d, x.ring chan f = some d ∧ Live x chan f d ∧
    (d.call, d.chunk) = (x.call t, q) ∧ d.slot = i) ∨
      InHand cfg x (x.call t, q) i t c := by
  obtain hring | ⟨u, e, hu, hh⟩ := h.located _ i a b hp
  · exact .inl hring
  · have hcall : x.call t = x.call u := by
      obtain ⟨-, -, heq⟩ | ⟨-, -, heq⟩ := hh <;> exact (Prod.mk.inj heq).1
    obtain rfl := h.distinct t u (by simp [hc]) (by simp [hu]) hcall
    obtain rfl := Option.some.inj (hc.symm.trans hu)
    exact .inr hh

theorem ChunkInv.onward (h : ChunkInv cfg x place) (hc : x.pool.copies t = some c)
    (hm : Move cfg x.pool t c s) (hwait : ∀ w, c.point = .drain w → w.fence ≤ x.pool.retired c.chan)
    (hplace : ∀ p : ℕ × ℕ, p.1 ≠ x.call t → place' p = place p)
    (hrelay : Relay.Ok (x.len cfg) (x.relay place'))
    (hkept : ∀ chan f d, x.ring chan f = some d → d.call = x.call t →
      place' (d.call, d.chunk) = place (d.call, d.chunk) ∨
        d.kind = .d2h ∧ ¬Live (turned cfg x t c s) chan f d)
    (hnew : ∀ i, c.point = .enqueue i → EntryOk cfg (turned cfg x t c s) place' c.chan
      (x.pool.published c.chan + 1) (x.command cfg t c i))
    (hlocated : ∀ q i a b, place' (x.call t, q) = .aboard i a b →
      (∃ chan f d, (turned cfg x t c s).ring chan f = some d ∧ Live (turned cfg x t c s) chan f d ∧
        (d.call, d.chunk) = (x.call t, q) ∧ d.slot = i) ∨
        ∃ c' ∈ s.copies t, InHand cfg (turned cfg x t c s) (x.call t, q) i t c')
    (hcopy : ∀ c', s.copies t = some c' →
      CopyOk cfg (turned cfg x t c s) place' t c' ∧ Guarded (turned cfg x t c s) c')
    (hfree : ∀ i ∈ c.held, (s.slot i).busy = false →
    Settling (turned cfg x t c s) i (s.slot i).fence)
    (hreturned : s.copies t = none → isFailed c.point = false →
      Returned cfg (turned cfg x t c s) place' (x.call t)) :
    ChunkInv cfg (turned cfg x t c s) place' := by
  have hok := (h.copies t c hc).1
  have hentry : ∀ chan f d, x.ring chan f = some d → d.call = x.call t →
      EntryOk cfg (turned cfg x t c s) place' chan f d := by
    intro chan f d hd hcall
    have he := h.entry chan f d hd
    have hret : (turned cfg x t c s).pool.retired = x.pool.retired := move_retired hm
    have hprog : (turned cfg x t c s).progress chan f d.size = x.progress chan f d.size := by
      rw [State.progress, State.progress, hret, turned_moved]
    refine ⟨he.published.trans (hm.published_le chan), ?_, ?_, ?_, ?_, ?_, ?_, ?_⟩
    · rw [turned_calls]
      exact he.call
    · rw [turned_job]
      exact he.kind
    · rw [turned_len]
      exact he.size
    · rw [turned_job]
      exact he.addr
    · rw [hret, hprog]
      intro hk hlt
      obtain hsame | ⟨hk', -⟩ := hkept chan f d hd hcall
      · rw [hsame]
        exact he.h2d hk hlt
      · rw [hk] at hk'
        cases hk'
    · rw [hret, turned_failed]
      intro hk hle hf
      obtain hsame | ⟨hk', -⟩ := hkept chan f d hd hcall
      · rw [hsame]
        exact he.retired hk hle hf
      · rw [hk] at hk'
        cases hk'
    · rw [hprog]
      intro hk hl
      obtain hsame | ⟨-, hl'⟩ := hkept chan f d hd hcall
      · rw [hsame]
        exact he.d2h hk (h.live_of_turned hc hm hl)
      · exact absurd hl hl'
  have hturn : Turn cfg x (turned cfg x t c s) place place' t c (s.copies t) := by
    refine ⟨h.pool.move hc hm, move_copies hm, move_retired hm, hm.sticky,
      hm.published_le, ?_, record_calls ..,
      record_call .., record_job .., record_moved .., record_failed .., ?_, fun _ => turned_fence,
      fun _ => turned_result, hplace, ?_, fun _ _ _ => h.ring_turned, ?_, ?_, ?_,
      fun _ _ _ _ => h.live_of_turned hc hm, ?_, ?_, hlocated, hcopy, hfree, ?_, ?_⟩
    · exact fun i hi hbusy => move_slot hm hi hbusy
    · intro u hut
      simp [turned, State.finish, hut]
    · rw [turned_relay]
      exact hrelay
    · intro chan f d hd
      obtain hd | ⟨i, hp, -, -, rfl⟩ := turned_old hd
      · exact .inl hd
      · exact .inr ⟨rfl, by simp [State.command, Copy.held, hp]⟩
    · intro chan f d hd hne
      obtain heq | ⟨w, hp, rfl, rfl⟩ := turned_drained cfg x t c s chan f
      · exact heq
      · obtain ⟨d', hd', hcall', -⟩ := hok.drain w hp
        obtain rfl := Option.some.inj (hd.symm.trans hd')
        exact absurd hcall' hne
    · intro chan f hdr
      obtain heq | ⟨w, hp, rfl, rfl⟩ := turned_drained cfg x t c s chan f
      · exact h.drained chan f (heq ▸ hdr)
      · exact hwait w hp
    · intro chan f d hd hcall
      obtain hd | ⟨i, hp, rfl, rfl, rfl⟩ := turned_old hd
      · exact hentry chan f d hd hcall
      · exact hnew i hp
    · intro chan f d chan' f' d' hd hd' hcall hcall' hchunk
      obtain hd | ⟨i, hp, rfl, rfl, rfl⟩ := turned_old hd <;>
        obtain hd' | ⟨i', hp', rfl, rfl, rfl⟩ := turned_old hd'
      · exact h.unique chan f d chan' f' d' hd hd' (hcall.trans hcall'.symm) hchunk
      · have hlt := (hok.mine chan f d hd hcall).2.1
        rw [hchunk, command_chunk hp'] at hlt
        exact absurd hlt (lt_irrefl _)
      · have hlt := (hok.mine chan' f' d' hd' hcall').2.1
        rw [← hchunk, command_chunk hp] at hlt
        exact absurd hlt (lt_irrefl _)
      · exact ⟨rfl, rfl⟩
    · intro hne
      obtain ⟨c', hc'⟩ := Option.ne_none_iff_exists'.mp hne
      simpa [turned, State.finish, hc'] using (h.numbered t (by simp [hc])).2
    · intro hres
      cases hc' : s.copies t with
      | none =>
        apply hreturned hc'
        simpa [turned, State.finish, hc'] using hres
      | some c' =>
        simp only [turned, State.finish, hc', record_result,
          (h.numbered t (by simp [hc])).2] at hres
        cases hres
  exact h.turn hc hturn

theorem ChunkInv.quiet (h : ChunkInv cfg x place) (hc : x.pool.copies t = some c)
    (hm : Move cfg x.pool t c s) (hi : ∀ i, c.point ≠ .enqueue i) (hw : ∀ w, c.point ≠ .drain w)
    (hplace : ∀ p : ℕ × ℕ, p.1 ≠ x.call t → place' p = place p)
    (hrelay : Relay.Ok (x.len cfg) (x.relay place'))
    (hkept : ∀ chan f d, x.ring chan f = some d → d.call = x.call t →
      place' (d.call, d.chunk) = place (d.call, d.chunk) ∨ d.kind = .d2h ∧ ¬Live x chan f d)
    (hlocated : ∀ q i a b, place' (x.call t, q) = .aboard i a b →
      place (x.call t, q) = .aboard i a b ∧ ¬InHand cfg x (x.call t, q) i t c ∨
        ∃ c' ∈ s.copies t, InHand cfg (turned cfg x t c s) (x.call t, q) i t c')
    (hcopy : ∀ c', s.copies t = some c' →
      CopyOk cfg (turned cfg x t c s) place' t c' ∧ Guarded (turned cfg x t c s) c')
    (hfree : ∀ i ∈ c.held, (s.slot i).busy = false → Settling x i (s.slot i).fence)
    (hreturned : s.copies t = none → isFailed c.point = false →
      Returned cfg (turned cfg x t c s) place' (x.call t)) :
    ChunkInv cfg (turned cfg x t c s) place' := by
  have hlive : ∀ chan f d, Live (turned cfg x t c s) chan f d ↔ Live x chan f d := fun chan f d =>
    turned_live hm fun w hp => absurd hp (hw w)
  refine h.onward hc hm ?_ hplace hrelay ?_ ?_ ?_ hcopy ?_ hreturned
  · exact fun w hp => absurd hp (hw w)
  · intro chan f d hd hcall
    rw [hlive]
    exact hkept chan f d hd hcall
  · exact fun i hp => absurd hp (hi i)
  · intro q i a b hp
    obtain ⟨hold, hnot⟩ | hhand := hlocated q i a b hp
    · obtain ⟨chan, f, d, hd, hl, hpd, hslot⟩ := (h.located_own hc hold).resolve_right hnot
      exact .inl ⟨chan, f, d, h.ring_turned hd, (hlive chan f d).mpr hl, hpd, hslot⟩
    · exact .inr hhand
  · exact fun i hheld hbusy => h.only_turned hc hm (hi i) (hfree i hheld hbusy)

theorem ChunkInv.still (h : ChunkInv cfg x place) (hc : x.pool.copies t = some c)
    (hm : Move cfg x.pool t c s) (hi : ∀ i, c.point ≠ .enqueue i) (hw : ∀ w, c.point ≠ .drain w)
    (hhand : ∀ p i, ¬InHand cfg x p i t c)
    (hcopy : ∀ c', s.copies t = some c' →
      CopyOk cfg (turned cfg x t c s) place t c' ∧ Guarded (turned cfg x t c s) c')
    (hfree : ∀ i ∈ c.held, (s.slot i).busy = false → Settling x i (s.slot i).fence)
    (hreturned : s.copies t = none → isFailed c.point = false →
      Returned cfg (turned cfg x t c s) place (x.call t)) :
    ChunkInv cfg (turned cfg x t c s) place := by
  refine h.quiet hc hm hi hw (fun _ _ => rfl) h.relay ?_ ?_ hcopy hfree hreturned
  · exact fun _ _ _ _ _ => .inl rfl
  · exact fun q i a b hp => .inl ⟨hp, hhand _ _⟩

/-! ### The heads of the loops -/

structure Sending (cfg : Config) (x : State n) (place : ℕ × ℕ → Place ℕ) (t : Fin n)
    (c : Copy) : Prop where
  kind : c.kind = .h2d
  window : c.window = []
  job : (x.job (x.call t)).kind = .h2d ∧ (x.job (x.call t)).total = c.total
  aligned : c.off = c.off / cfg.chunk * cfg.chunk
  waiting : ∀ q, c.off / cfg.chunk ≤ q → place (x.call t, q) = .waiting
  mine : ∀ chan f d, x.ring chan f = some d → d.call = x.call t → chan = c.chan ∧
    d.chunk < c.off / cfg.chunk ∧ x.fence (x.call t) = ⟨c.chan, (x.fence (x.call t)).value⟩ ∧
      f ≤ (x.fence (x.call t)).value
  all : ∀ q < c.off / cfg.chunk, ∃ f d, x.ring c.chan f = some d ∧ d.call = x.call t ∧ d.chunk = q

structure Receiving (cfg : Config) (x : State n) (place : ℕ × ℕ → Place ℕ) (t : Fin n)
    (c : Copy) : Prop where
  kind : c.kind = .d2h
  job : (x.job (x.call t)).kind = .d2h ∧ (x.job (x.call t)).total = c.total
  waiting : ∀ q, c.issued ≤ q → place (x.call t, q) = .waiting
  mine : ∀ chan f d, x.ring chan f = some d → d.call = x.call t → chan = c.chan ∧ d.chunk < c.issued
  flying : ∀ j w, c.window[j]? = some w → Flying x (x.call t) c.chan w (c.done + j)
  done : ∀ q < c.done, place (x.call t, q) = .delivered
  guard : ∀ w ∈ c.window, Only x w.slot fun _ chan f => chan = c.chan ∧ f = w.fence

theorem Sending.loop {c' : Copy} (h : Sending cfg x place t c) (hc' : c.h2dLoop = some c') :
    CopyOk cfg x place t c' ∧ Guarded x c' := by
  unfold Copy.h2dLoop at hc'
  split at hc'
  · next hlt =>
    obtain rfl := Option.some.inj hc'
    have hkind := h.kind
    constructor
    · refine ⟨?_, h.job.2, fun _ => h.aligned, fun _ _ => hlt, ?_, ?_, ?_, ?_, ?_, ?_, ?_, ?_, ?_⟩
      · rw [h.job.1]
        exact hkind.symm
      · simp [Copy.goto]
      · simpa [next, Copy.goto, hkind] using h.waiting
      · intro chan f d hd hcall
        obtain ⟨hchan, hlt, hfence⟩ := h.mine chan f d hd hcall
        exact ⟨hchan, by simpa [sent, Copy.goto, hkind] using hlt, fun _ => hfence⟩
      · simpa [sent, Copy.goto, hkind] using h.all
      · simp [Copy.goto]
      · simp [Copy.goto]
      · simp [Copy.goto, h.window]
      · simp [Copy.goto]
      · simp [Copy.goto, hkind]
    · constructor <;> simp [Copy.goto, h.window]
  · cases hc'

theorem Sending.returned (h : Sending cfg x place t c) (hnone : c.h2dLoop = none)
    (hoff : c.off < c.total + cfg.chunk) : Returned cfg x place (x.call t) := by
  have hge : c.total ≤ c.off := by
    simpa [Copy.h2dLoop] using hnone
  have hpos := cfg.chunk_pos
  have haligned := h.aligned
  have hchunks : cfg.nchunks c.total = c.off / cfg.chunk := by
    apply le_antisymm
    · apply Nat.le_of_lt_succ
      rw [Config.nchunks, Nat.div_lt_iff_lt_mul hpos, Nat.succ_mul]
      omega
    · exact Nat.div_le_div_right (by omega)
  refine ⟨?_, ?_, ?_⟩
  · rw [h.job.2, hchunks]
    intro _ q hq
    obtain ⟨f, d, hd, hcall, hchunk⟩ := h.all q hq
    obtain ⟨-, -, hfence, hle⟩ := h.mine c.chan f d hd hcall
    exact ⟨f, d, by rw [hfence]; exact hd, hcall, hchunk, hle⟩
  · rw [h.job.1]
    rintro ⟨⟩
  · rw [h.job.2, hchunks]
    exact h.waiting

theorem Receiving.acquire (h : Receiving cfg x place t c) :
    CopyOk cfg x place t (c.goto .acquire) ∧ Guarded x (c.goto .acquire) := by
  have hkind := h.kind
  constructor
  · refine ⟨?_, h.job.2, ?_, ?_, ?_, ?_, ?_, ?_, ?_, ?_, ?_, ?_, ?_⟩
    · rw [h.job.1]
      exact hkind.symm
    · simp [Copy.goto, hkind]
    · simp [Copy.goto, hkind]
    · simp [Copy.goto]
    · simpa [next, Copy.goto, hkind] using h.waiting
    · intro chan f d hd hcall
      obtain ⟨hchan, hlt⟩ := h.mine chan f d hd hcall
      exact ⟨hchan, by simpa [sent, Copy.goto, hkind] using hlt, by simp [Copy.goto, hkind]⟩
    · simp [Copy.goto, hkind]
    · simp [Copy.goto]
    · simp [Copy.goto]
    · exact fun _ => h.flying
    · simp [Copy.goto]
    · exact fun _ => h.done
  · refine ⟨?_, ?_, ?_, ?_, ?_⟩
    · simp [Copy.goto]
    · simp [Copy.goto]
    · simpa [Copy.goto] using h.guard
    · simp [Copy.goto]
    · simp [Copy.goto]

theorem Receiving.loop {c' : Copy} (h : Receiving cfg x place t c) (hc' : c.d2hLoop cfg = some c') :
    CopyOk cfg x place t c' ∧ Guarded x c' := by
  have hkind := h.kind
  unfold Copy.d2hLoop at hc'
  split at hc'
  · obtain rfl := Option.some.inj hc'
    exact h.acquire
  · split at hc'
    · cases hw : c.window with
      | nil => simp [hw] at hc'
      | cons w rest =>
        simp only [hw, Option.some.injEq] at hc'
        subst hc'
        have hfly := h.flying
        rw [hw] at hfly
        have hguard := h.guard
        rw [hw] at hguard
        constructor
        · refine ⟨?_, h.job.2, ?_, ?_, ?_, ?_, ?_, ?_, ?_, ?_, ?_, ?_, ?_⟩
          · rw [h.job.1]
            exact hkind.symm
          · simp [hkind]
          · simp [hkind]
          · simp
          · simpa [next, hkind] using h.waiting
          · intro chan f d hd hcall
            obtain ⟨hchan, hlt⟩ := h.mine chan f d hd hcall
            exact ⟨hchan, by simpa [sent, hkind] using hlt, by simp [hkind]⟩
          · simp [hkind]
          · simp
          · simp
          · intro _ j v hv
            have hj := hfly (j + 1) v (by simpa using hv)
            rwa [show c.done + (j + 1) = c.done + 1 + j by omega] at hj
          · rintro v ⟨⟩
            exact hfly 0 w rfl
          · exact fun _ => h.done
        · refine ⟨?_, ?_, ?_, ?_, ?_⟩
          · simp
          · simp
          · rintro v (hv | hv)
            · exact hguard v (List.mem_cons_of_mem _ hv)
            · obtain rfl : w = v := by simpa using hv
              exact hguard w List.mem_cons_self
          · simp
          · simp
    · cases hc'

theorem Receiving.returned (h : Receiving cfg x place t c) (hnone : c.d2hLoop cfg = none)
    (hcount : c.done + c.window.length = c.issued) (hissued : c.issued = cfg.nchunks c.total) :
    Returned cfg x place (x.call t) := by
  have hempty := Copy.d2hLoop_none hcount hissued.le hnone
  rw [hempty, List.length_nil, Nat.add_zero] at hcount
  refine ⟨?_, ?_, ?_⟩
  · rw [h.job.1]
    rintro ⟨⟩
  · rw [h.job.2, ← hissued, ← hcount]
    exact fun _ => h.done
  · rw [h.job.2, ← hissued]
    exact h.waiting

end SoftGpu.StagedCopy
