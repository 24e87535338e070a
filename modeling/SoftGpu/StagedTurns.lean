import SoftGpu.StagedSteps

/-!
# Each step of a staged copy keeps the invariant

A chunk comes aboard when the copy has waited for the previous user of its slot and the `memcpy` or
the DMA may begin; it is delivered by the DMA, or by the `memcpy` before `release_slot`. A copy
that is told of an error gives up the chunk in its hand.
-/

namespace SoftGpu.StagedCopy
open Machine Staging
open SlotLog (Covers Retired)
open Relay (Place)

variable {n : ℕ} {cfg : Config} {x x' : State n} {place place' : ℕ × ℕ → Place ℕ} {t : Fin n}
  {c : Copy} {o : Option Copy} {s : Staging.State n}

theorem not_inHand {p : ℕ × ℕ} {i : ℕ} (he : ∀ i, c.point ≠ .enqueue i)
    (hr : ∀ i f, c.point ≠ .release i f) :
    ¬InHand cfg x p i t c := by
  rintro (⟨-, hp, -⟩ | ⟨-, ⟨f, hp⟩, -⟩)
  · exact he i hp
  · exact hr i f hp

theorem ChunkInv.start (h : ChunkInv cfg x place) (hc : x.pool.copies t = some c)
    (hp : c.point = .lock) :
    ChunkInv cfg (turned cfg x t c (x.pool.setCopy t (c.start cfg))) place := by
  have hok := (h.copies t c hc).1
  have hcounts := (h.pool.ok t c hc).counts
  simp only [Copy.Counts, hp] at hcounts
  obtain ⟨hwindow, hissued, hdone⟩ := hcounts
  have hoff := hok.start hp
  have hring : ∀ {s}, (turned cfg x t c s).ring = x.ring := turned_ring_eq (by simp [hp])
  have hmine : ∀ chan f d, x.ring chan f = some d → d.call ≠ x.call t := by
    intro chan f d hd hcall
    have hlt := (hok.mine chan f d hd hcall).2.1
    cases hk : c.kind with
    | h2d => simp [sent, hk, hp, hoff] at hlt
    | d2h => simp [sent, hk, hissued] at hlt
  have hsend : c.kind = .h2d →
      Sending cfg (turned cfg x t c (x.pool.setCopy t (c.start cfg))) place t c := by
    intro hk
    refine ⟨hk, hwindow, ?_, by simp [hoff], ?_, ?_, by simp [hoff]⟩
    · rw [turned_job, turned_call]
      exact ⟨hok.kind.trans hk, hok.total⟩
    · rw [turned_call]
      simpa [next, hk, hp] using hok.waiting
    · rw [hring, turned_call]
      exact fun chan f d hd hcall => absurd hcall (hmine chan f d hd)
  have hrecv : c.kind = .d2h →
      Receiving cfg (turned cfg x t c (x.pool.setCopy t (c.start cfg))) place t c := by
    intro hk
    refine ⟨hk, ?_, ?_, ?_, by simp [hwindow], by simp [hdone], by simp [hwindow]⟩
    · rw [turned_job, turned_call]
      exact ⟨hok.kind.trans hk, hok.total⟩
    · rw [turned_call]
      simpa [next, hk] using hok.waiting
    · rw [hring, turned_call]
      exact fun chan f d hd hcall => absurd hcall (hmine chan f d hd)
  refine h.still hc (.start hp) (by simp [hp]) (by simp [hp]) ?_ ?_ ?_ ?_
  · exact fun p i => not_inHand (by simp [hp]) (by simp [hp])
  · rw [State.setCopy_self]
    intro c' hc'
    cases hk : c.kind with
    | h2d =>
      simp only [Copy.start, hk] at hc'
      exact (hsend hk).loop hc'
    | d2h =>
      simp only [Copy.start, hk] at hc'
      exact (hrecv hk).loop hc'
  · simp [Copy.held, hp, hwindow]
  · rw [State.setCopy_self]
    intro hnone _
    cases hk : c.kind with
    | h2d =>
      simp only [Copy.start, hk] at hnone
      have hpos := cfg.chunk_pos
      simpa using (hsend hk).returned hnone (by omega)
    | d2h =>
      simp only [Copy.start, hk] at hnone
      have hzero : cfg.nchunks c.total = 0 := by
        by_contra hne
        have hlt : c.issued < c.prime cfg := by
          have hpos := cfg.window_pos
          rw [hissued, Copy.prime]
          omega
        simp [Copy.d2hLoop, hlt] at hnone
      simpa using (hrecv hk).returned hnone (by simp [hwindow, hissued, hdone])
        (hissued.trans hzero.symm)

theorem next_of_plain (he : ∀ i, c.point ≠ .enqueue i) (hr : ∀ i f, c.point ≠ .release i f) :
    next cfg c = match c.kind with | .h2d => c.off / cfg.chunk | .d2h => c.issued := by
  cases hk : c.kind <;> cases hp : c.point <;> simp_all [next]

theorem sent_of_plain (hr : ∀ i f, c.point ≠ .release i f) :
    sent cfg c = match c.kind with | .h2d => c.off / cfg.chunk | .d2h => c.issued := by
  cases hk : c.kind <;> cases hp : c.point <;> simp_all [sent]

theorem CopyOk.goto {p : Point} (hok : CopyOk cfg x place t c) (hlock : c.point ≠ .lock)
    (hnext : next cfg (c.goto p) = next cfg c) (hsent : sent cfg (c.goto p) = sent cfg c)
    (hfirst : isFailed p = false → first (c.goto p) = first c ∧ isFailed c.point = false)
    (he : ∀ i, p = .enqueue i → c.kind = .d2h) (hr : ∀ i f, p = .release i f → c.kind = .h2d)
    (hp : p ≠ .lock ∧ ∀ w, p ≠ .drain w) : CopyOk cfg x place t (c.goto p) := by
  refine ⟨hok.kind, hok.total, hok.aligned, fun hk _ => hok.inside hk hlock,
    fun hl => absurd hl hp.1, ?_, ?_,
    ?_, ?_, ?_, ?_, fun w hw => absurd hw (hp.2 w), hok.done⟩
  · rw [hnext]
    exact hok.waiting
  · rw [hsent]
    exact hok.mine
  · rw [hsent]
    exact hok.all
  · intro i hi hk
    have hk' := he i hi
    rw [show c.kind = .h2d from hk] at hk'
    cases hk'
  · intro i f hi hk
    have hk' := hr i f hi
    rw [show c.kind = .d2h from hk] at hk'
    cases hk'
  · intro hf
    obtain ⟨hsame, hf'⟩ := hfirst hf
    rw [hsame]
    exact hok.window hf'

theorem CopyOk.turned (hok : CopyOk cfg x place t c) (he : ∀ i, c.point ≠ .enqueue i)
    (hw : ∀ w, c.point ≠ .drain w) (hhand : ∀ p i, ¬InHand cfg x p i t c)
    (hsome : s.copies t ≠ none) :
    CopyOk cfg (turned cfg x t c s) place t c := by
  have hring : (StagedCopy.turned cfg x t c s).ring = x.ring := turned_ring_eq he
  have hdrained : (StagedCopy.turned cfg x t c s).drained = x.drained := turned_drained_eq hw
  refine hok.frame (congrFun turned_call t) (congrFun turned_job _) ?_ ?_ ?_ ?_ ?_
  · exact congrFun (turned_fence_eq he (.inl hsome)) _
  · exact fun chan f d _ => by rw [hring]
  · exact fun chan f d _ _ hdr => by rw [hdrained, hdr]
  · exact fun _ _ => rfl
  · exact fun i p hh => absurd hh (hhand p i)

theorem Guarded.goto {p : Point} (hwindow : ∀ w ∈ c.window, Only x w.slot fun _ chan f => chan =
    c.chan ∧ f = w.fence)
    (hwait : ∀ i g, p = .waitPrev i g → Settling x i g) (he : ∀ i, p = .enqueue i →
    Only x i fun _ _ _ => False)
    (hr : ∀ i g, p = .release i g → Settling x i g) (hf : ∀ i g, p = .failed i g → Settling x i g)
    (hd : ∀ w, p ≠ .drain w) : Guarded x (c.goto p) where
  waitPrev := hwait
  enqueue := he
  window := fun w hw => hwindow w (hw.resolve_right (hd w))
  release := hr
  failed := hf

theorem ChunkInv.guard_window (h : ChunkInv cfg x place) (hc : x.pool.copies t = some c)
    (hm : Move cfg x.pool t c s) (he : ∀ i, c.point ≠ .enqueue i) {w : Issued} (hw : w ∈ c.window) :
    Only (turned cfg x t c s) w.slot fun _ chan f => chan = c.chan ∧ f = w.fence :=
  h.only_turned hc hm (he w.slot) ((h.copies t c hc).2.window w (.inl hw))

theorem ChunkInv.acquire (h : ChunkInv cfg x place) (hc : x.pool.copies t = some c) {k j : ℕ}
    (hp : c.point = .acquire) (hk : k < cfg.slots) (hfree : (x.pool.slot k).busy = false) :
    ChunkInv cfg (turned cfg x t c (SlotLog.acquired x.pool t c k j)) place := by
  have hm : Move cfg x.pool t c (SlotLog.acquired x.pool t c k j) := .acquire k j hp hk hfree
  have hok := (h.copies t c hc).1
  have hself : (SlotLog.acquired x.pool t c k j).copies t =
      some (c.goto (.waitPrev k (x.pool.slot k).fence)) := State.setCopy_self ..
  have he : ∀ i, c.point ≠ .enqueue i := by simp [hp]
  have hw : ∀ w, c.point ≠ .drain w := by simp [hp]
  have hhand : ∀ p i, ¬InHand cfg x p i t c := fun p i => not_inHand he (by simp [hp])
  refine h.still hc hm he hw hhand ?_ ?_ (by simp [hself])
  · rw [hself]
    rintro c' ⟨⟩
    constructor
    · apply (hok.turned he hw hhand (by simp [hself])).goto (by simp [hp])
      · rw [next_of_plain (by simp [Copy.goto]) (by simp [Copy.goto]),
          next_of_plain he (by simp [hp])]
        rfl
      · rw [sent_of_plain (by simp [Copy.goto]), sent_of_plain (by simp [hp])]
        rfl
      all_goals simp [first, Copy.goto, hp, isFailed]
    · apply Guarded.goto (fun w hw => h.guard_window hc hm he hw)
      · rintro i g ⟨⟩
        exact h.only_turned hc hm (he k) (h.free k hfree)
      all_goals simp
  · intro i hi hbusy
    have hik : i ≠ k := by
      rintro rfl
      simp [SlotLog.acquired] at hbusy
    have hheld := h.pool.busy t c hc i hi
    have hsame : (SlotLog.acquired x.pool t c k j).slot i = x.pool.slot i := by
      simp [SlotLog.acquired, hik]
    rw [hsame, hheld] at hbusy
    cases hbusy

theorem Settling.none {i : ℕ} {g : Fence} (hs : Settling x i g) (hret : Retired x.pool g) :
    Only x i fun _ _ _ => False := by
  intro chan f d hd hl hslot
  obtain ⟨hk, hcov⟩ := hs chan f d hd hl hslot
  rw [Live, hk] at hl
  exact absurd (hcov.retired hret) (not_le.mpr hl)

/-- A slot in the hands of a copy to which no command refers has nothing aboard, unless the copy has
put it there itself. -/
theorem ChunkInv.vacant (h : ChunkInv cfg x place) (hc : x.pool.copies t = some c) {k : ℕ}
    (hk : k ∈ c.held) (hnone : Only x k fun _ _ _ => False) (hhand : ∀ p, ¬InHand cfg x p k t c) :
    ∀ p a b, place p ≠ .aboard k a b := by
  intro p a b hp
  obtain ⟨chan, f, d, hd, hl, -, hslot⟩ | ⟨u, e, hu, hh⟩ := h.located p k a b hp
  · exact hnone chan f d hd hl hslot
  · by_cases hut : u = t
    · subst hut
      obtain rfl := Option.some.inj (hc.symm.trans hu)
      exact hhand p hh
    · have hheld : k ∈ e.held := by
        obtain ⟨-, hpoint, -⟩ | ⟨-, ⟨f, hpoint⟩, -⟩ := hh <;> simp [Copy.held, hpoint]
      exact h.pool.apart u t e c hut hu hc k hheld hk

/-- The wait for the previous user of the slot is over: a chunk of a host-to-device copy comes
aboard. -/
theorem ChunkInv.waited (h : ChunkInv cfg x place) (hc : x.pool.copies t = some c)
    {k : ℕ} {prev : Fence}
    (hp : c.point = .waitPrev k prev) (hst : x.pool.sticky = false) (hret : Retired x.pool prev) :
    ∃ place',
      ChunkInv cfg (turned cfg x t c (x.pool.setCopy t (some (c.goto (.enqueue k))))) place' := by
  have hm : Move cfg x.pool t c (x.pool.setCopy t (some (c.goto (.enqueue k)))) :=
    .waited k prev hp hst
  obtain ⟨hok, hguard⟩ := h.copies t c hc
  have hself : (x.pool.setCopy t (some (c.goto (.enqueue k)))).copies t =
      some (c.goto (.enqueue k)) :=
    State.setCopy_self ..
  have he : ∀ i, c.point ≠ .enqueue i := by simp [hp]
  have hw : ∀ w, c.point ≠ .drain w := by simp [hp]
  have hhand : ∀ p i, ¬InHand cfg x p i t c := fun p i => not_inHand he (by simp [hp])
  have hheld : k ∈ c.held := by simp [Copy.held, hp]
  have hnone : Only x k fun _ _ _ => False := (hguard.waitPrev k prev hp).none hret
  have hok' := hok.turned he hw hhand (s := x.pool.setCopy t (some (c.goto (.enqueue k)))) (by simp)
  have hguard' : Guarded (turned cfg x t c (x.pool.setCopy t (some (c.goto (.enqueue k)))))
    (c.goto (.enqueue k)) := by
    apply Guarded.goto (fun w hw => h.guard_window hc hm he hw)
    · simp
    · rintro i ⟨⟩
      exact h.only_turned hc hm (he k) hnone
    all_goals simp
  have hbusy : ∀ i ∈ c.held, (x.pool.slot i).busy = false → Settling x i (x.pool.slot i).fence := by
    intro i hi hfree
    rw [h.pool.busy t c hc i hi] at hfree
    cases hfree
  cases hk : c.kind with
  | d2h =>
    refine ⟨place, h.still hc hm he hw hhand ?_ hbusy (by simp)⟩
    rw [hself]
    rintro c' ⟨⟩
    refine ⟨?_, hguard'⟩
    apply hok'.goto (by simp [hp])
    · simp [next, Copy.goto, hk]
    · simp [sent, Copy.goto, hk]
    all_goals simp [first, Copy.goto, hp, hk, isFailed]
  | h2d =>
    have hwindow : c.window = [] := by
      have hcounts := (h.pool.ok t c hc).counts
      simp only [Copy.Counts, hp, hk] at hcounts
      simpa using hcounts
    have hnext : next cfg c = c.off / cfg.chunk := by
      rw [next_of_plain he (by simp [hp]), hk]
    have hsent : sent cfg c = c.off / cfg.chunk := by
      rw [sent_of_plain (by simp [hp]), hk]
    have hwait := hok.waiting (c.off / cfg.chunk) hnext.le
    have hin : InHand cfg (turned cfg x t c (x.pool.setCopy t (some (c.goto (.enqueue k)))))
        (x.call t, c.off / cfg.chunk) k t (c.goto (.enqueue k)) :=
          .inl ⟨hk, rfl, by rw [turned_call]; rfl⟩
    have hother : ∀ q, q ≠ c.off / cfg.chunk → Function.update place (x.call t, c.off / cfg.chunk)
        (.aboard k 0 0) (x.call t, q) = place (x.call t, q) := by
      intro q hq
      exact Function.update_of_ne (fun heq => hq (Prod.mk.inj heq).2) ..
    refine ⟨Function.update place (x.call t, c.off / cfg.chunk) (.aboard k 0 0), ?_⟩
    refine h.quiet hc hm he hw ?_ ?_ ?_ ?_ ?_ hbusy (by simp)
    · intro p hne
      apply Function.update_of_ne
      rintro rfl
      exact hne rfl
    · exact h.relay.board hwait fun q a b => h.vacant hc hheld hnone (fun p => hhand p k) q a b
    · intro chan f d hd hcall
      have hlt := (hok.mine chan f d hd hcall).2.1
      rw [hcall]
      exact .inl (hother _ (by omega))
    · intro q i a b hq
      by_cases heq : q = c.off / cfg.chunk
      · subst heq
        rw [Function.update_self, Place.aboard.injEq] at hq
        obtain ⟨rfl, -, -⟩ := hq
        exact .inr ⟨_, hself, hin⟩
      · rw [hother q heq] at hq
        exact .inl ⟨hq, hhand _ _⟩
    · rw [hself]
      rintro c' ⟨⟩
      refine ⟨?_, hguard'⟩
      refine ⟨hok'.kind, hok'.total, hok'.aligned, fun _ _ => hok'.inside hk (by simp [hp]), by
        simp [Copy.goto], ?_, ?_,
        ?_, ?_, ?_, ?_, by simp [Copy.goto], ?_⟩
      · rw [turned_call]
        intro q hq
        have hlt : c.off / cfg.chunk + 1 ≤ q := by simpa [next, Copy.goto, hk] using hq
        rw [hother q (by omega)]
        exact hok.waiting q (by omega)
      · have hmine := hok'.mine
        rw [hsent] at hmine
        simpa [sent, Copy.goto, hk] using hmine
      · have hall := hok'.all
        rw [hsent] at hall
        simpa [sent, Copy.goto, hk] using hall
      · rintro i ⟨⟩ _
        rw [turned_call, turned_copied]
        exact Function.update_self ..
      · simp [Copy.goto]
      · simp [Copy.goto, hwindow]
      · simp [Copy.goto, hk]

theorem ChunkInv.waitFailed (h : ChunkInv cfg x place) (hc : x.pool.copies t = some c)
    {k : ℕ} {prev : Fence}
    (hp : c.point = .waitPrev k prev) (hst : x.pool.sticky = true) :
    ChunkInv cfg (turned cfg x t c (x.pool.setCopy t (some (c.goto (.failed k prev))))) place := by
  have hm : Move cfg x.pool t c (x.pool.setCopy t (some (c.goto (.failed k prev)))) :=
    .waitFailed k prev hp hst
  obtain ⟨hok, hguard⟩ := h.copies t c hc
  have hself : (x.pool.setCopy t (some (c.goto (.failed k prev)))).copies t =
      some (c.goto (.failed k prev)) :=
    State.setCopy_self ..
  have he : ∀ i, c.point ≠ .enqueue i := by simp [hp]
  have hw : ∀ w, c.point ≠ .drain w := by simp [hp]
  have hhand : ∀ p i, ¬InHand cfg x p i t c := fun p i => not_inHand he (by simp [hp])
  refine h.still hc hm he hw hhand ?_ ?_ (by simp)
  · rw [hself]
    rintro c' ⟨⟩
    constructor
    · apply (hok.turned he hw hhand (by simp)).goto (by simp [hp])
      · rw [next_of_plain (by simp [Copy.goto]) (by simp [Copy.goto]),
          next_of_plain he (by simp [hp])]
        rfl
      · rw [sent_of_plain (by simp [Copy.goto]), sent_of_plain (by simp [hp])]
        rfl
      all_goals simp [isFailed]
    · apply Guarded.goto (fun w hw => h.guard_window hc hm he hw)
      · simp
      · simp
      · simp
      · rintro i g ⟨⟩
        exact h.only_turned hc hm (he k) (hguard.waitPrev k prev hp)
      · simp
  · intro i hi hfree
    have hbusy := h.pool.busy t c hc i hi
    rw [State.setCopy_slot, hbusy] at hfree
    cases hfree

/-! ### `enqueue` -/

theorem ChunkInv.progress_new (h : ChunkInv cfg x place) (chan : Chan) (size : ℕ) :
    x.progress chan (x.pool.published chan + 1) size = 0 := by
  have hle := h.order chan
  rw [State.progress, if_neg (by omega)]
  split
  · next heq =>
    apply h.idle
    cases hd : x.ring chan (x.pool.retired chan + 1) with
    | none => rfl
    | some d =>
      have hpub := (h.entry chan _ d hd).published
      omega
  · rfl

theorem ChunkInv.command_entry (h : ChunkInv cfg x place) (hc : x.pool.copies t = some c) {k : ℕ}
    (hp : c.point = .enqueue k) (hm : Move cfg x.pool t c s)
    (hpub : s.published c.chan = x.pool.published c.chan + 1)
    (hplace : place' (x.call t, sent cfg c) = match c.kind with
      | .h2d => .aboard k (piece cfg c.total c.off) 0
      | .d2h => .aboard k 0 0) :
    EntryOk cfg (turned cfg x t c s) place' c.chan (x.pool.published c.chan + 1)
    (x.command cfg t c k) := by
  have hok := (h.copies t c hc).1
  have hchunk : (x.command cfg t c k).chunk = sent cfg c := command_chunk hp
  have hoff : (match c.kind with | .h2d => c.off | .d2h => c.issued * cfg.chunk) =
      sent cfg c * cfg.chunk := by
    cases hk : c.kind with
    | h2d => simpa [sent, hk, hp] using hok.aligned hk
    | d2h => simp [sent, hk]
  have hle := h.order c.chan
  have hret : (turned cfg x t c s).pool.retired = x.pool.retired := move_retired hm
  have hprog : ∀ size,
      (turned cfg x t c s).progress c.chan (x.pool.published c.chan + 1) size = 0 := by
    intro size
    rw [State.progress, hret, turned_moved]
    exact h.progress_new c.chan size
  have hcall : (x.command cfg t c k).call = x.call t := rfl
  have hkind : (x.command cfg t c k).kind = c.kind := rfl
  refine ⟨?_, ?_, ?_, ?_, ?_, ?_, ?_, ?_⟩
  · exact hpub.ge
  · rw [turned_calls]
    exact (h.numbered t (by simp [hc])).1
  · rw [turned_job]
    exact hok.kind.symm
  · rw [turned_len, hchunk, State.len, hcall, hok.total, chunkSize, ← hoff]
    rfl
  · rw [turned_job, hchunk, ← hoff]
    rfl
  · intro hk _
    rw [hprog, hchunk, hcall, hplace]
    rw [hkind] at hk
    simp [hk, State.command]
  · intro _ hle'
    rw [hret] at hle'
    omega
  · intro hk _
    rw [hprog, hchunk, hcall, hplace]
    rw [hkind] at hk
    simp [hk, State.command]

theorem turned_ring_new {k : ℕ} (hp : c.point = .enqueue k) :
    (turned cfg x t c s).ring c.chan (x.pool.published c.chan + 1) =
      some (x.command cfg t c k) := by
  simp [turned, State.finish, State.record, hp, put_self]

theorem ChunkInv.only_enqueued (h : ChunkInv cfg x place) (hc : x.pool.copies t = some c) {k i : ℕ}
    (hp : c.point = .enqueue k) (hm : Move cfg x.pool t c s) {P : Kind → Chan → ℕ → Prop}
    (hold : Only x i P) (hnew : k = i → P c.kind c.chan (x.pool.published c.chan + 1)) :
    Only (turned cfg x t c s) i P := by
  intro chan f d hd hl hslot
  obtain hd | ⟨i', hp', rfl, rfl, rfl⟩ := turned_old hd
  · exact hold chan f d hd (h.live_of_turned hc hm hl) hslot
  · rw [hp, Point.enqueue.injEq] at hp'
    exact hnew (hp'.trans hslot)

theorem ChunkInv.not_free (h : ChunkInv cfg x place) (hc : x.pool.copies t = some c)
    (hslot : s.slot = x.pool.slot) {P : ℕ → Prop} :
    ∀ i ∈ c.held, (s.slot i).busy = false → P i := by
  intro i hi hfree
  rw [hslot, h.pool.busy t c hc i hi] at hfree
  cases hfree

theorem ChunkInv.enqueued_h2d (h : ChunkInv cfg x place) (hc : x.pool.copies t = some c) {k : ℕ}
    (hp : c.point = .enqueue k) (hk : c.kind = .h2d) (hready : x.copied t = piece cfg c.total c.off)
    (hm : Move cfg x.pool t c s) (hpub : s.published c.chan = x.pool.published c.chan + 1)
    (hslot : s.slot = x.pool.slot)
    (hs : s.copies t = some (c.goto (.release k ⟨c.chan, x.pool.published c.chan + 1⟩))) :
    ChunkInv cfg (turned cfg x t c s) place := by
  obtain ⟨hok, hguard⟩ := h.copies t c hc
  have hwindow : c.window = [] := by
    have hcounts := (h.pool.ok t c hc).counts
    simp only [Copy.Counts, hp, hk] at hcounts
    simpa using hcounts
  have hsent : sent cfg c = c.off / cfg.chunk := by
    rw [sent_of_plain (by simp [hp]), hk]
  have hlt : x.pool.retired c.chan < x.pool.published c.chan + 1 :=
    Nat.lt_succ_of_le (h.order c.chan)
  have hlive : ∀ chan f d, Live (turned cfg x t c s) chan f d ↔ Live x chan f d := fun chan f d =>
    turned_live hm (by simp [hp])
  have hfence : (turned cfg x t c s).fence (x.call t) = ⟨c.chan, x.pool.published c.chan + 1⟩ := by
    simp [turned, State.finish, State.record, hp, hk, hs]
  have hchunk : (x.command cfg t c k).chunk = c.off / cfg.chunk := (command_chunk hp).trans hsent
  refine h.onward hc hm (by simp [hp]) (fun _ _ => rfl) h.relay (fun _ _ _ _ _ => .inl rfl) ?_ ?_ ?_
    (h.not_free hc hslot) (by simp [hs])
  · intro i hi
    obtain rfl : k = i := by simpa [hp] using hi
    apply h.command_entry hc hp hm hpub
    rw [hsent, hok.filling k hp hk, hready, hk]
  · intro q i a b hq
    obtain ⟨chan, f, d, hd, hl, hpd, hslot⟩ | ⟨-, hpoint, heq⟩ | ⟨hk', -⟩ := h.located_own hc hq
    · exact .inl ⟨chan, f, d, h.ring_turned hd, (hlive chan f d).mpr hl, hpd, hslot⟩
    · rw [hp, Point.enqueue.injEq] at hpoint
      refine .inl ⟨c.chan, _, _, turned_ring_new hp, (hlive _ _ _).mpr
        (h.unretired_live _ hlt), ?_, hpoint⟩
      rw [heq, hchunk]
      rfl
    · rw [hk] at hk'
      cases hk'
  · rw [hs]
    rintro c' ⟨⟩
    constructor
    · refine ⟨?_, ?_, hok.aligned, fun _ _ => hok.inside hk (by simp [hp]), by
        simp [Copy.goto], ?_, ?_, ?_, ?_, ?_,
        ?_, by simp [Copy.goto], ?_⟩
      · rw [turned_job, turned_call]
        exact hok.kind
      · rw [turned_job, turned_call]
        exact hok.total
      · rw [turned_call]
        have hwait := hok.waiting
        simp only [next, hk, hp] at hwait
        simpa [next, Copy.goto, hk] using hwait
      · rw [turned_call, hfence]
        intro chan f d hd hcall
        obtain hd | ⟨i, -, rfl, rfl, rfl⟩ := turned_old hd
        · obtain ⟨hchan, hlt', hle⟩ := hok.mine chan f d hd hcall
          have hpub' := (h.entry chan f d hd).published
          subst hchan
          refine ⟨rfl, ?_, fun _ => ⟨rfl, Nat.le_succ_of_le hpub'⟩⟩
          simp only [sent, Copy.goto, hk]
          omega
        · refine ⟨rfl, ?_, fun _ => ⟨rfl, le_rfl⟩⟩
          simp only [sent, Copy.goto, hk, State.command]
          exact Nat.lt_succ_self _
      · rw [turned_call]
        intro _ q hq
        have hle : q < c.off / cfg.chunk + 1 := by simpa [sent, Copy.goto, hk] using hq
        obtain hlt' | rfl := Nat.lt_succ_iff_lt_or_eq.mp hle
        · obtain ⟨f, d, hd, hcall, hq'⟩ := hok.all hk q (hsent ▸ hlt')
          exact ⟨f, d, h.ring_turned hd, hcall, hq'⟩
        · exact ⟨_, _, turned_ring_new hp, rfl, hchunk⟩
      · simp [Copy.goto]
      · simp [Copy.goto, hk]
      · simp [Copy.goto, hwindow]
      · simp [Copy.goto, hk]
    · apply Guarded.goto
      · simp [hwindow]
      · simp
      · simp
      · rintro i g ⟨⟩
        refine h.only_enqueued hc hp hm ?_ fun _ => ⟨hk, rfl, le_rfl⟩
        exact fun chan f d hd hl hslot => (hguard.enqueue k hp chan f d hd hl hslot).elim
      · simp
      · simp

theorem ChunkInv.enqueued_d2h (h : ChunkInv cfg x place) (hc : x.pool.copies t = some c) {k : ℕ}
    (hp : c.point = .enqueue k) (hk : c.kind = .d2h)
    (hm : Move cfg x.pool t c s) (hpub : s.published c.chan = x.pool.published c.chan + 1)
    (hslot : s.slot = x.pool.slot)
    (hs : s.copies t = Copy.d2hLoop cfg { c with
      window := c.window ++ [⟨k, x.pool.published c.chan + 1⟩], issued := c.issued + 1 }) :
    ∃ place', ChunkInv cfg (turned cfg x t c s) place' := by
  obtain ⟨hok, hguard⟩ := h.copies t c hc
  have hcounts := (h.pool.ok t c hc).counts
  simp only [Copy.Counts, hp, hk] at hcounts
  obtain ⟨⟨⟩, -⟩ | ⟨-, hcount, -, hissued⟩ := hcounts
  have hsent : sent cfg c = c.issued := by simp [sent, hk]
  have hlt : x.pool.retired c.chan < x.pool.published c.chan + 1 :=
    Nat.lt_succ_of_le (h.order c.chan)
  have hlive : ∀ chan f d, Live (turned cfg x t c s) chan f d ↔ Live x chan f d := fun chan f d =>
    turned_live hm (by simp [hp])
  have hheld : c.held = c.window.map Issued.slot ++ [k] := by simp [Copy.held, hp]
  have hhand : ∀ p i, ¬InHand cfg x p i t c := by
    rintro p i (⟨hk', -⟩ | ⟨-, ⟨f, hp'⟩, -⟩)
    · rw [hk] at hk'
      cases hk'
    · rw [hp] at hp'
      cases hp'
  have hchunk : (x.command cfg t c k).chunk = c.issued := (command_chunk hp).trans hsent
  have hwait := hok.waiting c.issued (by simp [next, hk])
  have hother : ∀ q, q ≠ c.issued →
      Function.update place (x.call t, c.issued) (.aboard k 0 0) (x.call t, q) =
        place (x.call t, q) := by
    intro q hq
    exact Function.update_of_ne (fun heq => hq (Prod.mk.inj heq).2) ..
  have hdrained : (turned cfg x t c s).drained = x.drained := turned_drained_eq (by simp [hp])
  have hrecv : Receiving cfg (turned cfg x t c s)
      (Function.update place (x.call t, c.issued) (.aboard k 0 0)) t
      { c with
        window := c.window ++ [⟨k, x.pool.published c.chan + 1⟩]
        issued := c.issued + 1 } := by
    refine ⟨hk, ?_, ?_, ?_, ?_, ?_, ?_⟩
    · rw [turned_job, turned_call]
      exact ⟨hok.kind.trans hk, hok.total⟩
    · rw [turned_call]
      intro q hq
      have hle : c.issued + 1 ≤ q := hq
      rw [hother q (by omega)]
      exact hok.waiting q (by simp only [next, hk]; omega)
    · rw [turned_call]
      intro chan f d hd hcall
      obtain hd | ⟨i, -, rfl, rfl, rfl⟩ := turned_old hd
      · obtain ⟨hchan, hlt', -⟩ := hok.mine chan f d hd hcall
        rw [hsent] at hlt'
        exact ⟨hchan, Nat.lt_succ_of_lt hlt'⟩
      · refine ⟨rfl, ?_⟩
        simp [State.command, hk, Nat.mul_div_cancel _ cfg.chunk_pos]
    · rw [turned_call]
      intro j w hw
      rw [List.getElem?_append] at hw
      split at hw
      · have hfirst : first c = c.done := by simp [first, hp]
        obtain ⟨d, hd, hd'⟩ := hok.window (by simp [hp, isFailed]) j w hw
        rw [hfirst] at hd'
        exact ⟨d, h.ring_turned hd, by rw [hdrained]; exact hd'⟩
      · next hge =>
        obtain ⟨hj, rfl⟩ : j - c.window.length = 0 ∧ ⟨k, x.pool.published c.chan + 1⟩ = w := by
          simpa [List.getElem?_singleton] using hw
        have hlast : c.done + j = c.issued := by omega
        refine ⟨x.command cfg t c k, turned_ring_new hp, rfl, hchunk.trans hlast.symm, hk, rfl, ?_⟩
        rw [hdrained, ← Bool.not_eq_true]
        intro hdr
        exact absurd (h.drained c.chan _ hdr) (not_le.mpr hlt)
    · rw [turned_call]
      intro q hq
      have hq' : q < c.done := hq
      rw [hother q (by omega)]
      exact hok.done hk q hq'
    · intro w hw
      obtain hw | rfl := by simpa using hw
      · refine h.only_enqueued hc hp hm (hguard.window w (.inl hw)) fun heq => ?_
        have hnd := h.pool.nodup t c hc
        rw [hheld, List.nodup_append] at hnd
        exact absurd heq.symm (hnd.2.2 w.slot (List.mem_map_of_mem hw) k
          (List.mem_singleton_self k))
      · refine h.only_enqueued hc hp hm ?_ fun _ => ⟨rfl, rfl⟩
        exact fun chan f d hd hl hslot => (hguard.enqueue k hp chan f d hd hl hslot).elim
  refine ⟨Function.update place (x.call t, c.issued) (.aboard k 0 0), ?_⟩
  refine h.onward hc hm (by simp [hp]) ?_ ?_ ?_ ?_ ?_ ?_ (h.not_free hc hslot) ?_
  · intro p hne
    apply Function.update_of_ne
    rintro rfl
    exact hne rfl
  · exact h.relay.board hwait fun p a b =>
      h.vacant hc (by simp [hheld]) (hguard.enqueue k hp) (fun p => hhand p k) p a b
  · intro chan f d hd hcall
    have hlt' := (hok.mine chan f d hd hcall).2.1
    rw [hcall]
    exact .inl (hother _ (by omega))
  · intro i hi
    obtain rfl : k = i := by simpa [hp] using hi
    apply h.command_entry hc hp hm hpub
    rw [hsent, Function.update_self, hk]
  · intro q i a b hq
    by_cases heq : q = c.issued
    · subst heq
      rw [Function.update_self, Place.aboard.injEq] at hq
      refine .inl ⟨c.chan, _, _, turned_ring_new hp, (hlive _ _ _).mpr
        (h.unretired_live _ hlt), ?_, hq.1⟩
      rw [hchunk]
      rfl
    · rw [hother q heq] at hq
      obtain ⟨chan, f, d, hd, hl, hpd, hslot⟩ := (h.located_own hc hq).resolve_right (hhand _ _)
      exact .inl ⟨chan, f, d, h.ring_turned hd, (hlive chan f d).mpr hl, hpd, hslot⟩
  · rw [hs]
    exact fun c' hc' => hrecv.loop hc'
  · rw [hs]
    intro hnone _
    have hempty := Copy.d2hLoop_none (c := { c with
      window := c.window ++ [⟨k, x.pool.published c.chan + 1⟩], issued := c.issued + 1 })
      (by simp only [List.length_append, List.length_singleton]; omega) hissued hnone
    simp at hempty

/-! ### `wait_fence` before the copy-out -/

theorem turned_drained_new {w : Issued} (hp : c.point = .drain w) :
    (turned cfg x t c s).drained c.chan w.fence = true := by
  simp [turned, State.finish, State.record, hp, put_self]

theorem ChunkInv.drain_entry (h : ChunkInv cfg x place) (hc : x.pool.copies t = some c) {w : Issued}
    (hp : c.point = .drain w) : ∃ d, x.ring c.chan w.fence = some d ∧
    (d.call, d.chunk) = (x.call t, c.done) ∧
      d.kind = .d2h ∧ d.slot = w.slot ∧ x.drained c.chan w.fence = false ∧
        ∀ chan f d', x.ring chan f = some d' → d'.call = x.call t → d'.chunk = c.done →
          chan = c.chan ∧ f = w.fence ∧ d' = d := by
  obtain ⟨d, hd, hcall, hchunk, hk, hslot, hdr⟩ := (h.copies t c hc).1.drain w hp
  refine ⟨d, hd, by rw [hcall, hchunk], hk, hslot, hdr, ?_⟩
  intro chan f d' hd' hcall' hchunk'
  obtain ⟨rfl, rfl⟩ := h.unique chan f d' c.chan w.fence d hd' hd (hcall'.trans hcall.symm)
    (hchunk'.trans hchunk.symm)
  exact ⟨rfl, rfl, Option.some.inj (hd'.symm.trans hd)⟩

theorem ChunkInv.drain_only (h : ChunkInv cfg x place) (hc : x.pool.copies t = some c) {w : Issued}
    (hp : c.point = .drain w) (hm : Move cfg x.pool t c s) {P : Kind → Chan → ℕ → Prop} :
    Only (turned cfg x t c s) w.slot P := by
  intro chan f d hd hl hslot
  obtain hd | ⟨i, hp', -⟩ := turned_old hd
  · obtain ⟨rfl, rfl⟩ := (h.copies t c hc).2.window w (.inr hp) chan f d hd
      (h.live_of_turned hc hm hl) hslot
    obtain ⟨d', hd', -, hk, -⟩ := h.drain_entry hc hp
    obtain rfl := Option.some.inj (hd.symm.trans hd')
    simp [Live, hk, turned_drained_new hp] at hl
  · rw [hp] at hp'
    cases hp'

theorem ChunkInv.flying_turned (h : ChunkInv cfg x place) (hc : x.pool.copies t = some c)
    {w : Issued} {q : ℕ}
    (hfly : Flying x (x.call t) c.chan w q) (hne : ∀ v, c.point = .drain v → q ≠ c.done) :
    Flying (turned cfg x t c s) (x.call t) c.chan w q := by
  obtain ⟨d, hd, hcall, hchunk, hk, hslot, hdr⟩ := hfly
  refine ⟨d, h.ring_turned hd, hcall, hchunk, hk, hslot, ?_⟩
  obtain heq | ⟨v, hp, -, hf⟩ := turned_drained cfg x t c s c.chan w.fence
  · rw [heq, hdr]
  · obtain ⟨d', hd', hpd, -⟩ := h.drain_entry hc hp
    rw [hf] at hd
    obtain rfl := Option.some.inj (hd.symm.trans hd')
    exact absurd (hchunk.symm.trans (Prod.mk.inj hpd).2) (hne v hp)

theorem ChunkInv.drain_counts (h : ChunkInv cfg x place)
    (hc : x.pool.copies t = some c) {w : Issued}
    (hp : c.point = .drain w) : c.kind = .d2h ∧ c.done < c.issued := by
  have hcounts := (h.pool.ok t c hc).counts
  simp only [Copy.Counts, hp] at hcounts
  exact ⟨hcounts.1, by omega⟩

theorem ChunkInv.drained_ok (h : ChunkInv cfg x place) (hc : x.pool.copies t = some c) {w : Issued}
    (hp : c.point = .drain w) (hst : x.pool.sticky = false)
    (hret : w.fence ≤ x.pool.retired c.chan) :
    ChunkInv cfg (turned cfg x t c (x.pool.setCopy t
    (some (c.goto (.release w.slot ⟨c.chan, w.fence⟩)))))
      place := by
  have hm : Move cfg x.pool t c
      (x.pool.setCopy t (some (c.goto (.release w.slot ⟨c.chan, w.fence⟩)))) :=
    .drained w hp hst
  obtain ⟨hok, hguard⟩ := h.copies t c hc
  obtain ⟨hk, -⟩ := h.drain_counts hc hp
  obtain ⟨d, hd, hpd, hkd, hslot, hdr, hone⟩ := h.drain_entry hc hp
  have hself : (x.pool.setCopy t (some (c.goto (.release w.slot ⟨c.chan, w.fence⟩)))).copies t =
      some (c.goto (.release w.slot ⟨c.chan, w.fence⟩)) := State.setCopy_self ..
  have hfailed : x.failed c.chan w.fence = false := by
    rw [← Bool.not_eq_true]
    intro hf
    rw [(h.failed _ _ hf).1] at hst
    cases hst
  have hl : Live x c.chan w.fence d := by
    rw [Live, hkd]
    exact ⟨hdr, hfailed⟩
  have he := h.entry c.chan w.fence d hd
  have hplace : place (x.call t, c.done) = .aboard w.slot (x.len cfg (x.call t, c.done)) 0 := by
    have hplace := he.d2h hkd hl
    rwa [State.progress, if_pos hret, hpd, hslot, he.size, hpd] at hplace
  refine h.onward hc hm ?_ (fun _ _ => rfl) h.relay (fun _ _ _ _ _ => .inl rfl) (by simp [hp]) ?_ ?_
    (h.not_free hc rfl) (by simp)
  · intro v hv
    obtain rfl : w = v := by simpa [hp] using hv
    exact hret
  · intro q i a b hq
    obtain ⟨chan, f, d', hd', hl', hpd', hslot'⟩ | hh := h.located_own hc hq
    · rw [Prod.mk.injEq] at hpd'
      by_cases hqd : q = c.done
      · obtain ⟨rfl, rfl, rfl⟩ := hone chan f d' hd' hpd'.1 (hpd'.2.trans hqd)
        refine .inr ⟨_, hself, .inr ⟨hk, ⟨⟨c.chan, w.fence⟩, ?_⟩, ?_⟩⟩
        · rw [← hslot', hslot]
          rfl
        · rw [turned_call, hqd]
          rfl
      · refine .inl ⟨chan, f, d', h.ring_turned hd',
          (turned_live hm fun v hv heq => hqd ?_).mpr hl',
          Prod.ext hpd'.1 hpd'.2, hslot'⟩
        obtain rfl : w = v := by simpa [hp] using hv
        rw [Prod.mk.injEq] at heq
        obtain ⟨rfl, rfl⟩ := heq
        obtain rfl := Option.some.inj (hd'.symm.trans hd)
        exact hpd'.2.symm.trans (Prod.mk.inj hpd).2
    · exact absurd hh (not_inHand (by simp [hp]) (by simp [hp]))
  · rw [hself]
    rintro c' ⟨⟩
    constructor
    · refine ⟨?_, ?_, by simp [Copy.goto, hk], by simp [Copy.goto, hk], by simp [Copy.goto], ?_, ?_,
        by simp [Copy.goto, hk], by simp [Copy.goto], ?_, ?_, by simp [Copy.goto], ?_⟩
      · rw [turned_job, turned_call]
        exact hok.kind
      · rw [turned_job, turned_call]
        exact hok.total
      · rw [turned_call]
        simpa [next, Copy.goto, hk] using hok.waiting
      · rw [turned_call, turned_ring_eq (by simp [hp])]
        intro chan f d' hd' hcall
        obtain ⟨hchan, hlt, -⟩ := hok.mine chan f d' hd' hcall
        exact ⟨hchan, by simpa [sent, Copy.goto, hk] using hlt, by simp [Copy.goto, hk]⟩
      · rintro i f ⟨⟩ _
        rw [turned_call, turned_len, turned_copied]
        exact hplace
      · rw [turned_call]
        intro _ j v hv
        have hfly := hok.window (by simp [hp, isFailed]) j v hv
        have hfirst : first c = c.done + 1 := by simp [first, hp]
        rw [hfirst] at hfly
        have hne : c.done + 1 + j ≠ c.done := by omega
        exact h.flying_turned hc hfly fun _ _ => hne
      · rw [turned_call]
        exact hok.done
    · apply Guarded.goto (fun v hv => h.guard_window hc hm (by simp [hp]) hv)
      · simp
      · simp
      · rintro i g ⟨⟩
        exact h.drain_only hc hp hm
      · simp
      · simp

theorem ChunkInv.drained_failed (h : ChunkInv cfg x place)
    (hc : x.pool.copies t = some c) {w : Issued}
    (hp : c.point = .drain w) (hst : x.pool.sticky = true)
    (hret : w.fence ≤ x.pool.retired c.chan) :
    ∃ place', ChunkInv cfg
      (turned cfg x t c (x.pool.setCopy t (some (c.goto (.failed w.slot ⟨c.chan, w.fence⟩)))))
      place' := by
  have hm : Move cfg x.pool t c
      (x.pool.setCopy t (some (c.goto (.failed w.slot ⟨c.chan, w.fence⟩)))) :=
    .drainFailed w hp hst
  obtain ⟨hok, hguard⟩ := h.copies t c hc
  obtain ⟨hk, hlt⟩ := h.drain_counts hc hp
  obtain ⟨d, hd, hpd, hkd, -, -, hone⟩ := h.drain_entry hc hp
  have hself : (x.pool.setCopy t (some (c.goto (.failed w.slot ⟨c.chan, w.fence⟩)))).copies t =
      some (c.goto (.failed w.slot ⟨c.chan, w.fence⟩)) := State.setCopy_self ..
  have hother : ∀ q, q ≠ c.done →
      Function.update place (x.call t, c.done) .lost (x.call t, q) = place (x.call t, q) := by
    intro q hq
    exact Function.update_of_ne (fun heq => hq (Prod.mk.inj heq).2) ..
  refine ⟨Function.update place (x.call t, c.done) .lost, ?_⟩
  refine h.onward hc hm ?_ ?_ (h.relay.lose _) ?_ (by simp [hp]) ?_ ?_ (h.not_free hc rfl) (by simp)
  · intro v hv
    obtain rfl : w = v := by simpa [hp] using hv
    exact hret
  · intro p hne
    apply Function.update_of_ne
    rintro rfl
    exact hne rfl
  · intro chan f d' hd' hcall
    by_cases hqd : d'.chunk = c.done
    · obtain ⟨rfl, rfl, rfl⟩ := hone chan f d' hd' hcall hqd
      refine .inr ⟨hkd, ?_⟩
      simp [Live, hkd, turned_drained_new hp]
    · rw [hcall]
      exact .inl (hother _ hqd)
  · intro q i a b hq
    by_cases hqd : q = c.done
    · subst hqd
      rw [Function.update_self] at hq
      cases hq
    · rw [hother q hqd] at hq
      obtain ⟨chan, f, d', hd', hl', hpd', hslot'⟩ := (h.located_own hc hq).resolve_right
        (not_inHand (by simp [hp]) (by simp [hp]))
      refine .inl ⟨chan, f, d', h.ring_turned hd', (turned_live hm fun v hv heq => hqd ?_).mpr
        hl', hpd', hslot'⟩
      obtain rfl : w = v := by simpa [hp] using hv
      rw [Prod.mk.injEq] at heq
      obtain ⟨rfl, rfl⟩ := heq
      obtain rfl := Option.some.inj (hd'.symm.trans hd)
      exact (Prod.mk.inj (hpd'.symm.trans hpd)).2
  · rw [hself]
    rintro c' ⟨⟩
    constructor
    · refine ⟨?_, ?_, by simp [Copy.goto, hk], by simp [Copy.goto, hk], by simp [Copy.goto], ?_, ?_,
        by simp [Copy.goto, hk], by simp [Copy.goto], by simp [Copy.goto], by
          simp [Copy.goto, isFailed],
        by simp [Copy.goto], ?_⟩
      · rw [turned_job, turned_call]
        exact hok.kind
      · rw [turned_job, turned_call]
        exact hok.total
      · rw [turned_call]
        intro q hq
        have hle : c.issued ≤ q := by simpa [next, Copy.goto, hk] using hq
        rw [hother q (by omega)]
        exact hok.waiting q (by simpa [next, hk] using hle)
      · rw [turned_call, turned_ring_eq (by simp [hp])]
        intro chan f d' hd' hcall
        obtain ⟨hchan, hlt', -⟩ := hok.mine chan f d' hd' hcall
        exact ⟨hchan, by simpa [sent, Copy.goto, hk] using hlt', by simp [Copy.goto, hk]⟩
      · rw [turned_call]
        intro _ q hq
        have hq' : q < c.done := hq
        rw [hother q (by omega)]
        exact hok.done hk q hq'
    · apply Guarded.goto (fun v hv => h.guard_window hc hm (by simp [hp]) hv)
      · simp
      · simp
      · simp
      · rintro i g ⟨⟩
        exact h.drain_only hc hp hm
      · simp

/-! ### `release_slot` -/

theorem ChunkInv.given_back (h : ChunkInv cfg x place) (hc : x.pool.copies t = some c)
    {k : ℕ} {f : Fence}
    (hheld : c.held = c.window.map Issued.slot ++ [k]) (hf : Settling x k f) (o : Option Copy) :
    ∀ i ∈ c.held, (((x.pool.releaseSlot k f).setCopy t o).slot i).busy = false →
      Settling x i (((x.pool.releaseSlot k f).setCopy t o).slot i).fence := by
  intro i hi hfree
  rw [State.setCopy_slot] at hfree ⊢
  by_cases hik : i = k
  · subst hik
    have hself : (x.pool.releaseSlot i f).slot i = ⟨f, false⟩ := Function.update_self ..
    rw [hself]
    exact hf
  · have hsame : (x.pool.releaseSlot k f).slot i = x.pool.slot i := Function.update_of_ne hik ..
    rw [hsame, h.pool.busy t c hc i hi] at hfree
    cases hfree

theorem ChunkInv.released_h2d (h : ChunkInv cfg x place) (hc : x.pool.copies t = some c)
    {k : ℕ} {f : Fence}
    (hp : c.point = .release k f) (hk : c.kind = .h2d) :
    ChunkInv cfg (turned cfg x t c ((x.pool.releaseSlot k f).setCopy t (c.released cfg)))
    place := by
  have hm : Move cfg x.pool t c ((x.pool.releaseSlot k f).setCopy t (c.released cfg)) :=
    .released k f hp
  obtain ⟨hok, hguard⟩ := h.copies t c hc
  have hwindow : c.window = [] := by
    have hcounts := (h.pool.ok t c hc).counts
    simp only [Copy.Counts, hp, hk] at hcounts
    simpa using hcounts
  have hhand : ∀ p i, ¬InHand cfg x p i t c := by
    rintro p i (⟨-, hp', -⟩ | ⟨hk', -⟩)
    · rw [hp] at hp'
      cases hp'
    · rw [hk] at hk'
      cases hk'
  have hsent : sent cfg c = c.off / cfg.chunk + 1 := by simp [sent, hk, hp]
  have hnext : next cfg c = c.off / cfg.chunk + 1 := by simp [next, hk, hp]
  have hdiv : (c.off + cfg.chunk) / cfg.chunk = c.off / cfg.chunk + 1 :=
    Nat.add_div_right _ cfg.chunk_pos
  have haligned := hok.aligned hk
  have hsend : Sending cfg
      (turned cfg x t c ((x.pool.releaseSlot k f).setCopy t (c.released cfg))) place t
      { c with off := c.off + cfg.chunk } := by
    refine ⟨hk, hwindow, ?_, ?_, ?_, ?_, ?_⟩
    · rw [turned_job, turned_call]
      exact ⟨hok.kind.trans hk, hok.total⟩
    · dsimp only
      rw [hdiv, Nat.succ_mul, ← haligned]
    · dsimp only
      rw [hdiv, turned_call, ← hnext]
      exact hok.waiting
    · dsimp only
      rw [hdiv, turned_call, turned_ring_eq (by simp [hp]), turned_fence_eq
        (by simp [hp]) (.inr hk), ← hsent]
      intro chan f d hd hcall
      obtain ⟨hchan, hlt, hfence⟩ := hok.mine chan f d hd hcall
      exact ⟨hchan, hlt, hfence hk⟩
    · dsimp only
      rw [hdiv, turned_call, turned_ring_eq (by simp [hp]), ← hsent]
      exact hok.all hk
  have hreleased : c.released cfg = Copy.h2dLoop { c with off := c.off + cfg.chunk } := by
    simp only [Copy.released, hk]
  refine h.still hc hm (by simp [hp]) (by simp [hp]) hhand ?_ ?_ ?_
  · rw [State.setCopy_self, hreleased]
    rw [hreleased] at hsend
    exact fun c' hc' => hsend.loop hc'
  · exact h.given_back hc (by simp [Copy.held, hp]) (hguard.release k f hp) _
  · rw [State.setCopy_self, hreleased]
    rw [hreleased] at hsend
    intro hnone _
    have hlt := hok.inside hk (by simp [hp])
    simpa using hsend.returned hnone (Nat.add_lt_add_right hlt _)

theorem ChunkInv.released_d2h (h : ChunkInv cfg x place) (hc : x.pool.copies t = some c)
    {k : ℕ} {f : Fence}
    (hp : c.point = .release k f) (hk : c.kind = .d2h)
    (hready : x.copied t = piece cfg c.total (c.done * cfg.chunk)) :
    ∃ place', ChunkInv cfg (turned cfg x t c ((x.pool.releaseSlot k f).setCopy t (c.released cfg)))
    place' := by
  have hm : Move cfg x.pool t c ((x.pool.releaseSlot k f).setCopy t (c.released cfg)) :=
    .released k f hp
  obtain ⟨hok, hguard⟩ := h.copies t c hc
  have hcounts := (h.pool.ok t c hc).counts
  simp only [Copy.Counts, hp, hk] at hcounts
  obtain ⟨⟨⟩, -⟩ | ⟨-, hcount, -, -, hissued⟩ := hcounts
  have hlen : x.len cfg (x.call t, c.done) = x.copied t := by
    rw [State.len, hok.total, hready]
    rfl
  have hplace := hok.emptying k f hp hk
  rw [← hlen] at hplace
  have hother : ∀ q, q ≠ c.done →
      Function.update place (x.call t, c.done) .delivered (x.call t, q) = place (x.call t, q) := by
    intro q hq
    exact Function.update_of_ne (fun heq => hq (Prod.mk.inj heq).2) ..
  have hin : InHand cfg x (x.call t, c.done) k t c := .inr ⟨hk, ⟨f, hp⟩, rfl⟩
  have hrecv : Receiving cfg
      (turned cfg x t c ((x.pool.releaseSlot k f).setCopy t (c.released cfg)))
      (Function.update place (x.call t, c.done) .delivered) t { c with done := c.done + 1 } := by
    refine ⟨hk, ?_, ?_, ?_, ?_, ?_, ?_⟩
    · rw [turned_job, turned_call]
      exact ⟨hok.kind.trans hk, hok.total⟩
    · rw [turned_call]
      intro q hq
      have hle : c.issued ≤ q := hq
      rw [hother q (by omega)]
      exact hok.waiting q (by simpa [next, hk] using hle)
    · rw [turned_call, turned_ring_eq (by simp [hp])]
      intro chan f d hd hcall
      obtain ⟨hchan, hlt, -⟩ := hok.mine chan f d hd hcall
      exact ⟨hchan, by simpa [sent, hk] using hlt⟩
    · rw [turned_call]
      intro j w hw
      have hfly := hok.window (by simp [hp, isFailed]) j w hw
      have hfirst : first c = c.done + 1 := by simp [first, hp]
      rw [hfirst] at hfly
      exact h.flying_turned hc hfly (by simp [hp])
    · rw [turned_call]
      intro q hq
      obtain hlt | rfl := Nat.lt_succ_iff_lt_or_eq.mp (show q < c.done + 1 from hq)
      · rw [hother q hlt.ne]
        exact hok.done hk q hlt
      · exact Function.update_self ..
    · exact fun w hw => h.guard_window hc hm (by simp [hp]) hw
  have hreleased : c.released cfg = if c.issued < cfg.nchunks c.total
      then some { c with done := c.done + 1, point := .acquire }
      else Copy.d2hLoop cfg { c with done := c.done + 1 } := Copy.released_d2h hk
  refine ⟨Function.update place (x.call t, c.done) .delivered, ?_⟩
  refine h.quiet hc hm (by simp [hp]) (by simp [hp]) ?_ (h.relay.deliver hplace) ?_ ?_ ?_ ?_ ?_
  · intro p hne
    apply Function.update_of_ne
    rintro rfl
    exact hne rfl
  · intro chan f d hd hcall
    by_cases hqd : d.chunk = c.done
    · right
      refine ⟨?_, fun hl => h.hand_not_live hc hin hd hl (by rw [hcall, hqd])⟩
      rw [(h.entry chan f d hd).kind, hcall, hok.kind, hk]
    · rw [hcall]
      exact .inl (hother _ hqd)
  · intro q i a b hq
    by_cases hqd : q = c.done
    · subst hqd
      rw [Function.update_self] at hq
      cases hq
    · rw [hother q hqd] at hq
      refine .inl ⟨hq, ?_⟩
      rintro (⟨hk', -⟩ | ⟨-, -, heq⟩)
      · rw [hk] at hk'
        cases hk'
      · exact hqd (Prod.mk.inj heq).2
  · rw [State.setCopy_self]
    intro c' hc'
    rw [hreleased] at hc'
    split at hc'
    · obtain rfl := Option.some.inj hc'
      exact hrecv.acquire
    · exact hrecv.loop hc'
  · exact h.given_back hc (by simp [Copy.held, hp]) (hguard.release k f hp) _
  · rw [State.setCopy_self]
    intro hnone _
    rw [hreleased] at hnone
    split at hnone
    · cases hnone
    · next hge =>
      have hall : c.issued = cfg.nchunks c.total := by omega
      have hwin : c.done + 1 + c.window.length = c.issued := by omega
      simpa using hrecv.returned hnone hwin hall

theorem ChunkInv.failed_return (h : ChunkInv cfg x place) (hc : x.pool.copies t = some c)
    {k : ℕ} {f : Fence}
    (hp : c.point = .failed k f) :
    ChunkInv cfg (turned cfg x t c ((x.pool.releaseSlot k f).setCopy t none)) place := by
  have hm : Move cfg x.pool t c ((x.pool.releaseSlot k f).setCopy t none) := .failed k f hp
  refine h.still hc hm (by simp [hp]) (by simp [hp]) ?_ (by simp) ?_ ?_
  · exact fun p i => not_inHand (by simp [hp]) (by simp [hp])
  · exact h.given_back hc (by simp [Copy.held, hp]) ((h.copies t c hc).2.failed k f hp) _
  · simp [hp, isFailed]

end SoftGpu.StagedCopy
