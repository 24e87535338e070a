import SoftGpu.VramAlloc

/-!
# Blocks in use

Whoever takes blocks from an allocator uses them until they are given back. `Exact`
says that the live blocks are the blocks in use, with the free ones a tiling. A request
whose rounding wraps breaks it: it takes no byte but enters its address in the live map,
and a block that is taken at that address is given back with length 0. `Once` is what
remains: no byte is used twice, or free while it is used. Bytes may be lost.

A stub is the address of a request that took no byte and has not been given back.
-/

namespace SoftGpu.VramAllocator

variable {a a' : VramAllocator} {l l' : List (ℕ × ℕ)} {b c : ℕ × ℕ} {addr len bytes n x z : ℕ}
  {stub : Option ℕ}

/-! ### Coverage never grows -/

theorem coverage_emplace (f : KeyMap ℕ) (k v x : ℕ) :
    coverage (f.emplace k v).entries x ≤ covers (k, v) x + coverage f.entries x := by
  cases h : f.find k with
  | none => rw [coverage_perm (KeyMap.emplace_perm h), coverage_cons]
  | some w =>
    rw [KeyMap.emplace_of_mem (KeyMap.find_eq_some.mp h)]
    exact Nat.le_add_left _ _

theorem mem_joinNext {f : KeyMap ℕ} {start : ℕ} (hb : b ∈ (joinNext f start len).2.entries) :
    b ∈ f.entries := by
  unfold joinNext at hb
  split at hb
  · split_ifs at hb
    · exact (KeyMap.mem_erase.mp hb).1
    · exact hb
  · exact hb

theorem coverage_joinNext (f : KeyMap ℕ) (start len x : ℕ) :
    covers (start, (joinNext f start len).1) x + coverage (joinNext f start len).2.entries x =
      covers (start, len) x + coverage f.entries x := by
  unfold joinNext
  split
  · next n l hlb =>
    split_ifs with hn
    · rw [coverage_perm (KeyMap.erase_perm (KeyMap.lowerBound_spec hlb).1), coverage_cons, hn,
        ← covers_join start len l x]
      exact Nat.add_assoc _ _ _
    · rfl
  · rfl

theorem mem_joinPrev {f : KeyMap ℕ} {start : ℕ} (hb : b ∈ (joinPrev f start len).2.2.entries) :
    b ∈ f.entries := by
  unfold joinPrev at hb
  split at hb
  · split_ifs at hb
    · exact (KeyMap.mem_erase.mp hb).1
    · exact hb
  · exact hb

theorem joinPrev_start (f : KeyMap ℕ) (start len : ℕ) :
    (joinPrev f start len).1 = start ∨ ∃ c ∈ f.entries, c.1 = (joinPrev f start len).1 := by
  unfold joinPrev
  split
  · next p l hp =>
    split_ifs
    · exact .inr ⟨_, (KeyMap.before_spec hp).1, rfl⟩
    · exact .inl rfl
  · exact .inl rfl

theorem coverage_joinPrev (f : KeyMap ℕ) (start len x : ℕ) :
    covers ((joinPrev f start len).1, (joinPrev f start len).2.1) x +
        coverage (joinPrev f start len).2.2.entries x =
      covers (start, len) x + coverage f.entries x := by
  unfold joinPrev
  split
  · next p l hp =>
    split_ifs with heq
    · have hjoin := covers_join p l len x
      rw [coverage_perm (KeyMap.erase_perm (KeyMap.before_spec hp).1), coverage_cons]
      rw [heq, Nat.add_comm l len] at hjoin
      dsimp only
      omega
    · rfl
  · rfl

theorem coverage_release (a : VramAllocator) (addr len x : ℕ) :
    coverage (a.release addr len).free.entries x ≤
      covers (addr, len) x + coverage a.free.entries x := by
  refine (coverage_emplace _ _ _ x).trans ?_
  rw [coverage_joinPrev, coverage_joinNext]

theorem mem_release (hb : b ∈ (a.release addr len).free.entries) :
    b.1 = addr ∨ ∃ c ∈ a.free.entries, c.1 = b.1 := by
  rcases KeyMap.mem_insertEntry hb with rfl | hb
  · exact (joinPrev_start _ _ _).imp_right fun ⟨c, hc, heq⟩ => ⟨c, mem_joinNext hc, heq⟩
  · exact .inr ⟨b, mem_joinNext (mem_joinPrev hb), rfl⟩

theorem coverage_carve {need : ℕ} (hb : (addr, len) ∈ a.free.entries) (hle : need ≤ len) (x : ℕ) :
    coverage (if len - need = 0 then a.free.erase addr
      else (a.free.erase addr).emplace (addr + need) (len - need)).entries x +
      covers (addr, need) x ≤ coverage a.free.entries x := by
  have hjoin := covers_join addr need (len - need) x
  rw [Nat.add_sub_cancel' hle] at hjoin
  rw [coverage_perm (KeyMap.erase_perm hb), coverage_cons]
  split_ifs
  · omega
  · have hem := coverage_emplace (a.free.erase addr) (addr + need) (len - need) x
    omega

theorem mem_carve {need : ℕ}
    (hc : c ∈ (if len - need = 0 then a.free.erase addr
      else (a.free.erase addr).emplace (addr + need) (len - need)).entries) :
    c = (addr + need, len - need) ∧ 0 < len - need ∨ c ∈ a.free.entries ∧ c.1 ≠ addr := by
  split_ifs at hc with hz
  · exact .inr (KeyMap.mem_erase.mp hc)
  · rcases KeyMap.mem_insertEntry hc with rfl | hc
    · exact .inl ⟨rfl, Nat.pos_of_ne_zero hz⟩
    · exact .inr (KeyMap.mem_erase.mp hc)

theorem alloc_align (hs : a.alloc bytes = some (addr, a')) : a'.align = a.align := by
  obtain ⟨-, len, -, -, rfl⟩ := alloc_eq_some hs
  rfl

theorem freeAddr_align (a : VramAllocator) (addr : ℕ) : (a.freeAddr addr).align = a.align := by
  simp only [freeAddr, detach]
  cases a.live.find addr <;> rfl

/-! ### No byte is used twice -/

structure Once (stub : Option ℕ) (a : VramAllocator) (n : ℕ) (l : List (ℕ × ℕ)) : Prop where
  cover : ∀ x, coverage a.free.entries x + coverage l x ≤ if x < n then 1 else 0
  block : ∀ b ∈ l, a.align ∣ b.1 ∧ a.align ∣ b.2 ∧ 0 < b.2
  free_dvd : ∀ b ∈ a.free.entries, a.align ∣ b.1
  live_mem : ∀ b ∈ a.live.entries, 0 < b.2 → b ∈ l
  key : ∀ b ∈ a.free.entries, ∀ c ∈ a.live.entries, c.1 = b.1 → c.2 = 0
  stub_dvd : ∀ z, stub = some z → a.align ∣ z
  stub_spent : ∀ z, stub = some z → (z, 0) ∈ a.live.entries ∨
    (∀ c ∈ a.live.entries, c.1 ≠ z) ∧ coverage a.free.entries z = 0 ∧ coverage l z = 0

namespace Once

theorem free_unused (h : Once stub a n l) (hx : 0 < coverage a.free.entries x) :
    coverage l x = 0 := by
  have hc := h.cover x
  split_ifs at hc <;> omega

theorem live_at_free (h : Once stub a n l) (hc : c ∈ a.live.entries)
    (hfree : 0 < coverage a.free.entries c.1) : c.2 = 0 := by
  by_contra hpos
  have hpos := Nat.pos_of_ne_zero hpos
  have hle := covers_le_coverage (x := c.1) (h.live_mem c hc hpos)
  rw [covers_start hpos, h.free_unused hfree] at hle
  omega

theorem alloc (h : Once stub a n l) (hs : a.alloc bytes = some (addr, a'))
    (hneed : 0 < roundUp a.align bytes) : Once stub a' n ((addr, roundUp a.align bytes) :: l) := by
  obtain ⟨-, len, hb, hle, rfl⟩ := alloc_eq_some hs
  set need := roundUp a.align bytes
  have hdvd : a.align ∣ need := roundUp_dvd _ _
  have hlive : ∀ c ∈ (a.live.emplace addr need).entries, c = (addr, need) ∨ c ∈ a.live.entries :=
    fun c hc => KeyMap.mem_insertEntry hc
  have hinside : ∀ x, addr ≤ x → x < addr + len → 0 < coverage a.free.entries x := by
    intro x hlo hhi
    have hcov := covers_le_coverage (x := x) hb
    rw [covers, if_pos ⟨hlo, hhi⟩] at hcov
    exact hcov
  constructor
  case cover =>
    intro x
    have hcarve := coverage_carve hb hle x
    refine le_trans ?_ (h.cover x)
    dsimp only
    rw [coverage_cons]
    omega
  case block =>
    intro c hc
    rcases List.mem_cons.mp hc with rfl | hc
    · exact ⟨h.free_dvd (addr, len) hb, hdvd, hneed⟩
    · exact h.block c hc
  case free_dvd =>
    intro c hc
    rcases mem_carve hc with ⟨rfl, -⟩ | ⟨hc, -⟩
    · exact Nat.dvd_add (h.free_dvd _ hb) hdvd
    · exact h.free_dvd c hc
  case live_mem =>
    intro c hc hpos
    rcases hlive c hc with rfl | hc
    · exact List.mem_cons_self ..
    · exact List.mem_cons_of_mem _ (h.live_mem c hc hpos)
  case key =>
    intro d hd c hc heq
    rcases mem_carve hd with ⟨rfl, hrest⟩ | ⟨hd, hne⟩
    · rcases hlive c hc with rfl | hc
      · dsimp only at heq
        omega
      · exact h.live_at_free hc (heq ▸ hinside _ (Nat.le_add_right _ _) (by dsimp only; omega))
    · rcases hlive c hc with rfl | hc
      · exact absurd heq.symm hne
      · exact h.key d hd c hc heq
  case stub_dvd => exact h.stub_dvd
  case stub_spent =>
    intro z hz
    rcases h.stub_spent z hz with hin | ⟨hnone, hfree, hused⟩
    · refine .inl ?_
      by_cases hat : z = addr
      · subst hat
        rw [KeyMap.emplace_of_mem hin]
        exact hin
      · cases hfind : a.live.find addr with
        | none => exact (KeyMap.mem_emplace hfind).mpr (.inr hin)
        | some w =>
          rw [KeyMap.emplace_of_mem (KeyMap.find_eq_some.mp hfind)]
          exact hin
    · have hne : addr ≠ z := by
        rintro rfl
        have := hinside addr le_rfl (by omega)
        omega
      have hcarve := coverage_carve hb hle z
      have hcov := covers_join addr need (len - need) z
      refine .inr ⟨fun c hc => ?_, ?_, ?_⟩
      · rcases hlive c hc with rfl | hc
        · exact hne
        · exact hnone c hc
      · dsimp only
        omega
      · rw [coverage_cons]
        omega

theorem release (h : Once stub a n l) {s : ℕ} (hat : (addr, s) ∈ a.live.entries)
    (hdvd : a.align ∣ addr)
    (hl : ∀ b ∈ l', b ∈ l) (hcov : ∀ x, covers (addr, s) x + coverage l' x ≤ coverage l x)
    (hlive : ∀ b ∈ a.live.entries, b.1 ≠ addr → 0 < b.2 → b ∈ l')
    (hstub : ∀ z, stub = some z → z = addr → coverage a.free.entries z = 0 ∧
    coverage l' z = 0 ∧ s = 0) :
    Once stub (a.freeAddr addr) n l' := by
  have hfree : a.freeAddr addr = { a with
      free := (a.release addr s).free, live := a.live.erase addr, liveBytes :=
        a.liveBytes - s } := by
    rw [freeAddr, detach, KeyMap.find_eq_some.mpr hat]
    rfl
  rw [hfree]
  constructor
  case cover =>
    intro x
    have hrel := coverage_release a addr s x
    have hused := hcov x
    refine le_trans ?_ (h.cover x)
    dsimp only
    omega
  case block => exact fun b hb => h.block b (hl b hb)
  case free_dvd =>
    intro b hb
    rcases mem_release hb with heq | ⟨c, hc, heq⟩
    · rw [heq]
      exact hdvd
    · rw [← heq]
      exact h.free_dvd c hc
  case live_mem =>
    intro b hb hpos
    obtain ⟨hb, hne⟩ := KeyMap.mem_erase.mp hb
    exact hlive b hb hne hpos
  case key =>
    intro b hb c hc heq
    obtain ⟨hc, hne⟩ := KeyMap.mem_erase.mp hc
    rcases mem_release hb with hat | ⟨d, hd, hdb⟩
    · exact absurd (heq.trans hat) hne
    · exact h.key d hd c hc (heq.trans hdb.symm)
  case stub_dvd => exact h.stub_dvd
  case stub_spent =>
    intro z hz
    have hrel := coverage_release a addr s z
    by_cases hza : z = addr
    · obtain ⟨hzero, hzero', rfl⟩ := hstub z hz hza
      refine .inr ⟨fun c hc => ?_, ?_, hzero'⟩
      · rw [hza]
        exact (KeyMap.mem_erase.mp hc).2
      · have hempty : covers (addr, 0) z = 0 := if_neg (by dsimp only; omega)
        dsimp only
        omega
    · rcases h.stub_spent z hz with hin | ⟨hnone, hzero, hused⟩
      · exact .inl (KeyMap.mem_erase.mpr ⟨hin, hza⟩)
      · have hx := hcov z
        refine .inr ⟨fun c hc => hnone c (KeyMap.mem_erase.mp hc).1, ?_, ?_⟩
        · dsimp only
          omega
        · omega

theorem freeAddr (h : Once stub a n ((addr, len) :: l)) : Once stub (a.freeAddr addr) n l := by
  obtain ⟨hdvd, -, hpos⟩ := h.block (addr, len) (List.mem_cons_self ..)
  have hstart := h.cover addr
  rw [coverage_cons, covers_start hpos] at hstart
  cases hfind : a.live.find addr with
  | none =>
    rw [KeyMap.find_eq_none] at hfind
    have hsame : a.freeAddr addr = a := by
      rw [VramAllocator.freeAddr, detach, KeyMap.find_eq_none.mpr hfind]
    rw [hsame]
    refine ⟨fun x => ?_, fun b hb => h.block b (List.mem_cons_of_mem _ hb),
      h.free_dvd, fun b hb hb0 => ?_,
      h.key, h.stub_dvd, fun z hz => ?_⟩
    · refine le_trans ?_ (h.cover x)
      rw [coverage_cons]
      omega
    · rcases List.mem_cons.mp (h.live_mem b hb hb0) with rfl | hb'
      · exact absurd rfl (hfind _ hb)
      · exact hb'
    · refine (h.stub_spent z hz).imp_right fun hspent => ⟨hspent.1, hspent.2.1, ?_⟩
      have hused := hspent.2.2
      rw [coverage_cons] at hused
      omega
  | some s =>
    have hat := KeyMap.find_eq_some.mp hfind
    have hs : s = 0 ∨ s = len := by
      by_contra hc
      have hmem := h.live_mem _ hat (by dsimp only; omega)
      rcases List.mem_cons.mp hmem with heq | hmem
      · exact hc (.inr (congrArg Prod.snd heq))
      · have hle := covers_le_coverage (x := addr) hmem
        rw [covers_start (by dsimp only; omega)] at hle
        split_ifs at hstart <;> omega
    refine h.release hat hdvd (fun b hb => List.mem_cons_of_mem _ hb) (fun x => ?_)
      (fun b hb hne hb0 => ?_)
      fun z hz hza => ?_
    · rw [coverage_cons]
      rcases hs with rfl | rfl
      · have hempty : covers (addr, 0) x = 0 := if_neg (by dsimp only; omega)
        omega
      · exact le_rfl
    · rcases List.mem_cons.mp (h.live_mem b hb hb0) with rfl | hb'
      · exact absurd rfl hne
      · exact hb'
    · subst hza
      refine ⟨by split_ifs at hstart <;> omega, by split_ifs at hstart <;> omega, ?_⟩
      rcases h.stub_spent z hz with hin | ⟨hnone, -, -⟩
      · exact congrArg Prod.snd (KeyMap.key_unique hat hin rfl)
      · exact absurd rfl (hnone _ hat)

theorem stub_alloc (h : Once none a n l) (hs : a.alloc bytes = some (addr, a'))
    (hzero : roundUp a.align bytes = 0) : Once (some addr) a' n l := by
  obtain ⟨-, len, hb, hle, rfl⟩ := alloc_eq_some hs
  rw [hzero] at hle ⊢
  have hlive : ∀ c ∈ (a.live.emplace addr 0).entries, c = (addr, 0) ∨ c ∈ a.live.entries :=
    fun c hc => KeyMap.mem_insertEntry hc
  have hkey : ∀ d ∈ (if len - 0 = 0 then a.free.erase addr
      else (a.free.erase addr).emplace (addr + 0) (len - 0)).entries,
        ∃ e ∈ a.free.entries, e.1 = d.1 := by
    intro d hd
    rcases mem_carve hd with ⟨rfl, -⟩ | ⟨hd, -⟩
    · exact ⟨_, hb, rfl⟩
    · exact ⟨d, hd, rfl⟩
  constructor
  case cover =>
    intro x
    have hcarve := coverage_carve hb hle x
    refine le_trans ?_ (h.cover x)
    dsimp only
    omega
  case block => exact h.block
  case free_dvd =>
    intro d hd
    obtain ⟨e, he, heq⟩ := hkey d hd
    rw [← heq]
    exact h.free_dvd e he
  case live_mem =>
    intro c hc hpos
    rcases hlive c hc with rfl | hc
    · exact absurd hpos (lt_irrefl _)
    · exact h.live_mem c hc hpos
  case key =>
    intro d hd c hc heq
    obtain ⟨e, he, hed⟩ := hkey d hd
    rcases hlive c hc with rfl | hc
    · rfl
    · exact h.key e he c hc (heq.trans hed.symm)
  case stub_dvd =>
    intro z hz
    cases hz
    exact h.free_dvd _ hb
  case stub_spent =>
    intro z hz
    cases hz
    refine .inl ?_
    cases hfind : a.live.find addr with
    | none => exact (KeyMap.mem_emplace hfind).mpr (.inl rfl)
    | some w =>
      have hat := KeyMap.find_eq_some.mp hfind
      obtain rfl : w = 0 := h.key _ hb _ hat rfl
      rw [KeyMap.emplace_of_mem hat]
      exact hat

theorem stub_free (h : Once (some z) a n l) : Once none (a.freeAddr z) n l := by
  have hforget : Once none a n l := { h with stub_dvd := nofun, stub_spent := nofun }
  rcases h.stub_spent z rfl with hin | ⟨hnone, -, -⟩
  · refine hforget.release hin (h.stub_dvd z rfl) (fun _ hb => hb) (fun x => ?_)
      (fun b hb _ => h.live_mem b hb)
      nofun
    have hempty : covers (z, 0) x = 0 := if_neg (by dsimp only; omega)
    omega
  · have hsame : a.freeAddr z = a := by
      rw [VramAllocator.freeAddr, detach, KeyMap.find_eq_none.mpr hnone]
    rw [hsame]
    exact hforget

theorem perm (h : Once stub a n l) (hl : l.Perm l') : Once stub a n l' where
  cover := by
    intro x
    rw [← coverage_perm hl]
    exact h.cover x
  block := fun b hb => h.block b (hl.mem_iff.mpr hb)
  free_dvd := h.free_dvd
  live_mem := fun b hb hpos => hl.mem_iff.mp (h.live_mem b hb hpos)
  key := h.key
  stub_dvd := h.stub_dvd
  stub_spent := by
    intro z hz
    rw [← coverage_perm hl]
    exact h.stub_spent z hz

end Once

/-! ### The two ways of keeping account -/

structure Exact (stub : Option ℕ) (a : VramAllocator) (n : ℕ) (l : List (ℕ × ℕ)) : Prop where
  stub : stub = none
  wf : WF a 0 n
  live : a.live.entries.Perm l

theorem Exact.once (h : Exact stub a n l) : Once stub a n l where
  cover := by
    intro x
    have hcov := h.wf.cover x
    rw [coverage_perm h.live] at hcov
    simp only [Nat.zero_le, true_and, Nat.zero_add] at hcov
    exact hcov.le
  block := fun b hb => h.wf.live_block b (h.live.mem_iff.mpr hb)
  free_dvd := fun b hb => (h.wf.free_block b hb).1
  live_mem := fun b hb _ => h.live.mem_iff.mp hb
  key := fun b hb c hc heq => absurd heq (KeyMap.find_eq_none.mp (h.wf.live_find_none hb) c hc)
  stub_dvd := by simp [h.stub]
  stub_spent := by simp [h.stub]

inductive Tally
  | exact
  | once

def Accounts : Tally → Option ℕ → VramAllocator → ℕ → List (ℕ × ℕ) → Prop
  | .exact => Exact
  | .once => Once

namespace Accounts
variable {t : Tally}

theorem of_exact (h : Exact stub a n l) : Accounts t stub a n l := by
  cases t with
  | exact => exact h
  | once => exact h.once

theorem toOnce (h : Accounts t stub a n l) : Once stub a n l := by
  cases t with
  | exact => exact Exact.once h
  | once => exact h

theorem perm (h : Accounts t stub a n l) (hl : l.Perm l') : Accounts t stub a n l' := by
  cases t with
  | exact => exact ⟨Exact.stub h, Exact.wf h, (Exact.live h).trans hl⟩
  | once => exact Once.perm h hl

theorem cover (h : Accounts t stub a n l) (x : ℕ) :
    coverage a.free.entries x + coverage l x ≤ if x < n then 1 else 0 :=
  h.toOnce.cover x

theorem block (h : Accounts t stub a n l) (hb : b ∈ l) : a.align ∣ b.1 ∧ a.align ∣ b.2 ∧ 0 < b.2 :=
  h.toOnce.block b hb

theorem alloc (h : Accounts t stub a n l) (hs : a.alloc bytes = some (addr, a'))
    (hneed : 0 < roundUp a.align bytes) :
    Accounts t stub a' n ((addr, roundUp a.align bytes) :: l) := by
  cases t with
  | exact =>
    obtain ⟨hwf, -, hperm⟩ := alloc_wf (Exact.wf h) hs hneed
    exact ⟨Exact.stub h, hwf, hperm.trans ((Exact.live h).cons _)⟩
  | once => exact Once.alloc h hs hneed

theorem freeAddr (h : Accounts t stub a n ((addr, len) :: l)) :
    Accounts t stub (a.freeAddr addr) n l := by
  cases t with
  | exact =>
    obtain ⟨hwf, -, hperm⟩ :=
      freeAddr_wf (Exact.wf h) ((Exact.live h).mem_iff.mpr (List.mem_cons_self ..))
    exact ⟨Exact.stub h, hwf, (hperm.symm.trans (Exact.live h)).cons_inv⟩
  | once => exact Once.freeAddr h

theorem stub_free (h : Accounts t (some z) a n l) : Accounts t none (a.freeAddr z) n l := by
  cases t with
  | exact => exact absurd (Exact.stub h) (by simp)
  | once => exact Once.stub_free h

theorem in_range (h : Accounts t stub a n l) (hb : b ∈ l) : b.1 + b.2 ≤ n := by
  have hpos := (h.block hb).2.2
  have hcov := h.cover (b.1 + b.2 - 1)
  have hle := covers_le_coverage (x := b.1 + b.2 - 1) hb
  rw [covers, if_pos (by omega)] at hle
  split_ifs at hcov <;> omega

theorem disjoint (h : Accounts t stub a n l') (hl : l'.Perm (b :: c :: l)) :
    b.1 + b.2 ≤ c.1 ∨ c.1 + c.2 ≤ b.1 := by
  refine disjoint_of_covers_le_one (fun x => ?_) (h.block (hl.mem_iff.mpr (by simp))).2.2
    (h.block (hl.mem_iff.mpr (by simp))).2.2
  have hcov := h.cover x
  rw [coverage_perm hl, coverage_cons, coverage_cons] at hcov
  split_ifs at hcov <;> omega

end Accounts

end SoftGpu.VramAllocator
