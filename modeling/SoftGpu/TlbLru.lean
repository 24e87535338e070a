import Mathlib.Data.Finset.Card
import SoftGpu.Lru
import SoftGpu.Tlb

/-!
# The TLB is an LRU cache

Beside every engine's TLB runs a cache of the same size that is least recently
used by definition: a successful translation accesses its page and a change of a
mapping deletes its page. The TLB knows the order of use by the value that its
clock had at each use. The clock has 64 bits; after `2 ^ 64` successful
translations of one engine its values no longer say what came first.
-/

namespace SoftGpu.TlbLru

open Machine Tlb

def remapped (m m' : Mmu) (v : ℕ) : Bool :=
  (m'.pte v).present != (m.pte v).present || (m'.pte v).inVram != (m.pte v).inVram ||
    (m'.pte v).pfn != (m.pte v).pfn

def isHit (s : Tlb.State) (engine : Fin maxEngines) (va : UInt64) : Bool :=
  match (List.finRange tlbEntries).find? fun i => ((s.tlb engine).entry i).vpn == vpnOf va with
  | none => false
  | some i => ((s.tlb engine).entry i).pte.present && ((s.tlb engine).entry i).pte.inVram

/-- `cache` is the LRU cache that each TLB is compared with, and `uses` the number of successful
translations. -/
structure State where
  mmu : Tlb.State
  hits : Fin maxEngines → UInt64
  misses : Fin maxEngines → UInt64
  cache : Fin maxEngines → Lru ℕ tlbEntries
  uses : Fin maxEngines → ℕ

def init (vaBytes vramBytes : UInt64) : State where
  mmu := .new vaBytes vramBytes
  hits := fun _ => 0
  misses := fun _ => 0
  cache := fun _ => .empty
  uses := fun _ => 0

def State.count (x : State) (engine : Fin maxEngines) (hit : Bool) : State :=
  if hit then { x with hits := Function.update x.hits engine (x.hits engine + 1) }
  else { x with misses := Function.update x.misses engine (x.misses engine + 1) }

def State.use (x : State) (engine : Fin maxEngines) (v : ℕ) : State :=
  { x with
    cache := Function.update x.cache engine ((x.cache engine).access v)
    uses := Function.update x.uses engine (x.uses engine + 1) }

def translate (x : State) (engine : Fin maxEngines) (va : UInt64) (write : Bool) : State :=
  let r := x.mmu.translate engine va write
  let x := { x.count engine (isHit x.mmu engine va) with mmu := r.2 }
  match r.1 with
  | .ok _ => x.use engine (vpnOf va)
  | .notPresent | .hostResident => x

def remap (x : State) (s : Tlb.State) : State :=
  { x with
    mmu := s
    cache := fun e => (x.cache e).delete (remapped x.mmu.table s.table) }

def step (x : State) : Call → Option State
  | .translate engine va write => some (translate x engine va write)
  | c => (Tlb.step x.mmu c).map (remap x)

/-! ### One TLB and its cache -/

def Tagged (t : EngineTlb) (v : ℕ) : Prop := v ≠ noVpn ∧ ∃ i, (t.entry i).vpn = v

structure Valid (m : Mmu) (t : EngineTlb) : Prop where
  unique : ∀ i j, (t.entry i).vpn ≠ noVpn → (t.entry i).vpn = (t.entry j).vpn → i = j
  usable : ∀ i, (t.entry i).vpn ≠ noVpn →
    (t.entry i).pte.present = true ∧ (t.entry i).pte.inVram = true
  resident : ∀ i, (t.entry i).vpn ≠ noVpn → Resident m (t.entry i).vpn

def Later (t : EngineTlb) (u v : ℕ) : Prop :=
  ∀ i j, (t.entry i).vpn = u → (t.entry j).vpn = v →
    (t.entry j).lastUsed.toNat < (t.entry i).lastUsed.toNat

structure Tracks (t : EngineTlb) (c : Lru ℕ tlbEntries) (n : ℕ) : Prop where
  clock : t.clock.toNat = (n + 1) % 2 ^ 64
  mem : ∀ v, v ∈ c ↔ Tagged t v
  order : c.pages.Pairwise (Later t)
  stamp : ∀ i, (t.entry i).vpn ≠ noVpn →
    0 < (t.entry i).lastUsed.toNat ∧ (t.entry i).lastUsed.toNat ≤ n

section Slot
variable {entry : Fin tlbEntries → TlbEntry} {is : List (Fin tlbEntries)} {best : Fin tlbEntries}
  {oldest : UInt64}

theorem slot_empty (h : ∃ i ∈ is, (entry i).vpn = noVpn) :
    (entry (EngineTlb.slot entry is best oldest)).vpn = noVpn := by
  induction is generalizing best oldest with
  | nil =>
    obtain ⟨i, hi, -⟩ := h
    cases hi
  | cons k is ih =>
    simp only [EngineTlb.slot]
    by_cases hk : (entry k).vpn = noVpn
    · rw [if_pos hk]
      exact hk
    · have hrest : ∃ i ∈ is, (entry i).vpn = noVpn := by
        obtain ⟨i, hi, hv⟩ := h
        obtain rfl | hi := List.mem_cons.mp hi
        · exact absurd hv hk
        · exact ⟨i, hi, hv⟩
      rw [if_neg hk]
      split
      · exact ih hrest
      · exact ih hrest

theorem slot_oldest (h : ∀ i ∈ is, (entry i).vpn ≠ noVpn)
    (hbest : (entry best).lastUsed.toNat ≤ oldest.toNat) :
    (entry (EngineTlb.slot entry is best oldest)).lastUsed.toNat ≤ oldest.toNat ∧ ∀ i ∈ is,
      (entry (EngineTlb.slot entry is best oldest)).lastUsed.toNat ≤ (entry i).lastUsed.toNat := by
  induction is generalizing best oldest with
  | nil => exact ⟨hbest, fun i hi => by cases hi⟩
  | cons k is ih =>
    have hrest : ∀ i ∈ is, (entry i).vpn ≠ noVpn := fun i hi => h i (List.mem_cons_of_mem k hi)
    simp only [EngineTlb.slot, if_neg (h k List.mem_cons_self), UInt64.lt_iff_toNat_lt]
    split
    · next hlt =>
      obtain ⟨hle, hall⟩ := ih hrest (Nat.le_refl (entry k).lastUsed.toNat)
      refine ⟨hle.trans hlt.le, fun i hi => ?_⟩
      obtain rfl | hi := List.mem_cons.mp hi
      · exact hle
      · exact hall i hi
    · next hge =>
      obtain ⟨hle, hall⟩ := ih hrest hbest
      refine ⟨hle, fun i hi => ?_⟩
      obtain rfl | hi := List.mem_cons.mp hi
      · exact hle.trans (not_lt.mp hge)
      · exact hall i hi

theorem slot_oldest_of_full (h : ∀ i, (entry i).vpn ≠ noVpn) (i : Fin tlbEntries) :
    (entry (EngineTlb.slot entry (List.finRange tlbEntries) 0 (-1))).lastUsed.toNat ≤
      (entry i).lastUsed.toNat := by
  have hmax : (entry 0).lastUsed.toNat ≤ (-1 : UInt64).toNat :=
    Nat.le_pred_of_lt (entry 0).lastUsed.toNat_lt
  exact (slot_oldest (fun j _ => h j) hmax).2 i (List.mem_finRange i)

end Slot

section Use
variable {m : Mmu} {t : EngineTlb} {c : Lru ℕ tlbEntries} {n v : ℕ} {i : Fin tlbEntries} {p : Pte}

def stamped (t : EngineTlb) (i : Fin tlbEntries) (v : ℕ) (p : Pte) : EngineTlb :=
  { t.set i ⟨v, p, t.clock⟩ with clock := t.clock + 1 }

theorem stamped_self : (stamped t i v p).entry i = ⟨v, p, t.clock⟩ := by
  simp [stamped, EngineTlb.set]

theorem stamped_ne {j : Fin tlbEntries} (h : j ≠ i) : (stamped t i v p).entry j = t.entry j := by
  simp [stamped, EngineTlb.set, h]

theorem tagged_stamped (hval : Valid m t) (hfree : ∀ j, j ≠ i → (t.entry j).vpn ≠ v)
    (hv : v ≠ noVpn) (u : ℕ) :
    Tagged (stamped t i v p) u ↔ u = v ∨ Tagged t u ∧ u ≠ (t.entry i).vpn := by
  constructor
  · rintro ⟨hu, j, hj⟩
    by_cases hji : j = i
    · subst hji
      rw [stamped_self] at hj
      exact .inl hj.symm
    · rw [stamped_ne hji] at hj
      refine .inr ⟨⟨hu, j, hj⟩, fun heq => hji (hval.unique j i (hj ▸ hu) (hj.trans heq))⟩
  · rintro (rfl | ⟨⟨hu, j, hj⟩, hne⟩)
    · exact ⟨hv, i, by rw [stamped_self]⟩
    · have hji : j ≠ i := by
        rintro rfl
        exact hne hj.symm
      exact ⟨hu, j, by rw [stamped_ne hji, hj]⟩

/-- What the use of a page does, if the entry it takes is that of the page that leaves the
cache. -/
theorem Tracks.mem_access (ht : Tracks t c n) (hval : Valid m t)
    (hacc : Lru.Access c v (t.entry i).vpn) (hfree : ∀ j, j ≠ i → (t.entry j).vpn ≠ v)
    (hv : v ≠ noVpn) (u : ℕ) : u ∈ c.access v ↔ Tagged (stamped t i v p) u := by
  rw [hacc.mem, tagged_stamped hval hfree hv, ht.mem]

theorem Tracks.access (ht : Tracks t c n) (hval : Valid m t)
    (hacc : Lru.Access c v (t.entry i).vpn) (hfree : ∀ j, j ≠ i → (t.entry j).vpn ≠ v)
    (hv : v ≠ noVpn) (hn : n + 1 < 2 ^ 64) : Tracks (stamped t i v p) (c.access v) (n + 1) := by
  have hclock : t.clock.toNat = n + 1 := by rw [ht.clock, Nat.mod_eq_of_lt hn]
  have hstamp : ∀ j u, u ≠ noVpn → u ≠ v → ((stamped t i v p).entry j).vpn = u →
      j ≠ i ∧ (t.entry j).vpn = u := by
    intro j u _ hne hj
    have hji : j ≠ i := by
      rintro rfl
      rw [stamped_self] at hj
      exact hne hj.symm
    rw [stamped_ne hji] at hj
    exact ⟨hji, hj⟩
  have hmine : ∀ j, ((stamped t i v p).entry j).vpn = v → j = i := by
    intro j hj
    by_contra hji
    rw [stamped_ne hji] at hj
    exact hfree j hji hj
  have hknown : ∀ u ∈ c, u ≠ noVpn := fun u hu => ((ht.mem u).mp hu).1
  refine ⟨?_, fun u => ht.mem_access hval hacc hfree hv u, ?_, ?_⟩
  · have hstep : (stamped t i v p).clock = t.clock + 1 := rfl
    rw [hstep, UInt64.toNat_add, hclock]
    rfl
  · refine hacc.pairwise ht.order (fun u hu hne a b ha hb => ?_)
      fun u hu w hw hune hwne hlater a b ha hb => ?_
    · obtain rfl := hmine a ha
      obtain ⟨hb', htag⟩ := hstamp b u (hknown u hu) hne hb
      rw [stamped_self, stamped_ne hb', hclock]
      exact Nat.lt_succ_of_le (ht.stamp b (htag ▸ hknown u hu)).2
    · obtain ⟨ha', htag⟩ := hstamp a u (hknown u hu) hune ha
      obtain ⟨hb', htag'⟩ := hstamp b w (hknown w hw) hwne hb
      rw [stamped_ne ha', stamped_ne hb']
      exact hlater a b htag htag'
  · intro j hj
    by_cases hji : j = i
    · subst hji
      rw [stamped_self, hclock]
      exact ⟨Nat.succ_pos n, le_rfl⟩
    · rw [stamped_ne hji] at hj ⊢
      have := ht.stamp j hj
      omega

theorem Tracks.room (ht : Tracks t c n) (hi : (t.entry i).vpn = noVpn) : c.pages.length ≤ 63 := by
  have hsub : c.pages.toFinset ⊆ (Finset.univ.erase i).image fun j => (t.entry j).vpn := by
    intro u hu
    obtain ⟨hne, j, hj⟩ := (ht.mem u).mp (List.mem_toFinset.mp hu)
    have hji : j ≠ i := by
      rintro rfl
      exact hne (hj.symm.trans hi)
    exact Finset.mem_image.mpr ⟨j, Finset.mem_erase.mpr ⟨hji, Finset.mem_univ j⟩, hj⟩
  have hcard := (Finset.card_le_card hsub).trans Finset.card_image_le
  rwa [List.toFinset_card_of_nodup c.nodup, Finset.card_erase_of_mem (Finset.mem_univ i),
    Finset.card_univ, Fintype.card_fin] at hcard

theorem Tracks.full (ht : Tracks t c n) (hval : Valid m t) (h : ∀ j, (t.entry j).vpn ≠ noVpn) :
    c.pages.length = 64 := by
  have hsub : (Finset.univ.image fun j => (t.entry j).vpn) ⊆ c.pages.toFinset := by
    intro u hu
    obtain ⟨j, -, rfl⟩ := Finset.mem_image.mp hu
    exact List.mem_toFinset.mpr ((ht.mem _).mpr ⟨h j, j, rfl⟩)
  have hinj : Function.Injective fun j => (t.entry j).vpn :=
    fun j k hjk => hval.unique j k (h j) hjk
  have hcard := Finset.card_le_card hsub
  rw [List.toFinset_card_of_nodup c.nodup, Finset.card_image_of_injective _ hinj, Finset.card_univ,
    Fintype.card_fin] at hcard
  exact le_antisymm c.length_le hcard

theorem Tracks.miss (ht : Tracks t c n) (hval : Valid m t) (hmiss : ∀ j, (t.entry j).vpn ≠ v) :
    Lru.Access c v (t.entry (EngineTlb.slot t.entry (List.finRange tlbEntries) 0 (-1))).vpn := by
  have hv : v ∉ c := by
    intro h
    obtain ⟨-, j, hj⟩ := (ht.mem v).mp h
    exact hmiss j hj
  by_cases hempty : ∃ j, (t.entry j).vpn = noVpn
  · obtain ⟨j, hj⟩ := hempty
    rw [slot_empty ⟨j, List.mem_finRange j, hj⟩]
    exact Lru.access_room hv (ht.room hj) fun h => ((ht.mem _).mp h).1 rfl
  · push Not at hempty
    have hold := slot_oldest_of_full hempty
    set k := EngineTlb.slot t.entry (List.finRange tlbEntries) 0 (-1) with hk
    have hlen := ht.full hval hempty
    have hne : c.pages ≠ [] := by
      intro h
      rw [h] at hlen
      cases hlen
    have hsplit := List.dropLast_append_getLast hne
    -- The entry of the last page has an older stamp than every other entry.
    have hlast : (t.entry k).vpn = c.pages.getLast hne := by
      obtain ⟨-, j, hj⟩ := (ht.mem _).mp (List.getLast_mem hne)
      have hkmem : (t.entry k).vpn ∈ c.pages := (ht.mem _).mpr ⟨hempty k, k, rfl⟩
      rw [← hsplit, List.mem_append, List.mem_singleton] at hkmem
      obtain hfirst | hlast := hkmem
      · have horder := ht.order
        rw [← hsplit, List.pairwise_append] at horder
        have hlt := horder.2.2 _ hfirst _ (List.mem_singleton_self _) k j rfl hj
        exact absurd (hold j) (not_le.mpr hlt)
      · exact hlast
    rw [hlast]
    refine Lru.access_full hv hsplit.symm ?_
    rw [List.length_dropLast, hlen]

theorem Tracks.hit (ht : Tracks t c n) (hi : (t.entry i).vpn = v) (hv : v ≠ noVpn) :
    Lru.Access c v (t.entry i).vpn := by
  rw [hi]
  exact Lru.access_hit ((ht.mem v).mpr ⟨hv, i, hi⟩)

end Use

/-! ### Changes of the mapping -/

structure Cleared (gone : ℕ → Bool) (t t' : EngineTlb) : Prop where
  clock : t'.clock = t.clock
  left : ∀ i, (t'.entry i).vpn ≠ noVpn →
    t'.entry i = t.entry i ∧ gone (t.entry i).vpn = false
  kept : ∀ i, (t.entry i).vpn ≠ noVpn → gone (t.entry i).vpn = false → t'.entry i = t.entry i

section Cleared
variable {m m' : Mmu} {t t' : EngineTlb} {c : Lru ℕ tlbEntries} {gone : ℕ → Bool} {n v : ℕ}

theorem Cleared.tagged (h : Cleared gone t t') (v : ℕ) :
    Tagged t' v ↔ Tagged t v ∧ gone v = false := by
  constructor
  · rintro ⟨hv, i, rfl⟩
    obtain ⟨heq, hgone⟩ := h.left i hv
    rw [heq] at hv ⊢
    exact ⟨⟨hv, i, rfl⟩, hgone⟩
  · rintro ⟨⟨hv, i, rfl⟩, hgone⟩
    exact ⟨hv, i, by rw [h.kept i hv hgone]⟩

theorem Cleared.mem (h : Cleared gone t t') (hmem : ∀ v, v ∈ c ↔ Tagged t v) (v : ℕ) :
    v ∈ c.delete gone ↔ Tagged t' v := by
  rw [Lru.mem_delete, hmem, h.tagged]

theorem Cleared.tracks (h : Cleared gone t t') (ht : Tracks t c n) :
    Tracks t' (c.delete gone) n where
  clock := by rw [h.clock, ht.clock]
  mem := h.mem ht.mem
  order := by
    refine (ht.order.sublist List.filter_sublist).imp_of_mem fun {u w} hu hw hlater i j hi hj => ?_
    have htag : ∀ u ∈ (c.delete gone).pages, u ≠ noVpn := fun u hu => ((h.mem ht.mem u).mp hu).1
    have hi' := (h.left i (hi ▸ htag u hu)).1
    have hj' := (h.left j (hj ▸ htag w hw)).1
    rw [hi', hj']
    exact hlater i j (hi' ▸ hi) (hj' ▸ hj)
  stamp := by
    intro i hi
    have heq := (h.left i hi).1
    rw [heq] at hi ⊢
    exact ht.stamp i hi

theorem resident_of_same (h : Resident m v) (hn : m'.npages = m.npages)
    (hv : remapped m m' v = false) : Resident m' v := by
  simp only [remapped, Bool.or_eq_false_iff, bne_eq_false_iff_eq] at hv
  exact ⟨hn ▸ h.1, hv.1.1.trans h.2.1, hv.1.2.trans h.2.2⟩

theorem Cleared.valid (h : Cleared (remapped m m') t t') (hn : m'.npages = m.npages)
    (hval : Valid m t) : Valid m' t' where
  unique := by
    intro i j hi hij
    have hj : (t'.entry j).vpn ≠ noVpn := fun hj => hi (hij.trans hj)
    rw [(h.left i hi).1, (h.left j hj).1] at hij
    rw [(h.left i hi).1] at hi
    exact hval.unique i j hi hij
  usable := by
    intro i hi
    have heq := (h.left i hi).1
    rw [heq] at hi ⊢
    exact hval.usable i hi
  resident := by
    intro i hi
    obtain ⟨heq, hsame⟩ := h.left i hi
    rw [heq] at hi ⊢
    exact resident_of_same (hval.resident i hi) hn hsame

theorem remapped_self (m : Mmu) (v : ℕ) : remapped m m v = false := by simp [remapped]

theorem remapped_of_same (h : m.Same m') (v : ℕ) : remapped m m' v = false := by
  simp [remapped, h.present, h.inVram, h.pfn]

theorem remapped_of_eq (h : m'.pte v = m.pte v) : remapped m m' v = false := by simp [remapped, h]

theorem remapped_of_not_resident (hn : m'.npages = m.npages) (h : Resident m v)
    (h' : ¬Resident m' v) :
    remapped m m' v = true := by
  by_contra hsame
  exact h' (resident_of_same h hn (Bool.eq_false_of_not_eq_true hsame))

theorem Cleared.of_still (h : ∀ v, gone v = false) : Cleared gone t t :=
  ⟨rfl, fun _ _ => ⟨rfl, h _⟩, fun _ _ _ => rfl⟩

end Cleared

theorem invalidateRange_clock (s : Tlb.State) (first n : ℕ) (e : Fin maxEngines) :
    ((s.tlbInvalidateRange first n).tlb e).clock = (s.tlb e).clock := by
  induction n with
  | zero => rfl
  | succ n ih =>
    simpa [State.tlbInvalidateRange, State.tlbInvalidateVpn, EngineTlb.invalidate] using ih

theorem invalidateRange_outside (s : Tlb.State) (first n : ℕ) (e : Fin maxEngines)
    (i : Fin tlbEntries)
    (h : ¬(first ≤ ((s.tlb e).entry i).vpn ∧ ((s.tlb e).entry i).vpn < first + n)) :
    ((s.tlbInvalidateRange first n).tlb e).entry i = (s.tlb e).entry i := by
  induction n with
  | zero => rfl
  | succ n ih =>
    have heq := ih (by omega)
    simp only [State.tlbInvalidateRange, State.tlbInvalidateVpn, EngineTlb.invalidate, heq]
    rw [if_neg (by omega)]

structure Shot (s s' : Tlb.State) : Prop where
  npages : s'.table.npages = s.table.npages
  cleared : ∀ e, Cleared (remapped s.table s'.table) (s.tlb e) (s'.tlb e)

section Shot
variable {s : Tlb.State} {m : Mmu} {first n : ℕ}

theorem Shot.refl (s : Tlb.State) : Shot s s := ⟨rfl, fun _ => .of_still (remapped_self s.table)⟩

theorem Shot.of_same (h : s.table.Same m) {ev : ℕ → Bool} :
    Shot s { s with table := m, evicting := ev } :=
  ⟨h.npages, fun _ => .of_still (remapped_of_same h)⟩

theorem Shot.of_range (hval : ∀ e, Valid s.table (s.tlb e)) (hn : m.npages = s.table.npages)
    (hout : ∀ v, ¬(first ≤ v ∧ v < first + n) → m.pte v = s.table.pte v)
    (hin : ∀ v, first ≤ v ∧ v < first + n → Resident s.table v → ¬Resident m v) :
    Shot s ((s.setTable m).tlbInvalidateRange first n) where
  npages := by rw [invalidateRange_table]; exact hn
  cleared := by
    intro e
    rw [invalidateRange_table]
    refine ⟨invalidateRange_clock .., fun i hi => ?_, fun i hi hsame => ?_⟩
    · obtain ⟨heq, hnot⟩ := invalidateRange_entry _ first n e i hi
      exact ⟨heq, remapped_of_eq (hout _ hnot)⟩
    · refine invalidateRange_outside _ first n e i fun hmem => ?_
      have hres := (hval e).resident i hi
      have hmoved := remapped_of_not_resident hn hres (hin _ hmem hres)
      exact absurd (hsame.symm.trans hmoved) Bool.false_ne_true

theorem Shot.of_setRange {g : ℕ → Pte} {hosts : ℕ → ℕ} (hval : ∀ e, Valid s.table (s.tlb e))
    (hg : ∀ i, (g i).inVram = false) :
    Shot s ((s.setTable { s.table with
      pte := Mmu.setRange s.table.pte first n g
      host := hosts }).tlbInvalidateRange first n) := by
  refine .of_range hval rfl (fun v hv => if_neg hv) fun v hv _ hres => ?_
  have hin := hres.2.2
  simp only [Mmu.setRange, if_pos hv, hg, Bool.false_eq_true] at hin

theorem Shot.of_page {v : ℕ} {p : Pte} (hval : ∀ e, Valid s.table (s.tlb e))
    (h : Resident s.table v → p.inVram = false) :
    Shot s ((s.setTable (s.table.setPte v p)).tlbInvalidateVpn v) := by
  have hshot : Shot s ((s.setTable (s.table.setPte v p)).tlbInvalidateRange v 1) := by
    refine .of_range hval rfl (fun w hw => ?_) fun w hw hres hres' => ?_
    · have hwv : w ≠ v := by omega
      simp [hwv]
    · obtain rfl : w = v := by omega
      have hout := hres'.2.2
      simp [h hres] at hout
  exact hshot

theorem Shot.step {c : Call} {s' : Tlb.State} (hval : ∀ e, Valid s.table (s.tlb e))
    (hc : ∀ engine va write, c ≠ .translate engine va write) (hs : Tlb.step s c = some s') :
    Shot s s' := by
  cases c with
  | mapVram va pa n =>
    cases hs
    unfold State.mapVram
    split
    · next m hm =>
      obtain ⟨-, -, -, -, -, habsent, rfl⟩ := Mmu.mapVram_ok hm
      refine .of_range hval rfl (fun v hv => if_neg hv) fun v hv hres => ?_
      have hnone := habsent (v - vpnOf va) (by simp only [vpnOf] at hv ⊢; omega)
      rw [show va.toNat / pageSize + (v - vpnOf va) = v by simp only [vpnOf] at hv ⊢; omega,
        hres.2.1] at hnone
      cases hnone
    · exact .refl s
  | mapHost va host n =>
    cases hs
    unfold State.mapHost
    split
    · next m hm =>
      obtain ⟨-, -, -, -, -, rfl⟩ := Mmu.mapHost_ok hm
      exact .of_setRange hval fun _ => rfl
    · exact .refl s
  | unmap va n =>
    cases hs
    unfold State.unmap
    split
    · exact .refl s
    · next hok =>
      have hok' : va.toNat % pageSize = 0 ∧ 0 < n.toNat ∧ vpnOf va + n.toNat ≤ s.table.npages := by
        omega
      rw [Mmu.unmap_eq hok'.1 hok'.2.1 hok'.2.2]
      exact .of_setRange hval fun _ => rfl
  | makeResident va pa =>
    cases hs
    unfold State.makeResident
    split
    · next m hm =>
      split
      · exact .refl s
      · next hout =>
        simp only [Mmu.makeResident] at hm
        split_ifs at hm with h₁ h₂ h₃ h₄
        · exact absurd h₄ hout
        · rw [Except.ok.injEq] at hm
          subst hm
          exact .of_page hval fun hres => absurd hres.2.2 hout
    · exact .refl s
  | beginEvict va =>
    cases hs
    unfold State.beginEvict
    dsimp only
    split
    · exact ⟨rfl, (Shot.refl s).cleared⟩
    · next hn =>
      split
      · next hres =>
        rw [Bool.and_eq_true] at hres
        have heq := Mmu.beginEvict_eq (Nat.lt_of_not_le hn) hres.1 hres.2
        rw [show (s.table.beginEvict va.toNat).2 = s.table.setPte (vpnOf va) .hostResident from
          congrArg Prod.snd heq]
        have hshot := Shot.of_page (v := vpnOf va) (p := .hostResident) hval fun _ => rfl
        exact ⟨hshot.npages, hshot.cleared⟩
      · exact ⟨rfl, (Shot.refl s).cleared⟩
  | endEvict va =>
    cases hs
    refine .of_same ?_
    simp only [Mmu.endEvict]
    split
    · exact .refl _
    · exact .update rfl rfl rfl
  | testAndClearAccessed va =>
    cases hs
    exact .of_same (Mmu.testAndClearAccessed_same _ _)
  | translate engine va write => exact absurd rfl (hc engine va write)

end Shot

/-! ### Translation -/

structure Used (s : Tlb.State) (engine : Fin maxEngines) (va : UInt64) (i : Fin tlbEntries)
    (r : Translate × Tlb.State) : Prop where
  ok : ∃ pa, r.1 = .ok pa
  tlb : ∃ p, p.present = true ∧ p.inVram = true ∧
    r.2.tlb = Function.update s.tlb engine (stamped (s.tlb engine) i (vpnOf va) p)
  same : s.table.Same r.2.table
  resident : Resident s.table (vpnOf va)

section Translate
variable {s : Tlb.State} {engine : Fin maxEngines} {va : UInt64} {write : Bool} {i : Fin tlbEntries}

theorem hit_used (hi : ((s.tlb engine).entry i).vpn = vpnOf va)
    (hp : ((s.tlb engine).entry i).pte.present = true)
    (hv : ((s.tlb engine).entry i).pte.inVram = true) (hres : Resident s.table (vpnOf va)) :
    Used s engine va i (s.hit engine va write i) where
  ok := ⟨_, rfl⟩
  tlb := by
    simp only [State.hit, stamped, hi]
    refine ⟨if (write && !((s.tlb engine).entry i).pte.dirty) = true then
      { ((s.tlb engine).entry i).pte with dirty := true } else ((s.tlb engine).entry i).pte,
        ?_, ?_, rfl⟩
    · split
      · exact hp
      · exact hp
    · split
      · exact hv
      · exact hv
  same := by
    simp only [State.hit, State.setTable, State.setTlb]
    split
    · exact Mmu.orFlags_same _ _ _ _
    · exact .refl _
  resident := hres

theorem walk_used (hres : Resident s.table (vpnOf va)) :
    Used s engine va (EngineTlb.slot (s.tlb engine).entry (List.finRange tlbEntries) 0 (-1))
      (s.walk engine va write) := by
  have hsame := touch_same s va write
  obtain ⟨hn, hp, hv⟩ := hres
  have hwalk : s.walk engine va write = (.ok ((s.touch va write).pte (vpnOf va)).pa,
      (s.setTable (s.touch va write)).setTlb engine ((s.tlb engine).insert
        (s.touch va write) (vpnOf va) ((s.touch va write).pte (vpnOf va)))) := by
    simp [State.walk, Nat.not_le.mpr hn, hp, hv]
  have hp' := (hsame.present (vpnOf va)).trans hp
  have hv' := (hsame.inVram (vpnOf va)).trans hv
  rw [hwalk]
  refine ⟨⟨_, rfl⟩, ⟨_, hp', hv', ?_⟩, hsame, hn, hp, hv⟩
  simp [State.setTlb, State.setTable, EngineTlb.insert, hp', hv', stamped]

theorem walk_failed (hres : ¬Resident s.table (vpnOf va)) :
    (∀ pa, (s.walk engine va write).1 ≠ .ok pa) ∧ (s.walk engine va write).2 = s := by
  unfold State.walk
  dsimp only
  split_ifs with h₁ h₂ h₃
  · exact ⟨by simp, rfl⟩
  · exact ⟨by simp, rfl⟩
  · exact ⟨by simp, rfl⟩
  · exact absurd ⟨Nat.lt_of_not_le h₁, by simpa using h₂, by simpa using h₃⟩ hres

theorem translate_cases (hval : Valid s.table (s.tlb engine)) (va : UInt64) (write : Bool) :
    (∃ i, ((s.tlb engine).entry i).vpn = vpnOf va ∧ isHit s engine va = true ∧
      Used s engine va i (s.translate engine va write)) ∨
    (∀ j, ((s.tlb engine).entry j).vpn ≠ vpnOf va) ∧ isHit s engine va = false ∧
      (Used s engine va (EngineTlb.slot (s.tlb engine).entry (List.finRange tlbEntries) 0 (-1))
          (s.translate engine va write) ∨
        ¬Resident s.table (vpnOf va) ∧ (∀ pa, (s.translate engine va write).1 ≠ .ok pa) ∧
          (s.translate engine va write).2 = s) := by
  cases hfind : (List.finRange tlbEntries).find?
    fun i => ((s.tlb engine).entry i).vpn == vpnOf va with
  | none =>
    have hmiss : ∀ j, ((s.tlb engine).entry j).vpn ≠ vpnOf va := by
      intro j hj
      have := List.find?_eq_none.mp hfind j (List.mem_finRange j)
      simp [hj] at this
    have htr : s.translate engine va write = s.walk engine va write := by
      simp only [State.translate, hfind]
    rw [htr]
    refine .inr ⟨hmiss, by simp only [isHit, hfind], ?_⟩
    by_cases hres : Resident s.table (vpnOf va)
    · exact .inl (walk_used hres)
    · exact .inr ⟨hres, walk_failed hres⟩
  | some i =>
    have hi : ((s.tlb engine).entry i).vpn = vpnOf va := by simpa using List.find?_some hfind
    have htag : ((s.tlb engine).entry i).vpn ≠ noVpn := hi ▸ vpnOf_ne_noVpn va
    obtain ⟨hp, hv⟩ := hval.usable i htag
    have htr : s.translate engine va write = s.hit engine va write i := by
      simp only [State.translate, hfind, hp, hv, Bool.and_self, if_true]
    rw [htr]
    refine .inl ⟨i, hi, by simp only [isHit, hfind, hp, hv, Bool.and_self], ?_⟩
    exact hit_used hi hp hv (hi ▸ hval.resident i htag)

end Translate

section Valid
variable {m m' : Mmu} {t : EngineTlb} {i : Fin tlbEntries} {v : ℕ} {p : Pte}

theorem Valid.same (h : Valid m t) (hs : m.Same m') : Valid m' t :=
  ⟨h.unique, h.usable, fun i hi => resident_of_same (h.resident i hi) hs.npages
    (remapped_of_same hs _)⟩

theorem Valid.stamped (h : Valid m t) (hfree : ∀ j, j ≠ i → (t.entry j).vpn ≠ v)
    (hp : p.present = true) (hv : p.inVram = true) (hres : Resident m v) :
    Valid m (stamped t i v p) where
  unique := by
    intro j k hj hjk
    by_cases hji : j = i <;> by_cases hki : k = i
    · rw [hji, hki]
    · subst hji
      rw [stamped_self, stamped_ne hki] at hjk
      exact absurd hjk.symm (hfree k hki)
    · subst hki
      rw [stamped_self, stamped_ne hji] at hjk
      exact absurd hjk (hfree j hji)
    · rw [stamped_ne hji, stamped_ne hki] at hjk
      rw [stamped_ne hji] at hj
      exact h.unique j k hj hjk
  usable := by
    intro j hj
    by_cases hji : j = i
    · subst hji
      rw [stamped_self]
      exact ⟨hp, hv⟩
    · rw [stamped_ne hji] at hj ⊢
      exact h.usable j hj
  resident := by
    intro j hj
    by_cases hji : j = i
    · subst hji
      rw [stamped_self]
      exact hres
    · rw [stamped_ne hji] at hj ⊢
      exact h.resident j hj

end Valid

/-! ### Runs -/

/-- The invariant. The entries of an engine are those of its cache up to the use after which the
clock starts again, and their stamps are in order up to the use before it. -/
structure Inv (x : State) : Prop where
  valid : ∀ e, Valid x.mmu.table (x.mmu.tlb e)
  tracks : ∀ e, x.uses e < 2 ^ 64 → Tracks (x.mmu.tlb e) (x.cache e) (x.uses e)
  mem : ∀ e, x.uses e ≤ 2 ^ 64 → ∀ v, v ∈ x.cache e ↔ Tagged (x.mmu.tlb e) v

theorem new_not_tagged (v : ℕ) : ¬Tagged .new v := by
  rintro ⟨hv, i, hi⟩
  exact hv hi.symm

theorem tracks_new : Tracks .new .empty 0 where
  clock := rfl
  mem := fun v => ⟨fun h => (by cases h), fun h => absurd h (new_not_tagged v)⟩
  order := List.Pairwise.nil
  stamp := fun _ h => absurd rfl h

theorem inv_init (vaBytes vramBytes : UInt64) : Inv (init vaBytes vramBytes) where
  valid := fun _ => ⟨fun _ _ h => absurd rfl h, fun _ h => absurd rfl h, fun _ h => absurd rfl h⟩
  tracks := fun _ _ => tracks_new
  mem := fun _ _ => tracks_new.mem

section Runs
variable {x x' : State} {e : Fin maxEngines} {va : UInt64} {write : Bool} {i : Fin tlbEntries}
  {r : Translate × Tlb.State}

theorem inv_used (hi : Inv x) (hused : Used x.mmu e va i r)
    (hfree : ∀ j, j ≠ i → ((x.mmu.tlb e).entry j).vpn ≠ vpnOf va)
    (hacc : ∀ n, Tracks (x.mmu.tlb e) (x.cache e) n →
      Lru.Access (x.cache e) (vpnOf va) ((x.mmu.tlb e).entry i).vpn) (hit : Bool) :
    Inv ({ x.count e hit with mmu := r.2 }.use e (vpnOf va)) := by
  obtain ⟨p, hp, hv, htlb⟩ := hused.tlb
  have hpage := vpnOf_ne_noVpn va
  have hcache : ({ x.count e hit with mmu := r.2 }.use e (vpnOf va)).cache =
      Function.update x.cache e ((x.cache e).access (vpnOf va)) := by
    cases hit <;> rfl
  have huses : ({ x.count e hit with mmu := r.2 }.use e (vpnOf va)).uses =
      Function.update x.uses e (x.uses e + 1) := by
    cases hit <;> rfl
  constructor
  · intro e'
    refine Valid.same (m := x.mmu.table) ?_ hused.same
    simp only [State.use, htlb]
    by_cases he : e' = e
    · subst he
      rw [Function.update_self]
      exact (hi.valid e').stamped hfree hp hv hused.resident
    · rw [Function.update_of_ne he]
      exact hi.valid e'
  · intro e' hn
    rw [huses] at hn ⊢
    rw [hcache]
    simp only [State.use, htlb]
    by_cases he : e' = e
    · subst he
      simp only [Function.update_self] at hn ⊢
      have ht := hi.tracks e' (by omega)
      exact ht.access (hi.valid e') (hacc _ ht) hfree hpage hn
    · simp only [Function.update_of_ne he] at hn ⊢
      exact hi.tracks e' hn
  · intro e' hn
    rw [huses] at hn
    rw [hcache]
    simp only [State.use, htlb]
    by_cases he : e' = e
    · subst he
      simp only [Function.update_self] at hn ⊢
      have ht := hi.tracks e' (by omega)
      exact ht.mem_access (hi.valid e') (hacc _ ht) hfree hpage
    · simp only [Function.update_of_ne he] at hn ⊢
      exact hi.mem e' hn

theorem inv_count (hi : Inv x) (hit : Bool) : Inv (x.count e hit) := by
  cases hit
  · exact ⟨hi.valid, hi.tracks, hi.mem⟩
  · exact ⟨hi.valid, hi.tracks, hi.mem⟩

theorem count_mmu (x : State) (e : Fin maxEngines) (hit : Bool) :
    { x.count e hit with mmu := x.mmu } = x.count e hit := by
  cases hit <;> rfl

theorem inv_translate (hi : Inv x) : Inv (translate x e va write) := by
  obtain ⟨i, htag, hhit, hused⟩ | ⟨hmiss, hhit, hused | ⟨-, hfail, hsame⟩⟩ :=
    translate_cases (hi.valid e) va write
  · obtain ⟨pa, hpa⟩ := hused.ok
    simp only [translate, hpa]
    refine inv_used hi hused (fun j hj hv => hj ?_) (fun n ht => ht.hit htag (vpnOf_ne_noVpn va)) _
    exact (hi.valid e).unique j i (hv ▸ vpnOf_ne_noVpn va) (hv.trans htag.symm)
  · obtain ⟨pa, hpa⟩ := hused.ok
    simp only [translate, hpa]
    exact inv_used hi hused (fun j _ => hmiss j) (fun n ht => ht.miss (hi.valid e) hmiss) _
  · have heq : translate x e va write = x.count e (isHit x.mmu e va) := by
      unfold translate
      dsimp only
      rw [hsame, count_mmu]
      cases hr : (x.mmu.translate e va write).1 with
      | ok pa => exact absurd hr (hfail pa)
      | _ => rfl
    rw [heq]
    exact inv_count hi _

theorem inv_remap {s : Tlb.State} (hi : Inv x) (hs : Shot x.mmu s) : Inv (remap x s) where
  valid := fun e => (hs.cleared e).valid hs.npages (hi.valid e)
  tracks := fun e hn => (hs.cleared e).tracks (hi.tracks e hn)
  mem := fun e hn => (hs.cleared e).mem (hi.mem e hn)

theorem inv_step {c : Call} (hi : Inv x) (hs : step x c = some x') : Inv x' := by
  by_cases hc : ∀ engine va write, c ≠ .translate engine va write
  · have hstep : (Tlb.step x.mmu c).map (remap x) = some x' := by
      cases c with
      | translate engine va write => exact absurd rfl (hc engine va write)
      | _ => exact hs
    obtain ⟨s, hs', rfl⟩ := Option.map_eq_some_iff.mp hstep
    exact inv_remap hi (Shot.step hi.valid hc hs')
  · push Not at hc
    obtain ⟨engine, va, write, rfl⟩ := hc
    cases hs
    exact inv_translate hi

end Runs

/-- In every run the TLB of an engine holds what a cache of its size holds that is least recently
used, and a translation counts a hit exactly when its page is in that cache, up to `2 ^ 64`
successful translations of the engine. -/
theorem tlb_is_lru (vaBytes vramBytes : UInt64) (x : State)
    (h : Reach step anyStep (init vaBytes vramBytes) x) (e : Fin maxEngines)
    (hn : x.uses e ≤ 2 ^ 64) :
    (∀ v, Tagged (x.mmu.tlb e) v ↔ v ∈ x.cache e) ∧ ∀ va write,
      ((translate x e va write).hits e, (translate x e va write).misses e) =
        if vpnOf va ∈ x.cache e then (x.hits e + 1, x.misses e) else (x.hits e,
        x.misses e + 1) := by
  have hi : Inv x := h.invariant (inv_init vaBytes vramBytes) fun _ _ _ hi _ hs => inv_step hi hs
  refine ⟨fun v => (hi.mem e hn v).symm, fun va write => ?_⟩
  have hcount : ((translate x e va write).hits e, (translate x e va write).misses e) =
      if isHit x.mmu e va = true then (x.hits e + 1, x.misses e)
      else (x.hits e, x.misses e + 1) := by
    unfold translate
    dsimp only
    cases isHit x.mmu e va <;> cases (x.mmu.translate e va write).1 <;>
      simp [State.use, State.count]
  have hhit : isHit x.mmu e va = true ↔ vpnOf va ∈ x.cache e := by
    rw [hi.mem e hn]
    obtain ⟨i, htag, hhit, -⟩ | ⟨hmiss, hhit, -⟩ := translate_cases (hi.valid e) va write
    · rw [hhit]
      exact ⟨fun _ => ⟨vpnOf_ne_noVpn va, i, htag⟩, fun _ => rfl⟩
    · rw [hhit]
      constructor
      · intro h
        cases h
      · rintro ⟨-, j, hj⟩
        exact absurd hj (hmiss j)
  rw [hcount]
  exact if_congr hhit rfl rfl

/-- The pages that `Tlb.moved` leaves in the TLB of engine 0. -/
theorem tlb_is_lru_moved :
    ∃ x, exec step (init 8192 8192) moved = some x ∧ Tagged (x.mmu.tlb 0) 0 ∧
      (translate x 0 0 true).hits 0 = x.hits 0 + 1 := by
  have hrun : (exec step (init 8192 8192) moved).map
      (fun x => (decide (0 ∈ x.cache 0), x.uses 0)) = some (true, 2) := by decide +kernel
  obtain ⟨x, hx, hq⟩ := Option.map_eq_some_iff.mp hrun
  simp only [Prod.mk.injEq, decide_eq_true_eq] at hq
  obtain ⟨hmem, huses⟩ := hq
  obtain ⟨htagged, hcount⟩ := tlb_is_lru 8192 8192 x (.of_exec .refl hx) 0 (by omega)
  have hhit := hcount 0 true
  rw [show vpnOf 0 = 0 from rfl, if_pos hmem, Prod.mk.injEq] at hhit
  exact ⟨x, hx, (htagged 0).mpr hmem, hhit.1⟩

/-! ### The clock starts again -/

section Wrap
variable {x x' : State} {e : Fin maxEngines} {va : UInt64}

structure Succeeds (x : State) (e : Fin maxEngines) (va : UInt64) (x' : State) : Prop where
  inv : Inv x'
  uses : x'.uses e = x.uses e + 1
  cache : x'.cache e = (x.cache e).access (vpnOf va)
  same : x.mmu.table.Same x'.mmu.table
  entry : ∃ i p, x'.mmu.tlb e = stamped (x.mmu.tlb e) i (vpnOf va) p ∧
    (((x.mmu.tlb e).entry i).vpn = vpnOf va ∨ (∀ j, ((x.mmu.tlb e).entry j).vpn ≠ vpnOf va) ∧
      i = EngineTlb.slot (x.mmu.tlb e).entry (List.finRange tlbEntries) 0 (-1))

theorem translate_succeeds (hi : Inv x) (hres : Resident x.mmu.table (vpnOf va)) :
    Succeeds x e va (translate x e va false) := by
  have hused : ∃ i, Used x.mmu e va i (x.mmu.translate e va false) ∧
      (((x.mmu.tlb e).entry i).vpn = vpnOf va ∨ (∀ j, ((x.mmu.tlb e).entry j).vpn ≠ vpnOf va) ∧
        i = EngineTlb.slot (x.mmu.tlb e).entry (List.finRange tlbEntries) 0 (-1)) := by
    obtain ⟨i, htag, -, hused⟩ | ⟨hmiss, -, hused | ⟨habsent, -⟩⟩ :=
      translate_cases (hi.valid e) va false
    · exact ⟨i, hused, .inl htag⟩
    · exact ⟨_, hused, .inr ⟨hmiss, rfl⟩⟩
    · exact absurd hres habsent
  obtain ⟨i, hused, hentry⟩ := hused
  obtain ⟨pa, hpa⟩ := hused.ok
  obtain ⟨p, -, -, htlb⟩ := hused.tlb
  have hinv : Inv (translate x e va false) := inv_translate hi
  simp only [translate, hpa] at hinv ⊢
  refine ⟨hinv, ?_, ?_, hused.same, i, p, ?_, hentry⟩
  · cases isHit x.mmu e va <;> simp [State.use, State.count]
  · cases isHit x.mmu e va <;> simp [State.use, State.count]
  · simp [State.use, htlb]

theorem exec_translate_run (vas : List UInt64) (hi : Inv x)
    (hres : ∀ va ∈ vas, Resident x.mmu.table (vpnOf va)) :
    ∃ x', exec step x (vas.map fun va => .translate e va false) = some x' ∧ Inv x' ∧
      x'.uses e = x.uses e + vas.length ∧
      x'.cache e = vas.foldl (fun c va => c.access (vpnOf va)) (x.cache e) ∧
      x.mmu.table.Same x'.mmu.table := by
  induction vas generalizing x with
  | nil => exact ⟨x, rfl, hi, rfl, rfl, .refl _⟩
  | cons va vas ih =>
    have hs := translate_succeeds (e := e) hi (hres va List.mem_cons_self)
    have hrest : ∀ w ∈ vas, Resident (translate x e va false).mmu.table (vpnOf w) := by
      intro w hw
      exact resident_of_same (hres w (List.mem_cons_of_mem va hw)) hs.same.npages
        (remapped_of_same hs.same _)
    obtain ⟨x', hrun, hi', huses, hcache, hsame⟩ := ih hs.inv hrest
    refine ⟨x', hrun, hi', ?_, ?_, hs.same.trans hsame⟩
    · rw [huses, hs.uses, List.length_cons]
      omega
    · rw [hcache, hs.cache, List.foldl_cons]

theorem foldl_access_front {c : Lru ℕ tlbEntries} {rest : List ℕ} (h : c.pages = vpnOf va :: rest)
    (k : ℕ) : (List.replicate k va).foldl (fun c va => c.access (vpnOf va)) c = c := by
  induction k with
  | zero => rfl
  | succ k ih => rw [List.replicate_succ, List.foldl_cons, Lru.access_front h, ih]

/-- The use that finds the clock at 0 makes its page look like the oldest: the next miss takes its
entry. -/
theorem wrap_forgets (va vb : UInt64) (hi : Inv x) (huses : x.uses e = 2 ^ 64 - 1)
    (hfull : (x.cache e).pages.length = 64) (ha : vpnOf va ∈ x.cache e) (hb : vpnOf vb ∉ x.cache e)
    (hra : Resident x.mmu.table (vpnOf va)) (hrb : Resident x.mmu.table (vpnOf vb)) :
    vpnOf va ∈ (translate (translate x e va false) e vb false).cache e ∧
      ¬Tagged ((translate (translate x e va false) e vb false).mmu.tlb e) (vpnOf va) := by
  have hab : vpnOf va ≠ vpnOf vb := by
    intro h
    exact hb (h ▸ ha)
  have ht := hi.tracks e (by omega)
  have hclock : (x.mmu.tlb e).clock.toNat = 0 := by
    have := ht.clock
    omega
  have hnone : ∀ j, ((x.mmu.tlb e).entry j).vpn ≠ noVpn := by
    intro j hj
    have := ht.room hj
    omega
  have hs := translate_succeeds (e := e) hi hra
  have hrb' := resident_of_same hrb hs.same.npages (remapped_of_same hs.same _)
  have hs' := translate_succeeds (e := e) hs.inv hrb'
  obtain ⟨i, p, htlb, hentry⟩ := hs.entry
  obtain ⟨i', p', htlb', hentry'⟩ := hs'.entry
  have hi_tag : ((x.mmu.tlb e).entry i).vpn = vpnOf va := by
    obtain htag | ⟨hmiss, -⟩ := hentry
    · exact htag
    · obtain ⟨-, j, hj⟩ := (ht.mem _).mp ha
      exact absurd hj (hmiss j)
  have hslot : i' = i := by
    have hnotag : ¬Tagged ((translate x e va false).mmu.tlb e) (vpnOf vb) := by
      rw [← hs.inv.mem e (by rw [hs.uses]; omega), hs.cache, (Lru.access_hit ha).mem]
      rintro (heq | ⟨hmem, -⟩)
      · exact hab heq.symm
      · exact hb hmem
    obtain htag | ⟨-, rfl⟩ := hentry'
    · exact absurd ⟨vpnOf_ne_noVpn vb, i', htag⟩ hnotag
    · have htags : ∀ j, (((translate x e va false).mmu.tlb e).entry j).vpn ≠ noVpn := by
        intro j
        rw [htlb]
        by_cases hj : j = i
        · subst hj
          rw [stamped_self]
          exact vpnOf_ne_noVpn va
        · rw [stamped_ne hj]
          exact hnone j
      have hle := slot_oldest_of_full htags i
      by_contra hne
      rw [htlb] at hle hne
      rw [stamped_ne hne, stamped_self, hclock] at hle
      have := (ht.stamp _ (hnone (EngineTlb.slot (stamped (x.mmu.tlb e) i (vpnOf va) p).entry
        (List.finRange tlbEntries) 0 (-1)))).1
      omega
  refine ⟨?_, ?_⟩
  · rw [hs'.cache, hs.cache]
    exact Lru.mem_access_access _ hab
  · rintro ⟨-, j, hj⟩
    rw [htlb', hslot] at hj
    by_cases hji : j = i
    · subst hji
      rw [stamped_self] at hj
      exact hab hj.symm
    · rw [stamped_ne hji, htlb, stamped_ne hji] at hj
      exact hji ((hi.valid e).unique j i (hnone j) (hj.trans hi_tag.symm))

end Wrap

def fill : List UInt64 := (List.range 64).reverse.map fun v => UInt64.ofNat (v * pageSize)

def wrapping (e : Fin maxEngines) (k : ℕ) : List Call :=
  .mapVram 0 0 65 :: (fill.map (.translate e · false) ++
    (List.replicate k 0).map (.translate e · false) ++
    [.translate e 4096 false, .translate e (64 * 4096) false])

/-- Page 1 is the page that was used last before page 64, and it is the one that page 64
replaces. -/
theorem wrapping_not_lru :
    ¬∀ (vaBytes vramBytes : UInt64) (x : State), Reach step anyStep (init vaBytes vramBytes) x →
      ∀ e v, Tagged (x.mmu.tlb e) v ↔ v ∈ x.cache e := by
  obtain ⟨k, hk⟩ : ∃ k, 64 + k = 2 ^ 64 - 1 := ⟨2 ^ 64 - 65, by omega⟩
  let x₀ := remap (init (65 * 4096) (65 * 4096)) ((init (65 * 4096) (65 * 4096)).mmu.mapVram 0 0 65)
  have hstart : step (init (65 * 4096) (65 * 4096)) (.mapVram 0 0 65) = some x₀ := rfl
  have hi₀ : Inv x₀ := inv_step (inv_init _ _) hstart
  have hres : ∀ v < 65, Resident x₀.mmu.table v := by
    have hall : ∀ v < 65, v < x₀.mmu.table.npages ∧ (x₀.mmu.table.pte v).present = true ∧
        (x₀.mmu.table.pte v).inVram = true := by decide +kernel
    exact hall
  have hpages : ∀ va ∈ fill, vpnOf va < 65 := by
    have hall : (fill.all fun va => vpnOf va < 65) = true := by decide +kernel
    intro va hva
    simpa using List.all_eq_true.mp hall va hva
  obtain ⟨x₁, hrun₁, hi₁, huses₁, hcache₁, hsame₁⟩ :=
    exec_translate_run (e := 0) fill hi₀ fun va hva => hres _ (hpages va hva)
  have hres₁ : ∀ v < 65, Resident x₁.mmu.table v := fun v hv =>
    resident_of_same (hres v hv) hsame₁.npages (remapped_of_same hsame₁ v)
  have hlist : (x₁.cache 0).pages = List.range 64 := by
    have hfold : (fill.foldl (fun c va => c.access (vpnOf va))
      (Lru.empty : Lru ℕ tlbEntries)).pages =
        List.range 64 := by decide +kernel
    rw [hcache₁]
    exact hfold
  obtain ⟨x₂, hrun₂, hi₂, huses₂, hcache₂, hsame₂⟩ :=
    exec_translate_run (e := 0) (List.replicate k 0) hi₁ fun va hva => by
      rw [List.eq_of_mem_replicate hva]
      exact hres₁ 0 (by omega)
  have hfront : (x₁.cache 0).pages = vpnOf 0 :: (List.range 64).tail := by
    rw [hlist]
    rfl
  rw [foldl_access_front hfront] at hcache₂
  have hres₂ : ∀ v < 65, Resident x₂.mmu.table v := fun v hv =>
    resident_of_same (hres₁ v hv) hsame₂.npages (remapped_of_same hsame₂ v)
  have hmem : ∀ v, v ∈ x₂.cache 0 ↔ v < 64 := by
    intro v
    rw [hcache₂, Lru.mem_def, hlist, List.mem_range]
  have huses : x₂.uses 0 = 2 ^ 64 - 1 := by
    have hzero : x₀.uses 0 = 0 := rfl
    have hfill : fill.length = 64 := rfl
    rw [huses₂, huses₁, List.length_replicate, hzero, hfill, Nat.zero_add, hk]
  have hend := wrap_forgets 4096 (64 * 4096) hi₂ huses
    (by rw [hcache₂, hlist, List.length_range])
    ((hmem _).mpr (by decide)) (fun h => absurd ((hmem _).mp h) (by decide))
    (hres₂ _ (by decide)) (hres₂ _ (by decide))
  have hrun : exec step (init (65 * 4096) (65 * 4096)) (wrapping 0 k) =
      some (translate (translate x₂ 0 4096 false) 0 (64 * 4096) false) := by
    rw [wrapping, exec, hstart, Option.bind_some, exec_append, exec_append, hrun₁, Option.bind_some,
      hrun₂, Option.bind_some]
    rfl
  intro h
  exact hend.2 ((h _ _ _ (.of_exec .refl hrun) 0 _).mpr hend.1)

end SoftGpu.TlbLru
