import Mathlib
import SoftGpu.Command

/-!
# The registry of pinned host ranges

`SG_IOC_PIN`, `SG_IOC_UNPIN` and `pinned` on the map `pins`, from the start of a
range to its size. Each of them holds `pin_lock`, so calls happen one after the
other. An overlap is looked for at the two neighbours of the new range only; that
this is enough, and that `pinned` has to look at one entry only, is what the
invariant of `Registry` is for.

`SG_IOC_PIN` also reclaims what the device has finished with, and `SG_IOC_UNPIN`
leaves an entry on the list of deferred releases; neither changes the registry.
-/

namespace SoftGpu.Pins

open Exec (RangeTable View Args doSubmit)

def pinMap (pins : KeyMap UInt64) (addr size : UInt64) : Except Errno (KeyMap UInt64) :=
  if addr = 0 ∨ size = 0 ∨ addr + size < addr then .error .einval
  else if (pins.lowerBound addr.toNat).any fun next => next.1 < (addr + size).toNat then
    .error .eexist
  else if (pins.before addr.toNat).any fun prev => addr < UInt64.ofNat prev.1 + prev.2 then
    .error .eexist
  else .ok (pins.emplace addr.toNat size)

def unpinMap (pins : KeyMap UInt64) (addr : UInt64) : Except Errno (KeyMap UInt64) :=
  match pins.find addr.toNat with
  | none => .error .einval
  | some _ => .ok (pins.erase addr.toNat)

def bytes (e : ℕ × UInt64) : Set ℕ := Set.Ico e.1 (e.1 + e.2.toNat)

structure Registry extends RangeTable where
  nonempty : ∀ e ∈ map.entries, 0 < e.2.toNat
  apart : ∀ d ∈ map.entries, ∀ e ∈ map.entries, d.1 < e.1 → d.1 + d.2.toNat ≤ e.1

section Neighbours
variable {r : Registry} {addr size : UInt64} {m : KeyMap UInt64}

theorem end_toNat (h : ¬addr + size < addr) : (addr + size).toNat = addr.toNat + size.toNat := by
  have hlt := addr.toNat_lt
  have hlt' := size.toNat_lt
  rw [UInt64.lt_iff_toNat_lt, UInt64.toNat_add] at h
  rw [UInt64.toNat_add]
  omega

theorem not_wraps (h : addr.toNat + size.toNat < 2 ^ 64) : ¬addr + size < addr := by
  rw [UInt64.lt_iff_toNat_lt, UInt64.toNat_add]
  omega

theorem entry_end (r : Registry) {e : ℕ × UInt64} (he : e ∈ r.map.entries) :
    (UInt64.ofNat e.1 + e.2).toNat = e.1 + e.2.toNat := by
  have hfits := r.fits e he
  rw [UInt64.toNat_add, UInt64.toNat_ofNat']
  omega

theorem next_after (h : ¬(r.map.lowerBound addr.toNat).any fun next => next.1 < (addr + size).toNat)
    {e : ℕ × UInt64} (he : e ∈ r.map.entries) (hle : addr.toNat ≤ e.1) :
    (addr + size).toNat ≤ e.1 := by
  cases hnext : r.map.lowerBound addr.toNat with
  | none => exact absurd (KeyMap.lowerBound_none hnext he) (by omega)
  | some next =>
    have hleast := KeyMap.lowerBound_least hnext he hle
    simp only [hnext, Option.any_some, decide_eq_true_eq] at h
    omega

theorem prev_before
    (h : ¬(r.map.before addr.toNat).any fun prev => addr < UInt64.ofNat prev.1 + prev.2)
    {e : ℕ × UInt64} (he : e ∈ r.map.entries) (hlt : e.1 < addr.toNat) :
    e.1 + e.2.toNat ≤ addr.toNat := by
  cases hprev : r.map.before addr.toNat with
  | none => exact absurd (KeyMap.before_none hprev he) (by omega)
  | some prev =>
    obtain ⟨hmem, hbelow, hlast⟩ := KeyMap.before_spec hprev
    simp only [hprev, Option.any_some, decide_eq_true_eq, UInt64.lt_iff_toNat_lt,
      entry_end r hmem] at h
    obtain heq | hlt' := (hlast e he hlt).eq_or_lt
    · rw [KeyMap.key_unique he hmem heq]
      omega
    · have := r.apart e he prev hmem hlt'
      omega

structure Accepted (r : Registry) (addr size : UInt64) : Prop where
  addressed : addr ≠ 0
  positive : 0 < size.toNat
  fits : addr.toNat + size.toNat < 2 ^ 64
  absent : r.map.find addr.toNat = none
  after : ∀ e ∈ r.map.entries, addr.toNat ≤ e.1 → addr.toNat + size.toNat ≤ e.1
  before : ∀ e ∈ r.map.entries, e.1 < addr.toNat → e.1 + e.2.toNat ≤ addr.toNat

theorem pinMap_ok (h : pinMap r.map addr size = .ok m) :
    Accepted r addr size ∧ m = r.map.emplace addr.toNat size := by
  unfold pinMap at h
  split at h
  · cases h
  next hargs =>
  push Not at hargs
  obtain ⟨haddr, hsize, hwrap⟩ := hargs
  have hend := end_toNat hwrap
  have hpos : 0 < size.toNat := Nat.pos_of_ne_zero fun h0 => hsize (UInt64.toNat_inj.mp h0)
  split at h
  · cases h
  next hnext =>
  split at h
  · cases h
  next hprev =>
  cases h
  have hafter : ∀ e ∈ r.map.entries, addr.toNat ≤ e.1 → addr.toNat + size.toNat ≤ e.1 := by
    intro e he hle
    rw [← hend]
    exact next_after hnext he hle
  refine ⟨⟨haddr, hpos, ?_, ?_, hafter, fun e he hlt => prev_before hprev he hlt⟩, rfl⟩
  · rw [← hend]
    exact UInt64.toNat_lt _
  · rw [KeyMap.find_eq_none]
    intro e he heq
    have := hafter e he heq.ge
    omega

theorem pinMap_of_apart (haddr : addr ≠ 0) (hsize : size ≠ 0)
    (hfits : addr.toNat + size.toNat < 2 ^ 64)
    (h : ∀ e ∈ r.map.entries, Disjoint (Set.Ico addr.toNat (addr.toNat + size.toNat)) (bytes e)) :
    pinMap r.map addr size = .ok (r.map.emplace addr.toNat size) := by
  have hwrap := not_wraps hfits
  have hend := end_toNat hwrap
  have hpos : 0 < size.toNat := Nat.pos_of_ne_zero fun h0 => hsize (UInt64.toNat_inj.mp h0)
  unfold pinMap
  rw [if_neg (by simp only [haddr, hsize, hwrap, or_self, not_false_eq_true]), if_neg, if_neg]
  · cases hprev : r.map.before addr.toNat with
    | none => simp
    | some prev =>
      obtain ⟨hmem, hbelow, -⟩ := KeyMap.before_spec hprev
      simp only [Option.any_some, decide_eq_true_eq, UInt64.lt_iff_toNat_lt, entry_end r hmem]
      intro hover
      have hin : addr.toNat ∈ Set.Ico addr.toNat (addr.toNat + size.toNat) := ⟨le_rfl, by omega⟩
      exact Set.disjoint_left.mp (h prev hmem) hin ⟨hbelow.le, hover⟩
  · cases hnext : r.map.lowerBound addr.toNat with
    | none => simp
    | some next =>
      obtain ⟨hmem, hle⟩ := KeyMap.lowerBound_spec hnext
      simp only [Option.any_some, decide_eq_true_eq, hend]
      intro hover
      have hpos := r.nonempty next hmem
      have hin : next.1 ∈ bytes next := ⟨le_rfl, by omega⟩
      exact Set.disjoint_left.mp (h next hmem) ⟨hle, hover⟩ hin

end Neighbours

namespace Registry
variable {addr size : UInt64} {m : KeyMap UInt64}

theorem empty_fits : ∀ e ∈ (KeyMap.empty : KeyMap UInt64).entries, e.1 + e.2.toNat < 2 ^ 64 :=
  List.forall_mem_nil _

theorem empty_nonempty : ∀ e ∈ (KeyMap.empty : KeyMap UInt64).entries, 0 < e.2.toNat :=
  List.forall_mem_nil _

theorem empty_apart : ∀ d ∈ (KeyMap.empty : KeyMap UInt64).entries,
    ∀ e ∈ (KeyMap.empty : KeyMap UInt64).entries, d.1 < e.1 → d.1 + d.2.toNat ≤ e.1 :=
  List.forall_mem_nil _

def empty : Registry where
  map := .empty
  fits := empty_fits
  nonempty := empty_nonempty
  apart := empty_apart

def extend (r : Registry) (h : Accepted r addr size) : Registry where
  map := r.map.emplace addr.toNat size
  fits := by
    intro e he
    obtain rfl | he := (KeyMap.mem_emplace h.absent).mp he
    · exact h.fits
    · exact r.fits e he
  nonempty := by
    intro e he
    obtain rfl | he := (KeyMap.mem_emplace h.absent).mp he
    · exact h.positive
    · exact r.nonempty e he
  apart := by
    intro d hd e he hlt
    obtain rfl | hd := (KeyMap.mem_emplace h.absent).mp hd <;>
      obtain rfl | he := (KeyMap.mem_emplace h.absent).mp he
    · exact absurd hlt (lt_irrefl _)
    · exact h.after e he hlt.le
    · exact h.before d hd hlt
    · exact r.apart d hd e he hlt

def remove (r : Registry) (addr : UInt64) : Registry where
  map := r.map.erase addr.toNat
  fits := fun e he => r.fits e (KeyMap.mem_erase.mp he).1
  nonempty := fun e he => r.nonempty e (KeyMap.mem_erase.mp he).1
  apart := fun d hd e he => r.apart d (KeyMap.mem_erase.mp hd).1 e (KeyMap.mem_erase.mp he).1

def pin (r : Registry) (addr size : UInt64) : Except Errno Registry :=
  match h : pinMap r.map addr size with
  | .error e => .error e
  | .ok _ => .ok (r.extend (pinMap_ok h).1)

def unpin (r : Registry) (addr : UInt64) : Except Errno Registry :=
  match unpinMap r.map addr with
  | .error e => .error e
  | .ok _ => .ok (r.remove addr)

end Registry

inductive Call
  | pin (addr size : UInt64)
  | unpin (addr : UInt64)
  deriving DecidableEq, Repr

def Registry.call (r : Registry) (c : Call) : Except Errno Unit × Registry :=
  match (match c with
    | .pin addr size => r.pin addr size
    | .unpin addr => r.unpin addr) with
  | .error e => (.error e, r)
  | .ok r' => (.ok (), r')

def run (r : Registry) : List Call → Registry
  | [] => r
  | c :: calls => run (r.call c).2 calls

/-! ### What the calls do -/

section Calls
variable {r : Registry} {addr size : UInt64} {e : ℕ × UInt64}

theorem bytes_disjoint {d : ℕ × UInt64} (hd : d ∈ r.map.entries) (he : e ∈ r.map.entries)
    (hlt : d.1 < e.1) : Disjoint (bytes d) (bytes e) := by
  have hend := r.apart d hd e he hlt
  rw [Set.disjoint_left]
  intro x hx hx'
  exact absurd (hx.2.trans_le (hend.trans hx'.1)) (lt_irrefl _)

theorem Accepted.size_ne_zero (h : Accepted r addr size) : size ≠ 0 := by
  rintro rfl
  exact absurd h.positive (lt_irrefl _)

theorem Accepted.disjoint (h : Accepted r addr size) (he : e ∈ r.map.entries) :
    Disjoint (Set.Ico addr.toNat (addr.toNat + size.toNat)) (bytes e) := by
  rw [Set.disjoint_left]
  intro x hx hx'
  obtain hle | hlt := le_or_gt addr.toNat e.1
  · exact absurd (hx.2.trans_le ((h.after e he hle).trans hx'.1)) (lt_irrefl _)
  · exact absurd (hx'.2.trans_le ((h.before e he hlt).trans hx.1)) (lt_irrefl _)

theorem pin_cases (r : Registry) (addr size : UInt64) :
    (∃ h : Accepted r addr size, r.call (.pin addr size) = (.ok (), r.extend h)) ∨
    ∃ err, pinMap r.map addr size = .error err ∧ r.call (.pin addr size) = (.error err, r) := by
  simp only [Registry.call, Registry.pin]
  split
  · next hcall =>
    split at hcall
    · next herr =>
      cases hcall
      exact .inr ⟨_, herr, rfl⟩
    · cases hcall
  · next hcall =>
    split at hcall
    · cases hcall
    · next hok =>
      cases hcall
      exact .inl ⟨(pinMap_ok hok).1, rfl⟩

theorem unpin_cases (r : Registry) (addr : UInt64) :
    (r.map.find addr.toNat ≠ none ∧ r.call (.unpin addr) = (.ok (), r.remove addr)) ∨
    r.map.find addr.toNat = none ∧ r.call (.unpin addr) = (.error .einval, r) := by
  simp only [Registry.call, Registry.unpin, unpinMap]
  cases hfind : r.map.find addr.toNat with
  | none => exact .inr ⟨rfl, rfl⟩
  | some n => exact .inl ⟨by simp, rfl⟩

theorem covers_subset {a n : UInt64} (h : r.covers a n = true) :
    ∃ e ∈ r.map.entries, Set.Ico a.toNat (a.toNat + n.toNat) ⊆ bytes e := by
  simp only [RangeTable.covers] at h
  split at h
  · cases h
  · next first size hfound =>
    obtain ⟨hmem, hfirst, -⟩ := KeyMap.atMost_spec hfound
    simp only [decide_eq_true_eq] at h
    refine ⟨(first, size), hmem, Set.Ico_subset_Ico hfirst ?_⟩
    dsimp only at hfirst ⊢
    omega

theorem covers_iff {a n : UInt64} (hn : 0 < n.toNat) :
    r.covers a n = true ↔ ∃ e ∈ r.map.entries, Set.Ico a.toNat (a.toNat + n.toNat) ⊆ bytes e := by
  constructor
  · exact covers_subset
  · rintro ⟨e, he, hsub⟩
    have hlast := (Set.Ico_subset_Ico_iff (by omega)).mp hsub
    obtain ⟨d, hd⟩ := KeyMap.atMost_isSome he hlast.1
    obtain ⟨hmem, hle, hmax⟩ := KeyMap.atMost_spec hd
    have hde : d = e := by
      obtain heq | hlt := (hmax e he hlast.1).eq_or_lt
      · exact (KeyMap.key_unique he hmem heq).symm
      · -- A range that starts between them would begin inside `e`.
        have := r.apart e he d hmem hlt
        omega
    subst hde
    simp only [RangeTable.covers, hd, decide_eq_true_eq]
    omega

theorem doSubmit_staged {d : View} {a : Args} {cmds : List Exec.Cmd}
    (hop : a.cmd.opcode = .copyH2D ∨ a.cmd.opcode = .copyD2H) (hs : doSubmit d a = .ok cmds)
    (hpin : d.pinned a.hostPtr a.cmd.size = false) :
    ∀ c ∈ cmds, ∃ i, (if a.cmd.opcode = .copyH2D then c.src0 else c.dst) = d.slotPtr i := by
  simp only [doSubmit] at hs
  split at hs
  · cases hs
  split at hs
  · cases hs
  split at hs
  · cases hs
  split at hs
  · cases hs
  obtain hop | hop := hop
  all_goals
    simp only [hop, hpin, Bool.false_eq_true, if_false] at hs
    split at hs
    · cases hs
    · cases hs
      intro c hc
      obtain ⟨i, -, rfl⟩ := List.mem_map.mp hc
      exact ⟨i, by simp [hop, View.chunkIn, View.chunkOut]⟩

end Calls

/-- What the registry promises in the state `r`: to `SG_IOC_PIN`, to `SG_IOC_UNPIN`, to
`pinned` and to the copies that `do_submit` submits. -/
structure Exact (r : Registry) : Prop where
  disjoint : r.map.entries.Pairwise fun d e => Disjoint (bytes d) (bytes e)
  below : ∀ e ∈ r.map.entries, e.1 + e.2.toNat < 2 ^ 64
  accepts : ∀ addr size : UInt64, (r.call (.pin addr size)).1 = .ok () ↔
    addr ≠ 0 ∧ size ≠ 0 ∧ addr.toNat + size.toNat < 2 ^ 64 ∧
      ∀ e ∈ r.map.entries, Disjoint (Set.Ico addr.toNat (addr.toNat + size.toNat)) (bytes e)
  adds : ∀ addr size : UInt64, (r.call (.pin addr size)).1 = .ok () →
    ∀ e, e ∈ (r.call (.pin addr size)).2.map.entries ↔ e = (addr.toNat, size) ∨ e ∈ r.map.entries
  refuses : ∀ addr size : UInt64, (r.call (.pin addr size)).1 ≠ .ok () →
    (r.call (.pin addr size)).2 = r
  removes : ∀ addr : UInt64, ∀ e, e ∈ (r.call (.unpin addr)).2.map.entries ↔
    e ∈ r.map.entries ∧ e.1 ≠ addr.toNat
  pinned : ∀ a n : UInt64, 0 < n.toNat → (r.covers a n = true ↔
    ∃ e ∈ r.map.entries, Set.Ico a.toNat (a.toNat + n.toNat) ⊆ bytes e)
  direct : ∀ (d : View) (a : Args) (cmds : List Exec.Cmd), d.pins = r.toRangeTable →
    a.cmd.opcode = .copyH2D ∨ a.cmd.opcode = .copyD2H → doSubmit d a = .ok cmds →
    (∀ c ∈ cmds, ∃ i, (if a.cmd.opcode = .copyH2D then c.src0 else c.dst) = d.slotPtr i) ∨
    ∃ e ∈ r.map.entries, Set.Ico a.hostPtr.toNat (a.hostPtr.toNat + a.cmd.size.toNat) ⊆ bytes e

/-- After every sequence of calls the registry is exact. -/
theorem pin_registry_exact (calls : List Call) : Exact (run .empty calls) := by
  generalize run .empty calls = r
  constructor
  · rw [List.pairwise_iff_forall_sublist]
    intro d e hsub
    have hd := hsub.subset (List.mem_cons_self ..)
    have he := hsub.subset (List.mem_cons_of_mem d (List.mem_singleton_self e))
    have hlt : d.1 < e.1 := List.pairwise_iff_forall_sublist.mp r.map.sorted hsub
    exact bytes_disjoint hd he hlt
  · exact r.fits
  · intro addr size
    obtain ⟨hacc, hcall⟩ | ⟨err, herr, hcall⟩ := pin_cases r addr size
    · rw [hcall]
      exact ⟨fun _ => ⟨hacc.addressed, hacc.size_ne_zero, hacc.fits, fun e he => hacc.disjoint he⟩,
        fun _ => rfl⟩
    · rw [hcall]
      constructor
      · intro h
        cases h
      · rintro ⟨haddr, hsize, hfits, hapart⟩
        rw [pinMap_of_apart haddr hsize hfits hapart] at herr
        cases herr
  · intro addr size hok e
    obtain ⟨hacc, hcall⟩ | ⟨err, -, hcall⟩ := pin_cases r addr size
    · rw [hcall]
      exact KeyMap.mem_emplace hacc.absent
    · rw [hcall] at hok
      cases hok
  · intro addr size hfail
    obtain ⟨hacc, hcall⟩ | ⟨err, -, hcall⟩ := pin_cases r addr size
    · rw [hcall] at hfail
      exact absurd rfl hfail
    · rw [hcall]
  · intro addr e
    obtain ⟨-, hcall⟩ | ⟨hnone, hcall⟩ := unpin_cases r addr
    · rw [hcall]
      exact KeyMap.mem_erase
    · rw [hcall]
      exact ⟨fun he => ⟨he, KeyMap.find_eq_none.mp hnone e he⟩, fun he => he.1⟩
  · exact fun a n hn => covers_iff hn
  · intro d a cmds hpins hop hs
    cases hpin : d.pinned a.hostPtr a.cmd.size with
    | false => exact .inl (doSubmit_staged hop hs hpin)
    | true =>
      rw [View.pinned, hpins] at hpin
      exact .inr (covers_subset hpin)

/-- Touching ranges are accepted, an overlap by one byte is not, and a copy over both of two
touching ranges is not inside one of them. -/
example : let r := run .empty [.pin 4096 100, .pin 4196 100, .pin 4000 97]
    r.map.entries.map Prod.fst = [4096, 4196] ∧ r.covers 4096 100 = true ∧
      r.covers 4190 12 = false := by decide +kernel

end SoftGpu.Pins
