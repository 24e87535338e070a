import SoftGpu.Machine
import SoftGpu.Mmu

/-!
# Streams, channels and priorities

A stream is bound to one channel index, which it uses on every engine. The
binding table of the runtime has, for each channel, the priority it is
programmed to and the number of its users; the device has one priority register
per engine and channel. A priority other than the default needs a channel that
has it already or that nobody uses.

Binding and unbinding hold `g_bind_mu` from end to end, so a call is one step,
whichever thread makes it. A stream object is named by its address.
-/

namespace SoftGpu.Binding

open Machine

def priorityLeast : ℤ := 0

def priorityGreatest : ℤ := -7

/-! ### The device registers -/

structure Registers where
  numEngines : ℕ
  numChannels : ℕ
  priority : ℕ → ℕ → ℤ
  mixedPriority : Bool

namespace Registers

def new (engines channels : ℕ) : Registers := ⟨engines, channels, fun _ _ => 0, false⟩

def setChannelPriority (d : Registers) (engine channel : ℕ) (p : ℤ) : Except Errno Registers :=
  if d.numEngines ≤ engine ∨ d.numChannels ≤ channel then .error .einval
  else if priorityLeast < p ∨ p < priorityGreatest then .error .einval
  else
    let priority := fun e c => if e = engine ∧ c = channel then p else d.priority e c
    let mixed := decide (∃ e < d.numEngines, ∃ c < d.numChannels, priority e c ≠ priorityLeast)
    .ok { d with priority := priority, mixedPriority := mixed }

def setPriorityOn (channel : ℕ) (p : ℤ) : List ℕ → Registers → Option Errno × Registers
  | [], d => (none, d)
  | e :: es, d =>
    match d.setChannelPriority e channel p with
    | .error rc => (some rc, d)
    | .ok d' => setPriorityOn channel p es d'

end Registers

/-! ### The runtime -/

inductive SgError
  | invalidValue
  | outOfMemory
  | invalidAddress
  | device
  deriving DecidableEq, Repr

def fromErrno : Errno → SgError
  | .einval => .invalidValue
  | .enomem => .outOfMemory
  | .efault => .invalidAddress
  | .eio => .device
  | .eexist => .invalidValue

structure ChanBind where
  priority : ℤ
  users : ℕ
  deriving DecidableEq, Repr

structure Stream where
  id : UInt32
  ce : ℕ
  channel : ℕ
  request : ℤ
  deriving DecidableEq, Repr

structure Runtime where
  dev : Registers
  numEngines : ℕ
  numChannels : ℕ
  bind : ℕ → ChanBind
  nextId : UInt32
  streams : List (ℕ × Stream)

namespace Runtime

/-- `sgInit` on a device that was just opened: the default stream holds channel 0.
The stream ids go on from those of earlier sessions. -/
def init (engines channels : ℕ) (nextId : UInt32) : Runtime where
  dev := .new engines channels
  numEngines := engines
  numChannels := channels
  bind := fun c => ⟨0, if c = 0 then 1 else 0⟩
  nextId := nextId
  streams := []

def setPriorityAll (s : Runtime) (channel : ℕ) (p : ℤ) : Option Errno × Registers :=
  s.dev.setPriorityOn channel p (List.range s.numEngines)

def setBind (s : Runtime) (c : ℕ) (b : ChanBind) : Runtime :=
  { s with bind := Function.update s.bind c b }

end Runtime

def clampPriority (p : ℤ) : ℤ :=
  if p < priorityGreatest then priorityGreatest else if priorityLeast < p then priorityLeast else p

def leastUsed (bind : ℕ → ChanBind) (p : ℤ) : List ℕ → Option ℕ → ℕ → Option ℕ
  | [], found, _ => found
  | c :: cs, found, best =>
    if (bind c).priority ≠ p then leastUsed bind p cs found best
    else if found = none ∨ (bind c).users < best then leastUsed bind p cs (some c) (bind c).users
    else leastUsed bind p cs found best

namespace Runtime

def addUser (s : Runtime) (c : ℕ) : Runtime :=
  s.setBind c { s.bind c with users := (s.bind c).users + 1 }

def bindChannel (s : Runtime) (p : ℤ) : Except SgError ℕ × Runtime :=
  match leastUsed s.bind p (List.range s.numChannels) none 0 with
  | some c => (.ok c, s.addUser c)
  | none =>
    match (List.range s.numChannels).find? fun c => (s.bind c).users == 0 with
    | none => (.error .invalidValue, s)
    | some c =>
      match s.setPriorityAll c p with
      | (none, dev) =>
        let s := { s with dev := dev }
        (.ok c, (s.setBind c { s.bind c with priority := p }).addUser c)
      | (some rc, dev) =>
        let s := { s with dev := dev }
        (.error (fromErrno rc), { s with dev := (s.setPriorityAll c priorityLeast).2 })

def unbindChannel (s : Runtime) (channel : ℕ) : Runtime :=
  let slot := { s.bind channel with users := (s.bind channel).users - 1 }
  let s := s.setBind channel slot
  if slot.users = 0 ∧ slot.priority ≠ priorityLeast then
    match s.setPriorityAll channel priorityLeast with
    | (none, dev) => { s with dev := dev }.setBind channel { slot with priority := priorityLeast }
    | (some _, dev) => { s with dev := dev }
  else s

/-- `create_stream`. `out` says that the caller passed a pointer, and `addr` is
where the new object lies. -/
def createStream (s : Runtime) (out : Bool) (addr : ℕ) (priority : ℤ) :
    Except SgError ℕ × Runtime :=
  if out = false then (.error .invalidValue, s)
  else
    let id := s.nextId
    let numCe := s.numEngines - 1
    let ce := if numCe = 0 then 0 else 1 + id.toNat % numCe
    let s := { s with nextId := s.nextId + 1 }
    match s.bindChannel (clampPriority priority) with
    | (.error e, s) => (.error e, s)
    | (.ok c, s) =>
      (.ok addr, { s with streams := (addr, ⟨id, ce, c, clampPriority priority⟩) :: s.streams })

def sgStreamCreate (s : Runtime) (out : Bool) (addr : ℕ) : Except SgError ℕ × Runtime :=
  s.createStream out addr priorityLeast

def sgStreamCreateWithPriority (s : Runtime) (out : Bool) (addr : ℕ) (priority : ℤ) :
    Except SgError ℕ × Runtime :=
  s.createStream out addr priority

def sgStreamDestroy (s : Runtime) (x : ℕ × Stream) : Runtime :=
  let s := s.unbindChannel x.2.channel
  { s with streams := s.streams.erase x }

end Runtime

inductive Call
  | create (out : Bool) (addr : ℕ)
  | createWithPriority (out : Bool) (addr : ℕ) (priority : ℤ)
  | destroy (addr : ℕ)
  | destroyNull
  deriving DecidableEq, Repr

/-- `new` returns an address at which no stream lies; `destroy` is called with
the address of a stream. -/
def step (s : Runtime) : Call → Option Runtime
  | .create out addr =>
    if addr ∈ s.streams.map Prod.fst then none else some (s.sgStreamCreate out addr).2
  | .createWithPriority out addr priority =>
    if addr ∈ s.streams.map Prod.fst then none
    else some (s.sgStreamCreateWithPriority out addr priority).2
  | .destroy addr => (s.streams.find? fun x => x.1 == addr).map fun x => s.sgStreamDestroy x
  | .destroyNull => some s

/-! ### Programming a channel on every engine -/

variable {s s' : Runtime} {c : ℕ} {p : ℤ}

theorem clampPriority_range (p : ℤ) :
    priorityGreatest ≤ clampPriority p ∧ clampPriority p ≤ priorityLeast := by
  simp only [clampPriority, priorityGreatest, priorityLeast]
  split_ifs <;> omega

theorem setChannelPriority_ok {d : Registers} {e : ℕ} (he : e < d.numEngines)
    (hc : c < d.numChannels) (hp : priorityGreatest ≤ p ∧ p ≤ priorityLeast) :
    ∃ d', d.setChannelPriority e c p = .ok d' ∧ d'.numEngines = d.numEngines ∧
      d'.numChannels = d.numChannels ∧
      ∀ e' c', d'.priority e' c' = if e' = e ∧ c' = c then p else d.priority e' c' := by
  unfold Registers.setChannelPriority
  rw [if_neg (by omega), if_neg (by omega)]
  exact ⟨_, rfl, rfl, rfl, fun _ _ => rfl⟩

theorem setPriorityOn_ok {es : List ℕ} {d : Registers} (hes : ∀ e ∈ es, e < d.numEngines)
    (hc : c < d.numChannels) (hp : priorityGreatest ≤ p ∧ p ≤ priorityLeast) :
    ∃ d', d.setPriorityOn c p es = (none, d') ∧ d'.numEngines = d.numEngines ∧
      d'.numChannels = d.numChannels ∧
      ∀ e' c', d'.priority e' c' = if e' ∈ es ∧ c' = c then p else d.priority e' c' := by
  induction es generalizing d with
  | nil => exact ⟨d, rfl, rfl, rfl, by simp⟩
  | cons e es ih =>
    obtain ⟨d₁, h₁, hn₁, hc₁, hp₁⟩ := setChannelPriority_ok (hes e List.mem_cons_self) hc hp
    obtain ⟨d₂, h₂, hn₂, hc₂, hp₂⟩ := ih (d := d₁)
      (fun e' he' => hn₁ ▸ hes e' (List.mem_cons_of_mem e he')) (hc₁ ▸ hc)
    refine ⟨d₂, ?_, hn₂.trans hn₁, hc₂.trans hc₁, fun e' c' => ?_⟩
    · simp only [Registers.setPriorityOn, h₁]
      exact h₂
    · rw [hp₂, hp₁]
      by_cases hcc : c' = c <;> by_cases he : e' = e <;> by_cases hmem : e' ∈ es <;>
        simp [hcc, he, hmem]

/-! ### The invariant -/

def liveOn (s : Runtime) (c : ℕ) : ℕ := s.streams.countP fun x => x.2.channel == c

def usersOf (s : Runtime) (c : ℕ) : ℕ := liveOn s c + if c = 0 then 1 else 0

structure Consistent (s : Runtime) : Prop where
  users : ∀ c, (s.bind c).users = usersOf s c
  stream : ∀ x ∈ s.streams, x.2.channel < s.numChannels ∧
    x.2.request = (s.bind x.2.channel).priority
  device : ∀ c < s.numChannels, ∀ e < s.numEngines, s.dev.priority e c = (s.bind c).priority
  unused : ∀ c, (s.bind c).users = 0 → (s.bind c).priority = priorityLeast
  channelZero : (s.bind 0).priority = priorityLeast

structure Inv (s : Runtime) : Prop extends Consistent s where
  engines : s.dev.numEngines = s.numEngines
  channels : s.dev.numChannels = s.numChannels
  positive : 0 < s.numChannels

theorem setPriorityAll_ok (h : Inv s) (hc : c < s.numChannels)
    (hp : priorityGreatest ≤ p ∧ p ≤ priorityLeast) :
    ∃ dev, s.setPriorityAll c p = (none, dev) ∧ dev.numEngines = s.numEngines ∧
      dev.numChannels = s.numChannels ∧ ∀ e' < s.numEngines, ∀ c',
        dev.priority e' c' = if c' = c then p else s.dev.priority e' c' := by
  have hes : ∀ e ∈ List.range s.numEngines, e < s.dev.numEngines :=
    fun e he => h.engines ▸ List.mem_range.mp he
  obtain ⟨d, hd, hn, hch, hpr⟩ := setPriorityOn_ok hes (h.channels ▸ hc) hp
  refine ⟨d, hd, hn.trans h.engines, hch.trans h.channels, fun e' he' c' => ?_⟩
  rw [hpr]
  simp [he']

theorem Inv.init {engines channels : ℕ} {nextId : UInt32} (hch : 0 < channels) :
    Inv (Runtime.init engines channels nextId) where
  users := fun c => by simp [Runtime.init, usersOf, liveOn]
  stream := fun x hx => absurd hx (by simp [Runtime.init])
  device := fun _ _ _ _ => rfl
  unused := fun _ _ => rfl
  channelZero := rfl
  engines := rfl
  channels := rfl
  positive := hch

/-! ### Choosing a channel -/

theorem leastUsed_some {bind : ℕ → ChanBind} {cs : List ℕ} {found : Option ℕ} {best : ℕ}
    (h : leastUsed bind p cs found best = some c) :
    found = some c ∨ c ∈ cs ∧ (bind c).priority = p := by
  induction cs generalizing found best with
  | nil => exact .inl h
  | cons c' cs ih =>
    simp only [leastUsed] at h
    split_ifs at h with hp hbest
    · exact (ih h).imp_right fun ⟨hm, hc⟩ => ⟨List.mem_cons_of_mem c' hm, hc⟩
    · rcases ih h with hf | ⟨hm, hc⟩
      · obtain rfl := Option.some.inj hf
        exact .inr ⟨List.mem_cons_self, not_not.mp hp⟩
      · exact .inr ⟨List.mem_cons_of_mem c' hm, hc⟩
    · exact (ih h).imp_right fun ⟨hm, hc⟩ => ⟨List.mem_cons_of_mem c' hm, hc⟩

theorem leastUsed_none {bind : ℕ → ChanBind} {cs : List ℕ} {found : Option ℕ} {best : ℕ} :
    leastUsed bind p cs found best = none ↔
      found = none ∧ ∀ c ∈ cs, (bind c).priority ≠ p := by
  induction cs generalizing found best with
  | nil => simp [leastUsed]
  | cons c' cs ih =>
    simp only [leastUsed, List.forall_mem_cons]
    split_ifs with hp hbest
    · rw [ih]
      simp [hp]
    · rw [ih]
      simp [not_not.mp hp]
    · rw [ih]
      simp [not_not.mp hp, not_or.mp hbest]

def Full (s : Runtime) (p : ℤ) : Prop :=
  (∀ c < s.numChannels, (s.bind c).priority ≠ p) ∧ ∀ c < s.numChannels, (s.bind c).users ≠ 0

structure Bound (s : Runtime) (p : ℤ) (c : ℕ) (s' : Runtime) : Prop where
  channel : c < s.numChannels
  suits : (s.bind c).priority = p ∨ (s.bind c).users = 0
  bind : s'.bind = Function.update s.bind c ⟨p, (s.bind c).users + 1⟩
  device : ∀ e < s.numEngines, ∀ c', s'.dev.priority e c' =
    if c' = c ∧ (s.bind c).priority ≠ p then p else s.dev.priority e c'
  sizes : s'.numEngines = s.numEngines ∧ s'.numChannels = s.numChannels ∧
    s'.dev.numEngines = s.numEngines ∧ s'.dev.numChannels = s.numChannels
  rest : s'.nextId = s.nextId ∧ s'.streams = s.streams

theorem bindChannel_spec (h : Inv s) (hp : priorityGreatest ≤ p ∧ p ≤ priorityLeast) :
    (∃ c s', s.bindChannel p = (.ok c, s') ∧ Bound s p c s') ∨
      s.bindChannel p = (.error .invalidValue, s) ∧ Full s p := by
  unfold Runtime.bindChannel
  split
  next c hc =>
    rcases leastUsed_some hc with hc | ⟨hc, hpr⟩
    · cases hc
    · refine .inl ⟨c, _, rfl, List.mem_range.mp hc, .inl hpr, ?_, ?_, ?_, rfl, rfl⟩
      · rw [← hpr]
        rfl
      · intro e he c'
        rw [if_neg (by simp [hpr])]
        rfl
      · exact ⟨rfl, rfl, h.engines, h.channels⟩
  next hnone =>
    have hall : ∀ c < s.numChannels, (s.bind c).priority ≠ p := fun c hc =>
      (leastUsed_none.mp hnone).2 c (List.mem_range.mpr hc)
    split
    next hfind =>
      refine .inr ⟨rfl, hall, fun c hc hu => ?_⟩
      have := List.find?_eq_none.mp hfind c (List.mem_range.mpr hc)
      simp [hu] at this
    next c hfind =>
      have hc : c < s.numChannels := List.mem_range.mp (List.mem_of_find?_eq_some hfind)
      have hfree : (s.bind c).users = 0 := by simpa using List.find?_some hfind
      obtain ⟨dev, hdev, hn, hch, hpr⟩ := setPriorityAll_ok h hc hp
      rw [hdev]
      refine .inl ⟨c, _, rfl, hc, .inr hfree, ?_, ?_, ⟨rfl, rfl, hn, hch⟩, rfl, rfl⟩
      · simp [Runtime.addUser, Runtime.setBind]
      · intro e he c'
        have hne := hall c hc
        simp only [ne_eq, hne, not_false_eq_true, and_true]
        exact hpr e he c'

theorem Inv.zero_used (h : Inv s) : (s.bind 0).users ≠ 0 := by
  rw [h.users, usersOf]
  simp

theorem Inv.used_of_mem (h : Inv s) {x : ℕ × Stream} (hx : x ∈ s.streams) :
    (s.bind x.2.channel).users ≠ 0 := by
  have hpos : 0 < liveOn s x.2.channel := List.countP_pos_iff.mpr ⟨x, hx, by simp⟩
  rw [h.users, usersOf]
  omega

namespace Bound
variable {x : ℕ × Stream}

theorem bind_self (hb : Bound s p c s') : s'.bind c = ⟨p, (s.bind c).users + 1⟩ := by
  rw [hb.bind, Function.update_self]

theorem bind_ne {d : ℕ} (hb : Bound s p c s') (hd : d ≠ c) : s'.bind d = s.bind d := by
  rw [hb.bind, Function.update_of_ne hd]

theorem priority_eq {d : ℕ} (hb : Bound s p c s') (hd : (s.bind d).users ≠ 0) :
    (s'.bind d).priority = (s.bind d).priority := by
  by_cases hdc : d = c
  · subst hdc
    rw [hb.bind_self]
    exact (hb.suits.resolve_right hd).symm
  · rw [hb.bind_ne hdc]

theorem usersOf_cons (hb : Bound s p c s') (h : Inv s) (hch : x.2.channel = c) (d : ℕ) :
    (s'.bind d).users = usersOf { s' with streams := x :: s'.streams } d := by
  have hold := h.users d
  simp only [usersOf, liveOn, hb.rest.2, List.countP_cons, hch] at hold ⊢
  by_cases hdc : d = c
  · subst hdc
    simp only [hb.bind_self, hold, beq_self_eq_true, if_true]
    omega
  · simp [hb.bind_ne hdc, Ne.symm hdc, hold]

theorem device_eq (hb : Bound s p c s') (h : Inv s) {d e : ℕ} (hd : d < s.numChannels)
    (he : e < s.numEngines) : s'.dev.priority e d = (s'.bind d).priority := by
  rw [hb.device e he]
  by_cases hdc : d = c
  · subst hdc
    rw [hb.bind_self, h.device d hd e he]
    by_cases hpr : (s.bind d).priority = p <;> simp [hpr]
  · rw [hb.bind_ne hdc, if_neg (by simp [hdc]), h.device d hd e he]

theorem inv (hb : Bound s p c s') (h : Inv s) (hch : x.2.channel = c) (hreq : x.2.request = p) :
    Inv { s' with streams := x :: s'.streams } := by
  obtain ⟨hn, hc', hdn, hdc⟩ := hb.sizes
  refine ⟨⟨hb.usersOf_cons h hch, fun y hy => ?_, fun d hd e he => ?_,
    fun d hd => ?_, ?_⟩, ?_, ?_, ?_⟩
  · simp only [hb.rest.2, List.mem_cons] at hy
    simp only [hc']
    rcases hy with rfl | hy
    · rw [hch, hb.bind_self]
      exact ⟨hb.channel, hreq⟩
    · rw [hb.priority_eq (h.used_of_mem hy)]
      exact h.stream y hy
  · exact hb.device_eq h (hc' ▸ hd) (hn ▸ he)
  · by_cases hdc' : d = c
    · subst hdc'
      simp [hb.bind_self] at hd
    · simp only [hb.bind_ne hdc'] at hd ⊢
      exact h.unused d hd
  · exact (hb.priority_eq h.zero_used).trans h.channelZero
  · exact hdn.trans hn.symm
  · exact hdc.trans hc'.symm
  · exact Nat.lt_of_lt_of_eq h.positive hc'.symm

end Bound

/-! ### The calls -/

theorem createStream_null (addr : ℕ) (priority : ℤ) :
    s.createStream false addr priority = (.error .invalidValue, s) := rfl

theorem Inv.nextId (h : Inv s) (n : UInt32) : Inv { s with nextId := n } :=
  ⟨⟨h.users, h.stream, h.device, h.unused, h.channelZero⟩, h.engines, h.channels,
    h.positive⟩

theorem createStream_spec (h : Inv s) (addr : ℕ) (priority : ℤ) :
    (s.createStream true addr priority).1 = .ok addr ∧
        Inv (s.createStream true addr priority).2 ∧ ¬Full s (clampPriority priority) ∨
      s.createStream true addr priority =
          (.error .invalidValue, { s with nextId := s.nextId + 1 }) ∧
        Full s (clampPriority priority) := by
  have h' := h.nextId (s.nextId + 1)
  rcases bindChannel_spec h' (clampPriority_range priority) with ⟨c, s', hs', hb⟩ | ⟨herr, hfull⟩
  · refine .inl ⟨?_, ?_, fun hfull => ?_⟩
    · simp only [Runtime.createStream, hs', Bool.true_eq_false, if_false]
    · simp only [Runtime.createStream, hs', Bool.true_eq_false, if_false]
      exact hb.inv h' rfl rfl
    · rcases hb.suits with hpr | hu
      · exact hfull.1 c hb.channel hpr
      · exact hfull.2 c hb.channel hu
  · refine .inr ⟨?_, hfull⟩
    simp only [Runtime.createStream, herr, Bool.true_eq_false, if_false]

theorem Inv.createStream (h : Inv s) (out : Bool) (addr : ℕ) (priority : ℤ) :
    Inv (s.createStream out addr priority).2 := by
  cases out with
  | false => exact h
  | true =>
    rcases createStream_spec h addr priority with ⟨-, hi, -⟩ | ⟨heq, -⟩
    · exact hi
    · rw [heq]
      exact h.nextId _

structure Unbound (s : Runtime) (c : ℕ) (s' : Runtime) : Prop where
  bind : s'.bind = Function.update s.bind c
    ⟨if (s.bind c).users = 1 then priorityLeast else (s.bind c).priority, (s.bind c).users - 1⟩
  device : ∀ e < s.numEngines, ∀ c', s'.dev.priority e c' =
    if c' = c ∧ (s.bind c).users = 1 then priorityLeast else s.dev.priority e c'
  sizes : s'.numEngines = s.numEngines ∧ s'.numChannels = s.numChannels ∧
    s'.dev.numEngines = s.numEngines ∧ s'.dev.numChannels = s.numChannels
  streams : s'.streams = s.streams

theorem unbindChannel_spec (h : Inv s) (hc : c < s.numChannels) (hu : (s.bind c).users ≠ 0) :
    Unbound s c (s.unbindChannel c) := by
  have hone : (s.bind c).users - 1 = 0 ↔ (s.bind c).users = 1 := by omega
  unfold Runtime.unbindChannel
  dsimp only
  split
  next hlast =>
    obtain ⟨dev, hdev, hn, hch, hpr⟩ := setPriorityAll_ok (p := priorityLeast) h hc (by decide)
    have hdev' : (s.setBind c ⟨(s.bind c).priority, (s.bind c).users - 1⟩).setPriorityAll c
        priorityLeast = (none, dev) := hdev
    rw [hdev']
    refine ⟨?_, fun e he c' => ?_, ⟨rfl, rfl, hn, hch⟩, rfl⟩
    · simp [Runtime.setBind, hone.mp hlast.1]
    · simp only [hone.mp hlast.1, and_true]
      exact hpr e he c'
  next hstay =>
    -- the priority is the default one, or other streams use the channel
    have hkeep : (s.bind c).users = 1 → (s.bind c).priority = priorityLeast := fun h1 =>
      not_not.mp fun hne => hstay ⟨hone.mpr h1, hne⟩
    refine ⟨?_, fun e he c' => ?_, ⟨rfl, rfl, h.engines, h.channels⟩, rfl⟩
    · by_cases h1 : (s.bind c).users = 1
      · simp [Runtime.setBind, h1, hkeep h1]
      · simp [Runtime.setBind, h1]
    · split
      next hc1 =>
        rw [hc1.1]
        exact (h.device c hc e he).trans (hkeep hc1.2)
      next => rfl

namespace Unbound
variable {x : ℕ × Stream}

theorem bind_ne {d : ℕ} (hb : Unbound s c s') (hd : d ≠ c) : s'.bind d = s.bind d := by
  rw [hb.bind, Function.update_of_ne hd]

theorem users_self (hb : Unbound s c s') : (s'.bind c).users = (s.bind c).users - 1 := by
  rw [hb.bind, Function.update_self]

theorem priority_last (hb : Unbound s c s') (h1 : (s.bind c).users = 1) :
    (s'.bind c).priority = priorityLeast := by
  rw [hb.bind, Function.update_self]
  exact if_pos h1

theorem priority_eq {d : ℕ} (hb : Unbound s c s') (hd : d = c → (s.bind c).users ≠ 1) :
    (s'.bind d).priority = (s.bind d).priority := by
  by_cases hdc : d = c
  · subst hdc
    rw [hb.bind, Function.update_self]
    exact if_neg (hd rfl)
  · rw [hb.bind_ne hdc]

theorem liveOn_erase (hx : x ∈ s.streams) (d : ℕ) : liveOn s d =
    ((s.streams.erase x).countP fun y => y.2.channel == d) + if x.2.channel = d then 1 else 0 := by
  rw [liveOn, (List.perm_cons_erase hx).countP_eq, List.countP_cons]
  simp

theorem usersOf_erase (hb : Unbound s x.2.channel s') (h : Inv s) (hx : x ∈ s.streams) (d : ℕ) :
    (s'.bind d).users = usersOf { s' with streams := s'.streams.erase x } d := by
  have hold := h.users d
  rw [usersOf, liveOn_erase hx] at hold
  simp only [usersOf, liveOn, hb.streams]
  by_cases hdc : d = x.2.channel
  · subst hdc
    rw [hb.users_self, hold, if_pos rfl]
    omega
  · rw [hb.bind_ne hdc, hold, if_neg (Ne.symm hdc), Nat.add_zero]

theorem device_eq (hb : Unbound s c s') (h : Inv s) {d e : ℕ} (hd : d < s.numChannels)
    (he : e < s.numEngines) : s'.dev.priority e d = (s'.bind d).priority := by
  rw [hb.device e he]
  split
  next hlast =>
    rw [hlast.1]
    exact (hb.priority_last hlast.2).symm
  next hkeep =>
    rw [hb.priority_eq fun hdc h1 => hkeep ⟨hdc, h1⟩]
    exact h.device d hd e he

theorem other_user {y : ℕ × Stream} (h : Inv s) (hx : x ∈ s.streams) (hy : y ∈ s.streams.erase x)
    (hyx : y.2.channel = x.2.channel) : (s.bind x.2.channel).users ≠ 1 := by
  have hpos : 0 < (s.streams.erase x).countP fun z => z.2.channel == x.2.channel :=
    List.countP_pos_iff.mpr ⟨y, hy, by simp [hyx]⟩
  rw [h.users, usersOf, liveOn_erase hx, if_pos rfl]
  omega

theorem inv (hb : Unbound s x.2.channel s') (h : Inv s) (hx : x ∈ s.streams) :
    Inv { s' with streams := s'.streams.erase x } := by
  obtain ⟨hn, hc', hdn, hdc⟩ := hb.sizes
  refine ⟨⟨hb.usersOf_erase h hx, fun y hy => ?_, fun d hd e he => ?_,
    fun d hd => ?_, ?_⟩, ?_, ?_, ?_⟩
  · simp only [hb.streams] at hy
    simp only [hc']
    rw [hb.priority_eq (other_user h hx hy)]
    exact h.stream y (List.mem_of_mem_erase hy)
  · exact hb.device_eq h (hc' ▸ hd) (hn ▸ he)
  · by_cases hdc' : d = x.2.channel
    · subst hdc'
      have hused := h.used_of_mem hx
      have hleft := hb.users_self.symm.trans hd
      exact hb.priority_last (by omega)
    · simp only [hb.bind_ne hdc'] at hd ⊢
      exact h.unused d hd
  · by_cases h0 : x.2.channel = 0 ∧ (s.bind x.2.channel).users = 1
    · rw [← h0.1]
      exact hb.priority_last h0.2
    · rw [hb.priority_eq fun h0' h1 => h0 ⟨h0'.symm, h1⟩]
      exact h.channelZero
  · exact hdn.trans hn.symm
  · exact hdc.trans hc'.symm
  · exact Nat.lt_of_lt_of_eq h.positive hc'.symm

end Unbound

theorem Inv.step {a : Call} (h : Inv s) (hs : step s a = some s') : Inv s' := by
  cases a with
  | create out addr =>
    simp only [Binding.step, Option.ite_none_left_eq_some, Option.some.injEq] at hs
    exact hs.2 ▸ h.createStream out addr _
  | createWithPriority out addr priority =>
    simp only [Binding.step, Option.ite_none_left_eq_some, Option.some.injEq] at hs
    exact hs.2 ▸ h.createStream out addr priority
  | destroy addr =>
    obtain ⟨x, hx, rfl⟩ := Option.map_eq_some_iff.mp hs
    have hmem := List.mem_of_find?_eq_some hx
    exact (unbindChannel_spec h (h.stream x hmem).1 (h.used_of_mem hmem)).inv h hmem
  | destroyNull =>
    obtain rfl := Option.some.inj hs
    exact h

end SoftGpu.Binding
