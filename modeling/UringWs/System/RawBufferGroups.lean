import UringWs.Program.RawBufRing
import UringWs.System.BufferGroups

/-! # Buffer groups in raw memory

The rings are bytes shared with the kernel, and the tail of each overlays a
half-word of its first slot. Runs over the bytes are runs of the abstract groups,
and only the described fields of slots and the tail are ever written.
-/
namespace UringWs.RawBufferGroups
open Checked BufferGroups

/-- The bytes of every mapped ring. -/
abbrev RawRings := RingPtr → RawBufRing

namespace RawRings

/-- The memory that the bytes stand for. -/
def toMemory (rings : RawRings) : Memory :=
  { rings := fun p => (rings p).toRing, bytes := fun _ => 0, vecs := fun _ => none }

def mask : UInt32 := (ioUringBufRingMask ringPoolSize).toUInt32

def newBufferGroup (pool : BufRingPool) (rings : RawRings) (bufferGroupId : UInt16)
    (setup : Option RingPtr) (bufsAddr : Option UInt64) : Except Fault (BufRingPool × RawRings) := do
  let ptr ← unwrap setup .setupBufRing
  let bufsAddr ← unwrap bufsAddr .outOfMemory
  let bufRing := (rings ptr).fillAtOnce mask (RawBufRing.groupBufs bufsAddr ringPoolSize.toNat)
  if h : bufferGroupId.toNat < maxBufferGroup then
    .ok ({ bufRingPtrs := pool.bufRingPtrs.set bufferGroupId.toNat (some ptr) h },
      Function.update rings ptr bufRing)
  else .error (.groupIndexOutOfBounds bufferGroupId.toNat)

def bufRingAddAdvance (rings : RawRings) (readBuf : KernelBuffer) : RawRings :=
  let bufRing := (rings readBuf.bufRing).ioUringBufRingAdd (UInt64.ofNat readBuf.addr)
    readBuf.bufLen readBuf.bid mask 0
  Function.update rings readBuf.bufRing (bufRing.ioUringBufRingAdvance 1)

variable {rings rings' : RawRings} {p : RingPtr}

theorem toMemory_update (br : RawBufRing) :
    toMemory (Function.update rings p br) = rings.toMemory.setRing p br.toRing := by
  simp only [toMemory, Memory.setRing, Memory.mk.injEq, and_true]
  funext q
  by_cases hq : q = p
  · subst hq
    simp
  · simp [hq]

theorem newBufferGroup_eq_ok {pool pool' : BufRingPool} {g : UInt16} {base : UInt64} :
    newBufferGroup pool rings g (some p) (some base) = .ok (pool', rings') ↔
      ∃ h : g.toNat < maxBufferGroup,
        pool' = { bufRingPtrs := pool.bufRingPtrs.set g.toNat (some p) h } ∧
        rings' = Function.update rings p
          ((rings p).fillAtOnce mask (RawBufRing.groupBufs base ringPoolSize.toNat)) := by
  simp only [newBufferGroup, unwrap_some, ok_bind]
  split
  · simp [*, eq_comm]
  · simp [*]

theorem toMemory_newBufferGroup {pool pool' : BufRingPool} {g : UInt16} {base : UInt64}
    (hbase : base.toNat + 1024 * bufSize.toNat ≤ 2 ^ 64)
    (h : newBufferGroup pool rings g (some p) (some base) = .ok (pool', rings')) :
    pool.newBufferGroup rings.toMemory g (some p) (some base.toNat) =
      .ok (pool', rings'.toMemory) := by
  obtain ⟨hg, rfl, rfl⟩ := newBufferGroup_eq_ok.mp h
  refine BufRingPool.newBufferGroup_eq_ok.mpr ⟨hg, rfl, ?_⟩
  rw [toMemory_update, mask, RawBufRing.toRing_newBufferGroup hbase]
  rfl

theorem toMemory_bufRingAddAdvance {kb : KernelBuffer} (h : kb.addr < 2 ^ 64) :
    (rings.bufRingAddAdvance kb).toMemory = UringWs.bufRingAddAdvance rings.toMemory kb := by
  rw [bufRingAddAdvance, toMemory_update, RawBufRing.toRing_advance, RawBufRing.toRing_add,
    UInt64.toNat_ofNat_of_lt' h]
  rfl

/-! ### The bytes that are written -/

/-- The address, length and id of a slot, or the tail. -/
def Written (a : ℕ) : Prop := a < 16 * 1024 ∧ (a % 16 < 14 ∨ a < 16)

variable {br : RawBufRing} {a : ℕ}

theorem add_unwritten (h : ¬ Written a) (addr : UInt64) (len : UInt32) (bid : UInt16)
    (off : UInt32) : br.ioUringBufRingAdd addr len bid mask off a = br a := by
  have hslot : br.slot mask off < 1024 := RawBufRing.slot_lt ⟨10, by decide, rfl⟩ br off
  refine RawBufRing.setBuf_outside fun ha => h ?_
  unfold Written
  omega

theorem advance_unwritten (h : ¬ Written a) (count : UInt16) :
    br.ioUringBufRingAdvance count a = br a := by
  refine RawBufRing.advance_outside fun ha => h ?_
  unfold Written
  omega

theorem fill_unwritten (h : ¬ Written a) (bufs : List RawBufRing.Buf) :
    br.fillAtOnce mask bufs a = br a := by
  rw [RawBufRing.fillAtOnce, advance_unwritten h]
  induction bufs using List.reverseRecOn with
  | nil => rfl
  | append_singleton bufs b ih => rw [RawBufRing.addAll_concat, add_unwritten h, ih]

theorem newBufferGroup_unwritten {pool pool' : BufRingPool} {g : UInt16} {base : UInt64}
    (h : newBufferGroup pool rings g (some p) (some base) = .ok (pool', rings'))
    (ha : ¬ Written a) (q : RingPtr) : rings' q a = rings q a := by
  obtain ⟨-, -, rfl⟩ := newBufferGroup_eq_ok.mp h
  by_cases hq : q = p
  · subst hq
    rw [Function.update_self, fill_unwritten ha]
  · rw [Function.update_of_ne hq]

theorem bufRingAddAdvance_unwritten (kb : KernelBuffer) (ha : ¬ Written a) (q : RingPtr) :
    rings.bufRingAddAdvance kb q a = rings q a := by
  unfold bufRingAddAdvance
  by_cases hq : q = kb.bufRing
  · subst hq
    rw [Function.update_self, advance_unwritten ha, add_unwritten ha]
  · rw [Function.update_of_ne hq]

end RawRings

/-! ### Runs -/

structure State where
  pool : BufRingPool
  rings : RawRings
  groups : UInt16 → Option KernelGroup
  posted : List Posted
  live : List KernelBuffer

/-- The groups that the bytes stand for. -/
def State.toState (s : State) : BufferGroups.State :=
  { pool := s.pool, mem := s.rings.toMemory, groups := s.groups, posted := s.posted,
    live := s.live }

inductive Step : State → Action → State → Prop
  /-- a group under a new id, in a newly mapped ring, over a block of the address space -/
  | newGroup {s : State} {g : UInt16} {ring : RingPtr} {base : UInt64} {pool : BufRingPool}
      {rings : RawRings} (hg : s.groups g = none)
      (hring : ∀ g' kg, s.groups g' = some kg → kg.ring ≠ ring)
      (htail : (s.rings ring).tail = 0) (hbase : base.toNat + 1024 * bufSize.toNat ≤ 2 ^ 64)
      (h : RawRings.newBufferGroup s.pool s.rings g (some ring) (some base) = .ok (pool, rings)) :
      Step s (.newGroup g ring base.toNat) { s with
        pool, rings
        groups := Function.update s.groups g (some { ring, head := 0, base := base.toNat }) }
  /-- the kernel reads the slot and posts an entry that names the buffer -/
  | select {s : State} {g : UInt16} {kg : KernelGroup} {cqe : IoUringCqe}
      (hg : s.groups g = some kg) (havail : kg.head ≠ (s.rings kg.ring).tail)
      (howner : (UserData.fromPacked cqe.userData).owner = g) (hbuffer : cqe.hasBuffer)
      (hbid : cqe.bufferId = (kg.selected (s.rings kg.ring).toRing).bid) :
      Step s (.select g cqe) { s with
        groups := Function.update s.groups g (some kg.advance)
        posted := s.posted ++ [⟨cqe, kg.selected (s.rings kg.ring).toRing⟩] }
  | fromRawEvent {s : State} {j : ℕ} {p : Posted} {c : Completion} {kb : KernelBuffer}
      (hp : s.posted[j]? = some p)
      (h : Completion.fromRawEvent s.pool s.rings.toMemory (some p.cqe) = .ok c)
      (hkb : c.kernelBuf = some kb) :
      Step s (.fromRawEvent j) { s with
        posted := s.posted.eraseIdx j, live := s.live ++ [kb] }
  | drop {s : State} {j : ℕ} {kb : KernelBuffer} (hj : s.live[j]? = some kb) :
      Step s (.drop j) { s with
        rings := s.rings.bufRingAddAdvance kb, live := s.live.eraseIdx j }

/-- The rings hold some bytes, and no group is registered. -/
structure Init (rings : RawRings) (s : State) : Prop where
  pool : s.pool = .empty
  rings : s.rings = rings
  groups : ∀ g, s.groups g = none
  posted : s.posted = []
  live : s.live = []

def rawGroups (rings : RawRings) : System State Action := { init := Init rings, step := Step }

/-- Each step over the bytes is a step of the abstract groups. -/
theorem toState_step {s t : State} {a : Action} (hlive : ∀ kb ∈ s.live, kb.addr < 2 ^ 64)
    (hs : Step s a t) : BufferGroups.Step s.toState a t.toState := by
  cases hs with
  | newGroup hg hring htail hbase h =>
    exact .newGroup hg hring htail (RawRings.toMemory_newBufferGroup hbase h)
  | select hg havail howner hbuffer hbid => exact .select hg havail howner hbuffer hbid
  | fromRawEvent hp h hkb => exact .fromRawEvent hp h hkb
  | @drop j kb hj =>
    have hstep : BufferGroups.Step s.toState (.drop j) _ := .drop hj
    rw [State.toState, ← RawRings.toMemory_bufRingAddAdvance
      (hlive kb (List.mem_of_getElem? hj))] at hstep
    exact hstep

/-- A buffer read from the bytes has an address. -/
theorem fromRawEvent_addr {pool : BufRingPool} {rings : RawRings} {cqe : IoUringCqe}
    {c : Completion} {kb : KernelBuffer}
    (h : Completion.fromRawEvent pool rings.toMemory (some cqe) = .ok c)
    (hkb : c.kernelBuf = some kb) : kb.addr < 2 ^ 64 := by
  obtain ⟨p, -, -, -, -, rfl⟩ :=
    BufRingPool.getReadBuf_eq_ok.mp (Completion.fromRawEvent_kernelBuf h hkb)
  exact ByteMemory.loadWord_lt

theorem step_live {s t : State} {a : Action} (hlive : ∀ kb ∈ s.live, kb.addr < 2 ^ 64)
    (hs : Step s a t) : ∀ kb ∈ t.live, kb.addr < 2 ^ 64 := by
  cases hs with
  | newGroup | select => exact hlive
  | fromRawEvent hp h hkb =>
    intro kb' hmem
    rcases List.mem_append.mp hmem with hmem | hmem
    · exact hlive kb' hmem
    · obtain rfl := List.mem_singleton.mp hmem
      exact fromRawEvent_addr h hkb
  | drop => exact fun kb hkb => hlive kb (List.mem_of_mem_eraseIdx hkb)

theorem step_unwritten {s t : State} {a : Action} (hs : Step s a t) (p : RingPtr) {addr : ℕ}
    (ha : ¬ RawRings.Written addr) : t.rings p addr = s.rings p addr := by
  cases hs with
  | newGroup hg hring htail hbase h => exact RawRings.newBufferGroup_unwritten h ha p
  | drop => exact RawRings.bufRingAddAdvance_unwritten _ ha p
  | select | fromRawEvent => rfl

/-- Some group was registered with the ring. -/
def State.Registered (s : State) (p : RingPtr) : Prop :=
  ∃ g kg, s.groups g = some kg ∧ kg.ring = p

theorem step_registered {s t : State} {a : Action} (hs : Step s a t) {p : RingPtr}
    (hp : s.Registered p) : t.Registered p := by
  obtain ⟨g', kg', hg', rfl⟩ := hp
  cases hs with
  | @newGroup g ring base pool rings hg =>
    have hne : g' ≠ g := fun he => by simp [he, hg] at hg'
    exact ⟨g', kg', (Function.update_of_ne hne ..).trans hg', rfl⟩
  | @select g kg cqe hg =>
    by_cases hne : g' = g
    · subst hne
      obtain rfl : kg = kg' := Option.some.inj (hg.symm.trans hg')
      exact ⟨g', kg.advance, Function.update_self .., rfl⟩
    · exact ⟨g', kg', (Function.update_of_ne hne ..).trans hg', rfl⟩
  | fromRawEvent | drop => exact ⟨g', kg', hg', rfl⟩

/-- A ring that no group has is left alone. -/
theorem step_unregistered {s t : State} {a : Action} (h : bufferGroups.Reachable s.toState)
    (hs : Step s a t) {p : RingPtr} (hp : ¬ t.Registered p) : t.rings p = s.rings p := by
  cases hs with
  | @newGroup g ring base pool rings hg hring htail hbase h =>
    have hne : p ≠ ring := fun he => hp ⟨g, _, Function.update_self .., he.symm⟩
    obtain ⟨-, -, rfl⟩ := RawRings.newBufferGroup_eq_ok.mp h
    exact Function.update_of_ne hne ..
  | @drop j kb hj =>
    obtain ⟨kg, hg, hring⟩ := (BufferGroups.reachable_inv h).live kb (List.mem_of_getElem? hj)
    exact Function.update_of_ne (fun he => hp ⟨kb.bgid, kg, hg, (he.trans hring).symm⟩) ..
  | select | fromRawEvent => rfl

/-- The mapped rings in one state of a run that started with the bytes `rings`. -/
structure Refines (rings : RawRings) (s : State) : Prop where
  groups : bufferGroups.Reachable s.toState
  /-- every slot describes a buffer of its group's block -/
  slots : ∀ g kg, s.groups g = some kg → ∀ j < 1024,
    Original kg.base ((s.rings kg.ring).buf j)
  /-- the tail in the bytes counts the buffers that are not outstanding -/
  tail : ∀ g kg, s.groups g = some kg → ((s.rings kg.ring).tail - kg.head).toNat +
    ((s.posted.filter fun p => p.group = g).length +
      (s.live.filter fun kb => kb.bgid = g).length) = 1024
  /-- the reserved bytes of the other slots and what lies behind the ring are as mapped -/
  unwritten : ∀ p addr, ¬ RawRings.Written addr → s.rings p addr = rings p addr
  unregistered : ∀ p, ¬ s.Registered p → s.rings p = rings p

/-- The part of the invariant that speaks of the bytes. -/
structure Inv (rings : RawRings) (s : State) : Prop where
  groups : bufferGroups.Reachable s.toState
  live : ∀ kb ∈ s.live, kb.addr < 2 ^ 64
  unwritten : ∀ p addr, ¬ RawRings.Written addr → s.rings p addr = rings p addr
  unregistered : ∀ p, ¬ s.Registered p → s.rings p = rings p

theorem reachable_inv {rings : RawRings} {s : State} (h : (rawGroups rings).Reachable s) :
    Inv rings s := by
  refine h.invariant (P := Inv rings) ?_ ?_
  · intro s hs
    refine ⟨.start ⟨hs.pool, hs.groups, hs.posted, hs.live⟩, ?_, ?_, ?_⟩
    · simp [hs.live]
    · exact fun p addr _ => by rw [hs.rings]
    · exact fun p _ => by rw [hs.rings]
  · intro s a t _ hi _ hs
    refine ⟨hi.groups.next trivial (toState_step hi.live hs), step_live hi.live hs, ?_, ?_⟩
    · exact fun p addr ha => (step_unwritten hs p ha).trans (hi.unwritten p addr ha)
    · exact fun p hp => (step_unregistered hi.groups hs hp).trans
        (hi.unregistered p fun hreg => hp (step_registered hs hreg))

/-- Runs over the bytes refine the abstract groups and write nothing else. -/
theorem raw_groups_refine {rings : RawRings} {s : State} (h : (rawGroups rings).Reachable s) :
    Refines rings s := by
  have hi := reachable_inv h
  have hgroups := BufferGroups.reachable_inv hi.groups
  refine ⟨hi.groups, ?_, ?_, hi.unwritten, hi.unregistered⟩
  · exact fun g kg hg => (hgroups.conserved g kg hg).slots
  · exact fun g kg hg => (hgroups.conserved g kg hg).count

theorem reach_select {rings : RawRings} {s : State} (h : (rawGroups rings).Reachable s)
    {g : UInt16} {kg : KernelGroup} (hg : s.groups g = some kg)
    (havail : kg.head ≠ (s.rings kg.ring).tail) :
    (rawGroups rings).Reachable { s with
      groups := Function.update s.groups g (some kg.advance)
      posted := s.posted ++ [⟨recvCqe (.fromParts 1 g 0) 1
        (kg.selected (s.rings kg.ring).toRing).bid true, kg.selected (s.rings kg.ring).toRing⟩] } :=
  h.next trivial (.select hg havail (UserData.owner_fromParts ..) (recvCqe_hasBuffer _ _ _ _)
    (recvCqe_bufferId ..))

theorem RawRings.bufRingAddAdvance_tail (rings : RawRings) {kb : KernelBuffer} {p : RingPtr}
    (hp : kb.bufRing = p) : (rings.bufRingAddAdvance kb p).tail = (rings p).tail + 1 := by
  subst hp
  rw [bufRingAddAdvance, Function.update_self, RawBufRing.advance_tail,
    RawBufRing.ioUringBufRingAdd, RawBufRing.setBuf_tail]

/-- A buffer is selected, looked up and dropped. -/
theorem reach_return {rings : RawRings} {s : State} (h : (rawGroups rings).Reachable s)
    {g : UInt16} {kg : KernelGroup} (hg : s.groups g = some kg) (hposted : s.posted = [])
    (hlive : s.live = []) (havail : kg.head ≠ (s.rings kg.ring).tail) {j : ℕ} (hj : j < 1024)
    (hsel : kg.selected (s.rings kg.ring).toRing = groupBuf kg.base j)
    (hslot : (s.rings kg.ring).toRing.bufs j = groupBuf kg.base j) :
    ∃ t, (rawGroups rings).Reachable t ∧ t.groups g = some kg.advance ∧ t.posted = [] ∧
      t.live = [] ∧ (t.rings kg.ring).tail = (s.rings kg.ring).tail + 1 := by
  obtain ⟨kb, c, hc, hkb, hring, -⟩ := BufferGroups.Inv.build_isOk
    (BufferGroups.reachable_inv (reachable_inv h).groups) hg hj hslot
  have h₁ := reach_select h hg havail
  rw [hposted, hsel, List.nil_append] at h₁
  generalize recvCqe (.fromParts 1 g 0) 1 (groupBuf kg.base j).bid true = cqe at h₁ hc
  have h₂ := h₁.next (a := Action.fromRawEvent 0) trivial (.fromRawEvent rfl hc hkb)
  rw [hlive] at h₂
  exact ⟨_, h₂.next (a := Action.drop 0) trivial (.drop rfl), Function.update_self .., rfl, rfl,
    RawRings.bufRingAddAdvance_tail _ hring⟩

/-- No group, and rings whose bytes are zero. -/
def unmapped : State :=
  { pool := .empty, rings := fun _ _ => 0, groups := fun _ => none, posted := [], live := [] }

/-- One group over a block at 4096, whose first buffer is selected, looked up and
given back behind the others. -/
theorem raw_groups_refine_selected : ∃ s : State, s.groups 0 = some ⟨5, 1, 4096⟩ ∧
    (s.rings 5).tail = 1025 ∧ s.posted.length = 0 ∧ s.live.length = 0 ∧
    Refines (fun _ _ => 0) s := by
  have h₀ : (rawGroups fun _ _ => 0).Reachable unmapped := .start ⟨rfl, rfl, fun _ => rfl, rfl, rfl⟩
  have hnew : RawRings.newBufferGroup unmapped.pool unmapped.rings 0 (some 5) (some 4096) =
      .ok (_, _) := RawRings.newBufferGroup_eq_ok.mpr ⟨by decide, rfl, rfl⟩
  have h₁ := h₀.next trivial (.newGroup rfl (by simp [unmapped]) (by decide) (by decide) hnew)
  generalize hbr : (unmapped.rings 5).fillAtOnce RawRings.mask
    (RawBufRing.groupBufs 4096 ringPoolSize.toNat) = br at h₁
  have hring : br.toRing = BufRingPool.filledRing (unmapped.rings 5).toRing 4096 :=
    hbr ▸ RawBufRing.toRing_newBufferGroup (by decide)
  have hzero : (unmapped.rings 5).toRing.tail = 0 := by decide
  have htail : br.tail = 1024 :=
    (congrArg IoUringBufRing.tail hring).trans (BufRingPool.filledRing_tail hzero _)
  have hslot : br.toRing.bufs 0 = groupBuf 4096 0 := by
    rw [hring]
    exact BufRingPool.filledRing_bufs hzero _ (by decide)
  obtain ⟨s, h₂, hg, hposted, hlive, hnext⟩ := reach_return (g := 0) h₁ rfl rfl rfl
    (by simp [htail]) (by decide) hslot hslot
  exact ⟨s, hg, hnext.trans (by simp [htail]), by rw [hposted]; rfl, by rw [hlive]; rfl,
    raw_groups_refine h₂⟩

end UringWs.RawBufferGroups
