import UringWs.System.Kernel
import UringWs.Foundation.Transition
import UringWs.Foundation.Lookup
import Mathlib.Data.List.Nodup

/-! # Buffer groups under any return order

The kernel selects buffers in ring order; the program turns posted entries into
kernel buffers and drops these in any order. Each group's buffers are conserved
between the ring, the completion queue and the program.
-/
namespace UringWs.BufferGroups

/-- A posted entry with the buffer the kernel selected for it. -/
structure Posted where
  cqe : IoUringCqe
  buf : IoUringBuf

def Posted.group (p : Posted) : UInt16 := (UserData.fromPacked p.cqe.userData).owner

structure State where
  pool : BufRingPool
  mem : Memory
  groups : UInt16 → Option KernelGroup
  posted : List Posted
  live : List KernelBuffer

inductive Action
  | newGroup (g : UInt16) (ring : RingPtr) (base : ℕ)
  | select (g : UInt16) (cqe : IoUringCqe)
  | fromRawEvent (j : ℕ)
  | drop (j : ℕ)

inductive Step : State → Action → State → Prop
  /-- a group under a new id, in a newly mapped ring -/
  | newGroup {s : State} {g : UInt16} {ring : RingPtr} {base : ℕ} {pool : BufRingPool}
      {mem : Memory} (hg : s.groups g = none)
      (hring : ∀ g' kg, s.groups g' = some kg → kg.ring ≠ ring)
      (htail : (s.mem.rings ring).tail = 0)
      (h : s.pool.newBufferGroup s.mem g (some ring) (some base) = .ok (pool, mem)) :
      Step s (.newGroup g ring base) { s with
        pool, mem, groups := Function.update s.groups g (some { ring, head := 0, base }) }
  /-- the posted entry names the selected buffer -/
  | select {s : State} {g : UInt16} {kg : KernelGroup} {cqe : IoUringCqe}
      (hg : s.groups g = some kg) (havail : kg.head ≠ (s.mem.rings kg.ring).tail)
      (howner : (UserData.fromPacked cqe.userData).owner = g) (hbuffer : cqe.hasBuffer)
      (hbid : cqe.bufferId = (kg.selected (s.mem.rings kg.ring)).bid) :
      Step s (.select g cqe) { s with
        groups := Function.update s.groups g (some kg.advance)
        posted := s.posted ++ [⟨cqe, kg.selected (s.mem.rings kg.ring)⟩] }
  | fromRawEvent {s : State} {j : ℕ} {p : Posted} {c : Completion} {kb : KernelBuffer}
      (hp : s.posted[j]? = some p)
      (h : Completion.fromRawEvent s.pool s.mem (some p.cqe) = .ok c)
      (hkb : c.kernelBuf = some kb) :
      Step s (.fromRawEvent j) { s with
        posted := s.posted.eraseIdx j, live := s.live ++ [kb] }
  | drop {s : State} {j : ℕ} {kb : KernelBuffer} (hj : s.live[j]? = some kb) :
      Step s (.drop j) { s with
        mem := bufRingAddAdvance s.mem kb, live := s.live.eraseIdx j }

structure Init (s : State) : Prop where
  pool : s.pool = .empty
  groups : ∀ g, s.groups g = none
  posted : s.posted = []
  live : s.live = []

def bufferGroups : System State Action := { init := Init, step := Step }

def Action.group (s : State) : Action → Option UInt16
  | .newGroup g _ _ => some g
  | .select g _ => some g
  | .fromRawEvent j => s.posted[j]?.map Posted.group
  | .drop j => s.live[j]?.map KernelBuffer.bgid

/-- All there is of one group: the kernel's record, the ring, the unprocessed
entries and the buffers the program holds. -/
structure Holdings where
  kernel : KernelGroup
  ring : IoUringBufRing
  posted : List Posted
  live : List KernelBuffer

def State.holdings (s : State) (g : UInt16) (kg : KernelGroup) : Holdings where
  kernel := kg
  ring := s.mem.rings kg.ring
  posted := s.posted.filter (fun p => p.group = g)
  live := s.live.filter (fun kb => kb.bgid = g)

/-- The buffer ids of a group: selectable, posted, and held by the program. -/
def Holdings.bids (v : Holdings) : List UInt16 :=
  (v.kernel.window v.ring).map IoUringBuf.bid ++ v.posted.map (fun p => p.cqe.bufferId) ++
    v.live.map KernelBuffer.bid

/-- The buffer with the address and length its id had at set-up. -/
def Original (base : ℕ) (buf : IoUringBuf) : Prop := buf = groupBuf base buf.bid.toNat

/-- What holds of one group in every reachable state. -/
structure Conserved (g : UInt16) (v : Holdings) : Prop where
  bids : v.bids.Perm ((List.range 1024).map UInt16.ofNat)
  slots : ∀ j < 1024, Original v.kernel.base (v.ring.bufs j)
  posted : ∀ p ∈ v.posted, p.buf.bid = p.cqe.bufferId
  live : ∀ kb ∈ v.live, kb.bufRing = v.kernel.ring ∧ Original v.kernel.base kb.entry

/-- Selectable buffers and outstanding ones add up to the whole pool. -/
theorem Conserved.count {g : UInt16} {v : Holdings} (h : Conserved g v) :
    v.kernel.available v.ring + (v.posted.length + v.live.length) = 1024 := by
  have hl := h.bids.length_eq
  simp only [Holdings.bids, List.length_append, List.length_map, KernelGroup.window_length,
    List.length_range] at hl
  omega

/-- No buffer is at once selectable by the kernel and held by the program. -/
theorem Conserved.disjoint {g : UInt16} {v : Holdings} (h : Conserved g v) {buf : IoUringBuf}
    {kb : KernelBuffer} (hbuf : buf ∈ v.kernel.window v.ring) (hkb : kb ∈ v.live) :
    buf.bid ≠ kb.bid := by
  have hnd : ((List.range 1024).map UInt16.ofNat).Nodup := by
    refine List.Nodup.map_on (fun i hi j hj he => ?_) List.nodup_range
    have hi := List.mem_range.mp hi
    have hj := List.mem_range.mp hj
    have := congrArg UInt16.toNat he
    rwa [UInt16.toNat_ofNat_of_lt' (show i < 65536 by omega),
      UInt16.toNat_ofNat_of_lt' (show j < 65536 by omega)] at this
  have hv := h.bids.nodup_iff.mpr hnd
  exact (List.nodup_append.mp hv).2.2 _
    (List.mem_append_left _ (List.mem_map_of_mem hbuf)) _ (List.mem_map_of_mem hkb)

structure Inv (s : State) : Prop where
  pool : ∀ g kg, s.groups g = some kg → s.pool.bufRingPtrs[g.toNat]? = some (some kg.ring)
  rings : ∀ g g' kg kg', s.groups g = some kg → s.groups g' = some kg' → kg.ring = kg'.ring →
    g = g'
  posted : ∀ p ∈ s.posted, (s.groups p.group).isSome
  live : ∀ kb ∈ s.live, ∃ kg, s.groups kb.bgid = some kg ∧ kb.bufRing = kg.ring
  conserved : ∀ g kg, s.groups g = some kg → Conserved g (s.holdings g kg)

/-! ### One group's steps -/

/-- A buffer read from a slot that carries its own id is the original one. -/
theorem getReadBuf_original {pool : BufRingPool} {mem : Memory} {g b : UInt16} {n : ℕ}
    {kb : KernelBuffer} {kg : KernelGroup}
    (hp : pool.bufRingPtrs[g.toNat]? = some (some kg.ring))
    (hs : ∀ j < 1024, Original kg.base ((mem.rings kg.ring).bufs j))
    (h : pool.getReadBuf mem g b n = .ok kb) :
    kb.bid = b ∧ kb.bgid = g ∧ kb.bufRing = kg.ring ∧ Original kg.base kb.entry := by
  obtain ⟨p, hp', hb, hbid, -, rfl⟩ := BufRingPool.getReadBuf_eq_ok.mp h
  obtain rfl : kg.ring = p := by simpa [hp] using hp'
  exact ⟨hbid.symm, rfl, rfl, hs _ hb⟩

theorem conserved_newGroup (g : UInt16) {br : IoUringBufRing} {ring : RingPtr} {base : ℕ}
    (ht : br.tail = 0) :
    Conserved g { kernel := { ring, head := 0, base }, ring := BufRingPool.filledRing br base
                  posted := [], live := [] } := by
  refine ⟨?_, ?_, by simp, by simp⟩
  · apply List.Perm.of_eq
    simp only [Holdings.bids, List.map_nil, List.append_nil]
    have hfull : ((1024 : UInt16) - 0).toNat = 1024 := by decide
    rw [KernelGroup.window, KernelGroup.available, BufRingPool.filledRing_tail ht, hfull,
      RingWindow.window_map, RingWindow.window]
    refine List.map_congr_left fun j hj => ?_
    have hj : j < 1024 := List.mem_range.mp hj
    rw [show (0 : UInt16).toNat = 0 from rfl, Nat.zero_add, Nat.mod_eq_of_lt hj,
      BufRingPool.filledRing_bufs ht base hj]
    rfl
  · intro j hj
    rw [Original, BufRingPool.filledRing_bufs ht base hj, groupBuf_bid hj]

variable {g : UInt16} {v : Holdings}

theorem conserved_select (h : Conserved g v) (ha : v.kernel.head ≠ v.ring.tail)
    {cqe : IoUringCqe} (hbid : cqe.bufferId = (v.kernel.selected v.ring).bid) :
    Conserved g { v with
      kernel := v.kernel.advance
      posted := v.posted ++ [⟨cqe, v.kernel.selected v.ring⟩] } := by
  refine ⟨?_, h.slots, ?_, h.live⟩
  · refine List.Perm.trans ?_ h.bids
    simp only [Holdings.bids, KernelGroup.window_select (KernelGroup.available_pos ha),
      List.map_append, List.map_cons, List.map_nil, hbid, List.cons_append, List.append_assoc,
      List.nil_append]
    rw [← List.append_assoc, ← List.append_assoc]
    exact List.perm_middle
  · intro p hp
    rcases List.mem_append.mp hp with hp | hp
    · exact h.posted p hp
    · obtain rfl := List.mem_singleton.mp hp
      exact hbid.symm

theorem conserved_take (h : Conserved g v) {p : Posted} {posted : List Posted} {kb : KernelBuffer}
    (hp : v.posted.Perm (p :: posted)) (hbid : kb.bid = p.cqe.bufferId)
    (hring : kb.bufRing = v.kernel.ring) (horig : Original v.kernel.base kb.entry) :
    Conserved g { v with posted, live := v.live ++ [kb] } := by
  refine ⟨?_, h.slots, ?_, ?_⟩
  · refine List.Perm.trans ?_ h.bids
    simp only [Holdings.bids, List.append_assoc]
    apply List.Perm.append_left _
    refine List.Perm.trans ?_ ((hp.map _).append_right _).symm
    simp only [List.map_append, List.map_cons, List.map_nil, hbid, ← List.append_assoc]
    exact List.perm_append_singleton _ _
  · exact fun q hq => h.posted q (hp.mem_iff.mpr (List.mem_cons_of_mem _ hq))
  · intro k hk
    rcases List.mem_append.mp hk with hk | hk
    · exact h.live k hk
    · obtain rfl := List.mem_singleton.mp hk
      exact ⟨hring, horig⟩

theorem conserved_drop (h : Conserved g v) {kb : KernelBuffer} {live : List KernelBuffer}
    (hl : v.live.Perm (kb :: live)) :
    Conserved g { v with ring := v.ring.put kb.entry, live } := by
  have hroom : v.kernel.available v.ring < 1024 := by
    have hc := h.count
    have hlen := hl.length_eq
    simp only [List.length_cons] at hlen
    omega
  refine ⟨?_, ?_, h.posted, fun k hk => h.live k (hl.mem_iff.mpr (List.mem_cons_of_mem _ hk))⟩
  · refine List.Perm.trans ?_ h.bids
    simp only [Holdings.bids, KernelGroup.window_put hroom, List.map_append, List.map_cons,
      List.map_nil, List.append_assoc]
    apply List.Perm.append_left _
    refine List.Perm.trans ?_ (List.Perm.append_left _ (hl.map _).symm)
    rw [List.map_cons, List.singleton_append]
    exact List.perm_middle.symm
  · intro j hj
    simp only [IoUringBufRing.put, Function.update_apply]
    split
    · exact (h.live kb (hl.mem_iff.mpr List.mem_cons_self)).2
    · exact h.slots j hj

/-! ### The whole pool -/

/-- A step on one group leaves every other group as it was. -/
theorem step_frame {s t : State} {a : Action} (hi : Inv s) (hs : Step s a t) {g : UInt16}
    (ha : a.group s ≠ some g) : t.groups g = s.groups g ∧
      ∀ kg, s.groups g = some kg → t.holdings g kg = s.holdings g kg := by
  cases hs with
  | newGroup hnew hring htail h =>
    have hne : g ≠ _ := fun he => ha (congrArg some he.symm)
    obtain ⟨_, rfl, rfl⟩ := BufRingPool.newBufferGroup_eq_ok.mp h
    refine ⟨Function.update_of_ne hne .., fun kg hg => ?_⟩
    simp only [State.holdings, Memory.setRing_ne _ _ (hring g kg hg)]
  | select hg' havail howner hbuffer hbid =>
    have hne : g ≠ _ := fun he => ha (congrArg some he.symm)
    refine ⟨Function.update_of_ne hne .., fun kg _ => ?_⟩
    simp [State.holdings, Posted.group, howner, hne.symm]
  | @fromRawEvent j p c kb hp h hkb =>
    have hne : p.group ≠ g := by simpa [Action.group, hp] using ha
    obtain ⟨_, -, -, -, -, rfl⟩ :=
      BufRingPool.getReadBuf_eq_ok.mp (Completion.fromRawEvent_kernelBuf h hkb)
    refine ⟨rfl, fun kg _ => ?_⟩
    simp only [State.holdings, List.filter_append]
    rw [filter_eraseIdx_of_false hp (by simp [hne])]
    simp [← Posted.group.eq_def, hne]
  | @drop j kb hj =>
    have hne : kb.bgid ≠ g := by simpa [Action.group, hj] using ha
    obtain ⟨kg', hg', hring⟩ := hi.live kb (List.mem_of_getElem? hj)
    refine ⟨rfl, fun kg hg => ?_⟩
    have hrne : kg.ring ≠ kb.bufRing := fun he =>
      hne (hi.rings _ _ _ _ hg' hg (hring.symm.trans he.symm))
    simp only [State.holdings, bufRingAddAdvance_ne _ _ hrne]
    rw [filter_eraseIdx_of_false hj (by simp [hne])]

theorem step_conserved {s t : State} {a : Action} (hi : Inv s) (hs : Step s a t) {g : UInt16}
    {kg : KernelGroup} (ha : a.group s = some g) (hg : t.groups g = some kg) :
    Conserved g (t.holdings g kg) := by
  cases hs with
  | @newGroup g' ring base pool mem hnew hring htail h =>
    obtain rfl : g' = g := by simpa [Action.group] using ha
    obtain ⟨_, rfl, rfl⟩ := BufRingPool.newBufferGroup_eq_ok.mp h
    simp only [Function.update_self, Option.some.injEq] at hg
    subst hg
    have hp : s.posted.filter (fun p => p.group = g') = [] := by
      refine List.filter_eq_nil_iff.mpr fun p hp hpg => ?_
      have := hi.posted p hp
      simp [of_decide_eq_true hpg, hnew] at this
    have hl : s.live.filter (fun kb => kb.bgid = g') = [] := by
      refine List.filter_eq_nil_iff.mpr fun kb hkb hkg => ?_
      obtain ⟨kg, hkg', -⟩ := hi.live kb hkb
      simp [of_decide_eq_true hkg, hnew] at hkg'
    simp only [State.holdings, hp, hl, Memory.setRing_self]
    exact conserved_newGroup g' htail
  | @select g' kg' cqe hg' havail howner hbuffer hbid =>
    obtain rfl : g' = g := by simpa [Action.group] using ha
    simp only [Function.update_self, Option.some.injEq] at hg
    subst hg
    have h := conserved_select (hi.conserved g' kg' hg') havail hbid
    simpa [State.holdings, Posted.group, howner, KernelGroup.advance] using h
  | @fromRawEvent j p c kb hp h hkb =>
    obtain rfl : p.group = g := by simpa [Action.group, hp] using ha
    have hc := hi.conserved p.group kg hg
    obtain ⟨hbid, hbgid, hring, horig⟩ := getReadBuf_original (hi.pool _ _ hg) hc.slots
      (Completion.fromRawEvent_kernelBuf h hkb)
    have hbgid : kb.bgid = p.group := hbgid
    have ht := conserved_take hc (filter_perm_cons_eraseIdx hp (by simp)) hbid hring horig
    simpa [State.holdings, hbgid] using ht
  | @drop j kb hj =>
    obtain rfl : kb.bgid = g := by simpa [Action.group, hj] using ha
    obtain ⟨kg', hg', hring⟩ := hi.live kb (List.mem_of_getElem? hj)
    obtain rfl : kg = kg' := Option.some.inj (hg.symm.trans hg')
    have ht := conserved_drop (hi.conserved _ _ hg) (filter_perm_cons_eraseIdx hj (by simp))
    simpa only [State.holdings, ← hring, bufRingAddAdvance_ring] using ht

theorem inv_init {s : State} (h : Init s) : Inv s := by
  refine ⟨?_, ?_, ?_, ?_, ?_⟩ <;> simp [h.groups, h.posted, h.live]

theorem inv_step {s t : State} {a : Action} (hi : Inv s) (hs : Step s a t) : Inv t := by
  have hconserved : ∀ g kg, t.groups g = some kg → Conserved g (t.holdings g kg) := by
    intro g kg hg
    by_cases ha : a.group s = some g
    · exact step_conserved hi hs ha hg
    · obtain ⟨hgroups, hview⟩ := step_frame hi hs ha
      rw [hview kg (hgroups ▸ hg)]
      exact hi.conserved g kg (hgroups ▸ hg)
  cases hs with
  | @newGroup g ring base pool mem hnew hring htail h =>
    obtain ⟨hlt, rfl, rfl⟩ := BufRingPool.newBufferGroup_eq_ok.mp h
    refine ⟨?_, update_separates KernelGroup.ring hi.rings hring, ?_, ?_, hconserved⟩
    · intro g' kg hg
      rcases update_eq_some hg with ⟨rfl, rfl⟩ | ⟨hne, hg⟩
      · simp [hlt]
      · have hne' : g.toNat ≠ g'.toNat := fun he => hne (UInt16.toNat_inj.mp he.symm)
        simpa [Vector.getElem?_set, hne'] using hi.pool g' kg hg
    · intro p hp
      by_cases he : p.group = g
      · simp [he]
      · simpa [he] using hi.posted p hp
    · intro kb hkb
      obtain ⟨kg, hg, hr⟩ := hi.live kb hkb
      have he : kb.bgid ≠ g := fun he => by simp [he ▸ hg] at hnew
      exact ⟨kg, (Function.update_of_ne he ..).trans hg, hr⟩
  | @select g kg cqe hg havail howner hbuffer hbid =>
    have hring : kg.advance.ring = kg.ring := rfl
    refine ⟨?_, update_keeps_separate KernelGroup.ring hi.rings hg hring, ?_, ?_, hconserved⟩
    · intro g' kg' h
      obtain ⟨kg₀, h₀, hr⟩ := update_agree KernelGroup.ring hg hring h
      rw [hr]
      exact hi.pool g' kg₀ h₀
    · intro p hp
      by_cases he : p.group = g
      · simp [he]
      · rcases List.mem_append.mp hp with hp | hp
        · simpa [he] using hi.posted p hp
        · obtain rfl := List.mem_singleton.mp hp
          exact absurd howner he
    · intro kb hkb
      obtain ⟨kg', hg', hr⟩ := hi.live kb hkb
      by_cases he : kb.bgid = g
      · obtain rfl : kg = kg' := Option.some.inj ((he ▸ hg).symm.trans hg')
        exact ⟨kg.advance, by simp [he], hr⟩
      · exact ⟨kg', (Function.update_of_ne he ..).trans hg', hr⟩
  | @fromRawEvent j p c kb hp h hkb =>
    refine ⟨hi.pool, hi.rings, fun q hq => hi.posted q (List.mem_of_mem_eraseIdx hq), ?_, hconserved⟩
    intro k hk
    rcases List.mem_append.mp hk with hk | hk
    · exact hi.live k hk
    · obtain rfl := List.mem_singleton.mp hk
      obtain ⟨kg, hg⟩ := Option.isSome_iff_exists.mp (hi.posted p (List.mem_of_getElem? hp))
      obtain ⟨-, hbgid, hring, -⟩ := getReadBuf_original (hi.pool _ _ hg)
        (hi.conserved _ _ hg).slots (Completion.fromRawEvent_kernelBuf h hkb)
      exact ⟨kg, hbgid ▸ hg, hring⟩
  | drop hj =>
    exact ⟨hi.pool, hi.rings, hi.posted, fun k hk => hi.live k (List.mem_of_mem_eraseIdx hk),
      hconserved⟩

theorem reachable_inv {s : State} (h : bufferGroups.Reachable s) : Inv s :=
  h.invariant (fun _ => inv_init) (fun _ _ _ _ hi _ hs => inv_step hi hs)

/-- Every group's buffers are conserved, and no step touches another group. -/
structure PoolConserved (s : State) : Prop where
  groups : ∀ g kg, s.groups g = some kg → Conserved g (s.holdings g kg)
  available : ∀ g kg, s.groups g = some kg →
    ((s.mem.rings kg.ring).tail - kg.head).toNat =
      1024 - ((s.holdings g kg).posted.length + (s.holdings g kg).live.length)
  disjoint : ∀ g kg, s.groups g = some kg → ∀ buf ∈ kg.window (s.mem.rings kg.ring),
    ∀ kb ∈ (s.holdings g kg).live, buf.bid ≠ kb.bid
  frame : ∀ a t, Step s a t → ∀ g, a.group s ≠ some g → t.groups g = s.groups g ∧
    ∀ kg, s.groups g = some kg → t.holdings g kg = s.holdings g kg

/-- Buffers are conserved in every reachable state, whatever the order of returns. -/
theorem buffers_conserved {s : State} (h : bufferGroups.Reachable s) : PoolConserved s := by
  have hi := reachable_inv h
  refine ⟨hi.conserved, fun g kg hg => ?_,
    fun g kg hg _ hbuf _ hkb => (hi.conserved g kg hg).disjoint hbuf hkb,
    fun a t hs g ha => step_frame hi hs ha⟩
  have hc := (hi.conserved g kg hg).count
  change kg.available (s.mem.rings kg.ring) + _ = _ at hc
  rw [← hc, Nat.add_sub_cancel]
  rfl

/-! ### Runs of one group -/

section Runs
variable {G : State → Action → Prop} {s : State} {kg : KernelGroup}

def idle : State where
  pool := .empty
  mem := { rings := fun _ => { bufs := fun _ => ⟨0, 0, 0⟩, tail := 0 }
           bytes := fun _ => 0, vecs := fun _ => none }
  groups := fun _ => none
  posted := []
  live := []

theorem idle_init : Init idle := ⟨rfl, fun _ => rfl, rfl, rfl⟩

theorem reach_group (hguard : ∀ s a, (∀ j, a ≠ .drop j) → G s a) :
    ∃ s, bufferGroups.Reach G s ∧ s.groups 0 = some ⟨0, 0, 0⟩ ∧ s.posted = [] ∧ s.live = [] ∧
      (s.mem.rings 0).tail = 1024 ∧ ∀ j < 1024, (s.mem.rings 0).bufs j = groupBuf 0 j := by
  have hok : idle.pool.newBufferGroup idle.mem 0 (some 0) (some 0) = .ok (_, _) :=
    BufRingPool.newBufferGroup_eq_ok.mpr ⟨by decide, rfl, rfl⟩
  refine ⟨_, (System.Reach.start idle_init).next (hguard _ (.newGroup 0 0 0) (by simp))
    (.newGroup rfl (by simp [idle]) rfl hok), by simp, rfl, rfl, ?_, ?_⟩
  · simp only [Memory.setRing_self]
    exact BufRingPool.filledRing_tail rfl 0
  · intro j hj
    simp only [Memory.setRing_self]
    exact BufRingPool.filledRing_bufs rfl 0 hj

theorem reach_select (hguard : ∀ s a, (∀ j, a ≠ .drop j) → G s a)
    (h : bufferGroups.Reach G s) {g : UInt16} (hg : s.groups g = some kg)
    (havail : kg.head ≠ (s.mem.rings kg.ring).tail) :
    bufferGroups.Reach G { s with
      groups := Function.update s.groups g (some kg.advance)
      posted := s.posted ++ [⟨recvCqe (.fromParts 1 g 0) 1 (kg.selected (s.mem.rings kg.ring)).bid
        true, kg.selected (s.mem.rings kg.ring)⟩] } :=
  h.next (hguard _ (.select g _) (by simp)) (.select hg havail (UserData.owner_fromParts ..)
    (recvCqe_hasBuffer _ _ _ _) (recvCqe_bufferId ..))

/-- The entry of a selected buffer is built into a completion that holds it. -/
theorem Inv.build_isOk (hi : Inv s) {g : UInt16} (hg : s.groups g = some kg) {j : ℕ} (hj : j < 1024)
    (hslot : (s.mem.rings kg.ring).bufs j = groupBuf kg.base j) :
    ∃ kb c, Completion.fromRawEvent s.pool s.mem (some (recvCqe (.fromParts 1 g 0) 1
        (groupBuf kg.base j).bid true)) = .ok c ∧ c.kernelBuf = some kb ∧ kb.bufRing = kg.ring ∧
      kb.entry = groupBuf kg.base j := by
  have hbid : (groupBuf kg.base j).bid.toNat = j := groupBuf_bid hj
  obtain ⟨kb, hget, hring, hentry⟩ : ∃ kb, s.pool.getReadBuf s.mem g (groupBuf kg.base j).bid 1 =
      .ok kb ∧ kb.bufRing = kg.ring ∧ kb.entry = groupBuf kg.base j := by
    refine ⟨_, BufRingPool.getReadBuf_eq_ok.mpr ⟨kg.ring, hi.pool g kg hg, ?_, ?_, ?_, rfl⟩, rfl, ?_⟩
    · rwa [hbid]
    · rw [hbid, hslot]
    · rw [hbid, hslot]
      exact show UInt32.ofNat 1 ≤ bufSize by decide
    · rw [hbid, hslot]
      rfl
  have hb := recvCqe_hasBuffer (.fromParts 1 g 0) 1 (groupBuf kg.base j).bid true
  refine ⟨kb, _, (Completion.fromRawEvent_buffer hb).mpr ⟨show ¬ (1 : Int32) < 0 by decide,
    recvCqe_hasBufMore _ _ _ _, show 0 < resAsUsize 1 by decide, kb, ?_, rfl⟩, rfl, hring, hentry⟩
  rw [recvCqe_bufferId]
  exact (UserData.owner_fromParts 1 g 0).symm ▸ hget

theorem reach_receive (hguard : ∀ s a, (∀ j, a ≠ .drop j) → G s a)
    (h : bufferGroups.Reach G s) {g : UInt16} (hg : s.groups g = some kg)
    (hposted : s.posted = []) (havail : kg.head ≠ (s.mem.rings kg.ring).tail) {j : ℕ}
    (hj : j < 1024) (hsel : kg.selected (s.mem.rings kg.ring) = groupBuf kg.base j)
    (hslot : (s.mem.rings kg.ring).bufs j = groupBuf kg.base j) :
    ∃ t kb, bufferGroups.Reach G t ∧ t.mem = s.mem ∧ t.groups g = some kg.advance ∧
      t.posted = [] ∧ t.live = s.live ++ [kb] ∧ kb.bufRing = kg.ring ∧
      kb.entry = groupBuf kg.base j := by
  obtain ⟨kb, c, hc, hkb, hring, hentry⟩ := (reachable_inv h.reachable).build_isOk hg hj hslot
  have hr := reach_select hguard h hg havail
  rw [hposted, hsel, List.nil_append] at hr
  exact ⟨_, kb, hr.next (hguard _ (.fromRawEvent 0) (by simp)) (.fromRawEvent rfl hc hkb), rfl,
    Function.update_self .., rfl, rfl, hring, hentry⟩

theorem reach_two (hguard : ∀ s a, (∀ j, a ≠ .drop j) → G s a) :
    ∃ s kb₀ kb₁, bufferGroups.Reach G s ∧ s.groups 0 = some ⟨0, 2, 0⟩ ∧ s.posted = [] ∧
      s.live = [kb₀, kb₁] ∧ kb₀.bufRing = 0 ∧ kb₀.entry = groupBuf 0 0 ∧ kb₁.bufRing = 0 ∧
      kb₁.entry = groupBuf 0 1 ∧ (s.mem.rings 0).tail = 1024 ∧
      ∀ j < 1024, (s.mem.rings 0).bufs j = groupBuf 0 j := by
  obtain ⟨s₀, h₀, hg₀, hp₀, hl₀, ht₀, hb₀⟩ := reach_group hguard
  have hsel₀ : KernelGroup.selected ⟨0, 0, 0⟩ (s₀.mem.rings 0) = groupBuf 0 0 :=
    hb₀ 0 (by decide)
  obtain ⟨s₁, kb₀, h₁, hm₁, hg₁, hp₁, hl₁, hr₀, he₀⟩ := reach_receive hguard h₀ hg₀ hp₀
    (by rw [ht₀]; decide) (by decide) hsel₀ (hb₀ 0 (by decide))
  have hsel₁ : KernelGroup.selected ⟨0, 1, 0⟩ (s₁.mem.rings 0) = groupBuf 0 1 := by
    rw [hm₁]
    exact hb₀ 1 (by decide)
  have ha₁ : (KernelGroup.mk 0 1 0).head ≠ (s₁.mem.rings 0).tail := by
    rw [hm₁, ht₀]
    decide
  obtain ⟨s₂, kb₁, h₂, hm₂, hg₂, hp₂, hl₂, hr₁, he₁⟩ := reach_receive hguard h₁ hg₁ hp₁ ha₁
    (by decide) hsel₁ (by rw [hm₁]; exact hb₀ 1 (by decide))
  refine ⟨s₂, kb₀, kb₁, h₂, hg₂, hp₂, by simp [hl₂, hl₁, hl₀], hr₀, he₀, hr₁, he₁, ?_, ?_⟩
  · rw [hm₂, hm₁, ht₀]
  · rw [hm₂, hm₁]
    exact hb₀

theorem reach_reversed : ∃ s, bufferGroups.Reachable s ∧ s.groups 0 = some ⟨0, 2, 0⟩ ∧
    s.live = [] ∧ (s.mem.rings 0).tail = 1026 ∧ (s.mem.rings 0).bufs 0 = groupBuf 0 1 ∧
      (s.mem.rings 0).bufs 1 = groupBuf 0 0 := by
  obtain ⟨s, kb₀, kb₁, h, hg, -, hl, hr₀, he₀, hr₁, he₁, ht, -⟩ :=
    reach_two (G := fun _ _ => True) (fun _ _ _ => trivial)
  have h₁ := h.next trivial (.drop (show s.live[1]? = some kb₁ by simp [hl]))
  have h₂ := h₁.next trivial (.drop (show (s.live.eraseIdx 1)[0]? = some kb₀ by simp [hl]))
  have hring : (bufRingAddAdvance (bufRingAddAdvance s.mem kb₁) kb₀).rings 0 =
      ((s.mem.rings 0).put (groupBuf 0 1)).put (groupBuf 0 0) := by
    rw [bufRingAddAdvance_of_eq _ hr₀, bufRingAddAdvance_of_eq _ hr₁, he₀, he₁]
  refine ⟨_, h₂, hg, by simp [hl], ?_, ?_, ?_⟩
  · simp [hring, ht]
  · simp [hring, ht]
  · simp [hring, ht]

end Runs

theorem buffers_conserved_reversed : ∃ s : State, s.groups 0 = some ⟨0, 2, 0⟩ ∧ s.live = [] ∧
    (s.mem.rings 0).bufs 0 = groupBuf 0 1 ∧ PoolConserved s := by
  obtain ⟨s, h, hg, hl, -, hb, -⟩ := reach_reversed
  exact ⟨s, hg, hl, hb, buffers_conserved h⟩

end UringWs.BufferGroups
