import UringWs.System.BufferGroups

/-! # Looking a buffer up by its id

A lookup reads the slot whose index is the buffer id, while a drop writes the
slot at the masked tail. The two agree as long as every drop writes a buffer
back to the slot of its own id, as in-order returns do.
-/
namespace UringWs.BufferGroups

/-- A drop writes its buffer to the slot of the buffer's own id. -/
def InOrder (s : State) : Action → Prop
  | .drop j => ∀ kb, s.live[j]? = some kb →
      (s.mem.rings kb.bufRing).tail &&& ioUringBufRingMask ringPoolSize = kb.bid
  | _ => True

/-- The lookup of an id returns a given buffer, for every length that fits it. -/
def Finds (s : State) (g bid : UInt16) (buf : IoUringBuf) : Prop :=
  ∀ n, 0 < n → n ≤ buf.len.toNat → ∃ kb, s.pool.getReadBuf s.mem g bid n = .ok kb ∧
    kb.entry = buf ∧ kb.dataLen = n ∧ kb.bgid = g

/-- A result of the length the kernel wrote, and the buffer done with. -/
structure Delivers (p : Posted) : Prop where
  res_pos : 0 < p.cqe.res.toInt
  res_le : p.cqe.res.toInt ≤ p.buf.len.toNat
  bufMore : ¬ p.cqe.hasBufMore

/-- Lookups return the buffers the kernel selected. -/
structure LookupRight (s : State) : Prop where
  posted : ∀ p ∈ s.posted, Finds s p.group p.cqe.bufferId p.buf
  completion : ∀ p ∈ s.posted, Delivers p → ∃ c kb,
    Completion.fromRawEvent s.pool s.mem (some p.cqe) = .ok c ∧ c.kernelBuf = some kb ∧
      kb.entry = p.buf ∧ kb.dataLen = p.cqe.res.toInt.toNat
  /-- the entry the kernel can post next -/
  next : ∀ g kg, s.groups g = some kg → kg.head ≠ (s.mem.rings kg.ring).tail →
    Finds s g (kg.selected (s.mem.rings kg.ring)).bid (kg.selected (s.mem.rings kg.ring))

/-- Every slot holds the buffer of its own id. -/
structure InPlace (s : State) : Prop where
  slots : ∀ g kg, s.groups g = some kg → ∀ j < 1024,
    (s.mem.rings kg.ring).bufs j = groupBuf kg.base j
  posted : ∀ p ∈ s.posted, p.cqe.hasBuffer ∧ ∃ kg, s.groups p.group = some kg ∧
    p.cqe.bufferId.toNat < 1024 ∧ p.buf = groupBuf kg.base p.cqe.bufferId.toNat

theorem InPlace.selected_eq {s : State} (h : InPlace s) {g : UInt16} {kg : KernelGroup}
    (hg : s.groups g = some kg) :
    kg.selected (s.mem.rings kg.ring) = groupBuf kg.base (kg.head.toNat % 1024) := by
  rw [kg.selected_eq, h.slots g kg hg _ (Nat.mod_lt _ (by decide))]

theorem inPlace_newGroup {s : State} (h : InPlace s) {g : UInt16} {ring : RingPtr} {base : ℕ}
    {pool : BufRingPool} (hnew : s.groups g = none)
    (hring : ∀ g' kg, s.groups g' = some kg → kg.ring ≠ ring)
    (htail : (s.mem.rings ring).tail = 0) :
    InPlace { s with
      pool
      mem := s.mem.setRing ring (BufRingPool.filledRing (s.mem.rings ring) base)
      groups := Function.update s.groups g (some { ring, head := 0, base }) } := by
  constructor
  · intro g' kg hg j hj
    rcases update_eq_some hg with ⟨rfl, rfl⟩ | ⟨-, hg⟩
    · rw [Memory.setRing_self, BufRingPool.filledRing_bufs htail base hj]
    · rw [Memory.setRing_ne _ _ (hring g' kg hg)]
      exact h.slots g' kg hg j hj
  · intro p hp
    obtain ⟨hb, kg, hg, hbuf⟩ := h.posted p hp
    have hne : p.group ≠ g := fun he => by simp [he ▸ hg] at hnew
    exact ⟨hb, kg, (Function.update_of_ne hne ..).trans hg, hbuf⟩

theorem inPlace_select {s : State} (h : InPlace s) {g : UInt16} {kg : KernelGroup}
    {cqe : IoUringCqe} (hg : s.groups g = some kg)
    (howner : (UserData.fromPacked cqe.userData).owner = g) (hbuffer : cqe.hasBuffer)
    (hbid : cqe.bufferId = (kg.selected (s.mem.rings kg.ring)).bid) :
    InPlace { s with
      groups := Function.update s.groups g (some kg.advance)
      posted := s.posted ++ [⟨cqe, kg.selected (s.mem.rings kg.ring)⟩] } := by
  constructor
  · intro g' kg' hg' j hj
    rcases update_eq_some hg' with ⟨rfl, rfl⟩ | ⟨-, hg'⟩
    · exact h.slots _ kg hg j hj
    · exact h.slots g' kg' hg' j hj
  · intro p hp
    rcases List.mem_append.mp hp with hp | hp
    · obtain ⟨hb, kg', hg', hbuf⟩ := h.posted p hp
      by_cases he : p.group = g
      · obtain rfl : kg = kg' := Option.some.inj (hg.symm.trans (he ▸ hg'))
        exact ⟨hb, kg.advance, by simp [he], hbuf⟩
      · exact ⟨hb, kg', (Function.update_of_ne he ..).trans hg', hbuf⟩
    · obtain rfl := List.mem_singleton.mp hp
      have hlt : kg.head.toNat % 1024 < 1024 := Nat.mod_lt _ (by decide)
      have hid : cqe.bufferId.toNat = kg.head.toNat % 1024 := by
        rw [hbid, h.selected_eq hg, groupBuf_bid hlt]
      refine ⟨hbuffer, kg.advance, by simp [Posted.group, howner], hid ▸ hlt, ?_⟩
      rw [hid]
      exact h.selected_eq hg

/-- A drop in order writes what its slot already holds. -/
theorem inPlace_drop {s : State} (hi : Inv s) (h : InPlace s) {j : ℕ} {kb : KernelBuffer}
    (ha : InOrder s (.drop j)) (hj : s.live[j]? = some kb) :
    InPlace { s with mem := bufRingAddAdvance s.mem kb, live := s.live.eraseIdx j } := by
  refine ⟨?_, h.posted⟩
  intro g kg hg i hilt
  change ((bufRingAddAdvance s.mem kb).rings kg.ring).bufs i = _
  obtain ⟨kg', hg', hring⟩ := hi.live kb (List.mem_of_getElem? hj)
  by_cases he : kg.ring = kb.bufRing
  · obtain rfl : g = kb.bgid := hi.rings _ _ _ _ hg hg' (he.trans hring)
    have horig : Original kg.base kb.entry :=
      ((hi.conserved _ kg hg).live kb
        (List.mem_filter.mpr ⟨List.mem_of_getElem? hj, by simp⟩)).2
    have hslot : (s.mem.rings kb.bufRing).tail.toNat % 1024 = kb.bid.toNat := by
      rw [← ha kb hj, and_bufRingMask]
    rw [he, bufRingAddAdvance_ring, IoUringBufRing.put_bufs, hslot, Function.update_apply]
    split
    · rename_i hib
      rw [horig, hib]
      rfl
    · rw [← he]
      exact h.slots _ kg hg i hilt
  · rw [bufRingAddAdvance_ne _ _ he]
    exact h.slots g kg hg i hilt

theorem inPlace_step {s t : State} {a : Action} (hi : Inv s) (h : InPlace s) (ha : InOrder s a)
    (hs : Step s a t) : InPlace t := by
  cases hs with
  | newGroup hnew hring htail hok =>
    obtain ⟨hlt, rfl, rfl⟩ := BufRingPool.newBufferGroup_eq_ok.mp hok
    exact inPlace_newGroup h hnew hring htail
  | select hg havail howner hbuffer hbid => exact inPlace_select h hg howner hbuffer hbid
  | fromRawEvent hp hc hkb =>
    exact ⟨h.slots, fun q hq => h.posted q (List.mem_of_mem_eraseIdx hq)⟩
  | drop hj => exact inPlace_drop hi h ha hj

theorem reach_inPlace {s : State} (h : bufferGroups.Reach InOrder s) : InPlace s :=
  h.invariant (fun s h₀ => ⟨by simp [h₀.groups], by simp [h₀.posted]⟩)
    (fun _ _ _ hr hp ha hs => inPlace_step (reachable_inv hr.reachable) hp ha hs)

theorem InPlace.finds {s : State} (hi : Inv s) (h : InPlace s) {g bid : UInt16} {kg : KernelGroup}
    (hg : s.groups g = some kg) (hbid : bid.toNat < 1024) :
    Finds s g bid (groupBuf kg.base bid.toNat) := by
  intro n _ hn
  have hslot := h.slots g kg hg _ hbid
  have hn : UInt32.ofNat n ≤ bufSize := by
    have hn : n ≤ 1500 := hn
    rw [UInt32.le_iff_toNat_le, UInt32.toNat_ofNat_of_lt' (show n < 4294967296 by omega)]
    exact hn
  refine ⟨_, BufRingPool.getReadBuf_eq_ok.mpr ⟨kg.ring, hi.pool g kg hg, hbid, ?_, ?_, rfl⟩, ?_⟩
  · rw [hslot]
    exact UInt16.ofNat_toNat.symm
  · rw [hslot]
    exact hn
  · rw [hslot]
    exact ⟨rfl, rfl, rfl⟩

/-- In runs whose drops are in order every lookup finds the selected buffer. -/
theorem lookup_right {s : State} (h : bufferGroups.Reach InOrder s) : LookupRight s := by
  have hi := reachable_inv h.reachable
  have hp := reach_inPlace h
  have hposted : ∀ p ∈ s.posted, Finds s p.group p.cqe.bufferId p.buf := by
    intro p hmem
    obtain ⟨-, kg, hg, hlt, hbuf⟩ := hp.posted p hmem
    rw [hbuf]
    exact hp.finds hi hg hlt
  refine ⟨hposted, ?_, ?_⟩
  · intro p hmem hd
    have hres := resAsUsize_of_nonneg hd.res_pos.le
    obtain ⟨kb, hkb, hentry, hlen, -⟩ := hposted p hmem p.cqe.res.toInt.toNat
      (by have := hd.res_pos; omega) (by have := hd.res_le; omega)
    refine ⟨_, kb, (Completion.fromRawEvent_buffer (hp.posted p hmem).1).mpr
      ⟨?_, hd.bufMore, ?_, kb, hres ▸ hkb, rfl⟩, rfl, hentry, hlen⟩
    · have := hd.res_pos
      rw [Int32.lt_iff_toInt_lt]
      simpa using this.le
    · rw [hres]
      have := hd.res_pos
      omega
  · intro g kg hg _
    have hlt : kg.head.toNat % 1024 < 1024 := Nat.mod_lt _ (by decide)
    have hf : Finds s g (groupBuf kg.base (kg.head.toNat % 1024)).bid _ :=
      hp.finds hi hg (by rwa [groupBuf_bid hlt])
    rw [groupBuf_bid hlt] at hf
    rwa [hp.selected_eq hg]

theorem inOrder_of_ne_drop (s : State) (a : Action) (h : ∀ j, a ≠ .drop j) : InOrder s a := by
  cases a with
  | drop j => exact absurd rfl (h j)
  | _ => trivial

theorem lookup_right_returned : ∃ s : State, s.live.length = 1 ∧ s.groups 0 = some ⟨0, 2, 0⟩ ∧
    (s.mem.rings 0).tail = 1025 ∧ LookupRight s := by
  obtain ⟨s, kb₀, kb₁, h, hg, -, hl, hr₀, he₀, hr₁, he₁, ht, -⟩ := reach_two inOrder_of_ne_drop
  have hbid : kb₀.bid = 0 := congrArg IoUringBuf.bid he₀
  have hin : InOrder s (.drop 0) := by
    intro kb hkb
    obtain rfl : kb₀ = kb := by simpa [hl] using hkb
    rw [hr₀, ht, hbid]
    decide
  have h₁ := h.next hin (.drop (show s.live[0]? = some kb₀ by simp [hl]))
  refine ⟨{ s with mem := bufRingAddAdvance s.mem kb₀, live := s.live.eraseIdx 0 },
    by simp [hl], hg, ?_, lookup_right h₁⟩
  simp [bufRingAddAdvance_of_eq _ hr₀, ht]

theorem reach_selects {s : State} (h : bufferGroups.Reachable s) {g : UInt16} {kg : KernelGroup}
    (hg : s.groups g = some kg) {n : ℕ} (hn : n ≤ kg.available (s.mem.rings kg.ring)) :
    ∃ t, bufferGroups.Reachable t ∧ t.mem = s.mem ∧ t.pool = s.pool ∧
      t.groups g = some { kg with head := kg.head + UInt16.ofNat n } := by
  induction n generalizing s kg with
  | zero => exact ⟨s, h, rfl, rfl, by simp [hg]⟩
  | succ n ih =>
    have havail : kg.head ≠ (s.mem.rings kg.ring).tail := by
      intro he
      simp [KernelGroup.available, he] at hn
    obtain ⟨t, ht, hm, hp, hgt⟩ := ih (reach_select (fun _ _ _ => trivial) h hg havail)
      (Function.update_self ..) (by
        have := kg.advance_available (KernelGroup.available_pos havail)
        change n ≤ kg.advance.available (s.mem.rings kg.ring)
        omega)
    refine ⟨t, ht, hm, hp, hgt.trans ?_⟩
    simp [KernelGroup.advance, UInt16.ofNat_add, UInt16.add_assoc, UInt16.add_comm]

/-- Returned in the opposite order, the first two buffers of a group are found
under each other's ids: the kernel selects buffer one again, and its lookup stops. -/
theorem lookup_wrong_reversed : ∃ s, bufferGroups.Reachable s ∧ ¬ LookupRight s := by
  obtain ⟨s, h, hg, -, ht, hb₀, hb₁⟩ := reach_reversed
  have havail : KernelGroup.available ⟨0, 2, 0⟩ (s.mem.rings 0) = 1024 := by
    rw [KernelGroup.available, ht]
    decide
  obtain ⟨t, ht', hm, -, hgt⟩ := reach_selects h hg (n := 1022) (by rw [havail]; decide)
  refine ⟨t, ht', fun hl => ?_⟩
  have hsel : KernelGroup.selected ⟨0, 2 + UInt16.ofNat 1022, 0⟩ (t.mem.rings 0) = groupBuf 0 1 := by
    rw [hm]
    exact hb₀
  have hnext := hl.next 0 _ hgt (by
    rw [hm, ht]
    decide)
  obtain ⟨kb, hkb, -⟩ := hnext 1 (by decide) (by rw [hsel]; decide)
  rw [hsel] at hkb
  obtain ⟨p, hp, -, hbid, -⟩ := BufRingPool.getReadBuf_eq_ok.mp hkb
  obtain rfl : 0 = p :=
    Option.some.inj (Option.some.inj (((reachable_inv ht').pool 0 _ hgt).symm.trans hp))
  rw [hm, show (groupBuf 0 1).bid.toNat = 1 from rfl, hb₁] at hbid
  exact absurd hbid (by decide)

end UringWs.BufferGroups
