import UringWs.Program.ReadBuf
import UringWs.System.Kernel
import Mathlib.Algebra.Group.Action.Defs
import Mathlib.Algebra.Order.BigOperators.Group.List
import Mathlib.Algebra.Order.Ring.Nat

/-! # The buffers of one stream

A stream reads its buffers to the end in the order in which the kernel filled
them. Buffer j is therefore always in slot j of the ring, and the buffers out of
the kernel's hands are those of the run of ids that starts at the tail.
-/
namespace UringWs
open RingWindow

/-- The bytes a completion reports in the buffer it names. -/
def KernelGroup.chunk (kg : KernelGroup) (mem : Memory) (cqe : IoUringCqe) : List UInt8 :=
  ByteMemory.load mem.bytes (groupBuf kg.base cqe.bufferId.toNat).addr (resAsUsize cqe.res)

/-- The ids of the queued buffers and of those named by unprocessed completions. -/
def heldIds (readers : List KernelBufferReader) (cqes : List IoUringCqe) : List ℕ :=
  readers.map (fun v => v.buf.bid.toNat) ++ cqes.map (fun cqe => cqe.bufferId.toNat)

/-- The bytes received and not yet read. -/
def pendingBytes (kg : KernelGroup) (mem : Memory) (readers : List KernelBufferReader)
    (cqes : List IoUringCqe) : List UInt8 :=
  readers.flatMap (fun v => v.unread mem) ++ cqes.flatMap (kg.chunk mem)

/-- A queued buffer is the group's own, with bytes left to read. -/
structure KernelGroup.Owns (kg : KernelGroup) (v : KernelBufferReader) : Prop where
  entry : v.buf.entry = groupBuf kg.base v.buf.bid.toNat
  ring : v.buf.bufRing = kg.ring
  remaining : 0 < v.remaining
  dataLen : v.buf.dataLen ≤ bufSize.toNat

/-- A completion reports between one byte and a whole buffer. -/
structure Reports (cqe : IoUringCqe) : Prop where
  buffer : cqe.hasBuffer
  bufMore : ¬ cqe.hasBufMore
  res_pos : 0 < cqe.res.toInt
  res_le : cqe.res.toInt ≤ bufSize.toNat

/-- A group whose buffers are out with the readers of its stream and with its
unprocessed completions. -/
structure Custody (kg : KernelGroup) (mem : Memory) (readers : List KernelBufferReader)
    (cqes : List IoUringCqe) : Prop where
  slots : ∀ j < 1024, (mem.rings kg.ring).bufs j = groupBuf kg.base j
  ids : heldIds readers cqes =
    window id 1024 (mem.rings kg.ring).tail.toNat (readers.length + cqes.length)
  count : kg.available (mem.rings kg.ring) + (readers.length + cqes.length) = 1024
  readers : ∀ v ∈ readers, kg.Owns v
  cqes : ∀ cqe ∈ cqes, Reports cqe

theorem Reports.resAsUsize_eq {cqe : IoUringCqe} (h : Reports cqe) :
    (resAsUsize cqe.res : ℤ) = cqe.res.toInt := by
  rw [resAsUsize_of_nonneg h.res_pos.le]
  exact Int.toNat_of_nonneg h.res_pos.le

theorem Reports.resAsUsize_le {cqe : IoUringCqe} (h : Reports cqe) :
    resAsUsize cqe.res ≤ bufSize.toNat := by
  have := h.resAsUsize_eq
  have := h.res_le
  omega

theorem Reports.resAsUsize_pos {cqe : IoUringCqe} (h : Reports cqe) : 0 < resAsUsize cqe.res := by
  have := h.resAsUsize_eq
  have := h.res_pos
  omega

theorem KernelGroup.Owns.addr {kg : KernelGroup} {v : KernelBufferReader} (h : kg.Owns v) :
    v.buf.addr = (groupBuf kg.base v.buf.bid.toNat).addr := congrArg IoUringBuf.addr h.entry

theorem KernelGroup.Owns.advance {kg : KernelGroup} {v : KernelBufferReader} (h : kg.Owns v) :
    kg.advance.Owns v := ⟨h.entry, h.ring, h.remaining, h.dataLen⟩

variable {kg : KernelGroup} {mem mem' : Memory} {readers : List KernelBufferReader}
  {cqes : List IoUringCqe} {cqe : IoUringCqe}

theorem pendingBytes_congr (hb : mem'.bytes = mem.bytes) :
    pendingBytes kg mem' readers cqes = pendingBytes kg mem readers cqes := by
  unfold pendingBytes KernelBufferReader.unread KernelBuffer.data KernelGroup.chunk
  rw [hb]

namespace Custody

theorem of_ring (h : Custody kg mem readers cqes)
    (hr : mem'.rings kg.ring = mem.rings kg.ring) : Custody kg mem' readers cqes := by
  refine ⟨?_, ?_, ?_, h.readers, h.cqes⟩
  · rw [hr]
    exact h.slots
  · rw [hr]
    exact h.ids
  · rw [hr]
    exact h.count

theorem id_lt (h : Custody kg mem readers cqes) {b : ℕ} (hb : b ∈ heldIds readers cqes) :
    b < 1024 := by
  rw [h.ids] at hb
  obtain ⟨i, -, rfl⟩ := mem_window.mp hb
  exact Nat.mod_lt _ (by decide)

theorem fresh {br : IoUringBufRing} (htail : br.tail = 0) {ring : RingPtr} {base : ℕ}
    (hr : mem.rings ring = BufRingPool.filledRing br base) :
    Custody { ring, head := 0, base } mem [] [] := by
  refine ⟨fun j hj => ?_, rfl, ?_, fun v hv => ?_, fun cqe hcqe => ?_⟩
  · rw [hr, BufRingPool.filledRing_bufs htail _ hj]
  · rw [KernelGroup.available, hr, BufRingPool.filledRing_tail htail]
    exact show ((1024 : UInt16) - 0).toNat + 0 = 1024 by decide
  · cases hv
  · cases hcqe

/-- A store outside the buffers that are held changes no byte of a queued one. -/
theorem unread_store (h : Custody kg mem readers cqes) (addr : ℕ) (data : List UInt8)
    (hdis : ∀ b ∈ heldIds readers cqes, (groupBuf kg.base b).addr + bufSize.toNat ≤ addr ∨
      addr + data.length ≤ (groupBuf kg.base b).addr) {v : KernelBufferReader} (hv : v ∈ readers) :
    v.unread (mem.store addr data) = v.unread mem := by
  have howns := h.readers v hv
  have hlen := howns.dataLen
  have hrem := howns.remaining
  have haddr := howns.addr
  unfold KernelBufferReader.remaining at hrem
  have hd := hdis _ (List.mem_append_left _ (List.mem_map_of_mem hv))
  apply ByteMemory.load_store_disjoint
  rcases hd with hd | hd
  · exact .inl (by omega)
  · exact .inr (by omega)

/-- Nor any byte a completion reports. -/
theorem pendingBytes_store (h : Custody kg mem readers cqes) (addr : ℕ) (data : List UInt8)
    (hdis : ∀ b ∈ heldIds readers cqes, (groupBuf kg.base b).addr + bufSize.toNat ≤ addr ∨
      addr + data.length ≤ (groupBuf kg.base b).addr) :
    pendingBytes kg (mem.store addr data) readers cqes = pendingBytes kg mem readers cqes := by
  unfold pendingBytes
  congr 1
  · exact List.flatMap_congr fun v hv => h.unread_store addr data hdis hv
  · refine List.flatMap_congr fun cqe hcqe => ?_
    have hlen := (h.cqes cqe hcqe).resAsUsize_le
    have hd := hdis _ (List.mem_append_right _ (List.mem_map_of_mem hcqe))
    apply ByteMemory.load_store_disjoint
    rcases hd with hd | hd
    · exact .inl (by omega)
    · exact .inr hd

/-- The slot the kernel selects next lies behind all held ids. -/
theorem next_slot (h : Custody kg mem readers cqes) :
    ((mem.rings kg.ring).tail.toNat + (readers.length + cqes.length)) % 1024 =
      kg.head.toNat % 1024 := by
  have hcount := h.count
  rw [kg.available_eq_span] at hcount
  have hslot := head_add_span (W := 2 ^ 16) (N := 1024) (t := (mem.rings kg.ring).tail.toNat)
    (by decide) kg.head.toNat_lt
  omega

theorem selected_eq (h : Custody kg mem readers cqes) :
    kg.selected (mem.rings kg.ring) = groupBuf kg.base (kg.head.toNat % 1024) := by
  rw [kg.selected_eq, h.slots _ (Nat.mod_lt _ (by decide))]

/-- The selected buffer overlaps none that is held. -/
theorem selected_disjoint (h : Custody kg mem readers cqes) {data : List UInt8}
    (havail : kg.head ≠ (mem.rings kg.ring).tail) (hlen : data.length ≤ bufSize.toNat) :
    ∀ b ∈ heldIds readers cqes,
      (groupBuf kg.base b).addr + bufSize.toNat ≤ (kg.selected (mem.rings kg.ring)).addr ∨
      (kg.selected (mem.rings kg.ring)).addr + data.length ≤ (groupBuf kg.base b).addr := by
  intro b hb
  have hpos := KernelGroup.available_pos havail
  have hlt := h.id_lt hb
  have hne : b ≠ kg.head.toNat % 1024 := by
    rw [h.ids] at hb
    obtain ⟨j, hj, rfl⟩ := mem_window.mp hb
    rw [← h.next_slot]
    have hcount := h.count
    exact fun he => hj.ne (slot_inj (by omega) (by omega) he)
  have hb16 : bufSize.toNat = 1500 := rfl
  rw [h.selected_eq]
  simp only [groupBuf, hb16] at *
  omega

theorem select (h : Custody kg mem readers cqes) {data : List UInt8}
    (havail : kg.head ≠ (mem.rings kg.ring).tail) (hreports : Reports cqe)
    (hbid : cqe.bufferId = (kg.selected (mem.rings kg.ring)).bid) :
    Custody kg.advance (mem.store (kg.selected (mem.rings kg.ring)).addr data) readers
      (cqes ++ [cqe]) := by
  have hpos := KernelGroup.available_pos havail
  have hid : cqe.bufferId.toNat = kg.head.toNat % 1024 := by
    rw [hbid, h.selected_eq, groupBuf_bid (Nat.mod_lt _ (by decide))]
  refine ⟨h.slots, ?_, ?_, fun v hv => (h.readers v hv).advance, ?_⟩
  · have hlen : readers.length + (cqes ++ [cqe]).length = readers.length + cqes.length + 1 := by
      rw [List.length_append, List.length_singleton, Nat.add_assoc]
    rw [hlen, window_snoc]
    change heldIds readers (cqes ++ [cqe]) = window id 1024 (mem.rings kg.ring).tail.toNat _ ++
      [((mem.rings kg.ring).tail.toNat + _) % 1024]
    rw [← h.ids, h.next_slot, ← hid]
    simp [heldIds]
  · have hcount := h.count
    change kg.advance.available (mem.rings kg.ring) + _ = _
    rw [KernelGroup.advance_available hpos, List.length_append, List.length_singleton]
    omega
  · intro c hc
    rcases List.mem_append.mp hc with hc | hc
    · exact h.cqes c hc
    · obtain rfl := List.mem_singleton.mp hc
      exact hreports

theorem select_bytes (h : Custody kg mem readers cqes) {data : List UInt8}
    (havail : kg.head ≠ (mem.rings kg.ring).tail) (hlen : data.length ≤ bufSize.toNat)
    (hres : resAsUsize cqe.res = data.length)
    (hbid : cqe.bufferId = (kg.selected (mem.rings kg.ring)).bid) :
    pendingBytes kg.advance (mem.store (kg.selected (mem.rings kg.ring)).addr data) readers
      (cqes ++ [cqe]) = pendingBytes kg mem readers cqes ++ data := by
  have hsel := h.selected_eq
  have hold := h.pendingBytes_store (kg.selected (mem.rings kg.ring)).addr data
    (h.selected_disjoint havail hlen)
  have hnew : kg.advance.chunk (mem.store (kg.selected (mem.rings kg.ring)).addr data) cqe =
      data := by
    have haddr : (groupBuf kg.base cqe.bufferId.toNat).addr =
        (kg.selected (mem.rings kg.ring)).addr := by
      rw [hbid, hsel, groupBuf_bid (Nat.mod_lt _ (by decide))]
    change ByteMemory.load _ (groupBuf kg.base cqe.bufferId.toNat).addr _ = data
    rw [haddr, hres]
    exact ByteMemory.load_store ..
  change readers.flatMap _ ++ (cqes ++ [cqe]).flatMap _ = _
  rw [List.flatMap_append, List.flatMap_singleton, hnew, ← List.append_assoc, ← hold]
  rfl

theorem getReadBuf (h : Custody kg mem readers (cqe :: cqes)) {pool : BufRingPool} {g : UInt16}
    (hpool : pool.bufRingPtrs[g.toNat]? = some (some kg.ring)) :
    pool.getReadBuf mem g cqe.bufferId (resAsUsize cqe.res) =
      .ok ⟨(groupBuf kg.base cqe.bufferId.toNat).addr, resAsUsize cqe.res, kg.ring, cqe.bufferId, g,
        bufSize⟩ := by
  have hreports := h.cqes cqe List.mem_cons_self
  have hlt : cqe.bufferId.toNat < 1024 := h.id_lt (by simp [heldIds])
  have hbid : (groupBuf kg.base cqe.bufferId.toNat).bid = cqe.bufferId := UInt16.ofNat_toNat
  have hle : UInt32.ofNat (resAsUsize cqe.res) ≤ bufSize := by
    have hle := hreports.resAsUsize_le
    have hsize : bufSize.toNat = 1500 := rfl
    rw [UInt32.le_iff_toNat_le,
      UInt32.toNat_ofNat_of_lt' (show resAsUsize cqe.res < 4294967296 by omega)]
    exact hle
  refine BufRingPool.getReadBuf_eq_ok.mpr ⟨kg.ring, hpool, hlt, ?_, ?_, ?_⟩
  · rw [h.slots _ hlt, hbid]
  · rw [h.slots _ hlt]
    exact hle
  · rw [h.slots _ hlt, hbid]
    rfl

theorem take (h : Custody kg mem readers (cqe :: cqes)) {kb : KernelBuffer}
    (hkb : kb = ⟨(groupBuf kg.base cqe.bufferId.toNat).addr, resAsUsize cqe.res, kg.ring,
      cqe.bufferId, kb.bgid, bufSize⟩) :
    Custody kg mem (readers ++ [.new kb]) cqes := by
  have hreports := h.cqes cqe List.mem_cons_self
  have hlen : (readers ++ [KernelBufferReader.new kb]).length + cqes.length =
      readers.length + (cqe :: cqes).length := by
    simp only [List.length_append, List.length_cons, List.length_nil]
    omega
  refine ⟨h.slots, ?_, ?_, ?_, fun c hc => h.cqes c (List.mem_cons_of_mem _ hc)⟩
  · rw [hlen, ← h.ids, hkb]
    simp [heldIds, KernelBufferReader.new]
  · rw [hlen]
    exact h.count
  · intro v hv
    rcases List.mem_append.mp hv with hv | hv
    · exact h.readers v hv
    · obtain rfl := List.mem_singleton.mp hv
      rw [hkb]
      have hbid : (groupBuf kg.base cqe.bufferId.toNat).bid = cqe.bufferId := UInt16.ofNat_toNat
      refine ⟨?_, rfl, hreports.resAsUsize_pos, hreports.resAsUsize_le⟩
      exact congrArg (IoUringBuf.mk _ bufSize) hbid.symm

theorem take_bytes {kb : KernelBuffer}
    (hkb : kb = ⟨(groupBuf kg.base cqe.bufferId.toNat).addr, resAsUsize cqe.res, kg.ring,
      cqe.bufferId, kb.bgid, bufSize⟩) :
    pendingBytes kg mem (readers ++ [.new kb]) cqes = pendingBytes kg mem readers (cqe :: cqes) := by
  have hnew : (KernelBufferReader.new kb).unread mem = kg.chunk mem cqe := by
    rw [hkb]
    rfl
  rw [pendingBytes, List.flatMap_append, List.flatMap_singleton, hnew, pendingBytes,
    List.flatMap_cons, List.append_assoc]

variable {v : KernelBufferReader} {vs : List KernelBufferReader}

theorem part (h : Custody kg mem (v :: vs) cqes) {n : ℕ} (hn : n < v.remaining) :
    Custody kg mem ({ v with claimed := v.claimed + n } :: vs) cqes := by
  have howns := h.readers v List.mem_cons_self
  refine ⟨h.slots, h.ids, h.count, ?_, h.cqes⟩
  intro v' hv'
  rcases List.mem_cons.mp hv' with rfl | hv'
  · refine ⟨howns.entry, howns.ring, ?_, howns.dataLen⟩
    simp only [KernelBufferReader.remaining] at *
    omega
  · exact h.readers v' (List.mem_cons_of_mem _ hv')

theorem part_bytes (n : ℕ) :
    (v.unread mem).take n ++ pendingBytes kg mem ({ v with claimed := v.claimed + n } :: vs) cqes =
      pendingBytes kg mem (v :: vs) cqes := by
  have hdrop : KernelBufferReader.unread mem { v with claimed := v.claimed + n } =
      (v.unread mem).drop n := (KernelBuffer.data_drop ..).symm
  rw [pendingBytes, List.flatMap_cons, hdrop, List.append_assoc, ← List.append_assoc,
    List.take_append_drop, pendingBytes, List.flatMap_cons, List.append_assoc]

theorem drain (h : Custody kg mem (v :: vs) cqes) :
    Custody kg (bufRingAddAdvance mem v.buf) vs cqes := by
  have howns := h.readers v List.mem_cons_self
  have hring := bufRingAddAdvance_of_eq mem howns.ring
  have hcount := h.count
  have hids := h.ids
  rw [List.length_cons, Nat.add_right_comm] at hcount hids
  rw [window_succ] at hids
  have hslot : (mem.rings kg.ring).tail.toNat % 1024 = v.buf.bid.toNat :=
    (List.cons.inj hids).1.symm
  have hrest : heldIds vs cqes = window id 1024 ((mem.rings kg.ring).tail.toNat + 1)
    (vs.length + cqes.length) := (List.cons.inj hids).2
  have htail : ((mem.rings kg.ring).tail + 1).toNat =
      ((mem.rings kg.ring).tail.toNat + 1) % 2 ^ 16 := UInt16.toNat_add ..
  refine ⟨fun j hj => ?_, ?_, ?_, fun v' hv' => h.readers v' (List.mem_cons_of_mem _ hv'), h.cqes⟩
  · rw [hring, IoUringBufRing.put_bufs, hslot, howns.entry, Function.update_apply]
    split
    · next he => rw [he]
    · exact h.slots j hj
  · rw [hring, IoUringBufRing.put_tail, htail, window_wrap (by decide), hrest]
  · rw [hring, KernelGroup.available_put (by omega)]
    omega

theorem drain_bytes :
    v.unread mem ++ pendingBytes kg (bufRingAddAdvance mem v.buf) vs cqes =
      pendingBytes kg mem (v :: vs) cqes := by
  rw [pendingBytes_congr (bufRingAddAdvance_bytes ..), pendingBytes, pendingBytes,
    List.flatMap_cons, List.append_assoc]

/-- A buffer out of the kernel's hands has at most its own size left to read. -/
theorem pendingBytes_length_le (h : Custody kg mem readers cqes) :
    (pendingBytes kg mem readers cqes).length ≤ 1024 * bufSize.toNat := by
  have hreaders : ∀ n ∈ readers.map (fun v => (v.unread mem).length), n ≤ bufSize.toNat := by
    intro n hn
    obtain ⟨v, hv, rfl⟩ := List.mem_map.mp hn
    rw [KernelBufferReader.unread_length]
    exact (Nat.sub_le ..).trans (h.readers v hv).dataLen
  have hcqes : ∀ n ∈ cqes.map (fun cqe => (kg.chunk mem cqe).length), n ≤ bufSize.toNat := by
    intro n hn
    obtain ⟨cqe, hcqe, rfl⟩ := List.mem_map.mp hn
    rw [KernelGroup.chunk, ByteMemory.load_length]
    exact (h.cqes cqe hcqe).resAsUsize_le
  have hsum := List.sum_le_card_nsmul _ _ hreaders
  have hsum' := List.sum_le_card_nsmul _ _ hcqes
  have hcount := h.count
  have hbuf : bufSize.toNat = 1500 := rfl
  rw [List.length_map, smul_eq_mul, hbuf] at hsum hsum'
  rw [pendingBytes, List.length_append, List.length_flatMap, List.length_flatMap, hbuf]
  omega

end Custody
end UringWs
