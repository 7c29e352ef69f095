import UringWs.Foundation.Region
import UringWs.System.RecvIntegrity

/-! # Whose buffer it is

Each buffer of a group is queued with its stream, named by a posted completion,
or in the kernel's hands. The slices the program may take and the buffers the
kernel may fill lie apart, over all streams, so no slice changes under its reader.
-/
namespace UringWs
open RingWindow

/-- A buffer in one of the three hands. -/
inductive Use
  | queued (v : KernelBufferReader)
  | posted (cqe : IoUringCqe)
  | kernel (buf : IoUringBuf)

namespace Use

def bid : Use → ℕ
  | queued v => v.buf.bid.toNat
  | posted cqe => cqe.bufferId.toNat
  | kernel buf => buf.bid.toNat

/-- The slice left to read, the bytes a lookup will find, or what the kernel may fill. -/
def region (br : IoUringBufRing) : Use → Region
  | queued v => ⟨v.buf.addr + v.claimed, v.remaining⟩
  | posted cqe => ⟨(br.bufs cqe.bufferId.toNat).addr, resAsUsize cqe.res⟩
  | kernel buf => ⟨buf.addr, buf.len.toNat⟩

end Use

def uses (kg : KernelGroup) (br : IoUringBufRing) (readers : List KernelBufferReader)
    (cqes : List IoUringCqe) : List Use :=
  readers.map .queued ++ cqes.map .posted ++ (kg.window br).map .kernel

/-- The part of a block that the buffer with id j takes up. -/
def cell (base j : ℕ) : Region := ⟨(groupBuf base j).addr, bufSize.toNat⟩

theorem cell_apart (base : ℕ) {i j : ℕ} (h : i ≠ j) : (cell base i).Apart (cell base j) := by
  have hsize : bufSize.toNat = 1500 := rfl
  simp only [cell, Region.Apart, groupBuf, hsize]
  omega

namespace Custody
variable {kg : KernelGroup} {mem : Memory} {readers : List KernelBufferReader}
  {cqes : List IoUringCqe}

theorem window_entry (h : Custody kg mem readers cqes) {buf : IoUringBuf}
    (hbuf : buf ∈ kg.window (mem.rings kg.ring)) :
    ∃ j < 1024, buf = groupBuf kg.base j ∧ buf.bid.toNat = j := by
  obtain ⟨j, -, rfl⟩ := mem_window.mp hbuf
  have hlt : (kg.head.toNat + j) % 1024 < 1024 := Nat.mod_lt _ (by decide)
  have hslot := h.slots _ hlt
  exact ⟨_, hlt, hslot, by rw [hslot, groupBuf_bid hlt]⟩

/-- The ids in use, from the tail on, are one round of the ring. -/
theorem uses_bid (h : Custody kg mem readers cqes) :
    (uses kg (mem.rings kg.ring) readers cqes).map Use.bid =
      window id 1024 (mem.rings kg.ring).tail.toNat 1024 := by
  have hkernel : (kg.window (mem.rings kg.ring)).map (fun buf => buf.bid.toNat) =
      window id 1024 ((mem.rings kg.ring).tail.toNat + (readers.length + cqes.length))
        (kg.available (mem.rings kg.ring)) := by
    have hwrap := window_wrap (dvd_refl 1024) id kg.head.toNat (kg.available (mem.rings kg.ring))
    rw [← h.next_slot, window_wrap (dvd_refl 1024)] at hwrap
    rw [hwrap, KernelGroup.window, window_map]
    refine window_congr fun i hi => ?_
    have hlt : (kg.head.toNat + i) % 1024 < 1024 := Nat.mod_lt _ (by decide)
    rw [h.slots _ hlt, groupBuf_bid hlt]
    rfl
  have hheld : (readers.map Use.queued ++ cqes.map Use.posted).map Use.bid =
      heldIds readers cqes := by
    simp [heldIds, Use.bid, Function.comp_def]
  rw [uses, List.map_append, hheld, List.map_map]
  change heldIds readers cqes ++ (kg.window (mem.rings kg.ring)).map (fun buf => buf.bid.toNat) = _
  rw [hkernel, h.ids, ← window_append, Nat.add_comm (readers.length + cqes.length), h.count]

theorem uses_nodup (h : Custody kg mem readers cqes) :
    ((uses kg (mem.rings kg.ring) readers cqes).map Use.bid).Nodup := by
  rw [h.uses_bid, window]
  refine List.Nodup.map_on (fun i hi j hj he => ?_) List.nodup_range
  exact slot_inj (List.mem_range.mp hi) (List.mem_range.mp hj) he

/-- Each use stays inside the buffer of its id. -/
theorem use_within (h : Custody kg mem readers cqes) {u : Use}
    (hu : u ∈ uses kg (mem.rings kg.ring) readers cqes) :
    u.bid < 1024 ∧ (u.region (mem.rings kg.ring)).Within (cell kg.base u.bid) := by
  have hsize : bufSize.toNat = 1500 := rfl
  simp only [uses, List.mem_append, List.mem_map] at hu
  obtain (⟨v, hv, rfl⟩ | ⟨cqe, hcqe, rfl⟩) | ⟨buf, hbuf, rfl⟩ := hu
  · have howns := h.readers v hv
    have haddr := howns.addr
    have hlen := howns.dataLen
    have hrem := howns.remaining
    refine ⟨h.id_lt (List.mem_append_left _ (List.mem_map_of_mem hv)), ?_⟩
    simp only [Use.region, Use.bid, cell, Region.Within, haddr,
      KernelBufferReader.remaining] at *
    omega
  · have hlt : cqe.bufferId.toNat < 1024 :=
      h.id_lt (List.mem_append_right _ (List.mem_map_of_mem hcqe))
    have hlen := (h.cqes cqe hcqe).resAsUsize_le
    refine ⟨hlt, ?_⟩
    simp only [Use.region, Use.bid, cell, Region.Within, h.slots _ hlt]
    omega
  · obtain ⟨j, hj, rfl, hbid⟩ := h.window_entry hbuf
    refine ⟨hbid.trans_lt hj, ?_⟩
    simp only [Use.region, Use.bid, cell, Region.Within, hbid]
    exact ⟨le_rfl, le_rfl⟩

theorem uses_perm (h : Custody kg mem readers cqes) :
    ((uses kg (mem.rings kg.ring) readers cqes).map Use.bid).Perm (List.range 1024) := by
  have hsubset : (uses kg (mem.rings kg.ring) readers cqes).map Use.bid ⊆ List.range 1024 := by
    intro b hb
    obtain ⟨u, hu, rfl⟩ := List.mem_map.mp hb
    exact List.mem_range.mpr (h.use_within hu).1
  refine (List.subperm_of_subset h.uses_nodup hsubset).perm_of_length_le ?_
  rw [h.uses_bid, window_length, List.length_range]

theorem uses_apart (h : Custody kg mem readers cqes) :
    ((uses kg (mem.rings kg.ring) readers cqes).map
      (Use.region (mem.rings kg.ring))).Pairwise Region.Apart :=
  Region.pairwise_apart (fun _ _ => cell_apart kg.base) (fun _ hu => (h.use_within hu).2)
    h.uses_nodup

end Custody

namespace EventLoop

/-- The buffers of one stream and its group, in whichever hands. -/
def State.uses (w : State) (i : ℕ) : List Use :=
  match w.streams[i]?, w.groups (UInt16.ofNat i) with
  | some s, some kg => UringWs.uses kg (w.mem.rings kg.ring) s.inner.bufVec.items (w.unprocessed i)
  | _, _ => []

def State.regions (w : State) (i : ℕ) : List Region :=
  match w.groups (UInt16.ofNat i) with
  | some kg => (w.uses i).map (Use.region (w.mem.rings kg.ring))
  | none => []

/-- The block that the group's buffers were carved from. -/
def State.block (w : State) (i : ℕ) : Region :=
  match w.groups (UInt16.ofNat i) with
  | some kg => ⟨kg.base, blockSize⟩
  | none => ⟨0, 0⟩

variable {w : State} {i j : ℕ} {s : TcpStream} {kg : KernelGroup}

theorem uses_eq (hs : w.streams[i]? = some s) (hg : w.groups (UInt16.ofNat i) = some kg) :
    w.uses i = UringWs.uses kg (w.mem.rings kg.ring) s.inner.bufVec.items (w.unprocessed i) := by
  simp only [State.uses, hs, hg]

theorem regions_eq (hs : w.streams[i]? = some s) (hg : w.groups (UInt16.ofNat i) = some kg) :
    w.regions i = (UringWs.uses kg (w.mem.rings kg.ring) s.inner.bufVec.items
      (w.unprocessed i)).map (Use.region (w.mem.rings kg.ring)) := by
  simp only [State.regions, hg, uses_eq hs hg]

theorem block_eq (hg : w.groups (UInt16.ofNat i) = some kg) : w.block i = ⟨kg.base, blockSize⟩ := by
  simp only [State.block, hg]

theorem cell_within {base b : ℕ} (h : b < 1024) : (cell base b).Within ⟨base, blockSize⟩ := by
  have hsize : bufSize.toNat = 1500 := rfl
  have hblock : blockSize = 1024 * 1500 := rfl
  simp only [cell, Region.Within, groupBuf, hsize, hblock]
  omega

theorem Received.blocks_apart (hw : Routed w) (h : Received w) (hi : i < w.streams.length)
    (hj : j < w.streams.length) (hij : i ≠ j) : (w.block i).Apart (w.block j) := by
  obtain ⟨kg, hg, -⟩ := h.stream hw (List.getElem?_eq_getElem hi)
  obtain ⟨kg', hg', -⟩ := h.stream hw (List.getElem?_eq_getElem hj)
  rw [block_eq hg, block_eq hg']
  exact h.blocks _ _ kg kg' hg hg'
    (hw.ofNat_ne (List.getElem?_eq_getElem hi) (List.getElem?_eq_getElem hj) hij)

theorem Received.regions_within (hw : Routed w) (h : Received w) (hi : i < w.streams.length) :
    ∀ r ∈ w.regions i, r.Within (w.block i) := by
  have hs := List.getElem?_eq_getElem hi
  obtain ⟨kg, hg, -, hcustody, -⟩ := h.stream hw hs
  rw [regions_eq hs hg, block_eq hg]
  intro r hr
  obtain ⟨u, hu, rfl⟩ := List.mem_map.mp hr
  obtain ⟨hbid, hwithin⟩ := hcustody.use_within hu
  exact hwithin.trans (cell_within hbid)

/-- What the slices that the program takes rely on. -/
structure BufferSafety (w : State) : Prop where
  /-- each of a stream's buffers is in one hand -/
  partition : ∀ i < w.streams.length, ((w.uses i).map Use.bid).Perm (List.range 1024)
  within : ∀ i < w.streams.length, ∀ r ∈ w.regions i, r.Within (w.block i)
  /-- no two buffers in use overlap, of one stream or of two -/
  apart : ((List.range w.streams.length).flatMap w.regions).Pairwise Region.Apart

/-- In every run the buffers in use lie apart. -/
theorem buffers_apart (h : eventLoop.Reach FillsOnly w) : BufferSafety w := by
  have hw := reach_routed h
  have hr := reach_received h
  refine ⟨fun i hi => ?_, fun i hi => hr.regions_within hw hi, ?_⟩
  · have hs := List.getElem?_eq_getElem hi
    obtain ⟨kg, hg, -, hcustody, -⟩ := hr.stream hw hs
    rw [uses_eq hs hg]
    exact hcustody.uses_perm
  · refine Region.pairwise_apart_flatMap w.block List.nodup_range ?_ ?_ ?_
    · exact fun i hi j hj => hr.blocks_apart hw (List.mem_range.mp hi) (List.mem_range.mp hj)
    · exact fun i hi => hr.regions_within hw (List.mem_range.mp hi)
    · intro i hi
      have hs := List.getElem?_eq_getElem (List.mem_range.mp hi)
      obtain ⟨kg, hg, -, hcustody, -⟩ := hr.stream hw hs
      rw [regions_eq hs hg]
      exact hcustody.uses_apart

/-- One stream, with the first buffer read in part and the second in the kernel's hands. -/
theorem buffers_apart_read : ∃ w : State, w.streams.length = 1 ∧ w.returned 0 = [1] ∧
    (w.uses 0).length = 1024 ∧ BufferSafety w := by
  obtain ⟨sq, slot, -, -, -, h⟩ := reach_armed (G := FillsOnly) idleSocket 1200 trivial
    (fun _ _ => trivial)
  have h₁ := reach_filled h [1, 2, 3] true (by decide) (by decide) trivial
  obtain ⟨inner, hitems, hs⟩ := step_queued h₁ (by decide) (by decide)
  have h₂ := h₁.next (a := Action.process) trivial hs
  have h₃ := reach_read_part h₂ (i := 0) [0] trivial rfl hitems (by decide) (by decide)
  have hsafe := buffers_apart h₃
  have hlen := (hsafe.partition 0 Nat.zero_lt_one).length_eq
  rw [List.length_map, List.length_range] at hlen
  exact ⟨_, rfl, by simp only [filled_unread]; rfl, hlen, hsafe⟩

end EventLoop
end UringWs
