import UringWs.Foundation.ByteWord
import UringWs.Program.BufRing
import Mathlib.Data.List.Induction

/-! # The buffer ring as raw memory

The mapping is an array of 16-byte slots, each an address, a length, a buffer id
and a reserved half-word. The tail overlays the reserved half-word of slot zero.
-/
namespace UringWs
open ByteMemory

/-- The bytes of the mapping, by offset. -/
abbrev RawBufRing := ℕ → UInt8

namespace RawBufRing

def tail (br : RawBufRing) : UInt16 := UInt16.ofNat (loadWord br 14 2)

def buf (br : RawBufRing) (i : ℕ) : IoUringBuf :=
  { addr := loadWord br (16 * i) 8
    len := UInt32.ofNat (loadWord br (16 * i + 8) 4)
    bid := UInt16.ofNat (loadWord br (16 * i + 12) 2) }

/-- The ring that the memory stands for. -/
def toRing (br : RawBufRing) : IoUringBufRing := { bufs := br.buf, tail := br.tail }

/-- The slot an addition writes. -/
def slot (br : RawBufRing) (mask bufOffset : UInt32) : ℕ :=
  ((br.tail.toUInt32 + bufOffset) &&& mask).toNat

/-- The stores to the fields of one slot. -/
def setBuf (br : RawBufRing) (idx : ℕ) (addr : UInt64) (len : UInt32) (bid : UInt16) : RawBufRing :=
  let br := storeWord br (16 * idx) 8 addr.toNat
  let br := storeWord br (16 * idx + 8) 4 len.toNat
  storeWord br (16 * idx + 12) 2 bid.toNat

def ioUringBufRingAdd (br : RawBufRing) (addr : UInt64) (len : UInt32) (bid : UInt16)
    (mask bufOffset : UInt32) : RawBufRing :=
  br.setBuf (br.slot mask bufOffset) addr len bid

def ioUringBufRingAdvance (br : RawBufRing) (count : UInt16) : RawBufRing :=
  storeWord br 14 2 (br.tail + count).toNat

/-- A buffer as it is handed to the ring. -/
structure Buf where
  addr : UInt64
  len : UInt32
  bid : UInt16

/-- Additions at growing offsets, then one advance over all of them. -/
def addAll (br : RawBufRing) (mask : UInt32) (bufs : List Buf) : RawBufRing :=
  bufs.zipIdx.foldl (fun br b =>
    br.ioUringBufRingAdd b.1.addr b.1.len b.1.bid mask (UInt32.ofNat b.2)) br

def fillAtOnce (br : RawBufRing) (mask : UInt32) (bufs : List Buf) : RawBufRing :=
  (br.addAll mask bufs).ioUringBufRingAdvance (UInt16.ofNat bufs.length)

/-- For each buffer an addition at the tail and an advance. -/
def fillOneByOne (br : RawBufRing) (mask : UInt32) (bufs : List Buf) : RawBufRing :=
  bufs.foldl (fun br b =>
    (br.ioUringBufRingAdd b.addr b.len b.bid mask 0).ioUringBufRingAdvance 1) br

variable {br : RawBufRing} {idx : ℕ} {addr : UInt64} {len : UInt32} {bid : UInt16}

/-! ### The fields of a slot -/

theorem setBuf_outside {a : ℕ} (h : ¬ (16 * idx ≤ a ∧ a < 16 * idx + 14)) :
    br.setBuf idx addr len bid a = br a := by
  rw [setBuf, storeWord_outside (by omega), storeWord_outside (by omega),
    storeWord_outside (by omega)]

@[simp] theorem setBuf_tail : (br.setBuf idx addr len bid).tail = br.tail := by
  simp (disch := omega) only [tail, setBuf, loadWord_storeWord_disjoint]

theorem setBuf_self : (br.setBuf idx addr len bid).buf idx = ⟨addr.toNat, len, bid⟩ := by
  have haddr : addr.toNat < 256 ^ 8 := addr.toNat_lt
  have hlen : len.toNat < 256 ^ 4 := len.toNat_lt
  have hbid : bid.toNat < 256 ^ 2 := bid.toNat_lt
  simp (disch := omega) only [buf, setBuf, loadWord_storeWord_disjoint, loadWord_storeWord haddr,
    loadWord_storeWord hlen, loadWord_storeWord hbid, UInt32.ofNat_toNat, UInt16.ofNat_toNat]

theorem setBuf_ne {i : ℕ} (h : i ≠ idx) : (br.setBuf idx addr len bid).buf i = br.buf i := by
  simp (disch := omega) only [buf, setBuf, loadWord_storeWord_disjoint]

/-- Writing a slot's fields commutes with writing the tail. -/
theorem setBuf_storeTail (n : ℕ) :
    setBuf (storeWord br 14 2 n) idx addr len bid = storeWord (br.setBuf idx addr len bid) 14 2 n := by
  simp only [setBuf]
  rw [storeWord_comm (show 14 + 2 ≤ 16 * idx ∨ 16 * idx + 8 ≤ 14 by omega),
    storeWord_comm (show 14 + 2 ≤ 16 * idx + 8 ∨ 16 * idx + 8 + 4 ≤ 14 by omega),
    storeWord_comm (show 14 + 2 ≤ 16 * idx + 12 ∨ 16 * idx + 12 + 2 ≤ 14 by omega)]

/-! ### The abstract ring -/

/-- Adding to the memory adds to the ring it stands for. -/
theorem toRing_add (br : RawBufRing) (addr : UInt64) (len : UInt32) (bid : UInt16)
    (mask off : UInt32) : (br.ioUringBufRingAdd addr len bid mask off).toRing =
      UringWs.ioUringBufRingAdd br.toRing addr.toNat len bid mask off := by
  have hbufs : (br.ioUringBufRingAdd addr len bid mask off).buf =
      Function.update br.buf (br.slot mask off) ⟨addr.toNat, len, bid⟩ := by
    funext i
    by_cases hi : i = br.slot mask off
    · subst hi
      rw [Function.update_self]
      exact setBuf_self
    · rw [Function.update_of_ne hi]
      exact setBuf_ne hi
  rw [toRing, hbufs, ioUringBufRingAdd, setBuf_tail]
  rfl

theorem tail_storeTail (n : UInt16) : tail (storeWord br 14 2 n.toNat) = n := by
  have hn : n.toNat < 256 ^ 2 := n.toNat_lt
  rw [tail, loadWord_storeWord hn, UInt16.ofNat_toNat]

@[simp] theorem advance_tail (br : RawBufRing) (count : UInt16) :
    (br.ioUringBufRingAdvance count).tail = br.tail + count := tail_storeTail _

theorem toRing_advance (br : RawBufRing) (count : UInt16) :
    (br.ioUringBufRingAdvance count).toRing =
      UringWs.ioUringBufRingAdvance br.toRing count := by
  have hbufs : (br.ioUringBufRingAdvance count).buf = br.buf := by
    funext i
    simp (disch := omega) only [buf, ioUringBufRingAdvance, loadWord_storeWord_disjoint]
  rw [toRing, hbufs, advance_tail]
  rfl

theorem advance_outside {a : ℕ} {count : UInt16} (h : ¬ (14 ≤ a ∧ a < 16)) :
    br.ioUringBufRingAdvance count a = br a := storeWord_outside h

theorem advance_advance (br : RawBufRing) (count count' : UInt16) :
    (br.ioUringBufRingAdvance count).ioUringBufRingAdvance count' =
      br.ioUringBufRingAdvance (count + count') := by
  rw [ioUringBufRingAdvance, advance_tail, ioUringBufRingAdvance, storeWord_overwrite,
    UInt16.add_assoc]
  rfl

theorem advance_zero (br : RawBufRing) : br.ioUringBufRingAdvance 0 = br := by
  have ht : br.tail.toNat = loadWord br 14 2 :=
    UInt16.toNat_ofNat_of_lt' (show loadWord br 14 2 < 256 ^ 2 from loadWord_lt)
  rw [ioUringBufRingAdvance, UInt16.add_zero, ht, storeWord_loadWord]

/-! ### Filling at once and one by one -/

/-- A ring size: a power of two up to 2^15. -/
def RingSize (entries : UInt16) : Prop := ∃ k ≤ 15, entries.toNat = 2 ^ k

variable {entries : UInt16}

theorem RingSize.dvd (h : RingSize entries) : entries.toNat ∣ 2 ^ 16 := by
  obtain ⟨k, hk, he⟩ := h
  rw [he]
  exact Nat.pow_dvd_pow 2 (by omega)

theorem RingSize.le (h : RingSize entries) : entries.toNat ≤ 2 ^ 15 := by
  obtain ⟨k, hk, he⟩ := h
  rw [he]
  exact Nat.pow_le_pow_right (by decide) hk

theorem RingSize.pos (h : RingSize entries) : 0 < entries.toNat := by
  obtain ⟨k, -, he⟩ := h
  rw [he]
  exact Nat.two_pow_pos k

theorem RingSize.and_mask (h : RingSize entries) (c : UInt32) :
    (c &&& (ioUringBufRingMask entries).toUInt32).toNat = c.toNat % entries.toNat := by
  have h1 : (1 : UInt16) ≤ entries := UInt16.le_iff_toNat_le.mpr h.pos
  obtain ⟨k, hk, he⟩ := h
  rw [UInt32.toNat_and, UInt16.toNat_toUInt32, ioUringBufRingMask, UInt16.toNat_sub_of_le _ _ h1, he,
    show (1 : UInt16).toNat = 1 from rfl, Nat.and_two_pow_sub_one_eq_mod]

theorem slot_lt (h : RingSize entries) (br : RawBufRing) (off : UInt32) :
    br.slot (ioUringBufRingMask entries).toUInt32 off < entries.toNat := by
  rw [slot, h.and_mask]
  exact Nat.mod_lt _ h.pos

/-- Past an advance, offset zero names the slot that the count named before. -/
theorem slot_advance (h : RingSize entries) (br : RawBufRing) (count : UInt16) :
    (br.ioUringBufRingAdvance count).slot (ioUringBufRingMask entries).toUInt32 0 =
      br.slot (ioUringBufRingMask entries).toUInt32 count.toUInt32 := by
  have ht := br.tail.toNat_lt
  have hc := count.toNat_lt
  rw [slot, slot, h.and_mask, h.and_mask, advance_tail, UInt32.add_zero, UInt16.toNat_toUInt32,
    UInt16.toNat_add, UInt32.toNat_add, UInt16.toNat_toUInt32, UInt16.toNat_toUInt32,
    Nat.mod_eq_of_lt (show br.tail.toNat + count.toNat < 2 ^ 32 by omega),
    RingWindow.wrapped_slot h.dvd]

theorem add_advance (h : RingSize entries) (br : RawBufRing) (b : Buf) (count : UInt16) :
    (br.ioUringBufRingAdvance count).ioUringBufRingAdd b.addr b.len b.bid
        (ioUringBufRingMask entries).toUInt32 0 =
      (br.ioUringBufRingAdd b.addr b.len b.bid (ioUringBufRingMask entries).toUInt32
        count.toUInt32).ioUringBufRingAdvance count := by
  rw [ioUringBufRingAdd, slot_advance h, ioUringBufRingAdvance, setBuf_storeTail,
    ioUringBufRingAdvance, ioUringBufRingAdd, setBuf_tail]

theorem addAll_concat (br : RawBufRing) (mask : UInt32) (bufs : List Buf) (b : Buf) :
    br.addAll mask (bufs ++ [b]) =
      (br.addAll mask bufs).ioUringBufRingAdd b.addr b.len b.bid mask
        (UInt32.ofNat bufs.length) := by
  simp [addAll, List.zipIdx_append]

/-- Adding buffers at growing offsets and advancing once over them leaves the memory
that adding and advancing one by one leaves. -/
theorem fillAtOnce_eq (h : RingSize entries) (br : RawBufRing) {bufs : List Buf}
    (hn : bufs.length ≤ entries.toNat) :
    br.fillAtOnce (ioUringBufRingMask entries).toUInt32 bufs =
      br.fillOneByOne (ioUringBufRingMask entries).toUInt32 bufs := by
  have hle := h.le
  induction bufs using List.reverseRecOn with
  | nil => exact advance_zero br
  | append_singleton bufs b ih =>
    rw [List.length_append, List.length_singleton] at hn
    have hoff : UInt32.ofNat bufs.length = (UInt16.ofNat bufs.length).toUInt32 := by
      apply UInt32.toNat_inj.mp
      rw [UInt16.toNat_toUInt32, UInt32.toNat_ofNat_of_lt' (show bufs.length < 4294967296 by omega),
        UInt16.toNat_ofNat_of_lt' (show bufs.length < 65536 by omega)]
    have hone : br.fillOneByOne (ioUringBufRingMask entries).toUInt32 (bufs ++ [b]) =
        ((br.fillOneByOne (ioUringBufRingMask entries).toUInt32 bufs).ioUringBufRingAdd b.addr b.len
          b.bid (ioUringBufRingMask entries).toUInt32 0).ioUringBufRingAdvance 1 := by
      simp [fillOneByOne]
    rw [hone, ← ih (by omega), fillAtOnce, fillAtOnce, add_advance h, advance_advance, addAll_concat,
      hoff, List.length_append, List.length_singleton, UInt16.ofNat_add]
    rfl

/-- What the two operations do to the bytes of a ring of so many slots. -/
structure Overlay (entries : UInt16) : Prop where
  /-- an addition names a slot of the ring, writes its address, length and id, and no other byte -/
  add_slot : ∀ (br : RawBufRing) off, br.slot (ioUringBufRingMask entries).toUInt32 off < entries.toNat
  add_outside : ∀ (br : RawBufRing) addr len bid off a,
    ¬ (16 * br.slot (ioUringBufRingMask entries).toUInt32 off ≤ a ∧
      a < 16 * br.slot (ioUringBufRingMask entries).toUInt32 off + 14) →
    br.ioUringBufRingAdd addr len bid (ioUringBufRingMask entries).toUInt32 off a = br a
  add_tail : ∀ (br : RawBufRing) addr len bid off,
    (br.ioUringBufRingAdd addr len bid (ioUringBufRingMask entries).toUInt32 off).tail = br.tail
  add_ring : ∀ (br : RawBufRing) addr len bid off,
    (br.ioUringBufRingAdd addr len bid (ioUringBufRingMask entries).toUInt32 off).toRing =
      UringWs.ioUringBufRingAdd br.toRing addr.toNat len bid
        (ioUringBufRingMask entries).toUInt32 off
  /-- an advance writes the tail, and no other byte -/
  advance_outside : ∀ (br : RawBufRing) count a, ¬ (14 ≤ a ∧ a < 16) →
    br.ioUringBufRingAdvance count a = br a
  advance_tail : ∀ (br : RawBufRing) count,
    (br.ioUringBufRingAdvance count).tail = br.tail + count
  advance_ring : ∀ (br : RawBufRing) count,
    (br.ioUringBufRingAdvance count).toRing = UringWs.ioUringBufRingAdvance br.toRing count
  fill : ∀ (br : RawBufRing) bufs, bufs.length ≤ entries.toNat →
    br.fillAtOnce (ioUringBufRingMask entries).toUInt32 bufs =
      br.fillOneByOne (ioUringBufRingMask entries).toUInt32 bufs

/-- The memory implements the abstract ring, whatever it holds. -/
theorem overlay_ring (h : RingSize entries) : Overlay entries where
  add_slot := slot_lt h
  add_outside _ _ _ _ _ _ ha := setBuf_outside ha
  add_tail _ _ _ _ _ := setBuf_tail
  add_ring br addr len bid off := toRing_add br addr len bid _ off
  advance_outside _ _ _ ha := advance_outside ha
  advance_tail := advance_tail
  advance_ring := toRing_advance
  fill br _ hn := fillAtOnce_eq h br hn

theorem overlay_ring_poolSize : Overlay ringPoolSize := overlay_ring ⟨10, by decide, rfl⟩

/-! ### The ring of the program -/

/-- Dropping a kernel buffer puts it into the ring that the memory stands for. -/
theorem toRing_dropped (mem : Memory) (kb : KernelBuffer) {addr : UInt64}
    (hring : mem.rings kb.bufRing = br.toRing) (haddr : kb.addr = addr.toNat) :
    (bufRingAddAdvance mem kb).rings kb.bufRing =
      ((br.ioUringBufRingAdd addr kb.bufLen kb.bid (ioUringBufRingMask ringPoolSize).toUInt32
        0).ioUringBufRingAdvance 1).toRing := by
  rw [toRing_advance, toRing_add, bufRingAddAdvance, Memory.setRing_self, hring, haddr]

/-- The first buffers of a group whose block starts at an address. -/
def groupBufs (base : UInt64) (n : ℕ) : List Buf :=
  (List.range n).map fun i => ⟨base + UInt64.ofNat (i * bufSize.toNat), bufSize, UInt16.ofNat i⟩

theorem toRing_addAll {base : UInt64} {n : ℕ} (hn : n ≤ 1024)
    (hbase : base.toNat + 1024 * bufSize.toNat ≤ 2 ^ 64) :
    (br.addAll (ioUringBufRingMask ringPoolSize).toUInt32 (groupBufs base n)).toRing =
      BufRingPool.fillBufRing br.toRing base.toNat n := by
  induction n with
  | zero => rfl
  | succ n ih =>
    have hblock : n * bufSize.toNat < 1024 * bufSize.toNat :=
      Nat.mul_lt_mul_of_pos_right (by omega) (by decide)
    have hoff : (UInt64.ofNat (n * bufSize.toNat)).toNat = n * bufSize.toNat :=
      UInt64.toNat_ofNat_of_lt' (show n * bufSize.toNat < 18446744073709551616 by omega)
    have haddr : (base + UInt64.ofNat (n * bufSize.toNat)).toNat =
        base.toNat + n * bufSize.toNat := by
      rw [UInt64.toNat_add, hoff, Nat.mod_eq_of_lt (by omega)]
    have hbufs : groupBufs base (n + 1) = groupBufs base n ++
        [⟨base + UInt64.ofNat (n * bufSize.toNat), bufSize, UInt16.ofNat n⟩] := by
      simp [groupBufs, List.range_succ]
    have hlen : (groupBufs base n).length = n := by simp [groupBufs]
    rw [hbufs, addAll_concat, toRing_add, ih (by omega), haddr, hlen]
    simp [BufRingPool.fillBufRing, List.range_succ]

/-- A new group's loop fills the ring that the memory stands for. -/
theorem toRing_newBufferGroup {base : UInt64}
    (hbase : base.toNat + 1024 * bufSize.toNat ≤ 2 ^ 64) :
    (br.fillAtOnce (ioUringBufRingMask ringPoolSize).toUInt32
      (groupBufs base ringPoolSize.toNat)).toRing =
      BufRingPool.filledRing br.toRing base.toNat := by
  have hlen : UInt16.ofNat (groupBufs base ringPoolSize.toNat).length = ringPoolSize := by
    simp [groupBufs]
  rw [fillAtOnce, toRing_advance, toRing_addAll (by decide) hbase, hlen, BufRingPool.filledRing]

end RawBufRing
end UringWs
