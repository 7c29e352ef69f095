import UringWs.Program.Sys
import UringWs.Foundation.RingWindow

/-! # Provided-buffer rings

A buffer ring is filled once, read by buffer id when a completion names a
buffer, and extended at its tail when a kernel buffer is dropped.
-/
namespace UringWs
open Checked RingWindow

/-- A received buffer owned by the program until it is dropped. -/
structure KernelBuffer where
  addr : ℕ
  dataLen : ℕ
  bufRing : RingPtr
  bid : UInt16
  bgid : UInt16
  bufLen : UInt32
deriving DecidableEq, Repr

def KernelBuffer.entry (kb : KernelBuffer) : IoUringBuf :=
  { addr := kb.addr, len := kb.bufLen, bid := kb.bid }

structure BufRingPool where
  bufRingPtrs : Vector (Option RingPtr) maxBufferGroup

def BufRingPool.empty : BufRingPool := ⟨Vector.replicate maxBufferGroup none⟩

def ioUringBufRingAdd (br : IoUringBufRing) (addr : ℕ) (len : UInt32) (bid : UInt16)
    (mask bufOffset : UInt32) : IoUringBufRing :=
  let tail := br.tail.toUInt32
  let idx := ((tail + bufOffset) &&& mask).toNat
  { br with bufs := Function.update br.bufs idx { addr, len, bid } }

def ioUringBufRingMask (ringEntries : UInt16) : UInt16 := ringEntries - 1

def ioUringBufRingAdvance (br : IoUringBufRing) (count : UInt16) : IoUringBufRing :=
  { br with tail := br.tail + count }

/-- Dropping a kernel buffer returns it at the tail of its ring. -/
def bufRingAddAdvance (mem : Memory) (readBuf : KernelBuffer) : Memory :=
  let br := ioUringBufRingAdd (mem.rings readBuf.bufRing) readBuf.addr readBuf.bufLen readBuf.bid
    (ioUringBufRingMask ringPoolSize).toUInt32 0
  mem.setRing readBuf.bufRing (ioUringBufRingAdvance br 1)

namespace BufRingPool

/-- The loop that adds every buffer of a new group. -/
def fillBufRing (bufRing : IoUringBufRing) (bufsAddr n : ℕ) : IoUringBufRing :=
  (List.range n).foldl (fun br i =>
    ioUringBufRingAdd br (bufsAddr + i * bufSize.toNat) bufSize (UInt16.ofNat i)
      (ioUringBufRingMask ringPoolSize).toUInt32 (UInt32.ofNat i)) bufRing

/-- `setup` and `bufsAddr` are the answers of the ring registration and of the
allocator. -/
def newBufferGroup (pool : BufRingPool) (mem : Memory) (bufferGroupId : UInt16)
    (setup : Option RingPtr) (bufsAddr : Option ℕ) : Except Fault (BufRingPool × Memory) := do
  let ptr ← unwrap setup .setupBufRing
  let bufsAddr ← unwrap bufsAddr .outOfMemory
  let bufRing := fillBufRing (mem.rings ptr) bufsAddr ringPoolSize.toNat
  let mem := mem.setRing ptr (ioUringBufRingAdvance bufRing ringPoolSize)
  if h : bufferGroupId.toNat < maxBufferGroup then
    .ok ({ bufRingPtrs := pool.bufRingPtrs.set bufferGroupId.toNat (some ptr) h }, mem)
  else .error (.groupIndexOutOfBounds bufferGroupId.toNat)

def borrowMut (pool : BufRingPool) (bufferGroupId : UInt16) : Except Fault RingPtr := do
  let ptr ← unwrap pool.bufRingPtrs[bufferGroupId.toNat]?
    (.groupIndexOutOfBounds bufferGroupId.toNat)
  unwrap ptr .nullBufRing

def getReadBuf (pool : BufRingPool) (mem : Memory) (bufferGroupId bufferId : UInt16)
    (dataLen : ℕ) : Except Fault KernelBuffer := do
  let bufRing ← pool.borrowMut bufferGroupId
  -- the slot pointer must stay inside the mapping of the ring
  ensure (bufferId.toNat < ringPoolSize.toNat) (.slotOutOfRange bufferId)
  let dataBuf := (mem.rings bufRing).bufs bufferId.toNat
  ensure (bufferId = dataBuf.bid) (.bidMismatch bufferId dataBuf.bid)
  ensure (UInt32.ofNat dataLen ≤ dataBuf.len) .dataLenExceedsBuffer
  .ok { addr := dataBuf.addr, dataLen, bufRing, bid := dataBuf.bid, bgid := bufferGroupId,
        bufLen := dataBuf.len }

theorem borrowMut_eq_ok {pool : BufRingPool} {g : UInt16} {p : RingPtr} :
    pool.borrowMut g = .ok p ↔ pool.bufRingPtrs[g.toNat]? = some (some p) := by
  simp [borrowMut]

/-- A lookup succeeds exactly when the slot at the buffer id carries that id. -/
theorem getReadBuf_eq_ok {pool : BufRingPool} {mem : Memory} {g b : UInt16} {n : ℕ}
    {kb : KernelBuffer} : pool.getReadBuf mem g b n = .ok kb ↔
      ∃ p, pool.bufRingPtrs[g.toNat]? = some (some p) ∧ b.toNat < ringPoolSize.toNat ∧
        b = ((mem.rings p).bufs b.toNat).bid ∧
        UInt32.ofNat n ≤ ((mem.rings p).bufs b.toNat).len ∧
        kb = ⟨((mem.rings p).bufs b.toNat).addr, n, p, ((mem.rings p).bufs b.toNat).bid, g,
          ((mem.rings p).bufs b.toNat).len⟩ := by
  simp only [getReadBuf, bind_eq_ok, borrowMut_eq_ok, ensure_eq_ok, exists_const,
    Except.ok.injEq, eq_comm (b := kb)]

end BufRingPool

/-! ### The slot an addition writes -/

theorem maskedSlot (tail : UInt16) {off : UInt32} (hoff : off.toNat < 1024) :
    ((tail.toUInt32 + off) &&& (ioUringBufRingMask ringPoolSize).toUInt32).toNat =
      (tail.toNat + off.toNat) % 1024 := by
  have := tail.toNat_lt
  rw [UInt32.toNat_and, show (ioUringBufRingMask ringPoolSize).toUInt32.toNat = 2 ^ 10 - 1 from rfl,
    Nat.and_two_pow_sub_one_eq_mod, UInt32.toNat_add, UInt16.toNat_toUInt32,
    Nat.mod_eq_of_lt (show tail.toNat + off.toNat < 2 ^ 32 by omega)]

@[simp] theorem ioUringBufRingAdd_tail (br : IoUringBufRing) (addr : ℕ) (len : UInt32)
    (bid : UInt16) (mask off : UInt32) : (ioUringBufRingAdd br addr len bid mask off).tail = br.tail :=
  rfl

theorem ioUringBufRingAdd_bufs (br : IoUringBufRing) (addr : ℕ) (len : UInt32) (bid : UInt16)
    (off : UInt32) (hoff : off.toNat < 1024) :
    (ioUringBufRingAdd br addr len bid (ioUringBufRingMask ringPoolSize).toUInt32 off).bufs =
      Function.update br.bufs ((br.tail.toNat + off.toNat) % 1024) ⟨addr, len, bid⟩ := by
  rw [← maskedSlot br.tail hoff]
  rfl

theorem and_bufRingMask (c : UInt16) :
    (c &&& ioUringBufRingMask ringPoolSize).toNat = c.toNat % 1024 := by
  rw [UInt16.toNat_and, show (ioUringBufRingMask ringPoolSize).toNat = 2 ^ 10 - 1 from rfl,
    Nat.and_two_pow_sub_one_eq_mod]

@[simp] theorem ioUringBufRingAdvance_bufs (br : IoUringBufRing) (count : UInt16) :
    (ioUringBufRingAdvance br count).bufs = br.bufs := rfl

/-- The ring with an entry written at its tail, and the tail moved past it. -/
def IoUringBufRing.put (br : IoUringBufRing) (buf : IoUringBuf) : IoUringBufRing :=
  { bufs := Function.update br.bufs (br.tail.toNat % 1024) buf, tail := br.tail + 1 }

@[simp] theorem IoUringBufRing.put_tail (br : IoUringBufRing) (buf : IoUringBuf) :
    (br.put buf).tail = br.tail + 1 := rfl

@[simp] theorem IoUringBufRing.put_bufs (br : IoUringBufRing) (buf : IoUringBuf) :
    (br.put buf).bufs = Function.update br.bufs (br.tail.toNat % 1024) buf := rfl

theorem bufRingAddAdvance_ring (mem : Memory) (kb : KernelBuffer) :
    (bufRingAddAdvance mem kb).rings kb.bufRing =
      (mem.rings kb.bufRing).put kb.entry := by
  have h := ioUringBufRingAdd_bufs (mem.rings kb.bufRing) kb.addr kb.bufLen kb.bid 0
    (by decide)
  rw [show (0 : UInt32).toNat = 0 from rfl, Nat.add_zero] at h
  simp only [bufRingAddAdvance, Memory.setRing_self, ioUringBufRingAdvance, h,
    ioUringBufRingAdd_tail, IoUringBufRing.put, KernelBuffer.entry]

theorem bufRingAddAdvance_of_eq (mem : Memory) {kb : KernelBuffer} {p : RingPtr}
    (h : kb.bufRing = p) : (bufRingAddAdvance mem kb).rings p = (mem.rings p).put kb.entry := by
  subst h
  exact bufRingAddAdvance_ring mem kb

theorem bufRingAddAdvance_ne (mem : Memory) (kb : KernelBuffer) {p : RingPtr}
    (h : p ≠ kb.bufRing) : (bufRingAddAdvance mem kb).rings p = mem.rings p :=
  mem.setRing_ne _ h

@[simp] theorem bufRingAddAdvance_bytes (mem : Memory) (kb : KernelBuffer) :
    (bufRingAddAdvance mem kb).bytes = mem.bytes := rfl

/-! ### A freshly filled ring -/

/-- The buffer with id j of the group whose block starts at an address. -/
def groupBuf (bufsAddr j : ℕ) : IoUringBuf :=
  { addr := bufsAddr + j * bufSize.toNat, len := bufSize, bid := UInt16.ofNat j }

theorem groupBuf_bid {bufsAddr j : ℕ} (hj : j < 1024) : (groupBuf bufsAddr j).bid.toNat = j :=
  UInt16.toNat_ofNat_of_lt' (show j < 65536 by omega)

namespace BufRingPool

@[simp] theorem fillBufRing_tail (br : IoUringBufRing) (bufsAddr n : ℕ) :
    (fillBufRing br bufsAddr n).tail = br.tail := by
  induction n with
  | zero => rfl
  | succ n ih => simpa [fillBufRing, List.range_succ] using ih

theorem fillBufRing_bufs {br : IoUringBufRing} (ht : br.tail = 0) (bufsAddr : ℕ) {n : ℕ}
    (hn : n ≤ 1024) (j : ℕ) : (fillBufRing br bufsAddr n).bufs j =
      if j < n then groupBuf bufsAddr j else br.bufs j := by
  induction n with
  | zero => simp [fillBufRing]
  | succ n ih =>
    have hoff : (UInt32.ofNat n).toNat = n := UInt32.toNat_ofNat_of_lt' (show n < 4294967296 by omega)
    have hstep : (fillBufRing br bufsAddr (n + 1)).bufs =
        Function.update (fillBufRing br bufsAddr n).bufs n (groupBuf bufsAddr n) := by
      have h := ioUringBufRingAdd_bufs (fillBufRing br bufsAddr n)
        (bufsAddr + n * bufSize.toNat) bufSize (UInt16.ofNat n) (UInt32.ofNat n)
        (by omega)
      rw [fillBufRing_tail, ht, hoff, show (0 : UInt16).toNat = 0 from rfl, Nat.zero_add,
        Nat.mod_eq_of_lt (by omega)] at h
      rw [show fillBufRing br bufsAddr (n + 1) = ioUringBufRingAdd (fillBufRing br bufsAddr n)
        (bufsAddr + n * bufSize.toNat) bufSize (UInt16.ofNat n)
        (ioUringBufRingMask ringPoolSize).toUInt32 (UInt32.ofNat n) by
          simp [fillBufRing, List.range_succ], h]
      rfl
    rw [hstep, Function.update_apply]
    have ih := ih (by omega)
    rcases Nat.lt_trichotomy j n with h | h | h
    · rw [if_neg (by omega), ih, if_pos h, if_pos (by omega)]
    · rw [if_pos h, if_pos (by omega), h]
    · rw [if_neg (by omega), ih, if_neg (by omega), if_neg (by omega)]

def filledRing (br : IoUringBufRing) (bufsAddr : ℕ) : IoUringBufRing :=
  ioUringBufRingAdvance (fillBufRing br bufsAddr ringPoolSize.toNat) ringPoolSize

theorem filledRing_tail {br : IoUringBufRing} (ht : br.tail = 0) (bufsAddr : ℕ) :
    (filledRing br bufsAddr).tail = 1024 := by
  rw [filledRing, ioUringBufRingAdvance, fillBufRing_tail, ht]
  rfl

theorem filledRing_bufs {br : IoUringBufRing} (ht : br.tail = 0) (bufsAddr : ℕ) {j : ℕ}
    (hj : j < 1024) : (filledRing br bufsAddr).bufs j = groupBuf bufsAddr j := by
  have hsize : ringPoolSize.toNat = 1024 := rfl
  rw [filledRing, ioUringBufRingAdvance_bufs, hsize, fillBufRing_bufs ht bufsAddr le_rfl, if_pos hj]

theorem newBufferGroup_eq_ok {pool pool' : BufRingPool} {mem mem' : Memory} {g : UInt16}
    {p : RingPtr} {base : ℕ} :
    pool.newBufferGroup mem g (some p) (some base) = .ok (pool', mem') ↔
      ∃ h : g.toNat < maxBufferGroup,
        pool' = { bufRingPtrs := pool.bufRingPtrs.set g.toNat (some p) h } ∧
        mem' = mem.setRing p (filledRing (mem.rings p) base) := by
  simp only [newBufferGroup, unwrap_some, ok_bind, filledRing]
  split
  · simp [*, eq_comm]
  · simp [*]

end BufRingPool
end UringWs
