import UringWs.Foundation.Checked
import UringWs.Foundation.ByteMemory
import Mathlib.Logic.Function.Basic
import Mathlib.Data.List.Basic
import Mathlib.Algebra.Ring.Int.Defs
import Mathlib.Algebra.Ring.Nat

/-! # Kernel interface types, process memory and faults

The records shared with the kernel follow the generated bindings; overlapping
union members are one field. An address is a natural number: no allocation
wraps around the address space. A fault is a panic of the program, or an access
whose behaviour the language leaves undefined.
-/
namespace UringWs

def maxBufferGroup : ℕ := 256
def cqEntries : UInt32 := 1024
def bufSize : UInt32 := 1500
def ringPoolSize : UInt16 := 1024

def ioringCqeFBuffer : UInt32 := 1
def ioringCqeFMore : UInt32 := 2
def ioringCqeFBufMore : UInt32 := 16
def ioringCqeBufferShift : UInt32 := 16

def ioringOpRead : UInt8 := 22
def ioringOpWrite : UInt8 := 23
def ioringOpSend : UInt8 := 26
def ioringOpRecv : UInt8 := 27
def ioringRecvMultishot : UInt16 := 2
def iosqeIoDrain : UInt8 := 2
def iosqeIoLink : UInt8 := 4
def iosqeBufferSelect : UInt8 := 32
def msgWaitall : UInt32 := 256

/-- A slot of a provided-buffer ring, without the reserved half-word. -/
structure IoUringBuf where
  addr : ℕ
  len : UInt32
  bid : UInt16
deriving DecidableEq, Repr

/-- The mapping shared with the kernel: slots by index, and the tail that
overlays the reserved half-word of slot zero. -/
structure IoUringBufRing where
  bufs : ℕ → IoUringBuf
  tail : UInt16

structure IoUringCqe where
  userData : UInt64
  res : Int32
  flags : UInt32
deriving DecidableEq, Repr

structure IoUringSqe where
  opcode : UInt8
  flags : UInt8
  ioprio : UInt16
  fd : Int32
  /-- `off`, overlaid by `addr2` -/
  off : UInt64
  addr : ℕ
  len : UInt32
  /-- `rw_flags`, overlaid by `msg_flags` -/
  opFlags : UInt32
  userData : UInt64
  /-- `buf_index`, overlaid by `buf_group` -/
  bufGroup : UInt16
  personality : UInt16
  /-- `file_index`, overlaid by `addr_len` -/
  fileIndex : UInt32
  addr3 : UInt64
  pad2 : UInt64
deriving DecidableEq, Repr, Inhabited

/-- The conversion `res as usize`, which sign-extends. -/
def resAsUsize (res : Int32) : ℕ := (res.toInt % 2 ^ 64).toNat

theorem resAsUsize_of_nonneg {res : Int32} (h : 0 ≤ res.toInt) :
    resAsUsize res = res.toInt.toNat := by
  have hlt : res.toInt < 2 ^ 31 := Int32.toInt_lt res
  rw [resAsUsize, Int.emod_eq_of_lt h (by omega)]

abbrev RingPtr := ℕ

/-- Process memory: the mapped buffer rings, the bytes of the receive buffers,
and the live heap vectors by data pointer. -/
structure Memory where
  rings : RingPtr → IoUringBufRing
  bytes : ℕ → UInt8
  vecs : ℕ → Option (List UInt8)

namespace Memory

def setRing (mem : Memory) (p : RingPtr) (br : IoUringBufRing) : Memory :=
  { mem with rings := Function.update mem.rings p br }
def alloc (mem : Memory) (ptr : ℕ) (data : List UInt8) : Memory :=
  { mem with vecs := Function.update mem.vecs ptr (some data) }
def free (mem : Memory) (ptr : ℕ) : Memory :=
  { mem with vecs := Function.update mem.vecs ptr none }
def store (mem : Memory) (addr : ℕ) (data : List UInt8) : Memory :=
  { mem with bytes := ByteMemory.store mem.bytes addr data }

@[simp] theorem setRing_self (mem : Memory) (p : RingPtr) (br : IoUringBufRing) :
    (mem.setRing p br).rings p = br := by simp [setRing]
theorem setRing_ne (mem : Memory) {p q : RingPtr} (br : IoUringBufRing) (h : q ≠ p) :
    (mem.setRing p br).rings q = mem.rings q := by simp [setRing, h]
@[simp] theorem alloc_self (mem : Memory) (ptr : ℕ) (data : List UInt8) :
    (mem.alloc ptr data).vecs ptr = some data := by simp [alloc]

end Memory

/-- What stops the program, one constructor for each assertion of the source. -/
inductive Fault
  | nullCqe
  | cqeError (errno : ℕ)
  | unhandledBufMore
  | emptyData
  | groupIndexOutOfBounds (group : ℕ)
  | nullBufRing
  | slotOutOfRange (bid : UInt16)
  | bidMismatch (expecting got : UInt16)
  | dataLenExceedsBuffer
  | kernelBufBid
  | kernelBufNotConsumed
  | ownerMismatch
  | unknownEvent (event : UInt8)
  | zeroRes
  | pendingNotFound
  | shortSend
  | recvIdMismatch
  | missingBufferFlag
  | missingKernelBuf
  | reallocated
  | noRemaining
  | claimedTooMuch
  | nothingRead (bufLen : ℕ)
  | emptyWrite
  | sqOverflow
  | waitallMultishot
  | setupBufRing
  | outOfMemory
  | noStream (streamId : UInt16)
deriving DecidableEq, Repr

/-- The panic text, where the source gives one. -/
def Fault.message : Fault → Option String
  | .unhandledBufMore => some "unhandled IORING_CQE_F_BUF_MORE"
  | .kernelBufNotConsumed => some
      "no one has consumed the kernel buffer and thus no one yield back the ownership to kernel"
  | .unknownEvent _ => some "unknown event from userdata"
  | .shortSend => some "unhandled short send"
  | .missingKernelBuf => some "already asserted that kernel buff must exist"
  | .reallocated => some "must not reallocate"
  | .nothingRead bufLen => some ("buf_len = " ++ toString bufLen)
  | .emptyWrite => some "attempt to write an empty buffer"
  | .sqOverflow => some "sq ring entries overflow"
  | .waitallMultishot => some "MSG_WAITALL cannot be set with multishot_recv"
  | .outOfMemory => some "bufs_addr: out of memory"
  | _ => none

end UringWs
