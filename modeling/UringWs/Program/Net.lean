import UringWs.Program.Cqe
import UringWs.Program.ReadBuf
import UringWs.Program.Ring
import Mathlib.Data.Finmap

/-! # The stream

A stream in nonblocking mode reads from the kernel buffers its completions
queued, and writes by preparing a send whose bytes it keeps until the send's
completion. In blocking mode both calls go to the raw socket.
-/
namespace UringWs
open Checked

inductive IoError
  | wouldBlock
  | os (code : ℕ)
deriving DecidableEq, Repr

/-- The standard library's stream: its descriptor and its answers to a blocking
read of at most so many bytes and to a blocking write. -/
structure RawTcpStream where
  fd : Int32
  read : ℕ → Except IoError (List UInt8)
  write : List UInt8 → Except IoError ℕ

/-- An owned heap vector: its data pointer and its bytes. -/
structure ByteVec where
  ptr : ℕ
  bytes : List UInt8
deriving DecidableEq, Repr

abbrev PendingSent := Finmap fun _ : UserData => ByteVec

structure TcpStream where
  inner : KernelBufferVecReader
  ownerId : UInt16
  multishortRecvId : UInt32
  sendId : UInt32
  pendingSent : PendingSent
  raw : RawTcpStream
  nonblocking : Bool

namespace TcpStream

def newFromStd (raw : RawTcpStream) (ownerId : UInt16) (recvId : UInt32) : TcpStream :=
  { inner := .new ringPoolSize.toNat, ownerId, multishortRecvId := recvId, sendId := 1000,
    pendingSent := ∅, nonblocking := false, raw }

def asRawFd (s : TcpStream) : Int32 := s.raw.fd

def setNonblocking (s : TcpStream) (v : Bool) : TcpStream := { s with nonblocking := v }

def nextSendId (s : TcpStream) : UInt32 × TcpStream :=
  (s.sendId, { s with sendId := s.sendId + 1 })

def onSend (s : TcpStream) (mem : Memory) (completion : Completion) :
    Except Fault (TcpStream × Memory) := do
  ensure (completion.cqe.res ≠ 0) .zeroRes
  let pending ← unwrap (s.pendingSent.lookup completion.userData) .pendingNotFound
  ensure (pending.bytes.length = resAsUsize completion.cqe.res) .shortSend
  completion.drop
  .ok ({ s with pendingSent := s.pendingSent.erase completion.userData }, mem.free pending.ptr)

def onMultishortRecv (s : TcpStream) (mem : Memory) (completion : Completion) :
    Except Fault (TcpStream × Memory) := do
  ensure (completion.userData.req = s.multishortRecvId) .recvIdMismatch
  ensure (completion.userData.req = s.multishortRecvId) .recvIdMismatch
  ensure (completion.cqe.res ≠ 0) .zeroRes
  ensure completion.cqe.hasBuffer .missingBufferFlag
  let readBuf ← unwrap completion.kernelBuf .missingKernelBuf
  let inner ← s.inner.push readBuf
  { completion with kernelBuf := none }.drop
  .ok ({ s with inner }, mem)

def onCompletion (s : TcpStream) (mem : Memory) (completion : Completion) :
    Except Fault (TcpStream × Memory) := do
  ensure (completion.userData.owner = s.ownerId) .ownerMismatch
  match ← Event.fromU8 completion.userData.event with
  | .send => s.onSend mem completion
  | .multishortRecv => s.onMultishortRecv mem completion

/-- Returns the result, the destination, the stream and the memory. -/
def read (s : TcpStream) (mem : Memory) (dest : List UInt8) :
    Except Fault (Except IoError ℕ × List UInt8 × TcpStream × Memory) :=
  if s.nonblocking = false then
    match s.raw.read dest.length with
    | .ok bytes => .ok (.ok bytes.length, bytes ++ dest.drop bytes.length, s, mem)
    | .error e => .ok (.error e, dest, s, mem)
  else do
    let (len, dest, inner, mem) ← s.inner.read mem dest
    if len = 0 then .ok (.error .wouldBlock, dest, { s with inner }, mem)
    else .ok (.ok len, dest, { s with inner }, mem)

/-- `ptr` is the data pointer the allocator gives to the copy of the buffer. -/
def write (s : TcpStream) (mem : Memory) (sq : IoUringSq) (ptr : ℕ) (buf : List UInt8) :
    Except Fault (Except IoError ℕ × TcpStream × Memory × IoUringSq) :=
  if s.nonblocking = false then .ok (s.raw.write buf, s, mem, sq)
  else do
    ensure (0 < buf.length) .emptyWrite
    let copied : ByteVec := { ptr, bytes := buf }
    let mem := mem.alloc copied.ptr copied.bytes
    let dataLen := copied.bytes.length
    let flags : UInt32 := 0 ||| msgWaitall
    let (sqe, sq) ← prepSend sq s.asRawFd copied.ptr dataLen flags
    let (req, s) := s.nextSendId
    let userData := UserData.fromParts Event.send.toU8 s.ownerId req
    let sq := sq.modifySqe sqe (ioUringSqeSetData userData.asU64)
    -- the vector a replaced entry held is dropped
    let mem := match s.pendingSent.lookup userData with
      | some old => mem.free old.ptr
      | none => mem
    .ok (.ok dataLen, { s with pendingSent := s.pendingSent.insert userData copied }, mem, sq)

def sendKey (s : TcpStream) : UserData := .fromParts Event.send.toU8 s.ownerId s.sendId

/-- The entry a write leaves in a slot. -/
def sendSqe (fd : Int32) (userData : UserData) (copied : ByteVec) (slot : IoUringSqe) :
    IoUringSqe :=
  ioUringSqeSetData userData.asU64
    (Op.send fd copied.ptr (UInt32.ofNat copied.bytes.length) msgWaitall
      (ioUringInitializeSqe slot))

def written (s : TcpStream) (ptr : ℕ) (buf : List UInt8) : TcpStream :=
  { s with sendId := s.sendId + 1, pendingSent := s.pendingSent.insert s.sendKey ⟨ptr, buf⟩ }

def writtenMem (s : TcpStream) (mem : Memory) (ptr : ℕ) (buf : List UInt8) : Memory :=
  match s.pendingSent.lookup s.sendKey with
  | some old => (mem.alloc ptr buf).free old.ptr
  | none => mem.alloc ptr buf

theorem writtenMem_of_fresh {s : TcpStream} (h : s.pendingSent.lookup s.sendKey = none)
    (mem : Memory) (ptr : ℕ) (buf : List UInt8) :
    s.writtenMem mem ptr buf = mem.alloc ptr buf := by
  rw [writtenMem, h]

@[simp] theorem writtenMem_rings (s : TcpStream) (mem : Memory) (ptr : ℕ) (buf : List UInt8) :
    (s.writtenMem mem ptr buf).rings = mem.rings := by unfold writtenMem; split <;> rfl

@[simp] theorem writtenMem_bytes (s : TcpStream) (mem : Memory) (ptr : ℕ) (buf : List UInt8) :
    (s.writtenMem mem ptr buf).bytes = mem.bytes := by unfold writtenMem; split <;> rfl

/-- A successful nonblocking write accepts the whole buffer, enqueues its send
and records the bytes under the send's word. -/
theorem write_spec {s s' : TcpStream} {mem mem' : Memory} {sq sq' : IoUringSq} {ptr : ℕ}
    {buf : List UInt8} {r : Except IoError ℕ} (hn : s.nonblocking = true) (hwf : sq.Wf)
    (h : s.write mem sq ptr buf = .ok (r, s', mem', sq')) :
    r = .ok buf.length ∧ 0 < buf.length ∧ s' = s.written ptr buf ∧
      mem' = s.writtenMem mem ptr buf ∧ sq'.Wf ∧ sq'.ringEntries = sq.ringEntries ∧
      ∃ slot, sq'.queue = sq.queue ++ [sendSqe s.asRawFd s.sendKey ⟨ptr, buf⟩ slot] := by
  rw [write, if_neg (by simp [hn])] at h
  simp only [bind_eq_ok, ensure_eq_ok, exists_const, prepSend, Prod.exists, Except.ok.injEq,
    Prod.mk.injEq, nextSendId] at h
  obtain ⟨hpos, idx, sq₂, ⟨idx', sq₁, hg, rfl, rfl⟩, rfl, rfl, rfl, rfl⟩ := h
  have hmod : (sq₁.modifySqe idx' (Op.send s.asRawFd ptr (UInt32.ofNat buf.length)
        (0 ||| msgWaitall))).modifySqe idx' (ioUringSqeSetData s.sendKey.asU64) =
      sq₁.modifySqe idx' (fun sqe => ioUringSqeSetData s.sendKey.asU64
        (Op.send s.asRawFd ptr (UInt32.ofNat buf.length) msgWaitall sqe)) := by
    simp [IoUringSq.modifySqe]
  have hp := IoUringSq.prepare_spec hwf hg (fun sqe => ioUringSqeSetData s.sendKey.asU64
    (Op.send s.asRawFd ptr (UInt32.ofNat buf.length) msgWaitall sqe))
  rw [← hmod] at hp
  exact ⟨rfl, hpos, rfl, rfl, hp.1, hp.2.2.2, _, hp.2.2.1⟩

theorem write_isOk {s : TcpStream} (mem : Memory) {sq : IoUringSq} (ptr : ℕ) {buf : List UInt8}
    (hn : s.nonblocking = true) (hwf : sq.Wf) (hroom : sq.count < sq.ringEntries.toNat)
    (hpos : 0 < buf.length) :
    ∃ sq', s.write mem sq ptr buf =
      .ok (.ok buf.length, s.written ptr buf, s.writtenMem mem ptr buf, sq') := by
  rw [write, if_neg (by simp [hn])]
  simp only [ensure_of, hpos, ok_bind, prepSend, getSqeUnwrap, IoUringSq.getSqe_room hwf hroom]
  exact ⟨_, rfl⟩

/-- A nonblocking read is a read of the queued buffers, and would block exactly
when they return nothing. -/
theorem read_eq_ok {s s' : TcpStream} {mem mem' : Memory} {dest dest' : List UInt8}
    {r : Except IoError ℕ} (hn : s.nonblocking = true) :
    s.read mem dest = .ok (r, dest', s', mem') ↔
      ∃ n inner, s.inner.read mem dest = .ok (n, dest', inner, mem') ∧ s' = { s with inner } ∧
        r = if n = 0 then .error .wouldBlock else .ok n := by
  rw [read, if_neg (by simp [hn])]
  constructor
  · intro h
    obtain ⟨⟨n, d, inner, m⟩, hr, h⟩ := bind_eq_ok.mp h
    by_cases h0 : n = 0
    · simp only [if_pos h0, Except.ok.injEq, Prod.mk.injEq] at h
      obtain ⟨rfl, rfl, rfl, rfl⟩ := h
      exact ⟨n, inner, hr, rfl, (if_pos h0).symm⟩
    · simp only [if_neg h0, Except.ok.injEq, Prod.mk.injEq] at h
      obtain ⟨rfl, rfl, rfl, rfl⟩ := h
      exact ⟨n, inner, hr, rfl, (if_neg h0).symm⟩
  · rintro ⟨n, inner, hr, rfl, rfl⟩
    rw [hr, ok_bind]
    by_cases h0 : n = 0 <;> simp [h0]

section Read
variable {s : TcpStream} {v : KernelBufferReader} {vs : List KernelBufferReader}
  {dest : List UInt8} (hn : s.nonblocking = true)
include hn

theorem read_nil (h : s.inner.bufVec.items = []) (mem : Memory) (dest : List UInt8) :
    s.read mem dest = .ok (.error .wouldBlock, dest, s, mem) :=
  (read_eq_ok hn).mpr ⟨_, _, KernelBufferVecReader.read_nil h mem dest, rfl, rfl⟩

theorem read_part (h : s.inner.bufVec.items = v :: vs) (mem : Memory) (hpos : 0 < dest.length)
    (hlt : dest.length < v.remaining) :
    s.read mem dest = .ok (.ok dest.length, (v.unread mem).take dest.length, { s with
      inner := ⟨s.inner.bufVec.setFront { v with claimed := v.claimed + dest.length }⟩ }, mem) :=
  (read_eq_ok hn).mpr
    ⟨_, _, KernelBufferVecReader.read_part h mem hpos hlt, rfl, (if_neg hpos.ne').symm⟩

theorem read_drain (h : s.inner.bufVec.items = v :: vs) (mem : Memory) (hrem : 0 < v.remaining)
    (hle : v.remaining ≤ dest.length) :
    s.read mem dest = .ok (.ok v.remaining, v.unread mem ++ dest.drop v.remaining,
      { s with inner := ⟨s.inner.bufVec.popFront⟩ }, bufRingAddAdvance mem v.buf) :=
  (read_eq_ok hn).mpr
    ⟨_, _, KernelBufferVecReader.read_drain h mem hrem hle, rfl, (if_neg hrem.ne').symm⟩

end Read

def arm (s : TcpStream) : Event → Memory → Completion → Except Fault (TcpStream × Memory)
  | .send => s.onSend
  | .multishortRecv => s.onMultishortRecv

/-- The handler takes the arm of the event in a word of its own stream. -/
theorem onCompletion_fromParts {s : TcpStream} {mem : Memory} {c : Completion} {e : Event}
    {req : UInt32} (h : c.userData = .fromParts e.toU8 s.ownerId req) :
    s.onCompletion mem c = s.arm e mem c := by
  have howner : c.userData.owner = s.ownerId := h ▸ UserData.owner_fromParts ..
  have hevent : Event.fromU8 c.userData.event = .ok e := by
    rw [h, UserData.event_fromParts, Event.fromU8_toU8]
  rw [onCompletion, ensure_of howner, ok_bind, hevent, ok_bind]
  cases e <;> rfl

theorem onSend_eq_ok {s : TcpStream} {mem : Memory} {c : Completion} {r : TcpStream × Memory} :
    s.onSend mem c = .ok r ↔ c.cqe.res ≠ 0 ∧ ∃ v, s.pendingSent.lookup c.userData = some v ∧
      v.bytes.length = resAsUsize c.cqe.res ∧ c.kernelBuf = none ∧
      r = ({ s with pendingSent := s.pendingSent.erase c.userData }, mem.free v.ptr) := by
  simp only [onSend, Completion.drop, bind_eq_ok, ensure_eq_ok, unwrap_eq_ok, exists_const,
    Except.ok.injEq, eq_comm (b := r)]

theorem onMultishortRecv_eq_ok {s : TcpStream} {mem : Memory} {c : Completion}
    {r : TcpStream × Memory} : s.onMultishortRecv mem c = .ok r ↔
      c.userData.req = s.multishortRecvId ∧ c.cqe.res ≠ 0 ∧ c.cqe.hasBuffer ∧
      ∃ kb, c.kernelBuf = some kb ∧ ∃ inner, s.inner.push kb = .ok inner ∧
        r = ({ s with inner }, mem) := by
  simp only [onMultishortRecv, Completion.drop, bind_eq_ok, ensure_eq_ok, unwrap_eq_ok,
    exists_const, Except.ok.injEq, eq_comm (b := r), true_and]
  tauto

end TcpStream
end UringWs
