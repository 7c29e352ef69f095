import UringWs.Program.PingPong
import UringWs.System.Kernel
import UringWs.Foundation.Transition

/-! # The event loop and the kernel

The program connects streams, writes, submits, and hands each posted entry to
its stream; the kernel runs submitted requests at its own pace. Every request
carries the call it was prepared for, which no step of the program reads.
-/
namespace UringWs.EventLoop

/-- A send a write call prepared: its stream, its place among that stream's
writes, its id and its bytes. -/
structure SendOp where
  stream : ℕ
  seq : ℕ
  req : UInt32
  vec : ByteVec

inductive Origin
  | recv (stream : ℕ) (recvId : UInt32)
  | send (op : SendOp)

namespace Origin

def stream : Origin → ℕ
  | recv i _ => i
  | send op => op.stream

def event : Origin → Event
  | recv .. => .multishortRecv
  | send _ => .send

def req : Origin → UInt32
  | recv _ recvId => recvId
  | send op => op.req

def isRecv (i : ℕ) : Origin → Bool
  | recv j _ => j = i
  | send _ => false

/-- The word a completion of the request must carry. -/
def word (o : Origin) : UserData := .fromParts o.event.toU8 (UInt16.ofNat o.stream) o.req

end Origin

def SendOp.key (op : SendOp) : UserData := (Origin.send op).word

structure Request where
  sqe : IoUringSqe
  origin : Origin

structure Posted where
  cqe : IoUringCqe
  request : Request

structure State where
  pool : BufRingPool
  mem : Memory
  sq : IoUringSq
  streams : List TcpStream
  groups : UInt16 → Option KernelGroup
  /-- what the entries of the submission queue were prepared for -/
  queued : List Origin
  requests : List Request
  cqes : List Posted
  /-- every entry posted so far -/
  history : List Posted
  received : ℕ → List UInt8
  returned : ℕ → List UInt8
  written : ℕ → List (List UInt8)
  socket : ℕ → List UInt8

inductive Action
  | connect (raw : RawTcpStream) (recvId : UInt32) (ring : RingPtr) (base : ℕ)
  | write (i ptr : ℕ) (buf : List UInt8)
  | submit (n : ℕ)
  | recv (k : ℕ) (data : List UInt8) (flags : UInt32)
  | sent (k : ℕ) (out : List UInt8) (res : Int32) (flags : UInt32)
  | other (k : ℕ) (res : Int32) (flags : UInt32)
  | process
  | read (i : ℕ) (dest : List UInt8)

/-- A request may run unless it is chained to the one before it, or drained
behind an earlier one. -/
def Ready (requests : List Request) (k : ℕ) (r : Request) : Prop :=
  ∀ j < k, ∀ e, requests[j]? = some e → r.sqe.flags &&& iosqeIoDrain = 0 ∧
    e.sqe.flags &&& iosqeIoDrain = 0 ∧ (j + 1 = k → e.sqe.flags &&& iosqeIoLink = 0)

/-- The requests left after one posts an entry: it stays armed with the more flag. -/
def leftAfter (requests : List Request) (k : ℕ) (cqe : IoUringCqe) : List Request :=
  if cqe.hasMore then requests else requests.eraseIdx k

def bytesRead (r : Except IoError ℕ) (dest : List UInt8) : List UInt8 :=
  match r with
  | .ok n => dest.take n
  | .error _ => []

def blockSize : ℕ := ringPoolSize.toNat * bufSize.toNat

inductive Step : State → Action → State → Prop
  /-- the next stream, in a newly mapped ring over a newly allocated block -/
  | connect {w : State} {raw : RawTcpStream} {recvId : UInt32} {ring : RingPtr} {base : ℕ}
      {pool : BufRingPool} {mem : Memory} {sq : IoUringSq} {s : TcpStream}
      (hring : ∀ g kg, w.groups g = some kg → kg.ring ≠ ring)
      (htail : (w.mem.rings ring).tail = 0)
      (hblock : ∀ g kg, w.groups g = some kg →
        base + blockSize ≤ kg.base ∨ kg.base + blockSize ≤ base)
      (h : setupStream w.pool w.mem w.sq raw (UInt16.ofNat w.streams.length) recvId (some ring)
        (some base) = .ok (pool, mem, sq, s)) :
      Step w (.connect raw recvId ring base) { w with
        pool, mem, sq
        streams := w.streams ++ [s]
        groups := Function.update w.groups (UInt16.ofNat w.streams.length)
          (some { ring, head := 0, base })
        queued := w.queued ++ [.recv w.streams.length recvId] }
  | write {w : State} {i ptr : ℕ} {buf : List UInt8} {s s' : TcpStream}
      {r : Except IoError ℕ} {mem : Memory} {sq : IoUringSq} (hs : w.streams[i]? = some s)
      (hptr : w.mem.vecs ptr = none) (h : s.write w.mem w.sq ptr buf = .ok (r, s', mem, sq)) :
      Step w (.write i ptr buf) { w with
        mem, sq
        streams := w.streams.set i s'
        queued := w.queued ++ [.send ⟨i, (w.written i).length, s.sendId, ⟨ptr, buf⟩⟩]
        written := Function.update w.written i (w.written i ++ [buf]) }
  | submit {w : State} {n : ℕ} (hn : n ≤ w.sq.count) :
      Step w (.submit n) { w with
        sq := w.sq.kernelTake n
        queued := w.queued.drop n
        requests := w.requests ++
          List.zipWith Request.mk (w.sq.queue.take n) (w.queued.take n) }
  /-- the kernel fills the next buffer of the request's group -/
  | recv {w : State} {k : ℕ} {data : List UInt8} {flags : UInt32} {r : Request}
      {kg : KernelGroup} {cqe : IoUringCqe} (hr : w.requests[k]? = some r)
      (hop : r.sqe.opcode = ioringOpRecv) (hselect : r.sqe.flags &&& iosqeBufferSelect ≠ 0)
      (hg : w.groups r.sqe.bufGroup = some kg)
      (havail : kg.head ≠ (w.mem.rings kg.ring).tail) (hpos : 0 < data.length)
      (hlen : data.length ≤ (kg.selected (w.mem.rings kg.ring)).len.toNat)
      (hcqe : cqe = ⟨r.sqe.userData, Int32.ofNat data.length, flags⟩) (hbuffer : cqe.hasBuffer)
      (hbid : cqe.bufferId = (kg.selected (w.mem.rings kg.ring)).bid)
      (hbufMore : ¬ cqe.hasBufMore)
      (hmore : cqe.hasMore → r.sqe.ioprio &&& ioringRecvMultishot ≠ 0) :
      Step w (.recv k data flags) { w with
        mem := w.mem.store (kg.selected (w.mem.rings kg.ring)).addr data
        groups := Function.update w.groups r.sqe.bufGroup (some kg.advance)
        requests := leftAfter w.requests k cqe
        cqes := w.cqes ++ [⟨cqe, r⟩]
        history := w.history ++ [⟨cqe, r⟩]
        received := Function.update w.received r.origin.stream
          (w.received r.origin.stream ++ data) }
  /-- the kernel puts all bytes of a send on the socket; a freed vector reads as
  anything -/
  | sent {w : State} {k : ℕ} {out : List UInt8} {res : Int32} {flags : UInt32} {r : Request}
      {cqe : IoUringCqe} (hr : w.requests[k]? = some r) (hop : r.sqe.opcode = ioringOpSend)
      (hready : Ready w.requests k r)
      (hout : ∀ data, w.mem.vecs r.sqe.addr = some data → out = data.take r.sqe.len.toNat)
      (hres : r.sqe.len.toNat < 2 ^ 31 → res.toInt = r.sqe.len.toNat)
      (hcqe : cqe = ⟨r.sqe.userData, res, flags⟩) (hbuffer : ¬ cqe.hasBuffer)
      (hbufMore : ¬ cqe.hasBufMore) :
      Step w (.sent k out res flags) { w with
        requests := w.requests.eraseIdx k
        cqes := w.cqes ++ [⟨cqe, r⟩]
        history := w.history ++ [⟨cqe, r⟩]
        socket := Function.update w.socket r.origin.stream (w.socket r.origin.stream ++ out) }
  /-- an entry that moves no data, of any result and flags -/
  | other {w : State} {k : ℕ} {res : Int32} {flags : UInt32} {r : Request} {cqe : IoUringCqe}
      (hr : w.requests[k]? = some r) (hcqe : cqe = ⟨r.sqe.userData, res, flags⟩) :
      Step w (.other k res flags) { w with
        requests := leftAfter w.requests k cqe
        cqes := w.cqes ++ [⟨cqe, r⟩]
        history := w.history ++ [⟨cqe, r⟩] }
  | process {w : State} {p : Posted} {rest : List Posted} {streams : List TcpStream}
      {mem : Memory} (hc : w.cqes = p :: rest)
      (h : dispatch w.pool w.mem w.streams (some p.cqe) = .ok (streams, mem)) :
      Step w .process { w with mem, streams, cqes := rest }
  | read {w : State} {i : ℕ} {dest dest' : List UInt8} {s s' : TcpStream}
      {r : Except IoError ℕ} {mem : Memory} (hs : w.streams[i]? = some s)
      (h : s.read w.mem dest = .ok (r, dest', s', mem)) :
      Step w (.read i dest) { w with
        mem
        streams := w.streams.set i s'
        returned := Function.update w.returned i (w.returned i ++ bytesRead r dest') }

/-- No stream, and an empty submission ring of any power-of-two size. -/
structure Init (w : State) : Prop where
  pool : w.pool = .empty
  sq : w.sq.Wf
  sq_empty : w.sq.sqeTail = w.sq.khead
  streams : w.streams = []
  groups : ∀ g, w.groups g = none
  queued : w.queued = []
  requests : w.requests = []
  cqes : w.cqes = []
  history : w.history = []
  received : ∀ i, w.received i = []
  returned : ∀ i, w.returned i = []
  written : ∀ i, w.written i = []
  socket : ∀ i, w.socket i = []

def eventLoop : System State Action := { init := Init, step := Step }

theorem isRecv_iff {i j : ℕ} {recvId : UInt32} :
    (Origin.recv i recvId).isRecv j = true ↔ i = j := decide_eq_true_iff

@[simp] theorem isRecv_send (op : SendOp) (i : ℕ) : (Origin.send op).isRecv i = false := rfl

theorem isRecv_stream {o : Origin} {i : ℕ} (h : o.isRecv i = true) : o.stream = i := by
  cases o with
  | recv j recvId => exact of_decide_eq_true h
  | send op => cases h

theorem isRecv_of_event {o : Origin} (h : o.event = .multishortRecv) :
    o.isRecv o.stream = true := by
  cases o with
  | recv i recvId => exact decide_eq_true rfl
  | send op => cases h

theorem event_of_isRecv {o : Origin} {i : ℕ} (h : o.isRecv i = true) :
    o.event = .multishortRecv := by
  cases o with
  | recv i recvId => rfl
  | send op => cases h

end UringWs.EventLoop
