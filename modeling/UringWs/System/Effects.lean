import UringWs.System.EventLoop
import UringWs.Foundation.Lookup

/-! # What a step does

The streams keep the identity they were connected with, and every request keeps
the word of the call that prepared it. From these two facts each step of the
event loop has one explicit effect on the state.
-/
namespace UringWs

/-- What never changes about a stream once the set-up loop has connected it. -/
structure StreamConfig where
  raw : RawTcpStream
  ownerId : UInt16
  recvId : UInt32
  nonblocking : Bool

def TcpStream.config (s : TcpStream) : StreamConfig :=
  { raw := s.raw, ownerId := s.ownerId, recvId := s.multishortRecvId, nonblocking := s.nonblocking }

namespace EventLoop
open Checked

def State.configs (w : State) : List StreamConfig := w.streams.map TcpStream.config

/-- An entry as the code prepared it for a call. -/
def Prepared (configs : List StreamConfig) (sqe : IoUringSqe) (o : Origin) : Prop :=
  ∃ c slot, configs[o.stream]? = some c ∧ match o with
    | .recv _ recvId => recvId = c.recvId ∧ sqe = recvSqe c.raw.fd c.ownerId recvId slot
    | .send op => sqe = TcpStream.sendSqe c.raw.fd o.word op.vec slot

/-- Streams stand at the index of their owner id, with a group of their own, and
requests and posted entries carry what was prepared for them. -/
structure Routed (w : State) : Prop where
  sq : w.sq.Wf
  few : w.streams.length ≤ maxBufferGroup
  configs : ∀ i c, w.configs[i]? = some c → c.ownerId = UInt16.ofNat i ∧ c.nonblocking = true
  groups : ∀ i, i < w.streams.length → ∃ kg, w.groups (UInt16.ofNat i) = some kg ∧
    w.pool.bufRingPtrs[i]? = some (some kg.ring)
  connected : ∀ g kg, w.groups g = some kg → g.toNat < w.streams.length
  queued : List.Forall₂ (Prepared w.configs) w.sq.queue w.queued
  requests : ∀ r ∈ w.requests, Prepared w.configs r.sqe r.origin
  cqes : ∀ p ∈ w.cqes, p.cqe.userData = p.request.sqe.userData ∧
    Prepared w.configs p.request.sqe p.request.origin

variable {configs : List StreamConfig} {sqe : IoUringSqe} {o : Origin}

theorem Prepared.append (h : Prepared configs sqe o) (more : List StreamConfig) :
    Prepared (configs ++ more) sqe o := by
  obtain ⟨c, slot, hc, hs⟩ := h
  exact ⟨c, slot, by rw [List.getElem?_append_left (List.getElem?_eq_some_iff.mp hc).1, hc], hs⟩

theorem configs_set {streams : List TcpStream} {i : ℕ} {s s' : TcpStream}
    (hs : streams[i]? = some s) (hc : s'.config = s.config) :
    (streams.set i s').map TcpStream.config = streams.map TcpStream.config := by
  refine List.ext_getElem? fun j => ?_
  by_cases hj : i = j
  · subst hj
    obtain ⟨hlt, rfl⟩ := List.getElem?_eq_some_iff.mp hs
    simp [hc, hlt]
  · simp [hj]

theorem Routed.stream {w : State} (h : Routed w) {i : ℕ} {s : TcpStream}
    (hs : w.streams[i]? = some s) : s.ownerId = UInt16.ofNat i ∧ s.nonblocking = true :=
  h.configs i s.config (by simp [State.configs, hs])

theorem Routed.index_lt {w : State} (h : Routed w) {i : ℕ} {s : TcpStream}
    (hs : w.streams[i]? = some s) : i < maxBufferGroup :=
  ((List.getElem?_eq_some_iff.mp hs).1).trans_le h.few

theorem ofNat_toNat_of_lt {i : ℕ} (h : i < maxBufferGroup) : (UInt16.ofNat i).toNat = i := by
  have h : i < 256 := h
  exact UInt16.toNat_ofNat_of_lt' (show i < 65536 by omega)

theorem ofNat_ne {i j : ℕ} (hi : i < maxBufferGroup) (hj : j < maxBufferGroup) (h : i ≠ j) :
    UInt16.ofNat i ≠ UInt16.ofNat j := by
  intro he
  have he := congrArg UInt16.toNat he
  rw [ofNat_toNat_of_lt hi, ofNat_toNat_of_lt hj] at he
  exact h he

/-- What the entry prepared for a call asks the kernel to do. -/
def Asks (s : TcpStream) (sqe : IoUringSqe) : Origin → Prop
  | .recv _ recvId => recvId = s.multishortRecvId ∧ sqe.opcode = ioringOpRecv ∧
      sqe.bufGroup = s.ownerId
  | .send op => sqe.opcode = ioringOpSend ∧ sqe.flags = 0 ∧ sqe.addr = op.vec.ptr ∧
      sqe.len = UInt32.ofNat op.vec.bytes.length

theorem Prepared.facts {w : State} (hw : Routed w) (h : Prepared w.configs sqe o) :
    ∃ s, w.streams[o.stream]? = some s ∧ s.ownerId = UInt16.ofNat o.stream ∧
      sqe.userData = o.word.data ∧ Asks s sqe o := by
  obtain ⟨c, slot, hc, hs⟩ := h
  obtain ⟨s, hst, rfl⟩ : ∃ s, w.streams[o.stream]? = some s ∧ s.config = c := by
    simpa [State.configs] using hc
  have ho := (hw.stream hst).1
  refine ⟨s, hst, ho, ?_⟩
  cases o with
  | recv i recvId =>
    obtain ⟨hid, rfl⟩ := hs
    refine ⟨?_, hid, rfl, rfl⟩
    change (UserData.fromParts Event.multishortRecv.toU8 s.ownerId recvId).data = _
    rw [ho]
    rfl
  | send op =>
    obtain rfl := hs
    exact ⟨rfl, rfl, rfl, rfl, rfl⟩

theorem Prepared.stream_lt {w : State} (h : Prepared w.configs sqe o) :
    o.stream < w.streams.length := by
  obtain ⟨c, -, hc, -⟩ := h
  simpa [State.configs] using (List.getElem?_eq_some_iff.mp hc).1

/-! ### The effect of each step -/

/-- The steps of the event loop with what the calls in them return. -/
inductive Effect : State → Action → State → Prop
  | connect {w : State} {raw : RawTcpStream} {recvId : UInt32} {ring : RingPtr} {base : ℕ}
      {sq : IoUringSq} {slot : IoUringSqe} (hlt : w.streams.length < maxBufferGroup)
      (hring : ∀ g kg, w.groups g = some kg → kg.ring ≠ ring)
      (htail : (w.mem.rings ring).tail = 0)
      (hblock : ∀ g kg, w.groups g = some kg →
        base + blockSize ≤ kg.base ∨ kg.base + blockSize ≤ base)
      (hsq : sq.Wf)
      (hqueue : sq.queue = w.sq.queue ++
        [recvSqe raw.fd (UInt16.ofNat w.streams.length) recvId slot]) :
      Effect w (.connect raw recvId ring base) { w with
        pool := ⟨w.pool.bufRingPtrs.set w.streams.length (some ring) hlt⟩
        mem := w.mem.setRing ring (BufRingPool.filledRing (w.mem.rings ring) base)
        sq
        streams := w.streams ++ [freshStream raw (UInt16.ofNat w.streams.length) recvId]
        groups := Function.update w.groups (UInt16.ofNat w.streams.length)
          (some { ring, head := 0, base })
        queued := w.queued ++ [.recv w.streams.length recvId] }
  | write {w : State} {i ptr : ℕ} {buf : List UInt8} {s : TcpStream} {sq : IoUringSq}
      {slot : IoUringSqe} (hs : w.streams[i]? = some s) (hptr : w.mem.vecs ptr = none)
      (hpos : 0 < buf.length) (hsq : sq.Wf)
      (hqueue : sq.queue = w.sq.queue ++
        [TcpStream.sendSqe s.asRawFd s.sendKey ⟨ptr, buf⟩ slot]) :
      Effect w (.write i ptr buf) { w with
        mem := s.writtenMem w.mem ptr buf
        sq
        streams := w.streams.set i (s.written ptr buf)
        queued := w.queued ++ [.send ⟨i, (w.written i).length, s.sendId, ⟨ptr, buf⟩⟩]
        written := Function.update w.written i (w.written i ++ [buf]) }
  | submit {w : State} {n : ℕ} (hn : n ≤ w.sq.count) :
      Effect w (.submit n) { w with
        sq := w.sq.kernelTake n
        queued := w.queued.drop n
        requests := w.requests ++
          List.zipWith Request.mk (w.sq.queue.take n) (w.queued.take n) }
  | recv {w : State} {k : ℕ} {data : List UInt8} {flags : UInt32} {r : Request} {i : ℕ}
      {recvId : UInt32} {s : TcpStream} {kg : KernelGroup} {cqe : IoUringCqe}
      (hr : w.requests[k]? = some r) (ho : r.origin = .recv i recvId)
      (hs : w.streams[i]? = some s) (hg : w.groups (UInt16.ofNat i) = some kg)
      (havail : kg.head ≠ (w.mem.rings kg.ring).tail) (hpos : 0 < data.length)
      (hlen : data.length ≤ (kg.selected (w.mem.rings kg.ring)).len.toNat)
      (hcqe : cqe = ⟨r.sqe.userData, Int32.ofNat data.length, flags⟩) (hbuffer : cqe.hasBuffer)
      (hbid : cqe.bufferId = (kg.selected (w.mem.rings kg.ring)).bid)
      (hbufMore : ¬ cqe.hasBufMore) :
      Effect w (.recv k data flags) { w with
        mem := w.mem.store (kg.selected (w.mem.rings kg.ring)).addr data
        groups := Function.update w.groups (UInt16.ofNat i) (some kg.advance)
        requests := leftAfter w.requests k cqe
        cqes := w.cqes ++ [⟨cqe, r⟩]
        history := w.history ++ [⟨cqe, r⟩]
        received := Function.update w.received i (w.received i ++ data) }
  | sent {w : State} {k : ℕ} {out : List UInt8} {res : Int32} {flags : UInt32} {r : Request}
      {op : SendOp} {cqe : IoUringCqe} (hr : w.requests[k]? = some r) (ho : r.origin = .send op)
      (hready : Ready w.requests k r)
      (hout : ∀ data, w.mem.vecs op.vec.ptr = some data →
        out = data.take (UInt32.ofNat op.vec.bytes.length).toNat)
      (hres : (UInt32.ofNat op.vec.bytes.length).toNat < 2 ^ 31 →
        res.toInt = (UInt32.ofNat op.vec.bytes.length).toNat)
      (hcqe : cqe = ⟨r.sqe.userData, res, flags⟩) (hbuffer : ¬ cqe.hasBuffer)
      (hbufMore : ¬ cqe.hasBufMore) :
      Effect w (.sent k out res flags) { w with
        requests := w.requests.eraseIdx k
        cqes := w.cqes ++ [⟨cqe, r⟩]
        history := w.history ++ [⟨cqe, r⟩]
        socket := Function.update w.socket op.stream (w.socket op.stream ++ out) }
  | other {w : State} {k : ℕ} {res : Int32} {flags : UInt32} {r : Request} {cqe : IoUringCqe}
      (hr : w.requests[k]? = some r) (hcqe : cqe = ⟨r.sqe.userData, res, flags⟩) :
      Effect w (.other k res flags) { w with
        requests := leftAfter w.requests k cqe
        cqes := w.cqes ++ [⟨cqe, r⟩]
        history := w.history ++ [⟨cqe, r⟩] }
  | recvDone {w : State} {p : Posted} {rest : List Posted} {i : ℕ} {recvId : UInt32}
      {s : TcpStream} {kb : KernelBuffer} {inner : KernelBufferVecReader} (hc : w.cqes = p :: rest)
      (ho : p.request.origin = .recv i recvId) (hs : w.streams[i]? = some s)
      (hget : w.pool.getReadBuf w.mem (UInt16.ofNat i) p.cqe.bufferId (resAsUsize p.cqe.res) =
        .ok kb)
      (hitems : inner.bufVec.items = s.inner.bufVec.items ++ [KernelBufferReader.new kb]) :
      Effect w .process { w with streams := w.streams.set i { s with inner }, cqes := rest }
  | sendDone {w : State} {p : Posted} {rest : List Posted} {op : SendOp} {s : TcpStream}
      {v : ByteVec} (hc : w.cqes = p :: rest) (ho : p.request.origin = .send op)
      (hs : w.streams[op.stream]? = some s)
      (hlookup : s.pendingSent.lookup p.request.origin.word = some v)
      (hlen : v.bytes.length = resAsUsize p.cqe.res) :
      Effect w .process { w with
        mem := w.mem.free v.ptr
        streams := w.streams.set op.stream
          { s with pendingSent := s.pendingSent.erase p.request.origin.word }
        cqes := rest }
  | readEmpty {w : State} {i : ℕ} {dest : List UInt8} {s : TcpStream}
      (hs : w.streams[i]? = some s) (hitems : s.inner.bufVec.items = []) :
      Effect w (.read i dest) w
  | readPart {w : State} {i : ℕ} {dest : List UInt8} {s : TcpStream} {v : KernelBufferReader}
      {vs : List KernelBufferReader} (hs : w.streams[i]? = some s)
      (hitems : s.inner.bufVec.items = v :: vs) (hpos : 0 < dest.length)
      (hlt : dest.length < v.remaining) :
      Effect w (.read i dest) { w with
        streams := w.streams.set i { s with
          inner := ⟨s.inner.bufVec.setFront { v with claimed := v.claimed + dest.length }⟩ }
        returned := Function.update w.returned i
          (w.returned i ++ (v.unread w.mem).take dest.length) }
  | readDrain {w : State} {i : ℕ} {dest : List UInt8} {s : TcpStream} {v : KernelBufferReader}
      {vs : List KernelBufferReader} (hs : w.streams[i]? = some s)
      (hitems : s.inner.bufVec.items = v :: vs) (hrem : 0 < v.remaining)
      (hle : v.remaining ≤ dest.length) :
      Effect w (.read i dest) { w with
        mem := bufRingAddAdvance w.mem v.buf
        streams := w.streams.set i { s with inner := ⟨s.inner.bufVec.popFront⟩ }
        returned := Function.update w.returned i (w.returned i ++ v.unread w.mem) }

theorem Routed.dispatch {w : State} (hw : Routed w) {p : Posted} (hp : p ∈ w.cqes) :
    ∃ s, w.streams[p.request.origin.stream]? = some s ∧
      UringWs.dispatch w.pool w.mem w.streams (some p.cqe) = (do
        let completion ← Completion.fromRawEvent w.pool w.mem (some p.cqe)
        let (s', mem') ← s.arm p.request.origin.event w.mem completion
        .ok (w.streams.set p.request.origin.stream s', mem')) := by
  obtain ⟨hdata, hprep⟩ := hw.cqes p hp
  obtain ⟨s, hs, howner, hword, -⟩ := hprep.facts hw
  refine ⟨s, hs, dispatch_eq p.request.origin.req hs ?_ ?_⟩
  · rw [howner, ofNat_toNat_of_lt (hw.index_lt hs)]
  · rw [hdata, hword, howner]
    rfl

/-- Processing a posted entry queues the buffer of a receive, or takes the entry
of a send out of its stream's table. -/
theorem process_effect {w : State} (hw : Routed w) {p : Posted} {rest : List Posted}
    (hc : w.cqes = p :: rest) {streams : List TcpStream} {mem : Memory}
    (h : UringWs.dispatch w.pool w.mem w.streams (some p.cqe) = .ok (streams, mem)) :
    Effect w .process { w with mem, streams, cqes := rest } := by
  have hp : p ∈ w.cqes := hc ▸ List.mem_cons_self
  obtain ⟨s, hs, hd⟩ := hw.dispatch hp
  obtain ⟨hdata, hprep⟩ := hw.cqes p hp
  obtain ⟨s', hs', howner, hword, -⟩ := hprep.facts hw
  obtain rfl : s = s' := Option.some.inj (hs.symm.trans hs')
  rw [hd] at h
  simp only [bind_eq_ok, Prod.exists, Except.ok.injEq, Prod.mk.injEq] at h
  obtain ⟨c, hraw, s', mem', harm, rfl, rfl⟩ := h
  obtain ⟨hcqe, huser⟩ := Completion.fromRawEvent_cqe hraw
  have huser : c.userData = p.request.origin.word := by
    rw [huser, hdata, hword, UserData.fromPacked_data]
  cases ho : p.request.origin with
  | recv i recvId =>
    rw [ho] at hs harm huser howner
    obtain ⟨-, -, -, kb, hkb, inner, hpush, he⟩ := TcpStream.onMultishortRecv_eq_ok.mp harm
    obtain ⟨rfl, rfl⟩ := Prod.mk.inj he
    have hget := Completion.fromRawEvent_kernelBuf hraw hkb
    rw [hdata, hword, UserData.fromPacked_data, ho, Origin.word, UserData.owner_fromParts] at hget
    exact .recvDone hc ho hs hget (KernelBufferVecReader.push_eq_ok hpush)
  | send op =>
    rw [ho] at hs harm
    obtain ⟨-, v, hlookup, hlen, -, he⟩ := TcpStream.onSend_eq_ok.mp harm
    obtain ⟨rfl, rfl⟩ := Prod.mk.inj he
    rw [huser] at hlookup ⊢
    exact .sendDone hc ho hs hlookup (hcqe ▸ hlen)

theorem Routed.process_recv {w : State} (hw : Routed w) {p : Posted} (hp : p ∈ w.cqes) {i : ℕ}
    {recvId : UInt32} {s : TcpStream} {kb : KernelBuffer} (ho : p.request.origin = .recv i recvId)
    (hs : w.streams[i]? = some s) (hbuffer : p.cqe.hasBuffer) (hbufMore : ¬ p.cqe.hasBufMore)
    (hres : 0 < p.cqe.res.toInt)
    (hget : w.pool.getReadBuf w.mem (UInt16.ofNat i) p.cqe.bufferId (resAsUsize p.cqe.res) =
      .ok kb) :
    ∃ inner : KernelBufferVecReader,
      inner.bufVec.items = s.inner.bufVec.items ++ [KernelBufferReader.new kb] ∧
      UringWs.dispatch w.pool w.mem w.streams (some p.cqe) =
        .ok (w.streams.set i { s with inner }, w.mem) := by
  obtain ⟨s', hs', hd⟩ := hw.dispatch hp
  obtain ⟨hdata, hprep⟩ := hw.cqes p hp
  obtain ⟨t, ht, howner, hword, hasks⟩ := hprep.facts hw
  rw [ho] at hs' hd ht hasks hword
  obtain rfl : s = s' := Option.some.inj (hs.symm.trans hs')
  obtain rfl : s = t := Option.some.inj (hs.symm.trans ht)
  have hnonneg : ¬ p.cqe.res < 0 := by
    rw [Int32.lt_iff_toInt_lt]
    simpa using hres.le
  have hne : p.cqe.res ≠ 0 := by
    rintro h
    simp [h] at hres
  have hpos : 0 < resAsUsize p.cqe.res := by
    rw [resAsUsize_of_nonneg hres.le]
    omega
  have huser : UserData.fromPacked p.cqe.userData = (Origin.recv i recvId).word := by
    rw [hdata, hword, UserData.fromPacked_data]
  have hraw := (Completion.fromRawEvent_buffer hbuffer).mpr ⟨hnonneg, hbufMore, hpos, kb,
    by rw [huser, Origin.word, UserData.owner_fromParts]; exact hget, rfl⟩
  obtain ⟨inner, hpush⟩ := s.inner.push_isOk kb
  refine ⟨inner, KernelBufferVecReader.push_eq_ok hpush, ?_⟩
  have harm : s.arm (Origin.recv i recvId).event w.mem
      ⟨p.cqe, some kb, .fromPacked p.cqe.userData⟩ = .ok ({ s with inner }, w.mem) :=
    TcpStream.onMultishortRecv_eq_ok.mpr
      ⟨by rw [huser, Origin.word, UserData.req_fromParts]; exact hasks.1, hne, hbuffer, kb, rfl,
        inner, hpush, rfl⟩
  rw [hd, hraw, ok_bind, harm]
  rfl

theorem Routed.process_send {w : State} (hw : Routed w) {p : Posted} (hp : p ∈ w.cqes)
    {op : SendOp} {s : TcpStream} {v : ByteVec} (ho : p.request.origin = .send op)
    (hs : w.streams[op.stream]? = some s) (hbuffer : ¬ p.cqe.hasBuffer)
    (hbufMore : ¬ p.cqe.hasBufMore) (hres : 0 < p.cqe.res.toInt)
    (hlookup : s.pendingSent.lookup (Origin.send op).word = some v)
    (hlen : (v.bytes.length : ℤ) = p.cqe.res.toInt) :
    UringWs.dispatch w.pool w.mem w.streams (some p.cqe) = .ok (w.streams.set op.stream
      { s with pendingSent := s.pendingSent.erase (Origin.send op).word }, w.mem.free v.ptr) := by
  obtain ⟨s', hs', hd⟩ := hw.dispatch hp
  obtain ⟨hdata, hprep⟩ := hw.cqes p hp
  obtain ⟨-, -, -, hword, -⟩ := hprep.facts hw
  rw [ho] at hs' hd hword
  obtain rfl : s = s' := Option.some.inj (hs.symm.trans hs')
  have hnonneg : ¬ p.cqe.res < 0 := by
    rw [Int32.lt_iff_toInt_lt]
    simpa using hres.le
  have hne : p.cqe.res ≠ 0 := by
    rintro h
    simp [h] at hres
  have huser : UserData.fromPacked p.cqe.userData = (Origin.send op).word := by
    rw [hdata, hword, UserData.fromPacked_data]
  have hraw : Completion.fromRawEvent w.pool w.mem (some p.cqe) = .ok _ :=
    (Completion.fromRawEvent_noBuffer hbuffer).mpr ⟨hnonneg, hbufMore, rfl⟩
  have hsize : v.bytes.length = resAsUsize p.cqe.res := by
    rw [resAsUsize_of_nonneg hres.le, ← hlen]
    rfl
  have harm : s.arm (Origin.send op).event w.mem
      ⟨p.cqe, none, .fromPacked p.cqe.userData⟩ =
        .ok ({ s with pendingSent := s.pendingSent.erase (Origin.send op).word },
          w.mem.free v.ptr) :=
    TcpStream.onSend_eq_ok.mpr ⟨hne, v, huser ▸ hlookup, hsize, rfl, by rw [huser]⟩
  rw [hd, hraw, ok_bind, harm]
  rfl

/-- A read finds nothing queued, or takes bytes from the front buffer. -/
theorem read_outcome {s s' : TcpStream} {mem mem' : Memory} {dest dest' : List UInt8}
    {r : Except IoError ℕ} (hn : s.nonblocking = true)
    (h : s.read mem dest = .ok (r, dest', s', mem')) :
    (s.inner.bufVec.items = [] ∧ r.isOk = false ∧ bytesRead r dest' = [] ∧ s' = s ∧ mem' = mem) ∨
    ∃ v vs, s.inner.bufVec.items = v :: vs ∧ 0 < v.remaining ∧ r.isOk = true ∧
      ((0 < dest.length ∧ dest.length < v.remaining ∧
        bytesRead r dest' = (v.unread mem).take dest.length ∧ mem' = mem ∧ s' = { s with
          inner := ⟨s.inner.bufVec.setFront { v with claimed := v.claimed + dest.length }⟩ }) ∨
      (v.remaining ≤ dest.length ∧ bytesRead r dest' = v.unread mem ∧
        mem' = bufRingAddAdvance mem v.buf ∧
        s' = { s with inner := ⟨s.inner.bufVec.popFront⟩ })) := by
  obtain ⟨n, inner, hread, rfl, rfl⟩ := (TcpStream.read_eq_ok hn).mp h
  rcases KernelBufferVecReader.read_cases hread with
    ⟨hitems, rfl, rfl, rfl⟩ | ⟨v, vs, hitems, hrem, hpart | hdrain⟩
  · exact .inl ⟨hitems, rfl, rfl, rfl, rfl⟩
  · obtain ⟨hpos, hlt, rfl, rfl, rfl, rfl⟩ := hpart
    refine .inr ⟨v, vs, hitems, hrem, ?_, .inl ⟨hpos, hlt, ?_, rfl, rfl⟩⟩
    · rw [if_neg hpos.ne']
      rfl
    · rw [if_neg hpos.ne', bytesRead, List.take_of_length_le (by simp)]
  · obtain ⟨hle, rfl, rfl, rfl, rfl⟩ := hdrain
    refine .inr ⟨v, vs, hitems, hrem, ?_, .inr ⟨hle, ?_, rfl, rfl⟩⟩
    · rw [if_neg hrem.ne']
      rfl
    · rw [if_neg hrem.ne', bytesRead, List.take_left' (by simp)]

theorem read_effect {w : State} (hw : Routed w) {i : ℕ} {dest dest' : List UInt8}
    {s s' : TcpStream} {r : Except IoError ℕ} {mem : Memory} (hs : w.streams[i]? = some s)
    (h : s.read w.mem dest = .ok (r, dest', s', mem)) :
    Effect w (.read i dest) { w with
      mem
      streams := w.streams.set i s'
      returned := Function.update w.returned i (w.returned i ++ bytesRead r dest') } := by
  rcases read_outcome (hw.stream hs).2 h with
    ⟨hitems, -, hbytes, rfl, rfl⟩ | ⟨v, vs, hitems, hrem, -, hpart | hdrain⟩
  · have hset : w.streams.set i s' = w.streams := by
      obtain ⟨hlt, rfl⟩ := List.getElem?_eq_some_iff.mp hs
      exact List.set_getElem_self hlt
    rw [hbytes, hset, List.append_nil, Function.update_eq_self]
    exact .readEmpty hs hitems
  · obtain ⟨hpos, hlt, hbytes, rfl, rfl⟩ := hpart
    rw [hbytes]
    exact .readPart hs hitems hpos hlt
  · obtain ⟨hle, hbytes, rfl, rfl⟩ := hdrain
    rw [hbytes]
    exact .readDrain hs hitems hrem hle

theorem step_effect {w w' : State} {a : Action} (hw : Routed w) (h : Step w a w') :
    Effect w a w' := by
  cases h with
  | connect hring htail hblock h =>
    obtain ⟨⟨hlt, rfl⟩, rfl, rfl, hwf, -, slot, hqueue⟩ := setupStream_spec hw.sq h
    have hfew : w.streams.length ≤ 256 := hw.few
    have he : (UInt16.ofNat w.streams.length).toNat = w.streams.length :=
      UInt16.toNat_ofNat_of_lt' (show w.streams.length < 65536 by omega)
    simp only [he] at hlt ⊢
    exact .connect hlt hring htail hblock hwf hqueue
  | write hs hptr h =>
    obtain ⟨rfl, hpos, rfl, rfl, hwf, -, slot, hqueue⟩ :=
      TcpStream.write_spec (hw.stream hs).2 hw.sq h
    exact .write hs hptr hpos hwf hqueue
  | submit hn => exact .submit hn
  | @recv k data flags r kg cqe hr hop hselect hg havail hpos hlen hcqe hbuffer hbid hbufMore hmore =>
    obtain ⟨s, hs, howner, -, hfacts⟩ := (hw.requests r (List.mem_of_getElem? hr)).facts hw
    cases ho : r.origin with
    | recv i recvId =>
      rw [ho] at hs howner hfacts
      rw [hfacts.2.2, howner] at hg ⊢
      exact .recv hr ho hs hg havail hpos hlen hcqe hbuffer hbid hbufMore
    | send op =>
      rw [ho] at hfacts
      exact absurd (hop.symm.trans hfacts.1) (by decide)
  | @sent k out res flags r cqe hr hop hready hout hres hcqe hbuffer hbufMore =>
    obtain ⟨s, hs, howner, -, hfacts⟩ := (hw.requests r (List.mem_of_getElem? hr)).facts hw
    cases ho : r.origin with
    | recv i recvId =>
      rw [ho] at hfacts
      exact absurd (hop.symm.trans hfacts.2.1) (by decide)
    | send op =>
      rw [ho] at hfacts
      obtain ⟨-, -, haddr, hlen⟩ := hfacts
      rw [haddr, hlen] at hout
      rw [hlen] at hres
      exact .sent hr ho hready hout hres hcqe hbuffer hbufMore
  | other hr hcqe => exact .other hr hcqe
  | process hc h => exact process_effect hw hc h
  | read hs h => exact read_effect hw hs h

/-! ### The identity of streams and requests is kept -/

theorem configs_append (w : State) (s : TcpStream) :
    (w.streams ++ [s]).map TcpStream.config = w.configs ++ [s.config] := by
  simp [State.configs]

theorem mem_zipWith_prepared {sqes : List IoUringSqe} {os : List Origin} {n : ℕ}
    (h : List.Forall₂ (Prepared configs) sqes os) {r : Request}
    (hr : r ∈ List.zipWith Request.mk (sqes.take n) (os.take n)) :
    Prepared configs r.sqe r.origin := by
  induction h generalizing n with
  | nil => simp at hr
  | cons hab _ ih =>
    cases n with
    | zero => simp at hr
    | succ n =>
      simp only [List.take_succ_cons, List.zipWith_cons_cons, List.mem_cons] at hr
      rcases hr with rfl | hr
      · exact hab
      · exact ih hr

theorem map_origin_zipWith {sqes : List IoUringSqe} {os : List Origin}
    (h : List.Forall₂ (Prepared configs) sqes os) (n : ℕ) :
    (List.zipWith Request.mk (sqes.take n) (os.take n)).map Request.origin = os.take n := by
  induction h generalizing n with
  | nil => simp
  | cons _ _ ih =>
    cases n with
    | zero => rfl
    | succ n => simp [ih n]

theorem mem_leftAfter {requests : List Request} {k : ℕ} {cqe : IoUringCqe} {r : Request}
    (h : r ∈ leftAfter requests k cqe) : r ∈ requests := by
  unfold leftAfter at h
  split at h
  · exact h
  · exact List.mem_of_mem_eraseIdx h

theorem routed_init {w : State} (h : Init w) : Routed w := by
  have hq : w.sq.queue = [] := by
    rw [← List.length_eq_zero_iff, IoUringSq.queue_length, IoUringSq.count, h.sq_empty]
    simp
  refine ⟨h.sq, ?_, ?_, ?_, ?_, ?_, ?_, ?_⟩ <;>
    simp [h.streams, h.groups, h.queued, h.requests, h.cqes, State.configs, hq]

theorem Routed.post {w : State} (hw : Routed w) {k : ℕ} {r : Request} {cqe : IoUringCqe}
    (hr : w.requests[k]? = some r) (hcqe : cqe.userData = r.sqe.userData) :
    ∀ p ∈ w.cqes ++ [⟨cqe, r⟩], p.cqe.userData = p.request.sqe.userData ∧
      Prepared w.configs p.request.sqe p.request.origin := by
  intro p hp
  rcases List.mem_append.mp hp with hp | hp
  · exact hw.cqes p hp
  · obtain rfl := List.mem_singleton.mp hp
    exact ⟨hcqe, hw.requests r (List.mem_of_getElem? hr)⟩

theorem Routed.of_eq {w w' : State} (hw : Routed w) (hc : w'.configs = w.configs)
    (hsq : w'.sq = w.sq) (hpool : w'.pool = w.pool) (hgroups : w'.groups = w.groups)
    (hqueued : w'.queued = w.queued) (hreq : w'.requests = w.requests) (hcqes : w'.cqes ⊆ w.cqes) :
    Routed w' := by
  have hlen : w'.streams.length = w.streams.length := by
    simpa [State.configs] using congrArg List.length hc
  refine ⟨hsq ▸ hw.sq, hlen ▸ hw.few, hc ▸ hw.configs, ?_, ?_, ?_, ?_, ?_⟩
  · rw [hlen, hgroups, hpool]
    exact hw.groups
  · rw [hlen, hgroups]
    exact hw.connected
  · rw [hc, hsq, hqueued]
    exact hw.queued
  · rw [hc, hreq]
    exact hw.requests
  · rw [hc]
    exact fun p hp => hw.cqes p (hcqes hp)

theorem Routed.connect {w w' : State} (hw : Routed w) {raw : RawTcpStream} {recvId : UInt32}
    {ring : RingPtr} {base : ℕ} {slot : IoUringSqe} (hlt : w.streams.length < maxBufferGroup)
    (hsq : w'.sq.Wf) (hqueue : w'.sq.queue = w.sq.queue ++
      [recvSqe raw.fd (UInt16.ofNat w.streams.length) recvId slot])
    (hpool : w'.pool = ⟨w.pool.bufRingPtrs.set w.streams.length (some ring) hlt⟩)
    (hstreams : w'.streams =
      w.streams ++ [freshStream raw (UInt16.ofNat w.streams.length) recvId])
    (hgroups : w'.groups = Function.update w.groups (UInt16.ofNat w.streams.length)
      (some { ring, head := 0, base }))
    (hqueued : w'.queued = w.queued ++ [.recv w.streams.length recvId])
    (hreq : w'.requests = w.requests) (hcqes : w'.cqes = w.cqes) : Routed w' := by
  have hn := ofNat_toNat_of_lt hlt
  have hc : w'.configs = w.configs ++
      [(freshStream raw (UInt16.ofNat w.streams.length) recvId).config] := by
    rw [State.configs, hstreams, configs_append]
  have hl : w'.streams.length = w.streams.length + 1 := by simp [hstreams]
  have hcl : w.configs.length = w.streams.length := List.length_map ..
  refine ⟨hsq, hl ▸ hlt, ?_, ?_, ?_, ?_, ?_, ?_⟩
  · intro i c hi
    rw [hc] at hi
    rcases getElem?_concat_eq_some hi with ⟨-, hi⟩ | ⟨rfl, rfl⟩
    · exact hw.configs i c hi
    · rw [hcl]
      exact ⟨rfl, rfl⟩
  · intro i hi
    rw [hgroups, hpool]
    by_cases he : i = w.streams.length
    · exact ⟨_, by rw [he, Function.update_self], by simp [he]⟩
    · obtain ⟨kg, hg, hp⟩ := hw.groups i (by omega)
      have hne := ofNat_ne (show i < maxBufferGroup by omega) hlt he
      exact ⟨kg, (Function.update_of_ne hne ..).trans hg,
        by simpa [Vector.getElem?_set, Ne.symm he] using hp⟩
  · intro g kg hg
    rw [hgroups] at hg
    rcases update_eq_some hg with ⟨rfl, -⟩ | ⟨-, hg⟩
    · omega
    · have := hw.connected g kg hg
      omega
  · rw [hc, hqueue, hqueued]
    refine List.rel_append (hw.queued.imp fun _ _ h => h.append _) (.cons ?_ .nil)
    refine ⟨(freshStream raw (UInt16.ofNat w.streams.length) recvId).config, slot, ?_, rfl, rfl⟩
    rw [Origin.stream, ← hcl, List.getElem?_concat_length]
  · rw [hc, hreq]
    exact fun r hr => (hw.requests r hr).append _
  · rw [hc, hcqes]
    exact fun p hp => ⟨(hw.cqes p hp).1, (hw.cqes p hp).2.append _⟩

theorem routed_effect {w w' : State} {a : Action} (hw : Routed w) (h : Effect w a w') :
    Routed w' := by
  cases h with
  | connect hlt hring htail hblock hsq hqueue =>
    exact hw.connect hlt hsq hqueue rfl rfl rfl rfl rfl rfl
  | @write i ptr buf s sq slot hs hptr hpos hsq hqueue =>
    have hc : (w.streams.set i (s.written ptr buf)).map TcpStream.config = w.configs :=
      configs_set hs rfl
    refine ⟨hsq, by simpa using hw.few, ?_, by simpa using hw.groups, by simpa using hw.connected,
      ?_, ?_, ?_⟩ <;> simp only [State.configs, hc]
    · exact hw.configs
    · rw [hqueue]
      refine List.rel_append hw.queued (.cons ⟨s.config, slot, ?_, ?_⟩ .nil)
      · simp [State.configs, Origin.stream, hs]
      · change _ = TcpStream.sendSqe s.raw.fd (.fromParts _ (UInt16.ofNat i) s.sendId) _ _
        rw [← (hw.stream hs).1]
        rfl
    · exact hw.requests
    · exact hw.cqes
  | @submit n hn =>
    obtain ⟨hsq, -, hqueue⟩ := IoUringSq.kernelTake_spec hw.sq hn
    refine ⟨hsq, hw.few, hw.configs, hw.groups, hw.connected, ?_, ?_, hw.cqes⟩
    · simp only [hqueue]
      exact List.forall₂_drop n hw.queued
    · intro r hr
      rcases List.mem_append.mp hr with hr | hr
      · exact hw.requests r hr
      · exact mem_zipWith_prepared hw.queued hr
  | @recv k data flags r i recvId s kg cqe hr ho hs hg havail hpos hlen hcqe hbuffer hbid hbufMore =>
    refine ⟨hw.sq, hw.few, hw.configs, ?_, ?_, hw.queued,
      fun r hr => hw.requests r (mem_leftAfter hr), hw.post hr (by rw [hcqe])⟩
    · intro j hj
      obtain ⟨kg', hg', hp⟩ := hw.groups j hj
      by_cases he : UInt16.ofNat j = UInt16.ofNat i
      · obtain rfl : kg = kg' := Option.some.inj (hg.symm.trans (he ▸ hg'))
        exact ⟨kg.advance, by simp [he], hp⟩
      · exact ⟨kg', (Function.update_of_ne he ..).trans hg', hp⟩
    · intro g kg' h
      rcases update_eq_some h with ⟨rfl, -⟩ | ⟨-, h⟩
      · exact hw.connected _ _ hg
      · exact hw.connected g kg' h
  | sent hr ho hready hout hres hcqe hbuffer hbufMore =>
    exact ⟨hw.sq, hw.few, hw.configs, hw.groups, hw.connected, hw.queued,
      fun r hr => hw.requests r (List.mem_of_mem_eraseIdx hr), hw.post hr (by rw [hcqe])⟩
  | other hr hcqe =>
    exact ⟨hw.sq, hw.few, hw.configs, hw.groups, hw.connected, hw.queued,
      fun r hr => hw.requests r (mem_leftAfter hr), hw.post hr (by rw [hcqe])⟩
  | recvDone hc ho hs hget hitems =>
    exact hw.of_eq (configs_set hs rfl) rfl rfl rfl rfl rfl (hc ▸ List.subset_cons_self ..)
  | sendDone hc ho hs hlookup hlen =>
    exact hw.of_eq (configs_set hs rfl) rfl rfl rfl rfl rfl (hc ▸ List.subset_cons_self ..)
  | readEmpty hs hitems => exact hw
  | readPart hs hitems hpos hlt =>
    exact hw.of_eq (configs_set hs rfl) rfl rfl rfl rfl rfl (List.Subset.refl _)
  | readDrain hs hitems hrem hle =>
    exact hw.of_eq (configs_set hs rfl) rfl rfl rfl rfl rfl (List.Subset.refl _)

theorem reach_routed {guard : State → Action → Prop} {w : State}
    (h : eventLoop.Reach guard w) : Routed w :=
  h.invariant (fun _ => routed_init)
    (fun _ _ _ _ hw _ hs => routed_effect hw (step_effect hw hs))

/-- The run rule over effects. -/
theorem reach_invariant {guard : State → Action → Prop} {P : State → Prop}
    (hinit : ∀ w, Init w → P w)
    (hstep : ∀ w a w', eventLoop.Reach guard w → Routed w → P w → guard w a → Effect w a w' → P w')
    {w : State} (h : eventLoop.Reach guard w) : P w :=
  h.invariant hinit fun w a w' hr hp hg hs =>
    hstep w a w' hr (reach_routed hr) hp hg (step_effect (reach_routed hr) hs)

end EventLoop
end UringWs
