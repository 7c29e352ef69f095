import UringWs.System.Effects

/-! # What the loop and the kernel can do

A round of the set-up loop, a write and a submission succeed whenever the
submission ring has room; the kernel can fill a buffer of an armed stream while
its group has one left.
-/
namespace UringWs.EventLoop
variable {G : State → Action → Prop} {w : State}

theorem Routed.step_connect (hw : Routed w) (raw : RawTcpStream) (recvId : UInt32) (ring : RingPtr)
    (base : ℕ) (hroom : w.sq.count < w.sq.ringEntries.toNat) (hlt : w.streams.length < maxBufferGroup)
    (hring : ∀ g kg, w.groups g = some kg → kg.ring ≠ ring) (htail : (w.mem.rings ring).tail = 0)
    (hblock : ∀ g kg, w.groups g = some kg →
      base + blockSize ≤ kg.base ∨ kg.base + blockSize ≤ base) :
    ∃ sq slot, sq.Wf ∧ sq.ringEntries = w.sq.ringEntries ∧
      sq.queue = w.sq.queue ++ [recvSqe raw.fd (UInt16.ofNat w.streams.length) recvId slot] ∧
      Step w (.connect raw recvId ring base) { w with
        pool := ⟨w.pool.bufRingPtrs.set w.streams.length (some ring) hlt⟩
        mem := w.mem.setRing ring (BufRingPool.filledRing (w.mem.rings ring) base)
        sq
        streams := w.streams ++ [freshStream raw (UInt16.ofNat w.streams.length) recvId]
        groups := Function.update w.groups (UInt16.ofNat w.streams.length)
          (some { ring, head := 0, base })
        queued := w.queued ++ [.recv w.streams.length recvId] } := by
  have he := ofNat_toNat_of_lt hlt
  obtain ⟨⟨pool, mem, sq, s⟩, hok⟩ := setupStream_isOk w.pool w.mem raw
    (g := UInt16.ofNat w.streams.length) recvId ring base hw.sq hroom (by rwa [he])
  have hs : Step w (.connect raw recvId ring base) _ := .connect hring htail hblock hok
  obtain ⟨⟨hg, rfl⟩, rfl, rfl, hwf, hent, slot, hqueue⟩ := setupStream_spec hw.sq hok
  simp only [he] at hs
  exact ⟨sq, slot, hwf, hent, hqueue, hs⟩

theorem reach_connect (h : eventLoop.Reach G w) {raw : RawTcpStream} {recvId : UInt32}
    {ring : RingPtr} {base : ℕ} (hguard : G w (.connect raw recvId ring base))
    (hroom : w.sq.count < w.sq.ringEntries.toNat) (hlt : w.streams.length < maxBufferGroup)
    (hring : ∀ g kg, w.groups g = some kg → kg.ring ≠ ring) (htail : (w.mem.rings ring).tail = 0)
    (hblock : ∀ g kg, w.groups g = some kg →
      base + blockSize ≤ kg.base ∨ kg.base + blockSize ≤ base) :
    ∃ sq slot, sq.Wf ∧ sq.ringEntries = w.sq.ringEntries ∧
      sq.queue = w.sq.queue ++ [recvSqe raw.fd (UInt16.ofNat w.streams.length) recvId slot] ∧
      eventLoop.Reach G { w with
        pool := ⟨w.pool.bufRingPtrs.set w.streams.length (some ring) hlt⟩
        mem := w.mem.setRing ring (BufRingPool.filledRing (w.mem.rings ring) base)
        sq
        streams := w.streams ++ [freshStream raw (UInt16.ofNat w.streams.length) recvId]
        groups := Function.update w.groups (UInt16.ofNat w.streams.length)
          (some { ring, head := 0, base })
        queued := w.queued ++ [.recv w.streams.length recvId] } := by
  obtain ⟨sq, slot, hwf, hent, hqueue, hs⟩ :=
    (reach_routed h).step_connect _ _ _ _ hroom hlt hring htail hblock
  exact ⟨sq, slot, hwf, hent, hqueue, h.next hguard hs⟩

theorem Routed.step_write (hw : Routed w) {i ptr : ℕ} {buf : List UInt8} {s : TcpStream}
    (hs : w.streams[i]? = some s) (hptr : w.mem.vecs ptr = none)
    (hroom : w.sq.count < w.sq.ringEntries.toNat) (hpos : 0 < buf.length) :
    ∃ sq slot, sq.Wf ∧ sq.ringEntries = w.sq.ringEntries ∧
      sq.queue = w.sq.queue ++ [TcpStream.sendSqe s.asRawFd s.sendKey ⟨ptr, buf⟩ slot] ∧
      Step w (.write i ptr buf) { w with
        mem := s.writtenMem w.mem ptr buf
        sq
        streams := w.streams.set i (s.written ptr buf)
        queued := w.queued ++ [.send ⟨i, (w.written i).length, s.sendId, ⟨ptr, buf⟩⟩]
        written := Function.update w.written i (w.written i ++ [buf]) } := by
  obtain ⟨sq, hok⟩ := TcpStream.write_isOk w.mem ptr (hw.stream hs).2 hw.sq hroom hpos
  obtain ⟨-, -, -, -, hwf, hent, slot, hqueue⟩ := TcpStream.write_spec (hw.stream hs).2 hw.sq hok
  exact ⟨sq, slot, hwf, hent, hqueue, .write hs hptr hok⟩

theorem reach_write (h : eventLoop.Reach G w) {i ptr : ℕ} {buf : List UInt8} {s : TcpStream}
    (hguard : G w (.write i ptr buf)) (hs : w.streams[i]? = some s)
    (hptr : w.mem.vecs ptr = none) (hroom : w.sq.count < w.sq.ringEntries.toNat)
    (hpos : 0 < buf.length) :
    ∃ sq slot, sq.Wf ∧ sq.ringEntries = w.sq.ringEntries ∧
      sq.queue = w.sq.queue ++ [TcpStream.sendSqe s.asRawFd s.sendKey ⟨ptr, buf⟩ slot] ∧
      eventLoop.Reach G { w with
        mem := s.writtenMem w.mem ptr buf
        sq
        streams := w.streams.set i (s.written ptr buf)
        queued := w.queued ++ [.send ⟨i, (w.written i).length, s.sendId, ⟨ptr, buf⟩⟩]
        written := Function.update w.written i (w.written i ++ [buf]) } := by
  obtain ⟨sq, slot, hwf, hent, hqueue, hstep⟩ := (reach_routed h).step_write hs hptr hroom hpos
  exact ⟨sq, slot, hwf, hent, hqueue, h.next hguard hstep⟩

theorem Routed.step_submit (hw : Routed w) : Step w (.submit w.sq.count) { w with
    sq := w.sq.kernelTake w.sq.count
    queued := []
    requests := w.requests ++ List.zipWith Request.mk w.sq.queue w.queued } := by
  have hs : Step w (.submit w.sq.count) _ := .submit le_rfl
  have hlen : w.queued.length = w.sq.count := by
    rw [← hw.queued.length_eq, IoUringSq.queue_length]
  rwa [List.take_of_length_le (w.sq.queue_length.le), List.take_of_length_le hlen.le,
    List.drop_eq_nil_of_le hlen.le] at hs

theorem reach_submit (h : eventLoop.Reach G w) (hguard : G w (.submit w.sq.count)) :
    eventLoop.Reach G { w with
      sq := w.sq.kernelTake w.sq.count
      queued := []
      requests := w.requests ++ List.zipWith Request.mk w.sq.queue w.queued } :=
  h.next hguard (reach_routed h).step_submit

/-- Nothing the loop prepares holds another request back. -/
theorem Routed.ready (hw : Routed w) {k : ℕ} {r : Request} (hr : w.requests[k]? = some r) :
    Ready w.requests k r := by
  have hflags : ∀ e ∈ w.requests, e.sqe.flags &&& iosqeIoDrain = 0 ∧
      e.sqe.flags &&& iosqeIoLink = 0 := by
    intro e he
    obtain ⟨c, slot, -, hs⟩ := hw.requests e he
    cases ho : e.origin with
    | recv i recvId =>
      rw [ho] at hs
      rw [hs.2]
      exact ⟨show iosqeBufferSelect &&& iosqeIoDrain = 0 by decide,
        show iosqeBufferSelect &&& iosqeIoLink = 0 by decide⟩
    | send op =>
      rw [ho] at hs
      rw [show e.sqe = _ from hs]
      exact ⟨show (0 : UInt8) &&& iosqeIoDrain = 0 by decide,
        show (0 : UInt8) &&& iosqeIoLink = 0 by decide⟩
  intro j hj e he
  have hf := hflags e (List.mem_of_getElem? he)
  exact ⟨(hflags r (List.mem_of_getElem? hr)).1, hf.1, fun _ => hf.2⟩

/-- A send puts its bytes out, whatever else the kernel has to run. -/
theorem Routed.step_sent (hw : Routed w) (op : SendOp) {k : ℕ} {r : Request} {fd : Int32}
    {slot : IoUringSqe} (hr : w.requests[k]? = some r) (ho : r.origin = .send op)
    (hsqe : r.sqe = TcpStream.sendSqe fd op.key op.vec slot)
    (hmem : w.mem.vecs op.vec.ptr = some op.vec.bytes) (hlen : op.vec.bytes.length < 2 ^ 31) :
    Step w (.sent k op.vec.bytes (Int32.ofNat op.vec.bytes.length) 0) { w with
      requests := w.requests.eraseIdx k
      cqes := w.cqes ++ [⟨⟨op.key.data, Int32.ofNat op.vec.bytes.length, 0⟩, r⟩]
      history := w.history ++ [⟨⟨op.key.data, Int32.ofNat op.vec.bytes.length, 0⟩, r⟩]
      socket := Function.update w.socket op.stream (w.socket op.stream ++ op.vec.bytes) } := by
  have hof : (UInt32.ofNat op.vec.bytes.length).toNat = op.vec.bytes.length :=
    UInt32.toNat_ofNat_of_lt' (show op.vec.bytes.length < 4294967296 by omega)
  have hres : (Int32.ofNat op.vec.bytes.length).toInt = op.vec.bytes.length :=
    Int32.toInt_ofNat_of_lt hlen
  have hstep : Step w (.sent k op.vec.bytes (Int32.ofNat op.vec.bytes.length) 0) _ := .sent hr
    (by rw [hsqe]; rfl) (hw.ready hr)
    (fun data hd => by
      have hd : w.mem.vecs op.vec.ptr = some data := by rw [hsqe] at hd; exact hd
      obtain rfl : op.vec.bytes = data := Option.some.inj (hmem.symm.trans hd)
      rw [hsqe]
      exact (List.take_of_length_le hof.ge).symm)
    (fun _ => by
      rw [hsqe]
      exact hres.trans (congrArg _ hof.symm))
    (show (⟨op.key.data, Int32.ofNat op.vec.bytes.length, 0⟩ : IoUringCqe) = _ by rw [hsqe]; rfl)
    (fun hb => hb (show (0 : UInt32) &&& ioringCqeFBuffer = 0 by decide))
    (fun hb => hb (show (0 : UInt32) &&& ioringCqeFBufMore = 0 by decide))
  rwa [ho] at hstep

theorem reach_sent (h : eventLoop.Reach G w) (op : SendOp) {k : ℕ} {r : Request} {fd : Int32}
    {slot : IoUringSqe} (hr : w.requests[k]? = some r) (ho : r.origin = .send op)
    (hsqe : r.sqe = TcpStream.sendSqe fd op.key op.vec slot)
    (hmem : w.mem.vecs op.vec.ptr = some op.vec.bytes) (hlen : op.vec.bytes.length < 2 ^ 31)
    (hguard : G w (.sent k op.vec.bytes (Int32.ofNat op.vec.bytes.length) 0)) :
    eventLoop.Reach G { w with
      requests := w.requests.eraseIdx k
      cqes := w.cqes ++ [⟨⟨op.key.data, Int32.ofNat op.vec.bytes.length, 0⟩, r⟩]
      history := w.history ++ [⟨⟨op.key.data, Int32.ofNat op.vec.bytes.length, 0⟩, r⟩]
      socket := Function.update w.socket op.stream (w.socket op.stream ++ op.vec.bytes) } :=
  h.next hguard ((reach_routed h).step_sent op hr ho hsqe hmem hlen)

theorem step_recv {k i : ℕ} {data : List UInt8} {r : Request} {kg : KernelGroup} {fd : Int32}
    {recvId : UInt32} {slot : IoUringSqe} {more : Bool} (hr : w.requests[k]? = some r)
    (ho : r.origin = .recv i recvId) (hsqe : r.sqe = recvSqe fd (UInt16.ofNat i) recvId slot)
    (hg : w.groups (UInt16.ofNat i) = some kg) (havail : kg.head ≠ (w.mem.rings kg.ring).tail)
    (hpos : 0 < data.length) (hlen : data.length ≤ (kg.selected (w.mem.rings kg.ring)).len.toNat)
    (cqe : IoUringCqe) (hcqe : cqe = recvCqe r.origin.word (Int32.ofNat data.length)
      (kg.selected (w.mem.rings kg.ring)).bid more) :
    Step w (.recv k data cqe.flags) { w with
      mem := w.mem.store (kg.selected (w.mem.rings kg.ring)).addr data
      groups := Function.update w.groups (UInt16.ofNat i) (some kg.advance)
      requests := if more then w.requests else w.requests.eraseIdx k
      cqes := w.cqes ++ [⟨cqe, r⟩]
      history := w.history ++ [⟨cqe, r⟩]
      received := Function.update w.received i (w.received i ++ data) } := by
  have hbuf : r.sqe.bufGroup = UInt16.ofNat i := by rw [hsqe]; rfl
  have hmore : cqe.hasMore ↔ more = true := by
    rw [hcqe]
    exact recvCqe_hasMore ..
  have hstep : Step w (.recv k data cqe.flags) _ := .recv hr (by rw [hsqe]; rfl)
    (by rw [hsqe]; exact show iosqeBufferSelect &&& iosqeBufferSelect ≠ 0 by decide)
    (hbuf ▸ hg) havail hpos hlen
    (show cqe = ⟨r.sqe.userData, Int32.ofNat data.length, cqe.flags⟩ by rw [hcqe, ho, hsqe]; rfl)
    (by rw [hcqe]; exact recvCqe_hasBuffer _ _ _ _) (by rw [hcqe]; exact recvCqe_bufferId ..)
    (by rw [hcqe]; exact recvCqe_hasBufMore _ _ _ _)
    (fun _ => by rw [hsqe]; exact show ioringRecvMultishot &&& ioringRecvMultishot ≠ 0 by decide)
  simpa only [hbuf, ho, Origin.stream, leftAfter, hmore] using hstep

theorem Routed.step_process (hw : Routed w) {p : Posted} {rest : List Posted} {i : ℕ}
    {recvId : UInt32} {s : TcpStream} {kb : KernelBuffer} (hc : w.cqes = p :: rest)
    (ho : p.request.origin = .recv i recvId) (hs : w.streams[i]? = some s)
    (hbuffer : p.cqe.hasBuffer) (hbufMore : ¬ p.cqe.hasBufMore) (hres : 0 < p.cqe.res.toInt)
    (hget : w.pool.getReadBuf w.mem (UInt16.ofNat i) p.cqe.bufferId (resAsUsize p.cqe.res) =
      .ok kb) :
    ∃ inner : KernelBufferVecReader,
      inner.bufVec.items = s.inner.bufVec.items ++ [KernelBufferReader.new kb] ∧
      Step w .process { w with streams := w.streams.set i { s with inner }, cqes := rest } := by
  obtain ⟨inner, hitems, hd⟩ := hw.process_recv (hc ▸ List.mem_cons_self) ho hs hbuffer hbufMore
    hres hget
  exact ⟨inner, hitems, .process hc hd⟩

theorem reach_read_part (h : eventLoop.Reach G w) {i : ℕ} {s : TcpStream} {v : KernelBufferReader}
    {vs : List KernelBufferReader} (dest : List UInt8) (hguard : G w (.read i dest))
    (hs : w.streams[i]? = some s) (hitems : s.inner.bufVec.items = v :: vs)
    (hpos : 0 < dest.length) (hlt : dest.length < v.remaining) :
    eventLoop.Reach G { w with
      streams := w.streams.set i { s with
        inner := ⟨s.inner.bufVec.setFront { v with claimed := v.claimed + dest.length }⟩ }
      returned := Function.update w.returned i
        (w.returned i ++ (v.unread w.mem).take dest.length) } := by
  have hn := ((reach_routed h).stream hs).2
  have hr := h.next hguard (.read hs (TcpStream.read_part hn hitems w.mem hpos hlt))
  have htake : ((v.unread w.mem).take dest.length).take dest.length =
      (v.unread w.mem).take dest.length := by rw [List.take_take, Nat.min_self]
  rw [bytesRead, htake] at hr
  exact hr

theorem reach_read_drain (h : eventLoop.Reach G w) {i : ℕ} {s : TcpStream} {v : KernelBufferReader}
    {vs : List KernelBufferReader} (dest : List UInt8) (hguard : G w (.read i dest))
    (hs : w.streams[i]? = some s) (hitems : s.inner.bufVec.items = v :: vs)
    (hrem : 0 < v.remaining) (hle : v.remaining ≤ dest.length) :
    eventLoop.Reach G { w with
      mem := bufRingAddAdvance w.mem v.buf
      streams := w.streams.set i { s with inner := ⟨s.inner.bufVec.popFront⟩ }
      returned := Function.update w.returned i (w.returned i ++ v.unread w.mem) } := by
  have hn := ((reach_routed h).stream hs).2
  have hr := h.next hguard (.read hs (TcpStream.read_drain hn hitems w.mem hrem hle))
  have htake : (v.unread w.mem ++ dest.drop v.remaining).take v.remaining = v.unread w.mem :=
    List.take_left' (v.unread_length w.mem)
  rw [bytesRead, htake] at hr
  exact hr

/-! ### One armed stream -/

/-- Nothing connected, with a submission ring of eight entries. -/
def start : State where
  pool := .empty
  mem := { rings := fun _ => { bufs := fun _ => ⟨0, 0, 0⟩, tail := 0 }
           bytes := fun _ => 0, vecs := fun _ => none }
  sq := { khead := 0, sqeTail := 0, ringMask := 7, ringEntries := 8, sqes := fun _ => default }
  streams := []
  groups := fun _ => none
  queued := []
  requests := []
  cqes := []
  history := []
  received := fun _ => []
  returned := fun _ => []
  written := fun _ => []
  socket := fun _ => []

theorem start_init : Init start :=
  ⟨rfl, ⟨⟨⟨3, by decide, rfl⟩, rfl⟩, by decide⟩, rfl, rfl, fun _ => rfl, rfl, rfl, rfl, rfl,
    fun _ => rfl, fun _ => rfl, fun _ => rfl, fun _ => rfl⟩

/-- A socket that never has anything ready. -/
def idleSocket : RawTcpStream :=
  { fd := 3, read := fun _ => .error .wouldBlock, write := fun _ => .error .wouldBlock }

def armed (raw : RawTcpStream) (recvId : UInt32) (sq : IoUringSq) (slot : IoUringSqe) : State :=
  { start with
    pool := ⟨BufRingPool.empty.bufRingPtrs.set 0 (some 0)⟩
    mem := start.mem.setRing 0 (BufRingPool.filledRing (start.mem.rings 0) 0)
    sq
    streams := [freshStream raw 0 recvId]
    groups := Function.update start.groups 0 (some { ring := 0, head := 0, base := 0 })
    requests := [⟨recvSqe raw.fd 0 recvId slot, .recv 0 recvId⟩] }

theorem reach_armed (raw : RawTcpStream) (recvId : UInt32)
    (hconnect : G start (.connect raw recvId 0 0)) (hsubmit : ∀ w n, G w (.submit n)) :
    ∃ sq slot, sq.Wf ∧ sq.count = 0 ∧ sq.ringEntries = 8 ∧
      eventLoop.Reach G (armed raw recvId sq slot) := by
  obtain ⟨sq, slot, hwf, hent, hqueue, h⟩ := reach_connect (System.Reach.start start_init) hconnect
    (by decide) (by decide) (fun _ _ h => by cases h) rfl (fun _ _ h => by cases h)
  have hq : sq.queue = [recvSqe raw.fd 0 recvId slot] := hqueue
  have hsub := reach_submit h (hsubmit _ _)
  obtain ⟨hwf', hc, -⟩ := IoUringSq.kernelTake_spec hwf le_rfl
  refine ⟨sq.kernelTake sq.count, slot, hwf', by omega, hent, ?_⟩
  rw [hq] at hsub
  exact hsub

def firstSend (buf : List UInt8) : SendOp := { stream := 0, seq := 0, req := 1000, vec := ⟨0, buf⟩ }

def sending (raw : RawTcpStream) (recvId : UInt32) (buf : List UInt8) (sq : IoUringSq)
    (slot slot' : IoUringSqe) : State :=
  { armed raw recvId sq slot with
    mem := (armed raw recvId sq slot).mem.alloc 0 buf
    streams := [(freshStream raw 0 recvId).written 0 buf]
    requests := [⟨recvSqe raw.fd 0 recvId slot, .recv 0 recvId⟩,
      ⟨TcpStream.sendSqe raw.fd (firstSend buf).key ⟨0, buf⟩ slot', .send (firstSend buf)⟩]
    written := Function.update start.written 0 [buf] }

def secondSend (buf : List UInt8) : SendOp := { stream := 0, seq := 1, req := 1001, vec := ⟨1, buf⟩ }

/-- Two writes, submitted together behind the receive. -/
def sendingTwo (raw : RawTcpStream) (recvId : UInt32) (buf buf' : List UInt8) (sq : IoUringSq)
    (slot slot₀ slot₁ : IoUringSqe) : State :=
  { armed raw recvId sq slot with
    mem := ((armed raw recvId sq slot).mem.alloc 0 buf).alloc 1 buf'
    streams := [((freshStream raw 0 recvId).written 0 buf).written 1 buf']
    requests := [⟨recvSqe raw.fd 0 recvId slot, .recv 0 recvId⟩,
      ⟨TcpStream.sendSqe raw.fd (firstSend buf).key ⟨0, buf⟩ slot₀, .send (firstSend buf)⟩,
      ⟨TcpStream.sendSqe raw.fd (secondSend buf').key ⟨1, buf'⟩ slot₁, .send (secondSend buf')⟩]
    written := Function.update start.written 0 [buf, buf'] }

theorem firstSend_fresh (raw : RawTcpStream) (recvId : UInt32) (buf : List UInt8) :
    ((freshStream raw 0 recvId).written 0 buf).pendingSent.lookup
      ((freshStream raw 0 recvId).written 0 buf).sendKey = none := by
  have hne : (secondSend []).key ≠ (firstSend []).key := by decide
  exact (Finmap.lookup_insert_of_ne _ hne).trans (Finmap.lookup_empty _)

theorem sole_fresh {w : State} {t : TcpStream} (hw : w.streams = [t])
    (h : t.pendingSent.lookup t.sendKey = none) (s : TcpStream) (hs : w.streams[0]? = some s) :
    s.pendingSent.lookup s.sendKey = none := by
  rw [hw] at hs
  obtain rfl := Option.some.inj hs
  exact h

theorem reach_sendingTwo (raw : RawTcpStream) (recvId : UInt32) (buf buf' : List UInt8)
    (hpos : 0 < buf.length) (hpos' : 0 < buf'.length) (hconnect : G start (.connect raw recvId 0 0))
    (hsubmit : ∀ w n, G w (.submit n))
    (hwrite : ∀ sq slot, G (armed raw recvId sq slot) (.write 0 0 buf))
    (hwrite' : ∀ w : State, w.streams = [(freshStream raw 0 recvId).written 0 buf] →
      w.written 0 = [buf] → G w (.write 0 1 buf')) :
    ∃ sq slot slot₀ slot₁, eventLoop.Reach G (sendingTwo raw recvId buf buf' sq slot slot₀ slot₁) := by
  obtain ⟨sq, slot, hwf, hc, hent, h⟩ := reach_armed raw recvId hconnect hsubmit
  obtain ⟨sq₀, slot₀, hwf₀, hent₀, hq₀, h₀⟩ := reach_write h (i := 0) (hwrite sq slot) rfl rfl
    (show sq.count < sq.ringEntries.toNat by rw [hc, hent]; decide) hpos
  have hq : sq.queue = [] := List.length_eq_zero_iff.mp (by rw [IoUringSq.queue_length, hc])
  have hqueue : (armed raw recvId sq slot).sq.queue = [] := hq
  rw [hqueue, List.nil_append] at hq₀
  have hcount₀ : sq₀.count = 1 := by
    rw [← IoUringSq.queue_length, hq₀]
    rfl
  have hentries : sq₀.ringEntries = 8 := hent₀.trans hent
  obtain ⟨sq₁, slot₁, -, -, hq₁, h₁⟩ := reach_write h₀ (i := 0) (hwrite' _ rfl rfl) rfl rfl
    (show sq₀.count < sq₀.ringEntries.toNat by rw [hcount₀, hentries]; decide) hpos'
  have h₂ := reach_submit h₁ (hsubmit _ _)
  simp only [hq₀] at hq₁
  simp only [hq₁, Function.update_idem,
    TcpStream.writtenMem_of_fresh (firstSend_fresh raw recvId buf)] at h₂
  exact ⟨sq₁.kernelTake sq₁.count, slot, slot₀, slot₁, h₂⟩

def firstRecv (recvId : UInt32) (n : ℕ) (more : Bool) : IoUringCqe :=
  recvCqe (Origin.recv 0 recvId).word (Int32.ofNat n) 0 more

def filled (raw : RawTcpStream) (recvId : UInt32) (data : List UInt8) (more : Bool)
    (sq : IoUringSq) (slot : IoUringSqe) : State :=
  let r : Request := ⟨recvSqe raw.fd 0 recvId slot, .recv 0 recvId⟩
  { armed raw recvId sq slot with
    mem := (armed raw recvId sq slot).mem.store 0 data
    groups := Function.update (armed raw recvId sq slot).groups 0
      (some { ring := 0, head := 1, base := 0 })
    requests := if more then [r] else []
    cqes := [⟨firstRecv recvId data.length more, r⟩]
    history := [⟨firstRecv recvId data.length more, r⟩]
    received := Function.update start.received 0 data }

theorem armed_ring (raw : RawTcpStream) (recvId : UInt32) (sq : IoUringSq) (slot : IoUringSqe) :
    (armed raw recvId sq slot).mem.rings 0 = BufRingPool.filledRing (start.mem.rings 0) 0 :=
  Memory.setRing_self ..

theorem filledRing_start_bufs :
    (BufRingPool.filledRing (start.mem.rings 0) 0).bufs 0 = groupBuf 0 0 :=
  BufRingPool.filledRing_bufs rfl 0 (by decide)

theorem step_filled (raw : RawTcpStream) (recvId : UInt32) (sq : IoUringSq) (slot : IoUringSqe)
    (data : List UInt8) (more : Bool) (hpos : 0 < data.length) (hlen : data.length ≤ bufSize.toNat) :
    Step (armed raw recvId sq slot) (.recv 0 data (firstRecv recvId data.length more).flags)
      (filled raw recvId data more sq slot) := by
  let kg : KernelGroup := { ring := 0, head := 0, base := 0 }
  have hg : (armed raw recvId sq slot).groups (UInt16.ofNat 0) = some kg := rfl
  have hring : (armed raw recvId sq slot).mem.rings kg.ring =
      BufRingPool.filledRing (start.mem.rings 0) 0 := armed_ring ..
  have hsel : kg.selected ((armed raw recvId sq slot).mem.rings kg.ring) = groupBuf 0 0 := by
    rw [hring, KernelGroup.selected_eq, show kg.head.toNat % 1024 = 0 from rfl]
    exact filledRing_start_bufs
  have havail : kg.head ≠ ((armed raw recvId sq slot).mem.rings kg.ring).tail := by
    rw [hring, BufRingPool.filledRing_tail rfl]
    exact show (0 : UInt16) ≠ 1024 by decide
  have hcqe : firstRecv recvId data.length more = recvCqe (Origin.recv 0 recvId).word
      (Int32.ofNat data.length) (kg.selected ((armed raw recvId sq slot).mem.rings kg.ring)).bid
      more := by
    rw [hsel]
    rfl
  have hs := step_recv (w := armed raw recvId sq slot) (k := 0) rfl rfl rfl hg havail hpos
    (by rw [hsel]; exact hlen) _ hcqe
  rw [hsel] at hs
  cases more
  · exact hs
  · exact hs

theorem reach_filled {raw : RawTcpStream} {recvId : UInt32} {sq : IoUringSq} {slot : IoUringSqe}
    (h : eventLoop.Reach G (armed raw recvId sq slot)) (data : List UInt8) (more : Bool)
    (hpos : 0 < data.length) (hlen : data.length ≤ bufSize.toNat)
    (hguard : G (armed raw recvId sq slot)
      (.recv 0 data (firstRecv recvId data.length more).flags)) :
    eventLoop.Reach G (filled raw recvId data more sq slot) :=
  h.next hguard (step_filled raw recvId sq slot data more hpos hlen)

theorem filled_unread (raw : RawTcpStream) (recvId : UInt32) (data : List UInt8) (more : Bool)
    (sq : IoUringSq) (slot : IoUringSqe) :
    (KernelBufferReader.new ⟨0, data.length, 0, 0, 0, bufSize⟩).unread
      (filled raw recvId data more sq slot).mem = data :=
  ByteMemory.load_store (armed raw recvId sq slot).mem.bytes 0 data

theorem step_queued {raw : RawTcpStream} {recvId : UInt32} {sq : IoUringSq} {slot : IoUringSqe}
    {data : List UInt8} {more : Bool}
    (h : eventLoop.Reach G (filled raw recvId data more sq slot)) (hpos : 0 < data.length)
    (hlen : data.length ≤ bufSize.toNat) :
    ∃ inner : KernelBufferVecReader,
      inner.bufVec.items = [KernelBufferReader.new ⟨0, data.length, 0, 0, 0, bufSize⟩] ∧
      Step (filled raw recvId data more sq slot) .process
        { filled raw recvId data more sq slot with
          streams := [{ freshStream raw 0 recvId with inner }], cqes := [] } := by
  have hlen' : data.length ≤ 1500 := hlen
  have hres : (Int32.ofNat data.length).toInt = data.length :=
    Int32.toInt_ofNat_of_lt (show data.length < 2 ^ 31 by omega)
  have hsize : resAsUsize (Int32.ofNat data.length) = data.length := by
    rw [resAsUsize_of_nonneg (by omega), hres]
    rfl
  have hof : (UInt32.ofNat data.length).toNat = data.length :=
    UInt32.toNat_ofNat_of_lt' (show data.length < 4294967296 by omega)
  have hring : (filled raw recvId data more sq slot).mem.rings 0 =
      BufRingPool.filledRing (start.mem.rings 0) 0 := armed_ring raw recvId sq slot
  have hget : (filled raw recvId data more sq slot).pool.getReadBuf
      (filled raw recvId data more sq slot).mem 0 0 (resAsUsize (Int32.ofNat data.length)) =
      .ok ⟨0, data.length, 0, 0, 0, bufSize⟩ := by
    refine BufRingPool.getReadBuf_eq_ok.mpr ⟨0, rfl, by decide, ?_⟩
    rw [hring, show (0 : UInt16).toNat = 0 from rfl, filledRing_start_bufs, hsize]
    refine ⟨rfl, ?_, rfl⟩
    rw [UInt32.le_iff_toNat_le, hof]
    exact hlen
  have hbid : (firstRecv recvId data.length more).bufferId = 0 := recvCqe_bufferId ..
  exact (reach_routed h).step_process rfl rfl rfl (recvCqe_hasBuffer _ _ _ _)
    (recvCqe_hasBufMore _ _ _ _) (by
      change 0 < (Int32.ofNat data.length).toInt
      omega) (by rw [hbid]; exact hget)

end UringWs.EventLoop
