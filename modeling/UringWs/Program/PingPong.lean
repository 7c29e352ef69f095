import UringWs.Program.Net

/-! # The event loop

A round of the set-up loop connects one stream: its buffer group, its receive
entry and its slot in the stream table. The body of the completion loop hands
one posted entry to the stream whose id it carries.
-/
namespace UringWs
open Checked

/-- `setup` and `bufsAddr` are the answers of the buffer-ring registration and
of the allocator. -/
def setupStream (pool : BufRingPool) (mem : Memory) (sq : IoUringSq) (raw : RawTcpStream)
    (ownerId : UInt16) (recvId : UInt32) (setup : Option RingPtr) (bufsAddr : Option ℕ) :
    Except Fault (BufRingPool × Memory × IoUringSq × TcpStream) := do
  let stream := (TcpStream.newFromStd raw ownerId recvId).setNonblocking true
  let bufferGroupId := ownerId
  let (pool, mem) ← pool.newBufferGroup mem bufferGroupId setup bufsAddr
  let (sqe, sq) ← getSqeUnwrap sq
  let userData := UserData.fromParts Event.multishortRecv.toU8 ownerId recvId
  let sq := sq.modifySqe sqe (ioUringSqeSetData userData.asU64)
  let prepared ← Op.multishotRecv raw.fd 0 bufferGroupId (sq.sqes sqe)
  .ok (pool, mem, sq.modifySqe sqe (fun _ => prepared), stream)

def dispatch (pool : BufRingPool) (mem : Memory) (streams : List TcpStream)
    (cqe : Option IoUringCqe) : Except Fault (List TcpStream × Memory) := do
  let completion ← Completion.fromRawEvent pool mem cqe
  let streamId := completion.userData.owner
  let s ← unwrap streams[streamId.toNat]? (.noStream streamId)
  let (s, mem) ← s.onCompletion mem completion
  .ok (streams.set streamId.toNat s, mem)

def recvSqe (fd : Int32) (ownerId : UInt16) (recvId : UInt32) (slot : IoUringSqe) : IoUringSqe :=
  { ioUringInitializeSqe slot with
    userData := (UserData.fromParts Event.multishortRecv.toU8 ownerId recvId).asU64
    opcode := ioringOpRecv, fd, opFlags := 0, ioprio := ioringRecvMultishot
    bufGroup := ownerId, flags := iosqeBufferSelect }

def freshStream (raw : RawTcpStream) (ownerId : UInt16) (recvId : UInt32) : TcpStream :=
  (TcpStream.newFromStd raw ownerId recvId).setNonblocking true

/-- A successful round sets up the stream's own group and enqueues its receive. -/
theorem setupStream_spec {pool pool' : BufRingPool} {mem mem' : Memory} {sq sq' : IoUringSq}
    {raw : RawTcpStream} {g : UInt16} {recvId : UInt32} {p : RingPtr} {base : ℕ} {s : TcpStream}
    (hwf : sq.Wf)
    (h : setupStream pool mem sq raw g recvId (some p) (some base) = .ok (pool', mem', sq', s)) :
    (∃ hg : g.toNat < maxBufferGroup,
      pool' = { bufRingPtrs := pool.bufRingPtrs.set g.toNat (some p) hg }) ∧
    mem' = mem.setRing p (BufRingPool.filledRing (mem.rings p) base) ∧
    s = freshStream raw g recvId ∧ sq'.Wf ∧ sq'.ringEntries = sq.ringEntries ∧
    ∃ slot, sq'.queue = sq.queue ++ [recvSqe raw.fd g recvId slot] := by
  simp only [setupStream, bind_eq_ok, Prod.exists, Except.ok.injEq, Prod.mk.injEq,
    BufRingPool.newBufferGroup_eq_ok, Op.multishotRecv, ensure_eq_ok, exists_const] at h
  obtain ⟨pool₁, mem₁, ⟨hg, rfl, rfl⟩, idx, sq₁, hsq, sqe, ⟨-, rfl⟩, rfl, rfl, rfl, rfl⟩ := h
  obtain ⟨hwf', -, hq, he⟩ := IoUringSq.prepare_spec hwf hsq (fun sqe =>
    { ioUringSqeSetData (UserData.fromParts Event.multishortRecv.toU8 g recvId).asU64 sqe with
      opcode := ioringOpRecv, fd := raw.fd, opFlags := 0, ioprio := ioringRecvMultishot
      bufGroup := g, flags := sqe.flags ||| iosqeBufferSelect })
  refine ⟨⟨hg, rfl⟩, rfl, rfl, ?_, he, ?_⟩
  · simpa [IoUringSq.modifySqe, ioUringSqeSetData] using hwf'
  · refine ⟨sq.sqes idx, ?_⟩
    simpa [IoUringSq.modifySqe, ioUringSqeSetData, recvSqe, ioUringInitializeSqe] using hq

theorem setupStream_isOk (pool : BufRingPool) (mem : Memory) {sq : IoUringSq} (raw : RawTcpStream)
    {g : UInt16} (recvId : UInt32) (p : RingPtr) (base : ℕ) (hwf : sq.Wf)
    (hroom : sq.count < sq.ringEntries.toNat) (hg : g.toNat < maxBufferGroup) :
    ∃ r, setupStream pool mem sq raw g recvId (some p) (some base) = .ok r := by
  have hnew : pool.newBufferGroup mem g (some p) (some base) = .ok (_, _) :=
    BufRingPool.newBufferGroup_eq_ok.mpr ⟨hg, rfl, rfl⟩
  have hflags : (0 : UInt32) &&& msgWaitall = 0 := by decide
  simp only [setupStream, hnew, ok_bind, getSqeUnwrap, IoUringSq.getSqe_room hwf hroom,
    Op.multishotRecv, ensure_of, hflags]
  exact ⟨_, rfl⟩

/-- The loop body hands an entry whose word a stream of the table packed to that
stream, in the arm of the packed event, and changes no other stream. -/
theorem dispatch_eq {pool : BufRingPool} {mem : Memory} {streams : List TcpStream}
    {cqe : IoUringCqe} {i : ℕ} {s : TcpStream} {e : Event} (req : UInt32)
    (hs : streams[i]? = some s) (howner : s.ownerId.toNat = i)
    (hu : cqe.userData = (UserData.fromParts e.toU8 s.ownerId req).data) :
    dispatch pool mem streams (some cqe) = (do
      let completion ← Completion.fromRawEvent pool mem (some cqe)
      let (s', mem') ← s.arm e mem completion
      .ok (streams.set i s', mem')) := by
  unfold dispatch
  cases hc : Completion.fromRawEvent pool mem (some cqe) with
  | error f => rfl
  | ok c =>
    have hud : c.userData = .fromParts e.toU8 s.ownerId req := by
      rw [(Completion.fromRawEvent_cqe hc).2, hu, UserData.fromPacked_data]
    have ho : c.userData.owner = s.ownerId := hud ▸ UserData.owner_fromParts ..
    simp only [ok_bind, ho, howner, hs, unwrap_some]
    rw [TcpStream.onCompletion_fromParts hud]

end UringWs
