import UringWs.Foundation.ChunkQueue
import UringWs.System.Progress

/-! # The queue of received buffers

Buffers are pushed when their completions are handled and read from by the
decoder; the kernel may write buffers that are not queued. A stream's reads
refine those of a queue of chunks.
-/
namespace UringWs.ReadQueue
open Checked

structure State where
  reader : KernelBufferVecReader
  mem : Memory

inductive Op
  | push (buf : KernelBuffer)
  | read (dest : List UInt8)

def State.apply (s : State) : Op → Except Fault State
  | .push buf => do
    let reader ← s.reader.push buf
    .ok { s with reader }
  | .read dest => do
    let (_, _, reader, mem) ← s.reader.read s.mem dest
    .ok { reader, mem }

inductive Action
  | op (o : Op)
  | kernel (mem : Memory)

inductive Step : State → Action → State → Prop
  | op {s s' : State} {o : Op} (h : s.apply o = .ok s') : Step s (.op o) s'
  /-- the kernel writes no byte that is queued -/
  | kernel {s : State} {mem : Memory}
      (hkeep : ∀ v ∈ s.reader.bufVec.items, v.unread mem = v.unread s.mem) :
      Step s (.kernel mem) { s with mem }

def readQueue : System State Action :=
  { init := fun s => ∃ capacity, s.reader = .new capacity, step := Step }

/-- Only buffers with data are pushed. -/
def CarriesData (_ : State) : Action → Prop
  | .op (.push buf) => 0 < buf.dataLen
  | _ => True

/-- The unread bytes, by buffer. -/
def chunks (q : KernelBufferVecReader) (mem : Memory) : List (List UInt8) :=
  q.bufVec.items.map (·.unread mem)

theorem chunks_flatten (q : KernelBufferVecReader) (mem : Memory) :
    (chunks q mem).flatten = q.unread mem := by
  rw [chunks, KernelBufferVecReader.unread, List.flatMap_def]

variable {q q' : KernelBufferVecReader} {mem mem' : Memory} {s s' : State}

theorem unread_congr {v : KernelBufferReader} (h : mem'.bytes = mem.bytes) :
    v.unread mem' = v.unread mem := by
  rw [KernelBufferReader.unread, KernelBufferReader.unread, KernelBuffer.data, KernelBuffer.data, h]

/-- Pushing a buffer queues its data as a chunk. -/
theorem chunks_push {buf : KernelBuffer} (h : q.push buf = .ok q') :
    chunks q' mem = chunks q mem ++ [buf.data mem 0] := by
  rw [chunks, KernelBufferVecReader.push_eq_ok h, List.map_append]
  rfl

/-- A read that returns leaves the chunks that a read of the chunk queue leaves. -/
theorem chunks_read {dest dest' : List UInt8} {n : ℕ} (h : q.read mem dest = .ok (n, dest', q', mem')) :
    chunks q' mem' = (ChunkQueue.read dest.length (chunks q mem)).2 := by
  rcases KernelBufferVecReader.read_cases h with
    ⟨hnil, -, rfl, rfl⟩ | ⟨v, vs, hitems, hrem, ⟨hpos, hlt, -, -, rfl, rfl⟩ | ⟨hle, -, -, rfl, rfl⟩⟩
  · rw [chunks, hnil]
    rfl
  · rw [chunks, chunks, hitems, List.map_cons,
      ChunkQueue.read_cons_of_lt (by rwa [KernelBufferReader.unread_length])]
    simp only [VecDeque.setFront, hitems, List.set_cons_zero, List.map_cons,
      KernelBufferReader.unread, KernelBuffer.data_drop]
  · rw [chunks, chunks, hitems, List.map_cons,
      ChunkQueue.read_cons_of_le (by rwa [KernelBufferReader.unread_length])]
    simp only [VecDeque.popFront, hitems, List.tail_cons]
    exact List.map_congr_left fun w _ => unread_congr (bufRingAddAdvance_bytes ..)

/-- Every run is a run of the chunk queue. -/
theorem reach_chunks (h : readQueue.Reach CarriesData s) :
    ChunkQueue.chunkQueue.Reachable (chunks s.reader s.mem) := by
  refine h.simulate (N := ChunkQueue.chunkQueue) (fun s => chunks s.reader s.mem) ?_ ?_
  · rintro s ⟨capacity, h₀⟩
    rw [h₀]
    rfl
  · intro s a t hr hg hs
    cases hs with
    | @op _ o h =>
      cases o with
      | push buf =>
        simp only [State.apply, bind_eq_ok, Except.ok.injEq] at h
        obtain ⟨reader, hpush, rfl⟩ := h
        have hdata : buf.data s.mem 0 ≠ [] :=
          List.ne_nil_of_length_pos (by rw [KernelBuffer.data_length]; exact hg)
        simp only [chunks_push hpush]
        exact .single ⟨.push _, trivial, .push hdata⟩
      | read dest =>
        simp only [State.apply, bind_eq_ok, Prod.exists, Except.ok.injEq] at h
        obtain ⟨n, dest', reader, mem, hread, rfl⟩ := h
        simp only [chunks_read hread]
        exact .single ⟨.read _, trivial, .read _ _⟩
    | kernel hkeep =>
      have hsame : chunks s.reader _ = chunks s.reader s.mem := List.map_congr_left hkeep
      simp only [hsame]
      exact .refl

theorem reach_remaining (h : readQueue.Reach CarriesData s) :
    ∀ v ∈ s.reader.bufVec.items, 0 < v.remaining := by
  intro v hv
  have hne := ChunkQueue.reach_nonempty (reach_chunks h) _ (List.mem_map_of_mem hv)
  rw [← KernelBufferReader.unread_length s.mem v]
  exact List.length_pos_of_ne_nil hne

/-- What a read of a nonblocking stream does with its queue. -/
structure ReadsQueue (s : TcpStream) (mem : Memory) (dest : List UInt8) : Prop where
  /-- with nothing buffered it would block, and changes nothing -/
  blocks : s.inner.unread mem = [] → s.read mem dest = .ok (.error .wouldBlock, dest, s, mem)
  /-- otherwise it fills the destination from the front buffer, which is dropped
  exactly when its last byte is read -/
  reads : dest ≠ [] → s.inner.unread mem ≠ [] → ∃ v vs inner mem',
    s.inner.bufVec.items = v :: vs ∧
    s.read mem dest = .ok (.ok (min dest.length v.remaining),
      (s.inner.unread mem).take (min dest.length v.remaining) ++
        dest.drop (min dest.length v.remaining), { s with inner }, mem') ∧
    inner.unread mem' = (s.inner.unread mem).drop (min dest.length v.remaining) ∧
    if v.remaining ≤ dest.length then
      inner.bufVec.items = vs ∧ mem' = bufRingAddAdvance mem v.buf
    else inner.bufVec.items = { v with claimed := v.claimed + dest.length } :: vs ∧ mem' = mem
  /-- an empty destination stops the program when something is buffered -/
  stops : dest = [] → s.inner.unread mem ≠ [] → s.read mem dest = .error (.nothingRead 0)

theorem items_eq_nil_iff (h : readQueue.Reach CarriesData s) :
    s.reader.unread s.mem = [] ↔ s.reader.bufVec.items = [] := by
  rw [← chunks_flatten, ChunkQueue.flatten_eq_nil_iff (ChunkQueue.reach_nonempty (reach_chunks h)),
    chunks, List.map_eq_nil_iff]

/-- A read into a nonempty destination takes from the front buffer. -/
theorem read_front {v : KernelBufferReader} {vs : List KernelBufferReader} {dest : List UInt8}
    (hitems : q.bufVec.items = v :: vs) (hrem : 0 < v.remaining) (hpos : 0 < dest.length) :
    ∃ inner mem', q.read mem dest = .ok (min dest.length v.remaining,
        (q.unread mem).take (min dest.length v.remaining) ++
          dest.drop (min dest.length v.remaining), inner, mem') ∧
      inner.unread mem' = (q.unread mem).drop (min dest.length v.remaining) ∧
      if v.remaining ≤ dest.length then
        inner.bufVec.items = vs ∧ mem' = bufRingAddAdvance mem v.buf
      else inner.bufVec.items = { v with claimed := v.claimed + dest.length } :: vs ∧ mem' = mem := by
  have hchunks : chunks q mem = v.unread mem :: vs.map (·.unread mem) := by
    rw [chunks, hitems, List.map_cons]
  have hlen := v.unread_length mem
  obtain ⟨htake, hdrop⟩ := ChunkQueue.read_eq_take_drop dest.length (v.unread mem)
    (vs.map (·.unread mem))
  rw [← hchunks, chunks_flatten, hlen] at htake hdrop
  rw [← htake, ← hdrop]
  rcases Nat.lt_or_ge dest.length v.remaining with hlt | hle
  · have hread := KernelBufferVecReader.read_part hitems mem hpos hlt
    refine ⟨_, _, ?_, by rw [← chunks_flatten, chunks_read hread], ?_⟩
    · rw [hread, hchunks, ChunkQueue.read_cons_of_lt (hlen.symm ▸ hlt), Nat.min_eq_left hlt.le,
        List.drop_length, List.append_nil]
    · rw [if_neg (Nat.not_le.mpr hlt)]
      simp only [VecDeque.setFront, hitems, List.set_cons_zero, and_self]
  · have hread := KernelBufferVecReader.read_drain hitems mem hrem hle
    refine ⟨_, _, ?_, by rw [← chunks_flatten, chunks_read hread], ?_⟩
    · rw [hread, hchunks, ChunkQueue.read_cons_of_le (hlen.trans_le hle), Nat.min_eq_right hle]
    · rw [if_pos hle]
      simp only [VecDeque.popFront, hitems, List.tail_cons, and_self]

/-- Reads of a nonblocking stream refine reads of the chunk queue. -/
theorem read_refines (h : readQueue.Reach CarriesData s) {t : TcpStream} (hn : t.nonblocking = true)
    (ht : t.inner = s.reader) (dest : List UInt8) : ReadsQueue t s.mem dest := by
  have hnil := items_eq_nil_iff h
  rw [← ht] at hnil
  have hfront : t.inner.unread s.mem ≠ [] →
      ∃ v vs, t.inner.bufVec.items = v :: vs ∧ 0 < v.remaining := by
    intro hunread
    obtain ⟨v, vs, hitems⟩ := List.exists_cons_of_ne_nil (mt hnil.mpr hunread)
    exact ⟨v, vs, hitems, reach_remaining h v (by rw [← ht, hitems]; exact List.mem_cons_self)⟩
  refine ⟨fun hunread => ?_, fun hdest hunread => ?_, fun hdest hunread => ?_⟩
  · exact TcpStream.read_nil hn (hnil.mp hunread) s.mem dest
  · obtain ⟨v, vs, hitems, hrem⟩ := hfront hunread
    have hpos : 0 < dest.length := List.length_pos_of_ne_nil hdest
    obtain ⟨inner, mem', hread, hrest⟩ := read_front hitems hrem hpos
    refine ⟨v, vs, inner, mem', hitems, (TcpStream.read_eq_ok hn).mpr ⟨_, _, hread, rfl, ?_⟩, hrest⟩
    rw [if_neg (by omega)]
  · obtain ⟨v, vs, hitems, hrem⟩ := hfront hunread
    subst hdest
    rw [TcpStream.read, if_neg (by simp [hn]), KernelBufferVecReader.read_empty hitems hrem,
      error_bind]

/-- A buffer of two bytes. -/
def pair : KernelBuffer :=
  { addr := 0, dataLen := 2, bufRing := 0, bid := 0, bgid := 0, bufLen := bufSize }

/-- The queue of a fresh stream after one push. -/
def pushed : State :=
  { reader := ⟨(VecDeque.withCapacity ringPoolSize.toNat).pushBack (.new pair)⟩
    mem := EventLoop.start.mem }

def pushedStream : TcpStream :=
  { freshStream EventLoop.idleSocket 0 1200 with inner := pushed.reader }

theorem reach_pushed : readQueue.Reach CarriesData pushed := by
  have h : readQueue.Reach CarriesData ⟨.new ringPoolSize.toNat, EventLoop.start.mem⟩ :=
    .start ⟨_, rfl⟩
  exact h.next (a := .op (.push pair)) (show 0 < 2 by decide) (.op rfl)

/-- A buffer of one byte, behind the block's first. -/
def single : KernelBuffer :=
  { addr := 1500, dataLen := 1, bufRing := 0, bid := 1, bgid := 0, bufLen := bufSize }

def pushedBoth : State :=
  { reader := ⟨((VecDeque.withCapacity ringPoolSize.toNat).pushBack (.new pair)).pushBack
      (.new single)⟩
    mem := (EventLoop.start.mem.store 0 [1, 2]).store 1500 [3] }

def bothStream : TcpStream :=
  { freshStream EventLoop.idleSocket 0 1200 with inner := pushedBoth.reader }

theorem reach_pushedBoth : readQueue.Reach CarriesData pushedBoth := by
  have h : readQueue.Reach CarriesData ⟨.new ringPoolSize.toNat, pushedBoth.mem⟩ :=
    .start ⟨_, rfl⟩
  have h₁ := h.next (a := Action.op (.push pair)) (show 0 < 2 by decide) (.op rfl)
  exact h₁.next (a := Action.op (.push single)) (show 0 < 1 by decide) (.op rfl)

/-- A read with room for three bytes, of which the front buffer has two. -/
theorem read_refines_pushed : bothStream.inner.unread pushedBoth.mem = [1, 2, 3] ∧
    ReadsQueue bothStream pushedBoth.mem [9, 9, 9] :=
  ⟨by decide, read_refines reach_pushedBoth rfl rfl [9, 9, 9]⟩

/-- Reading into an empty destination with two bytes buffered. -/
theorem read_stops : readQueue.Reach CarriesData pushed ∧
    pushedStream.inner = pushed.reader ∧ pushedStream.inner.unread pushed.mem = [0, 0] ∧
    pushedStream.read pushed.mem [] = .error (.nothingRead 0) ∧
    (Fault.nothingRead 0).message = some "buf_len = 0" :=
  ⟨reach_pushed, rfl, rfl, rfl, by decide⟩

end UringWs.ReadQueue
