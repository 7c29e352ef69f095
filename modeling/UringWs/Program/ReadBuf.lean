import UringWs.Program.BufRing

/-! # Queued kernel buffers and their readers

A reader hands out the unread bytes of one kernel buffer. A stream keeps its
readers in a deque; the front one is dropped, and its buffer returned to the
kernel, when its last byte is read.
-/
namespace UringWs
open Checked

def KernelBuffer.data (mem : Memory) (kb : KernelBuffer) (offset : ℕ) : List UInt8 :=
  ByteMemory.load mem.bytes (kb.addr + offset) (kb.dataLen - offset)

@[simp] theorem KernelBuffer.data_length (mem : Memory) (kb : KernelBuffer) (offset : ℕ) :
    (kb.data mem offset).length = kb.dataLen - offset := by simp [data]

theorem KernelBuffer.data_drop (mem : Memory) (kb : KernelBuffer) (m n : ℕ) :
    (kb.data mem m).drop n = kb.data mem (m + n) := by
  rw [data, ByteMemory.load_drop, data, Nat.add_assoc, Nat.sub_sub]

/-- The option around the buffer is emptied only inside the destructor, so a
reader that can be observed always has its buffer. -/
structure KernelBufferReader where
  buf : KernelBuffer
  claimed : ℕ
deriving DecidableEq, Repr

namespace KernelBufferReader

def new (buf : KernelBuffer) : KernelBufferReader := { buf, claimed := 0 }

def commit (r : KernelBufferReader) (len : ℕ) : Except Fault KernelBufferReader := do
  let r := { r with claimed := r.claimed + len }
  ensure (r.claimed ≤ r.buf.dataLen) .claimedTooMuch
  .ok r

def remaining (r : KernelBufferReader) : ℕ := r.buf.dataLen - r.claimed

def unread (mem : Memory) (r : KernelBufferReader) : List UInt8 := r.buf.data mem r.claimed

@[simp] theorem unread_length (mem : Memory) (r : KernelBufferReader) :
    (r.unread mem).length = r.remaining := by simp [unread, remaining]

/-- Returns the byte count, the destination after the copy, and the reader. -/
def read (r : KernelBufferReader) (mem : Memory) (dest : List UInt8) :
    Except Fault (ℕ × List UInt8 × KernelBufferReader) := do
  ensure (0 < r.remaining) .noRemaining
  let data := r.buf.data mem r.claimed
  let claimed := min data.length dest.length
  let r ← r.commit claimed
  ensure (r.claimed ≤ r.buf.dataLen) .claimedTooMuch
  .ok (claimed, data.take claimed ++ dest.drop claimed, r)

theorem read_of_remaining {r : KernelBufferReader} (h : 0 < r.remaining) (mem : Memory)
    (dest : List UInt8) : r.read mem dest =
      .ok (min r.remaining dest.length,
        (r.unread mem).take (min r.remaining dest.length) ++
          dest.drop (min r.remaining dest.length),
        { r with claimed := r.claimed + min r.remaining dest.length }) := by
  unfold remaining at *
  have hc : r.claimed + min (r.buf.dataLen - r.claimed) dest.length ≤ r.buf.dataLen := by omega
  simp only [read, remaining, ensure_of, h, hc, ok_bind, KernelBuffer.data_length, commit, unread]

end KernelBufferReader

/-- A deque with its capacity, which never falls below its length. -/
structure VecDeque (α : Type) where
  items : List α
  capacity : ℕ
  length_le : items.length ≤ capacity

namespace VecDeque
variable {α : Type}

def withCapacity (capacity : ℕ) : VecDeque α := ⟨[], capacity, Nat.zero_le _⟩

/-- Amortised growth: twice the capacity, and at least four. -/
def grow (capacity : ℕ) : ℕ := max 4 (max (2 * capacity) (capacity + 1))

theorem lt_grow (capacity : ℕ) : capacity < grow capacity := by unfold grow; omega

def pushBack (d : VecDeque α) (a : α) : VecDeque α :=
  if h : d.items.length = d.capacity then
    ⟨d.items ++ [a], grow d.capacity, by
      have := lt_grow d.capacity
      simp only [List.length_append, List.length_singleton]
      omega⟩
  else ⟨d.items ++ [a], d.capacity, by have := d.length_le; simp; omega⟩

@[simp] theorem pushBack_items (d : VecDeque α) (a : α) :
    (d.pushBack a).items = d.items ++ [a] := by
  unfold pushBack
  split <;> rfl

theorem pushBack_capacity {d : VecDeque α} (h : d.items.length ≠ d.capacity) (a : α) :
    (d.pushBack a).capacity = d.capacity := by
  rw [pushBack, dif_neg h]

def setFront (d : VecDeque α) (a : α) : VecDeque α :=
  ⟨d.items.set 0 a, d.capacity, by simpa using d.length_le⟩

def popFront (d : VecDeque α) : VecDeque α :=
  ⟨d.items.tail, d.capacity, by have := d.length_le; simp; omega⟩

end VecDeque

structure KernelBufferVecReader where
  bufVec : VecDeque KernelBufferReader

namespace KernelBufferVecReader

def new (capacity : ℕ) : KernelBufferVecReader := ⟨.withCapacity capacity⟩

def push (q : KernelBufferVecReader) (buf : KernelBuffer) :
    Except Fault KernelBufferVecReader := do
  let bufVec := q.bufVec.pushBack (KernelBufferReader.new buf)
  ensure (bufVec.items.length ≤ bufVec.capacity) .reallocated
  .ok ⟨bufVec⟩

/-- Returns the byte count, the destination, the queue, and the memory after a
drained buffer was dropped. -/
def read (q : KernelBufferVecReader) (mem : Memory) (dest : List UInt8) :
    Except Fault (ℕ × List UInt8 × KernelBufferVecReader × Memory) :=
  match q.bufVec.items with
  | [] => .ok (0, dest, q, mem)
  | v :: _ => do
    ensure (0 < v.remaining) .noRemaining
    let (bytes, dest', v') ← v.read mem dest
    ensure (0 < bytes) (.nothingRead dest.length)
    if v'.remaining = 0 then
      .ok (bytes, dest', ⟨q.bufVec.popFront⟩, bufRingAddAdvance mem v'.buf)
    else .ok (bytes, dest', ⟨q.bufVec.setFront v'⟩, mem)

def unread (q : KernelBufferVecReader) (mem : Memory) : List UInt8 :=
  q.bufVec.items.flatMap (·.unread mem)

theorem push_bufVec {q q' : KernelBufferVecReader} {buf : KernelBuffer} (h : q.push buf = .ok q') :
    q'.bufVec = q.bufVec.pushBack (.new buf) := by
  simp only [push, bind_eq_ok, ensure_eq_ok, exists_const, Except.ok.injEq] at h
  obtain ⟨_, rfl⟩ := h
  rfl

theorem push_eq_ok {q q' : KernelBufferVecReader} {buf : KernelBuffer}
    (h : q.push buf = .ok q') :
    q'.bufVec.items = q.bufVec.items ++ [KernelBufferReader.new buf] := by
  rw [push_bufVec h, VecDeque.pushBack_items]

/-- No push is ever refused: the deque has grown by the time it is checked. -/
theorem push_isOk (q : KernelBufferVecReader) (buf : KernelBuffer) :
    ∃ q', q.push buf = .ok q' :=
  ⟨⟨q.bufVec.pushBack (.new buf)⟩, by
    simp only [push, ensure_of (VecDeque.length_le _), ok_bind]⟩

theorem read_nil {q : KernelBufferVecReader} (h : q.bufVec.items = []) (mem : Memory)
    (dest : List UInt8) : q.read mem dest = .ok (0, dest, q, mem) := by
  rw [read, h]

theorem read_empty {q : KernelBufferVecReader} {v : KernelBufferReader}
    {vs : List KernelBufferReader} (h : q.bufVec.items = v :: vs) {mem : Memory}
    (hrem : 0 < v.remaining) : q.read mem [] = .error (.nothingRead 0) := by
  simp only [read, h, ensure_of, hrem, ok_bind, KernelBufferReader.read_of_remaining,
    List.length_nil, Nat.min_zero, ensure_of_not (Nat.lt_irrefl 0), error_bind]

theorem read_part {q : KernelBufferVecReader} {v : KernelBufferReader}
    {vs : List KernelBufferReader} (h : q.bufVec.items = v :: vs) (mem : Memory)
    {dest : List UInt8} (hpos : 0 < dest.length) (hlt : dest.length < v.remaining) :
    q.read mem dest = .ok (dest.length, (v.unread mem).take dest.length,
      ⟨q.bufVec.setFront { v with claimed := v.claimed + dest.length }⟩, mem) := by
  have hrem : 0 < v.remaining := hpos.trans hlt
  have hmin : min v.remaining dest.length = dest.length := Nat.min_eq_right hlt.le
  have hleft : ({ v with claimed := v.claimed + dest.length } : KernelBufferReader).remaining ≠ 0 := by
    simp only [KernelBufferReader.remaining] at *
    omega
  simp only [read, h, ensure_of, hrem, ok_bind, KernelBufferReader.read_of_remaining, hmin, hpos,
    List.drop_length, List.append_nil]
  exact if_neg hleft

theorem read_drain {q : KernelBufferVecReader} {v : KernelBufferReader}
    {vs : List KernelBufferReader} (h : q.bufVec.items = v :: vs) (mem : Memory)
    {dest : List UInt8} (hrem : 0 < v.remaining) (hle : v.remaining ≤ dest.length) :
    q.read mem dest = .ok (v.remaining, v.unread mem ++ dest.drop v.remaining,
      ⟨q.bufVec.popFront⟩, bufRingAddAdvance mem v.buf) := by
  have hmin : min v.remaining dest.length = v.remaining := Nat.min_eq_left hle
  have hleft : ({ v with claimed := v.claimed + v.remaining } : KernelBufferReader).remaining = 0 := by
    simp only [KernelBufferReader.remaining]
    omega
  have htake : (v.unread mem).take v.remaining = v.unread mem :=
    List.take_of_length_le (by simp)
  simp only [read, h, ensure_of, hrem, ok_bind, KernelBufferReader.read_of_remaining, hmin, htake]
  exact if_pos hleft

theorem read_cases {q q' : KernelBufferVecReader} {mem mem' : Memory} {dest dest' : List UInt8}
    {n : ℕ} (h : q.read mem dest = .ok (n, dest', q', mem')) :
    (q.bufVec.items = [] ∧ n = 0 ∧ q' = q ∧ mem' = mem) ∨
    ∃ v vs, q.bufVec.items = v :: vs ∧ 0 < v.remaining ∧
      (0 < dest.length ∧ dest.length < v.remaining ∧ n = dest.length ∧
        dest' = (v.unread mem).take dest.length ∧
        q' = ⟨q.bufVec.setFront { v with claimed := v.claimed + dest.length }⟩ ∧ mem' = mem ∨
      v.remaining ≤ dest.length ∧ n = v.remaining ∧
        dest' = v.unread mem ++ dest.drop v.remaining ∧ q' = ⟨q.bufVec.popFront⟩ ∧
        mem' = bufRingAddAdvance mem v.buf) := by
  cases hq : q.bufVec.items with
  | nil =>
    rw [read_nil hq] at h
    simp only [Except.ok.injEq, Prod.mk.injEq] at h
    obtain ⟨rfl, -, rfl, rfl⟩ := h
    exact .inl ⟨rfl, rfl, rfl, rfl⟩
  | cons v vs =>
    have hrem : 0 < v.remaining := by
      simp only [read, hq, bind_eq_ok, ensure_eq_ok, exists_const] at h
      exact h.1
    refine .inr ⟨v, vs, rfl, hrem, ?_⟩
    rcases Nat.lt_or_ge dest.length v.remaining with hlt | hle
    · have hpos : 0 < dest.length := by
        simp only [read, hq, ensure_of, hrem, ok_bind, KernelBufferReader.read_of_remaining,
          bind_eq_ok, ensure_eq_ok, exists_const] at h
        exact (lt_min_iff.mp h.1).2
      rw [read_part hq mem hpos hlt] at h
      simp only [Except.ok.injEq, Prod.mk.injEq] at h
      obtain ⟨rfl, rfl, rfl, rfl⟩ := h
      exact .inl ⟨hpos, hlt, rfl, rfl, rfl, rfl⟩
    · rw [read_drain hq mem hrem hle] at h
      simp only [Except.ok.injEq, Prod.mk.injEq] at h
      obtain ⟨rfl, rfl, rfl, rfl⟩ := h
      exact .inr ⟨hle, rfl, rfl, rfl, rfl⟩

end KernelBufferVecReader
end UringWs
