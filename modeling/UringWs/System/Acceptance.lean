import UringWs.System.Progress

/-! # What stops the program at a completion

Whatever the kernel posts, the entry reaches the arm of its request. There it is
accepted, or one of the assertions on the way stops the program; both are told
from the entry, the ring of its group and the table of its stream.
-/
namespace UringWs.EventLoop
open Checked

variable {w : State} {p : Posted}

/-- The entry carries the word of its request, so its stream's own assertions hold. -/
theorem Routed.posted_word (hw : Routed w) (hp : p ∈ w.cqes) :
    UserData.fromPacked p.cqe.userData = p.request.origin.word := by
  obtain ⟨hdata, hprep⟩ := hw.cqes p hp
  obtain ⟨s, -, -, hword, -⟩ := hprep.facts hw
  rw [hdata, hword, UserData.fromPacked_data]

theorem res_pos_iff {res : Int32} : 0 < res.toInt ↔ ¬ res < 0 ∧ res ≠ 0 := by
  have hzero : res = 0 ↔ res.toInt = 0 := by
    rw [← Int32.toInt_inj]
    rfl
  rw [Int32.lt_iff_toInt_lt, Ne, hzero, show (0 : Int32).toInt = 0 from rfl]
  omega

theorem resAsUsize_of_pos {res : Int32} (h : 0 < res.toInt) :
    (resAsUsize res : ℤ) = res.toInt ∧ 0 < resAsUsize res := by
  rw [resAsUsize_of_nonneg h.le]
  omega

section Arms
variable (hw : Routed w) (hp : p ∈ w.cqes) {s : TcpStream} {r : List TcpStream × Memory}
include hw hp

theorem Routed.dispatch_recv {i : ℕ} {recvId : UInt32} (ho : p.request.origin = .recv i recvId)
    (hs : w.streams[i]? = some s) :
    UringWs.dispatch w.pool w.mem w.streams (some p.cqe) = .ok r ↔
      0 < p.cqe.res.toInt ∧ ¬ p.cqe.hasBufMore ∧ p.cqe.hasBuffer ∧ ∃ kb inner,
        w.pool.getReadBuf w.mem (UInt16.ofNat i) p.cqe.bufferId (resAsUsize p.cqe.res) = .ok kb ∧
        s.inner.push kb = .ok inner ∧ r = (w.streams.set i { s with inner }, w.mem) := by
  obtain ⟨s', hs', hd⟩ := hw.dispatch hp
  obtain ⟨-, hprep⟩ := hw.cqes p hp
  obtain ⟨t, ht, -, -, hasks⟩ := hprep.facts hw
  have hword := hw.posted_word hp
  rw [ho] at hs' hd ht hasks hword
  obtain rfl : s = s' := Option.some.inj (hs.symm.trans hs')
  obtain rfl : s = t := Option.some.inj (hs.symm.trans ht)
  have howner : (UserData.fromPacked p.cqe.userData).owner = UInt16.ofNat i := by
    rw [hword, Origin.word, UserData.owner_fromParts]
    rfl
  rw [hd]
  simp only [bind_eq_ok, Prod.exists, Except.ok.injEq]
  constructor
  · rintro ⟨c, hraw, s', mem', harm, rfl⟩
    have hcqe := (Completion.fromRawEvent_cqe hraw).1
    obtain ⟨-, hne, hbuffer, kb, hkb, inner, hpush, he⟩ := TcpStream.onMultishortRecv_eq_ok.mp harm
    obtain ⟨rfl, rfl⟩ := Prod.mk.inj he
    rw [hcqe] at hne hbuffer
    have hget := Completion.fromRawEvent_kernelBuf hraw hkb
    obtain ⟨hnonneg, hbufMore, -⟩ := (Completion.fromRawEvent_buffer hbuffer).mp hraw
    rw [howner] at hget
    exact ⟨res_pos_iff.mpr ⟨hnonneg, hne⟩, hbufMore, hbuffer, kb, inner, hget, hpush, rfl⟩
  · rintro ⟨hres, hbufMore, hbuffer, kb, inner, hget, hpush, rfl⟩
    obtain ⟨hnonneg, hne⟩ := res_pos_iff.mp hres
    rw [← howner] at hget
    refine ⟨_, (Completion.fromRawEvent_buffer hbuffer).mpr ⟨hnonneg, hbufMore,
      (resAsUsize_of_pos hres).2, kb, hget, rfl⟩, _, _, TcpStream.onMultishortRecv_eq_ok.mpr
      ⟨?_, hne, hbuffer, kb, rfl, inner, hpush, rfl⟩, rfl⟩
    rw [hword, Origin.word, UserData.req_fromParts]
    exact hasks.1

theorem Routed.dispatch_send {op : SendOp} (ho : p.request.origin = .send op)
    (hs : w.streams[op.stream]? = some s) :
    UringWs.dispatch w.pool w.mem w.streams (some p.cqe) = .ok r ↔
      0 < p.cqe.res.toInt ∧ ¬ p.cqe.hasBufMore ∧ ¬ p.cqe.hasBuffer ∧ ∃ v,
        s.pendingSent.lookup op.key = some v ∧ (v.bytes.length : ℤ) = p.cqe.res.toInt ∧
        r = (w.streams.set op.stream { s with pendingSent := s.pendingSent.erase op.key },
          w.mem.free v.ptr) := by
  obtain ⟨s', hs', hd⟩ := hw.dispatch hp
  have hword := hw.posted_word hp
  rw [ho] at hs' hd hword
  obtain rfl : s = s' := Option.some.inj (hs.symm.trans hs')
  rw [hd]
  simp only [bind_eq_ok, Prod.exists, Except.ok.injEq]
  constructor
  · rintro ⟨c, hraw, s', mem', harm, rfl⟩
    obtain ⟨hcqe, huser⟩ := Completion.fromRawEvent_cqe hraw
    obtain ⟨hne, v, hlookup, hlen, hkb, he⟩ := TcpStream.onSend_eq_ok.mp harm
    obtain ⟨rfl, rfl⟩ := Prod.mk.inj he
    rw [hcqe] at hne hlen
    rw [huser, hword] at hlookup ⊢
    have hbuffer : ¬ p.cqe.hasBuffer := by
      intro hb
      obtain ⟨-, -, -, kb, -, rfl⟩ := (Completion.fromRawEvent_buffer hb).mp hraw
      cases hkb
    obtain ⟨hnonneg, hbufMore, -⟩ := (Completion.fromRawEvent_noBuffer hbuffer).mp hraw
    have hres := res_pos_iff.mpr ⟨hnonneg, hne⟩
    exact ⟨hres, hbufMore, hbuffer, v, hlookup, hlen ▸ (resAsUsize_of_pos hres).1, rfl⟩
  · rintro ⟨hres, hbufMore, hbuffer, v, hlookup, hlen, rfl⟩
    obtain ⟨hnonneg, hne⟩ := res_pos_iff.mp hres
    have hsize : v.bytes.length = resAsUsize p.cqe.res := by
      have := (resAsUsize_of_pos hres).1
      omega
    refine ⟨_, (Completion.fromRawEvent_noBuffer hbuffer).mpr ⟨hnonneg, hbufMore, rfl⟩, _, _,
      TcpStream.onSend_eq_ok.mpr ⟨hne, v, ?_, hsize, rfl, rfl⟩, ?_⟩
    · rw [hword]
      exact hlookup
    · rw [hword]
      rfl

end Arms

/-- What the ring of the group must show where the entry points. -/
def State.Holds (w : State) (i : ℕ) (cqe : IoUringCqe) : Prop :=
  ∃ kg, w.groups (UInt16.ofNat i) = some kg ∧ cqe.bufferId.toNat < ringPoolSize.toNat ∧
    ((w.mem.rings kg.ring).bufs cqe.bufferId.toNat).bid = cqe.bufferId ∧
    cqe.res.toInt ≤ ((w.mem.rings kg.ring).bufs cqe.bufferId.toNat).len.toNat

/-- The entry passes every assertion on its way. -/
def State.Accepts (w : State) (p : Posted) : Prop :=
  0 < p.cqe.res.toInt ∧ ¬ p.cqe.hasBufMore ∧
  match p.request.origin with
  | .recv i _ => p.cqe.hasBuffer ∧ w.Holds i p.cqe
  | .send op => ¬ p.cqe.hasBuffer ∧ ∃ s v, w.streams[op.stream]? = some s ∧
      s.pendingSent.lookup op.key = some v ∧ (v.bytes.length : ℤ) = p.cqe.res.toInt

theorem Routed.getReadBuf_isOk (hw : Routed w) {i : ℕ} {s : TcpStream} {cqe : IoUringCqe}
    (hs : w.streams[i]? = some s) (hres : 0 < cqe.res.toInt) :
    (∃ kb, w.pool.getReadBuf w.mem (UInt16.ofNat i) cqe.bufferId (resAsUsize cqe.res) = .ok kb) ↔
      w.Holds i cqe := by
  obtain ⟨kg, hkg, hpool⟩ := hw.groups i (List.getElem?_eq_some_iff.mp hs).1
  have hsize := (resAsUsize_of_pos hres).1
  have hlt : cqe.res.toInt < 2 ^ 31 := Int32.toInt_lt cqe.res
  have hle : ∀ len : UInt32, UInt32.ofNat (resAsUsize cqe.res) ≤ len ↔
      cqe.res.toInt ≤ len.toNat := by
    intro len
    rw [UInt32.le_iff_toNat_le,
      UInt32.toNat_ofNat_of_lt' (show resAsUsize cqe.res < 4294967296 by omega), ← hsize]
    exact Int.ofNat_le.symm
  simp only [BufRingPool.getReadBuf_eq_ok, ofNat_toNat_of_lt (hw.index_lt hs), hpool, hle,
    State.Holds, hkg]
  constructor
  · rintro ⟨kb, ring, hring, hb, hbid, hlen, rfl⟩
    obtain rfl := Option.some.inj (Option.some.inj hring)
    exact ⟨kg, rfl, hb, hbid.symm, hlen⟩
  · rintro ⟨kg', hkg', hb, hbid, hlen⟩
    obtain rfl := Option.some.inj hkg'
    exact ⟨_, kg.ring, rfl, hb, hbid.symm, hlen, rfl⟩

theorem Routed.accepts_iff (hw : Routed w) (hp : p ∈ w.cqes) :
    (∃ r, UringWs.dispatch w.pool w.mem w.streams (some p.cqe) = .ok r) ↔ w.Accepts p := by
  obtain ⟨-, hprep⟩ := hw.cqes p hp
  obtain ⟨s, hs, -⟩ := hprep.facts hw
  cases ho : p.request.origin with
  | recv i recvId =>
    rw [ho] at hs
    simp only [hw.dispatch_recv hp ho hs, State.Accepts, ho]
    constructor
    · rintro ⟨-, hres, hbufMore, hbuffer, kb, -, hget, -⟩
      exact ⟨hres, hbufMore, hbuffer, (hw.getReadBuf_isOk hs hres).mp ⟨kb, hget⟩⟩
    · rintro ⟨hres, hbufMore, hbuffer, hholds⟩
      obtain ⟨kb, hget⟩ := (hw.getReadBuf_isOk hs hres).mpr hholds
      obtain ⟨inner, hpush⟩ := s.inner.push_isOk kb
      exact ⟨_, hres, hbufMore, hbuffer, kb, inner, hget, hpush, rfl⟩
  | send op =>
    rw [ho] at hs
    simp only [hw.dispatch_send hp ho hs, State.Accepts, ho]
    constructor
    · rintro ⟨-, hres, hbufMore, hbuffer, v, hlookup, hlen, -⟩
      exact ⟨hres, hbufMore, hbuffer, s, v, hs, hlookup, hlen⟩
    · rintro ⟨hres, hbufMore, hbuffer, s', v, hs', hlookup, hlen⟩
      obtain rfl : s = s' := Option.some.inj (hs.symm.trans hs')
      exact ⟨_, hres, hbufMore, hbuffer, v, hlookup, hlen, rfl⟩

/-- The entry passes the assertions under which its completion is built. -/
def State.Builds (w : State) (p : Posted) : Prop :=
  0 ≤ p.cqe.res.toInt ∧ ¬ p.cqe.hasBufMore ∧
    (p.cqe.hasBuffer → 0 < p.cqe.res.toInt ∧ w.Holds p.request.origin.stream p.cqe)

theorem Routed.builds_iff (hw : Routed w) (hp : p ∈ w.cqes) :
    (∃ c, Completion.fromRawEvent w.pool w.mem (some p.cqe) = .ok c) ↔ w.Builds p := by
  obtain ⟨-, hprep⟩ := hw.cqes p hp
  obtain ⟨s, hs, -⟩ := hprep.facts hw
  have howner : (UserData.fromPacked p.cqe.userData).owner =
      UInt16.ofNat p.request.origin.stream := by
    rw [hw.posted_word hp, Origin.word, UserData.owner_fromParts]
  have hnonneg : ¬ p.cqe.res < 0 ↔ 0 ≤ p.cqe.res.toInt := by
    rw [Int32.lt_iff_toInt_lt, show (0 : Int32).toInt = 0 from rfl]
    exact Int.not_lt
  by_cases hb : p.cqe.hasBuffer
  · simp only [Completion.fromRawEvent_buffer hb, howner, hnonneg, State.Builds, hb, true_implies]
    constructor
    · rintro ⟨-, hle, hbufMore, hpos, kb, hget, -⟩
      have hres : 0 < p.cqe.res.toInt := by
        rw [resAsUsize_of_nonneg hle] at hpos
        omega
      exact ⟨hle, hbufMore, hres, (hw.getReadBuf_isOk hs hres).mp ⟨kb, hget⟩⟩
    · rintro ⟨hle, hbufMore, hres, hholds⟩
      obtain ⟨kb, hget⟩ := (hw.getReadBuf_isOk hs hres).mpr hholds
      exact ⟨_, hle, hbufMore, (resAsUsize_of_pos hres).2, kb, hget, rfl⟩
  · simp only [Completion.fromRawEvent_noBuffer hb, hnonneg, State.Builds, hb, false_implies,
      and_true]
    constructor
    · rintro ⟨-, hle, hbufMore, -⟩
      exact ⟨hle, hbufMore⟩
    · rintro ⟨hle, hbufMore⟩
      exact ⟨_, hle, hbufMore, rfl⟩

/-- What comes of a posted entry. -/
structure Handled (w : State) (p : Posted) : Prop where
  /-- it is accepted, or the program stops -/
  accepted : (∃ r, UringWs.dispatch w.pool w.mem w.streams (some p.cqe) = .ok r) ↔ w.Accepts p
  /-- a receive queues on its stream the buffer that its group's ring shows -/
  recv : ∀ i recvId s r, p.request.origin = .recv i recvId → w.streams[i]? = some s →
    UringWs.dispatch w.pool w.mem w.streams (some p.cqe) = .ok r →
    ∃ (kg : KernelGroup) (kb : KernelBuffer) (inner : KernelBufferVecReader),
      w.pool.getReadBuf w.mem (UInt16.ofNat i) p.cqe.bufferId (resAsUsize p.cqe.res) = .ok kb ∧
      w.groups (UInt16.ofNat i) = some kg ∧
      kb.entry = (w.mem.rings kg.ring).bufs p.cqe.bufferId.toNat ∧ kb.bid = p.cqe.bufferId ∧
      kb.bufRing = kg.ring ∧ kb.bgid = UInt16.ofNat i ∧ (kb.dataLen : ℤ) = p.cqe.res.toInt ∧
      inner.bufVec.items = s.inner.bufVec.items ++ [.new kb] ∧
      r = (w.streams.set i { s with inner }, w.mem)
  /-- a send releases the bytes kept for it -/
  send : ∀ op s r, p.request.origin = .send op → w.streams[op.stream]? = some s →
    UringWs.dispatch w.pool w.mem w.streams (some p.cqe) = .ok r →
    ∃ v, s.pendingSent.lookup op.key = some v ∧
      r = (w.streams.set op.stream { s with pendingSent := s.pendingSent.erase op.key },
        w.mem.free v.ptr)

/-- In every reachable state, whatever the kernel has posted. -/
theorem completion_handled (h : eventLoop.Reachable w) (hp : p ∈ w.cqes) : Handled w p := by
  have hw := reach_routed h
  refine ⟨hw.accepts_iff hp, ?_, ?_⟩
  · intro i recvId s r ho hs hr
    obtain ⟨hres, -, -, kb, inner, hget, hpush, rfl⟩ := (hw.dispatch_recv hp ho hs).mp hr
    obtain ⟨kg, hkg, hpool⟩ := hw.groups i (List.getElem?_eq_some_iff.mp hs).1
    obtain ⟨ring, hptr, -, hbid, -, rfl⟩ := BufRingPool.getReadBuf_eq_ok.mp hget
    rw [ofNat_toNat_of_lt (hw.index_lt hs)] at hptr
    obtain rfl : ring = kg.ring := Option.some.inj (Option.some.inj (hptr.symm.trans hpool))
    exact ⟨kg, _, inner, hget, hkg, rfl, hbid.symm, rfl, rfl, (resAsUsize_of_pos hres).1,
      KernelBufferVecReader.push_eq_ok hpush, rfl⟩
  · intro op s r ho hs hr
    obtain ⟨-, -, -, v, hlookup, -, rfl⟩ := (hw.dispatch_send hp ho hs).mp hr
    exact ⟨v, hlookup, rfl⟩

/-- A receive that filled a buffer, and one that found none. -/
theorem completion_handled_exhausted : ∃ w p q, w.cqes = [p, q] ∧ q.cqe.res = -105 ∧
    (∃ r, UringWs.dispatch w.pool w.mem w.streams (some p.cqe) = .ok r) ∧
    (¬ ∃ r, UringWs.dispatch w.pool w.mem w.streams (some q.cqe) = .ok r) ∧
    Handled w p ∧ Handled w q := by
  obtain ⟨sq, slot, -, -, -, h⟩ := reach_armed (G := fun _ _ => True) idleSocket 1200 trivial
    (fun _ _ => trivial)
  have h₁ := reach_filled h [7] true (by decide) (by decide) trivial
  obtain ⟨inner, -, hs⟩ := step_queued h₁ (by decide) (by decide)
  have h₂ := h₁.next (a := Action.other 0 (-105) 0) trivial (.other rfl rfl)
  have hp := completion_handled h₂ List.mem_cons_self
  have hq := completion_handled h₂ (List.mem_append_right _ (List.mem_singleton_self _))
  have hneg : ¬ 0 < (-105 : Int32).toInt := by decide
  refine ⟨_, _, _, rfl, rfl, ?_, fun hok => hneg (hq.accepted.mp hok).1, hp, hq⟩
  cases hs with
  | process hc hd =>
    obtain ⟨rfl, -⟩ := List.cons.inj hc
    exact ⟨_, hd⟩

end UringWs.EventLoop
