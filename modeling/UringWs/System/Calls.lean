import UringWs.System.LoopSafety
import UringWs.System.StreamQueue

/-! # Which calls end the program

A call of the loop either is refused, and then it panics, or it comes to a step.
Code outside decides some of them by its answer alone; the others are told from
the submission ring, the streams and the completion that is looked at.
-/
namespace UringWs.ReadQueue
open Checked

theorem apply_remaining {s s' : State} {o : Op} (h : s.apply o = .ok s')
    (hdata : CarriesData s (.op o)) (hs : ∀ v ∈ s.reader.bufVec.items, 0 < v.remaining) :
    ∀ v ∈ s'.reader.bufVec.items, 0 < v.remaining := by
  cases o with
  | push buf =>
    simp only [State.apply, bind_eq_ok, Except.ok.injEq] at h
    obtain ⟨reader, hpush, rfl⟩ := h
    intro v hv
    rw [KernelBufferVecReader.push_eq_ok hpush, List.mem_append, List.mem_singleton] at hv
    rcases hv with hv | rfl
    · exact hs v hv
    · exact hdata
  | read dest =>
    simp only [State.apply, bind_eq_ok, Prod.exists, Except.ok.injEq] at h
    obtain ⟨n, dest', reader, mem, hread, rfl⟩ := h
    rcases KernelBufferVecReader.read_cases hread with
      ⟨-, -, rfl, -⟩ | ⟨v, vs, hitems, hrem, ⟨-, hlt, -, -, rfl, -⟩ | ⟨-, -, -, rfl, -⟩⟩
    · exact hs
    · rw [hitems] at hs
      intro u hu
      simp only [VecDeque.setFront, hitems, List.set_cons_zero, List.mem_cons] at hu
      rcases hu with rfl | hu
      · simp only [KernelBufferReader.remaining] at hlt ⊢
        omega
      · exact hs u (List.mem_cons_of_mem _ hu)
    · intro u hu
      exact hs u (List.mem_of_mem_tail hu)

end UringWs.ReadQueue

namespace UringWs

/-- A ring that took one more entry had room for it. -/
theorem IoUringSq.Wf.room_before {sq sq' : IoUringSq} {sqe : IoUringSqe} (h : sq'.Wf)
    (hentries : sq'.ringEntries = sq.ringEntries) (hqueue : sq'.queue = sq.queue ++ [sqe]) :
    sq.count < sq.ringEntries.toNat := by
  have hcount := congrArg List.length hqueue
  rw [List.length_append, IoUringSq.queue_length, IoUringSq.queue_length] at hcount
  rw [← hentries]
  exact (Nat.lt_succ_self _).trans_le (hcount.symm.le.trans h.count_le)

theorem TcpStream.write_isOk_iff {s : TcpStream} (mem : Memory) {sq : IoUringSq} (ptr : ℕ)
    (buf : List UInt8) (hn : s.nonblocking = true) (hwf : sq.Wf) :
    (∃ r, s.write mem sq ptr buf = .ok r) ↔
      0 < buf.length ∧ sq.count < sq.ringEntries.toNat := by
  constructor
  · rintro ⟨⟨r, s', mem', sq'⟩, h⟩
    obtain ⟨-, hpos, -, -, hwf', hentries, slot, hqueue⟩ := write_spec hn hwf h
    exact ⟨hpos, hwf'.room_before hentries hqueue⟩
  · rintro ⟨hpos, hroom⟩
    obtain ⟨sq', h⟩ := write_isOk mem ptr hn hwf hroom hpos
    exact ⟨_, h⟩

theorem setupStream_isOk_iff (pool : BufRingPool) (mem : Memory) {sq : IoUringSq}
    (raw : RawTcpStream) {g : UInt16} (recvId : UInt32) (ring : Option RingPtr) (base : Option ℕ)
    (hwf : sq.Wf) : (∃ r, setupStream pool mem sq raw g recvId ring base = .ok r) ↔
      ring ≠ none ∧ base ≠ none ∧ g.toNat < maxBufferGroup ∧ sq.count < sq.ringEntries.toNat := by
  cases ring with
  | none => simp [setupStream, BufRingPool.newBufferGroup]
  | some p =>
    cases base with
    | none => simp [setupStream, BufRingPool.newBufferGroup]
    | some base =>
      constructor
      · rintro ⟨⟨pool', mem', sq', s⟩, h⟩
        obtain ⟨⟨hg, -⟩, -, -, hwf', hentries, slot, hqueue⟩ := setupStream_spec hwf h
        exact ⟨Option.some_ne_none p, Option.some_ne_none base, hg,
          hwf'.room_before hentries hqueue⟩
      · rintro ⟨-, -, hg, hroom⟩
        exact setupStream_isOk pool mem raw recvId p base hwf hroom hg

end UringWs

namespace UringWs.EventLoop
open Checked

variable {w : State} {i : ℕ} {s : TcpStream}

/-- Every queued buffer has bytes left to read, whatever the kernel posts. -/
theorem reach_readable {G : State → Action → Prop} (h : eventLoop.Reach G w)
    (hs : w.streams[i]? = some s) : ∀ v ∈ s.inner.bufVec.items, 0 < v.remaining := by
  refine h.invariant (P := fun w => ∀ s : TcpStream, w.streams[i]? = some s →
    ∀ v ∈ s.inner.bufVec.items, 0 < v.remaining) ?_ ?_ s hs
  · intro w h₀ s hs
    rw [h₀.streams] at hs
    cases hs
  · intro w a w' hr ih _ hstep s' hs'
    rcases step_inner (reach_routed hr) hstep hs' with hnew | ⟨s, hs, hinner | ⟨o, hdata, happly⟩⟩
    · rw [hnew]
      exact fun v hv => nomatch hv
    · rw [hinner]
      exact ih s hs
    · exact ReadQueue.apply_remaining happly hdata (ih s hs)

theorem read_isOk (hn : s.nonblocking = true) (hrem : ∀ v ∈ s.inner.bufVec.items, 0 < v.remaining)
    (mem : Memory) {dest : List UInt8} (hpos : 0 < dest.length) : ∃ r, s.read mem dest = .ok r := by
  cases hitems : s.inner.bufVec.items with
  | nil => exact ⟨_, TcpStream.read_nil hn hitems mem dest⟩
  | cons v vs =>
    rcases Nat.lt_or_ge dest.length v.remaining with hlt | hle
    · exact ⟨_, TcpStream.read_part hn hitems mem hpos hlt⟩
    · exact ⟨_, TcpStream.read_drain hn hitems mem (hrem v (hitems ▸ List.mem_cons_self)) hle⟩

end UringWs.EventLoop

namespace UringWs.MainLoop
open EventLoop Checked
variable {M : Type*} {c : PrefixCode M UInt8} {s : State M} {p : Posted}

theorem reach_events {G : State M → Action → Prop} (h : (mainLoop c).Reach G s) :
    eventLoop.Reachable s.loop :=
  Delivery.reach_events (fun _ _ _ => trivial) (fun _ => trivial) (fun _ _ _ => trivial)
    (reach_delivery (G := fun _ _ => True) (h.mono fun _ _ _ _ _ => trivial))

theorem State.Examines.mem (hp : s.Examines p) : p ∈ s.loop.cqes :=
  List.mem_of_mem_head? hp.1

/-- The program stands at the call, and the code outside answers as it may. -/
def State.Makes (c : PrefixCode M UInt8) (s : State M) : Call → Prop
  | .connect _ _ ring base => s.pc = .setup ∧
      (∀ r ∈ ring, (∀ g kg, s.loop.groups g = some kg → kg.ring ≠ r) ∧
        (s.loop.mem.rings r).tail = 0) ∧
      ∀ b ∈ base, ∀ g kg, s.loop.groups g = some kg →
        b + blockSize ≤ kg.base ∨ kg.base + blockSize ≤ b
  | .write i ptr _ => s.pc = .ping i ∧ i < s.loop.streams.length ∧ s.loop.mem.vecs ptr = none
  | .handler _ => ∃ j, s.pc = .ping j ∧ j < s.loop.streams.length
  | .submit rval => s.pc = .submit ∧ rval.toInt ≤ s.loop.sq.count
  | .wait ret => s.ring.loop = .wait ∧ (¬ ret < 0 → 0 < s.ring.cq.ready)
  | .build => ∃ i n, s.ring.loop = .build i n
  | .handle => ∃ i n ptr cqe, s.ring.loop = .consume i n ptr cqe
  | .read i dest => s.delivery.reading = some i ∧ c.decode (s.delivery.buffered i) = none ∧
      0 < dest.length
  | .decode ok => ∃ i, s.delivery.reading = some i ∧
      (ok = true → c.decode (s.delivery.buffered i) ≠ none)

/-- What a call must not meet. -/
def State.Refuses (s : State M) : Call → Prop
  | .connect raw _ ring base => raw = none ∨ ring = none ∨ base = none ∨
      maxBufferGroup ≤ s.loop.streams.length ∨ s.loop.sq.ringEntries.toNat ≤ s.loop.sq.count
  | .write _ _ buf => buf.length = 0 ∨ s.loop.sq.ringEntries.toNat ≤ s.loop.sq.count
  | .handler ok => ok = false
  | .submit rval => rval < 0
  | .wait ret => ret < 0 ∧ ret ≠ -62
  | .build => ∃ p, s.Examines p ∧ ¬ s.loop.Builds p
  | .handle => ∃ p, s.Examines p ∧ ¬ s.loop.Accepts p
  | .read .. => False
  | .decode ok => ok = false

/-- A call panics where it is refused, and is a step everywhere else. -/
structure Decides (c : PrefixCode M UInt8) (s : State M) (call : Call) : Prop where
  panics : Panics s call ↔ s.Refuses call
  goes : (∃ a s', call.action = some a ∧ Step c s a s') ↔ ¬ s.Refuses call

/-- A call that is a step exactly when it returns. -/
theorem Decides.of_isOk {call : Call} {a : Action} {P : Prop} (ha : call.action = some a)
    (hP : P ↔ ¬ s.Refuses call) (hpanics : Panics s call ↔ ¬ P)
    (hstep : (∃ s', Step c s a s') ↔ P) : Decides c s call := by
  refine ⟨hpanics.trans (not_congr hP |>.trans not_not), ?_⟩
  rw [← hP, ← hstep]
  constructor
  · rintro ⟨b, s', hb, hs⟩
    obtain rfl : a = b := Option.some.inj (ha.symm.trans hb)
    exact ⟨s', hs⟩
  · rintro ⟨s', hs⟩
    exact ⟨a, s', ha, hs⟩

/-- A call that is no step at all. -/
theorem Decides.of_refused {call : Call} (ha : call.action = none) (hr : s.Refuses call)
    (hp : Panics s call) : Decides c s call := by
  refine ⟨iff_of_true hp hr, iff_of_false ?_ (not_not_intro hr)⟩
  rintro ⟨a, -, ha', -⟩
  cases ha.symm.trans ha'

theorem write_decides (hw : Routed s.loop) {i ptr : ℕ} {buf : List UInt8} (hpc : s.pc = .ping i)
    (hi : i < s.loop.streams.length) (hptr : s.loop.mem.vecs ptr = none) :
    Decides c s (.write i ptr buf) := by
  have ht := List.getElem?_eq_getElem hi
  have hiff := TcpStream.write_isOk_iff s.loop.mem ptr buf (hw.stream ht).2 hw.sq
  refine .of_isOk (a := .write i ptr buf) rfl (hiff.trans ?_) ?_ ?_
  · simp only [State.Refuses]
    omega
  · rw [← exists_error_iff]
    constructor
    · intro hp
      cases hp with
      | write ht' h =>
        obtain rfl := Option.some.inj (ht.symm.trans ht')
        exact ⟨_, h⟩
    · rintro ⟨e, h⟩
      exact .write ht h
  · constructor
    · rintro ⟨s', hs⟩
      cases hs with
      | write hpc hs =>
        cases hs with
        | write ht' hptr h =>
          obtain rfl := Option.some.inj (ht.symm.trans ht')
          exact ⟨_, h⟩
    · rintro ⟨⟨r, t', mem, sq⟩, h⟩
      exact ⟨_, .write hpc (.write ht hptr h)⟩

theorem connect_decides (hw : Routed s.loop) {raw : Option RawTcpStream} {recvId : UInt32}
    {ring : Option RingPtr} {base : Option ℕ} (hmade : s.Makes c (.connect raw recvId ring base)) :
    Decides c s (.connect raw recvId ring base) := by
  obtain ⟨hpc, hring, hbase⟩ := hmade
  have hlt : s.loop.streams.length < 2 ^ 16 := hw.few.trans_lt (by decide)
  cases raw with
  | none => exact .of_refused rfl (.inl rfl) .handshake
  | some raw =>
    have hiff := setupStream_isOk_iff s.loop.pool s.loop.mem raw recvId ring base
      (g := UInt16.ofNat s.loop.streams.length) hw.sq
    rw [UInt16.toNat_ofNat_of_lt' hlt] at hiff
    have hpanics : Panics s (.connect (some raw) recvId ring base) ↔
        ¬ ∃ r, setupStream s.loop.pool s.loop.mem s.loop.sq raw
          (UInt16.ofNat s.loop.streams.length) recvId ring base = .ok r := by
      rw [← exists_error_iff]
      constructor
      · intro hp
        cases hp with
        | connect h => exact ⟨_, h⟩
      · rintro ⟨e, h⟩
        exact .connect h
    cases ring with
    | none => exact .of_refused rfl (.inr (.inl rfl)) (hpanics.mpr (by simp [hiff]))
    | some ring =>
      cases base with
      | none => exact .of_refused rfl (.inr (.inr (.inl rfl))) (hpanics.mpr (by simp [hiff]))
      | some base =>
        refine .of_isOk (a := .connect raw recvId ring base) rfl (hiff.trans ?_) hpanics ?_
        · simp [State.Refuses]
        · constructor
          · rintro ⟨s', hs⟩
            cases hs with
            | connect hpc hs =>
              cases hs with
              | connect hring htail hblock h => exact ⟨_, h⟩
          · rintro ⟨⟨pool, mem, sq, t⟩, h⟩
            obtain ⟨hfresh, htail⟩ := hring ring rfl
            exact ⟨_, .connect hpc (.connect hfresh htail (hbase base rfl) h)⟩

theorem build_decides (hr : (mainLoop c).Reachable s) {i n : ℕ} (hl : s.ring.loop = .build i n) :
    Decides c s .build := by
  have hi := reach_inv hr
  have hpc := hi.in_batch (by simp [hl])
  obtain ⟨ptr, p, rest, hptr, hc, hpe⟩ := hi.captured hl
  have hp : s.Examines p := ⟨by rw [hc]; rfl, by rw [hl]; trivial⟩
  refine .of_isOk (a := .build) rfl
    (((reach_routed (reach_events hr)).builds_iff hp.mem).trans ?_) ?_ ?_
  · constructor
    · rintro hbuilds ⟨q, hq, hrefused⟩
      obtain rfl : p = q := Option.some.inj (hp.1.symm.trans hq.1)
      exact hrefused hbuilds
    · intro h
      by_contra hbuilds
      exact h ⟨p, hp, hbuilds⟩
  · rw [← exists_error_iff, hpe]
    constructor
    · intro h
      cases h with
      | build hl' hptr' h =>
        cases hl.symm.trans hl'
        obtain rfl := Option.some.inj (hptr.symm.trans hptr')
        exact ⟨_, h⟩
    · rintro ⟨e, h⟩
      exact .build hl hptr h
  · rw [hpe]
    constructor
    · rintro ⟨s', hs⟩
      cases hs with
      | build hpc hl' hptr' h hring =>
        cases hl.symm.trans hl'
        obtain rfl := Option.some.inj (hptr.symm.trans hptr')
        exact ⟨_, h⟩
    · rintro ⟨completion, h⟩
      exact ⟨_, .build hpc hl hptr h (.build hl hptr)⟩

/-- Handling the completion that was built is all that is left of its dispatch. -/
theorem dispatch_isOk_iff {pool : BufRingPool} {mem : Memory} (streams : List TcpStream)
    {cqe : IoUringCqe} {completion : Completion}
    (hraw : Completion.fromRawEvent pool mem (some cqe) = .ok completion) :
    (∃ r, dispatch pool mem streams (some cqe) = .ok r) ↔ ∃ t r,
      streams[completion.userData.owner.toNat]? = some t ∧
        t.onCompletion mem completion = .ok r := by
  constructor
  · rintro ⟨r, hd⟩
    obtain ⟨completion', t, t', mem', hraw', ht, hs⟩ := dispatch_eq_ok hd
    obtain rfl : completion = completion' := Except.ok.inj (hraw.symm.trans hraw')
    exact ⟨t, _, ht, hs⟩
  · rintro ⟨t, ⟨t', mem'⟩, ht, hs⟩
    simp only [dispatch, hraw, ok_bind, ht, unwrap_some, hs]
    exact ⟨_, rfl⟩

theorem handle_decides (hr : (mainLoop c).Reachable s) {i n ptr : ℕ} {cqe : IoUringCqe}
    (hl : s.ring.loop = .consume i n ptr cqe) : Decides c s .handle := by
  have hi := reach_inv hr
  have hpc := hi.in_batch (by simp [hl])
  obtain ⟨completion, p, rest, hheld, hc, hptr, hraw⟩ := hi.coupled.held i n ptr cqe hl
  have hp : s.Examines p := ⟨by rw [hc]; rfl, by rw [hl]; trivial⟩
  have hsame : { completion with cqe := s.ring.cq.cqes ptr } = completion := by
    rw [hptr, ← (Completion.fromRawEvent_cqe hraw).1]
  have hiff := dispatch_isOk_iff s.loop.streams hraw
  refine .of_isOk (a := .handle) (P := ∃ t r,
    s.loop.streams[completion.userData.owner.toNat]? = some t ∧
      t.onCompletion s.loop.mem completion = .ok r) rfl ?_ ?_ ?_
  · rw [← hiff, (reach_routed (reach_events hr)).accepts_iff hp.mem]
    constructor
    · rintro haccepts ⟨q, hq, hrefused⟩
      obtain rfl : p = q := Option.some.inj (hp.1.symm.trans hq.1)
      exact hrefused haccepts
    · intro h
      by_contra haccepts
      exact h ⟨p, hp, haccepts⟩
  · constructor
    · rintro h ⟨t, r, ht, hok⟩
      cases h with
      | noStream hheld' hnone =>
        obtain rfl := Option.some.inj (hheld.symm.trans hheld')
        cases ht.symm.trans hnone
      | handle hl' hheld' ht' herr =>
        cases hl.symm.trans hl'
        obtain rfl := Option.some.inj (hheld.symm.trans hheld')
        obtain rfl := Option.some.inj (ht.symm.trans ht')
        rw [hsame, hok] at herr
        cases herr
    · intro hnot
      cases ht : s.loop.streams[completion.userData.owner.toNat]? with
      | none => exact .noStream hheld ht
      | some t =>
        obtain ⟨e, herr⟩ := exists_error_iff.mpr fun ⟨r, hok⟩ => hnot ⟨t, r, ht, hok⟩
        exact .handle hl hheld ht (hsame.symm ▸ herr)
  · constructor
    · rintro ⟨s', hs⟩
      cases hs with
      | handle hpc hl' hheld' ht hok hring =>
        cases hl.symm.trans hl'
        obtain rfl := Option.some.inj (hheld.symm.trans hheld')
        exact ⟨_, _, ht, hsame ▸ hok⟩
    · rintro ⟨t, ⟨t', mem⟩, ht, hok⟩
      exact ⟨_, .handle hpc hl hheld ht (hsame.symm ▸ hok) (.consume hl)⟩

/-- A read never fails. -/
theorem read_decides (hr : (mainLoop c).Reachable s) {i : ℕ} {dest : List UInt8}
    (hmade : s.Makes c (.read i dest)) : Decides c s (.read i dest) := by
  obtain ⟨hreading, hnone, hpos⟩ := hmade
  have hd := reach_delivery (G := fun _ _ => True) (hr.mono fun _ _ _ _ _ => trivial)
  have he := reach_events hr
  have ht := List.getElem?_eq_getElem (Delivery.reach_reading hd i hreading)
  obtain ⟨⟨r, dest', t', mem⟩, hread⟩ :=
    read_isOk ((reach_routed he).stream ht).2 (reach_readable he ht) s.loop.mem hpos
  refine ⟨⟨fun hp => ?_, False.elim⟩, iff_of_true ⟨_, _, rfl, .read (.read hreading hnone hpos ht
    hread)⟩ id⟩
  cases hp with
  | read ht' h =>
    obtain rfl := Option.some.inj (ht.symm.trans ht')
    cases hread.symm.trans h

/-- Code outside decides by its answer alone. -/
theorem handler_decides {j : ℕ} (hpc : s.pc = .ping j) (hj : j < s.loop.streams.length)
    (ok : Bool) : Decides c s (.handler ok) := by
  cases ok with
  | false => exact .of_refused rfl rfl .handler
  | true => exact ⟨⟨nofun, nofun⟩, iff_of_true ⟨_, _, rfl, .next hpc hj⟩ nofun⟩

theorem submit_decides {rval : Int32} (hmade : s.Makes c (.submit rval)) :
    Decides c s (.submit rval) := by
  obtain ⟨hpc, hle⟩ := hmade
  by_cases h : rval < 0
  · exact .of_refused (if_pos h) h (.submit h)
  · refine ⟨⟨fun hp => ?_, fun h' => absurd h' h⟩, iff_of_true ⟨_, _, if_neg h,
      .submit hpc (.submit (Int.toNat_le.mpr hle))⟩ h⟩
    cases hp with
    | submit h' => exact h'

theorem wait_decides (hi : Inv s) {ret : Int32} (hmade : s.Makes c (.wait ret)) :
    Decides c s (.wait ret) := by
  obtain ⟨hl, hready⟩ := hmade
  have hpc := hi.in_batch (by simp [hl])
  have hpanics : Panics s (.wait ret) ↔ s.Refuses (.wait ret) := by
    constructor
    · intro hp
      cases hp with
      | wait h htime => exact ⟨h, htime⟩
    · rintro ⟨h, htime⟩
      exact .wait h htime
  by_cases h : ret < 0
  · by_cases htime : ret = -62
    · refine ⟨hpanics, iff_of_true ⟨.waitTimeout, _, ?_, .waitTimeout hpc (.waitTimeout hl)⟩
        fun hr => hr.2 htime⟩
      rw [Call.action, if_pos h, if_pos htime]
    · refine .of_refused ?_ ⟨h, htime⟩ (.wait h htime)
      rw [Call.action, if_pos h, if_neg htime]
  · exact ⟨hpanics, iff_of_true ⟨_, _, if_neg h, .waitReady hpc (.waitReady hl (hready h))⟩
      fun hr => h hr.1⟩

theorem decode_decides {ok : Bool} (hmade : s.Makes c (.decode ok)) : Decides c s (.decode ok) := by
  obtain ⟨i, hreading, hsome⟩ := hmade
  cases ok with
  | false => exact .of_refused rfl rfl .decode
  | true =>
    obtain ⟨⟨m, rest⟩, hm⟩ := Option.ne_none_iff_exists'.mp (hsome rfl)
    exact ⟨⟨nofun, nofun⟩, iff_of_true ⟨_, _, rfl, .deliver (.deliver hreading hm)⟩ nofun⟩

theorem call_decides (hr : (mainLoop c).Reachable s) {call : Call} (hmade : s.Makes c call) :
    Decides c s call := by
  have hw := reach_routed (reach_events hr)
  cases call with
  | connect raw recvId ring base => exact connect_decides hw hmade
  | write i ptr buf =>
    obtain ⟨hpc, hi, hptr⟩ := hmade
    exact write_decides hw hpc hi hptr
  | handler ok =>
    obtain ⟨j, hpc, hj⟩ := hmade
    exact handler_decides hpc hj ok
  | submit rval => exact submit_decides hmade
  | wait ret => exact wait_decides (reach_inv hr) hmade
  | build =>
    obtain ⟨i, n, hl⟩ := hmade
    exact build_decides hr hl
  | handle =>
    obtain ⟨i, n, ptr, cqe, hl⟩ := hmade
    exact handle_decides hr hl
  | read i dest => exact read_decides hr hmade
  | decode ok => exact decode_decides hmade

end UringWs.MainLoop
