import UringWs.System.MainLoop
import UringWs.System.PendingSends
import UringWs.System.SendOrder

/-! # The main loop never stops

While no request fails, a wait at most times out, the decoder reports no error and
the kernel takes everything that is submitted, the submission ring has room for
every entry the program prepares, no assertion of the program fails, and a step of
the program is always possible.
-/
namespace UringWs.MainLoop
open EventLoop Checked
variable {M : Type*} {c : PrefixCode M UInt8} {s s' : State M} {a : Action}

/-- The sends of a stream that wait to be submitted. -/
def State.unsubmitted (s : State M) (i : ℕ) : List SendOp :=
  s.loop.queued.filterMap (Origin.sendTo i)

/-- No request fails, sends complete whole, and submissions are taken in full. A
handler makes at most three short writes each time its stream is offered to it. -/
def WellBehaved (s : State M) : Action → Prop
  | .kernel a => FillsOnly s.loop a ∧ SendsComplete s.loop a
  | .write i ptr buf => Windowed s.loop (.write i ptr buf) ∧ (s.unsubmitted i).length < 3
  | .submit n => n = s.loop.sq.count
  | _ => True

/-- The same on the steps of the event loop. -/
def Sound (w : EventLoop.State) (a : EventLoop.Action) : Prop := FillsOnly w a ∧ Windowed w a

theorem Quiet.wellBehaved (h : Quiet s a) : WellBehaved s a := by
  cases a with
  | kernel a => cases a with
    | recv => exact ⟨trivial, trivial⟩
    | _ => exact h.elim
  | write => exact h.elim
  | submit => exact h
  | _ => trivial

theorem process_loop {d d' : Delivery.State M} (h : Delivery.Step c d .process d') :
    EventLoop.Step d.loop .process d'.loop := by
  cases h with
  | process hidle hc hs => exact hs

theorem reach_sound (h : (mainLoop c).Reach WellBehaved s) : eventLoop.Reach Sound s.loop := by
  refine h.simulate State.loop (fun s (h₀ : Init s) => h₀.delivery.loop) fun s a t hr hg hs => ?_
  cases hs with
  | @kernel a w p ring ha hs hp hring =>
    refine .single ⟨a, ⟨hg.1, ?_⟩, hs⟩
    cases a <;> first | exact hg.2 | exact ha.elim
  | @connect raw recvId ring base w hpc hs =>
    exact .single ⟨.connect raw recvId ring base, ⟨trivial, trivial⟩, hs⟩
  | @write i ptr buf w hpc hs => exact .single ⟨.write i ptr buf, ⟨trivial, hg.1⟩, hs⟩
  | @submit n w hpc hs => exact .single ⟨.submit n, ⟨trivial, trivial⟩, hs⟩
  | handle hpc hl hheld ht hs hring =>
    have hp := process_loop (handle_process (c := c) (reach_inv hr) hl hheld ht hs)
    exact .single ⟨.process, ⟨trivial, trivial⟩, hp⟩
  | @read i dest d hs =>
    cases hs with
    | read hreading hnone hpos ht hs =>
      exact .single ⟨.read i dest, ⟨trivial, trivial⟩, .read ht hs⟩
  | deliver hs => cases hs; exact .refl
  | _ => exact .refl

theorem reach_fills (h : (mainLoop c).Reach WellBehaved s) :
    (Delivery.delivery c).Reach (fun d a => ∀ b, a = .loop b → FillsOnly d.loop b) s.delivery := by
  refine reach_delivery (h.mono fun s a hg b hb b' hb' => ?_)
  subst hb'
  cases a with
  | kernel a => cases hb; exact hg.1
  | connect | write | submit => cases hb; trivial
  | _ => cases hb

/-! ### Room in the submission ring -/

/-- No step of the event loop changes the size of the submission ring. -/
theorem step_ringEntries {w w' : EventLoop.State} {a : EventLoop.Action} (hw : Routed w)
    (h : EventLoop.Step w a w') : w'.sq.ringEntries = w.sq.ringEntries := by
  cases h with
  | connect hring htail hblock h => exact (setupStream_spec hw.sq h).2.2.2.2.1
  | write hs hptr h => exact (TcpStream.write_spec (hw.stream hs).2 hw.sq h).2.2.2.2.2.1
  | _ => rfl

/-- How many entries may wait, wherever the program stands before it submits. -/
def State.allowance (s : State M) : Pc → ℕ
  | .setup | .top => s.loop.streams.length
  | .ping j => s.loop.streams.length + 3 * j + (s.unsubmitted j).length
  | .submit => s.loop.queued.length
  | .batch => 0

/-- What waits to be submitted: the entries of the set-up rounds, and at most
three sends for each stream offered so far. -/
structure Waiting (s : State M) : Prop where
  entries : s.loop.sq.ringEntries = cqEntries
  sends : ∀ i, (s.unsubmitted i).length ≤ 3
  bound : s.loop.queued.length ≤ s.allowance s.pc
  /-- nothing is submitted before the set-up loop ends -/
  unsubmitted : s.pc = .setup → s.loop.requests = [] ∧ s.loop.history = []

/-- A step that leaves the submission queue and the number of streams alone. -/
theorem Waiting.frame (h : Waiting s) {pc : Pc} (hsq : s'.loop.sq = s.loop.sq)
    (hqueued : s'.loop.queued = s.loop.queued)
    (hlen : s'.loop.streams.length = s.loop.streams.length) (hpc : s'.pc = pc)
    (hbound : s.loop.queued.length ≤ s.allowance pc)
    (hsetup : pc = .setup → s'.loop.requests = [] ∧ s'.loop.history = []) : Waiting s' := by
  have hsends : ∀ i, s'.unsubmitted i = s.unsubmitted i := fun i => by
    rw [State.unsubmitted, hqueued, State.unsubmitted]
  have hallow : s'.allowance pc = s.allowance pc := by
    cases pc <;> simp only [State.allowance, hlen, hsends, hqueued]
  refine ⟨hsq ▸ h.entries, fun i => (hsends i).symm ▸ h.sends i, ?_, hpc ▸ hsetup⟩
  rw [hqueued, hpc, hallow]
  exact hbound

theorem Routed.queued_length {w : EventLoop.State} (hw : Routed w) :
    w.queued.length = w.sq.count := by
  rw [← hw.queued.length_eq, IoUringSq.queue_length]

theorem waiting_init (h : Init s) : Waiting s := by
  have hq := h.delivery.loop.queued
  refine ⟨h.entries, ?_, ?_, fun _ => ⟨h.delivery.loop.requests, h.delivery.loop.history⟩⟩
  · simp [State.unsubmitted, hq]
  · simp [hq]

theorem unsubmitted_queue {o : Origin} (hqueued : s'.loop.queued = s.loop.queued ++ [o]) (i : ℕ) :
    s'.unsubmitted i = s.unsubmitted i ++ (o.sendTo i).toList := by
  rw [State.unsubmitted, hqueued, List.filterMap_append, List.filterMap_cons, List.filterMap_nil,
    State.unsubmitted]
  cases o.sendTo i <;> rfl

theorem unsubmitted_write {op : SendOp} {i : ℕ}
    (hqueued : s'.loop.queued = s.loop.queued ++ [.send op]) (hi : op.stream = i) :
    (s'.unsubmitted i).length = (s.unsubmitted i).length + 1 := by
  subst hi
  rw [unsubmitted_queue hqueued, sendTo_self, Option.toList_some, List.length_append,
    List.length_singleton]

theorem waiting_connect {recvId : UInt32} (h : Waiting s) (hpc : s.pc = .setup) (hpc' : s'.pc = s.pc)
    (hentries : s'.loop.sq.ringEntries = cqEntries)
    (hqueued : s'.loop.queued = s.loop.queued ++ [.recv s.loop.streams.length recvId])
    (hlen : s'.loop.streams.length = s.loop.streams.length + 1)
    (hrequests : s'.loop.requests = s.loop.requests) (hhistory : s'.loop.history = s.loop.history) :
    Waiting s' := by
  have hbound := h.bound
  rw [hpc, State.allowance] at hbound
  refine ⟨hentries, fun i => ?_, ?_, fun _ => ?_⟩
  · rw [unsubmitted_queue hqueued, sendTo_recv, Option.toList_none, List.append_nil]
    exact h.sends i
  · rw [hpc', hpc, State.allowance, hqueued, hlen, List.length_append, List.length_singleton]
    exact Nat.succ_le_succ hbound
  · rw [hrequests, hhistory]
    exact h.unsubmitted hpc

theorem waiting_write {op : SendOp} (h : Waiting s) (hpc : s.pc = .ping op.stream)
    (hpc' : s'.pc = s.pc) (hfew : (s.unsubmitted op.stream).length < 3)
    (hentries : s'.loop.sq.ringEntries = cqEntries)
    (hqueued : s'.loop.queued = s.loop.queued ++ [.send op])
    (hlen : s'.loop.streams.length = s.loop.streams.length) : Waiting s' := by
  have hbound := h.bound
  rw [hpc, State.allowance] at hbound
  refine ⟨hentries, fun i => ?_, ?_, fun hset => by cases (hpc'.trans hpc).symm.trans hset⟩
  · by_cases hi : op.stream = i
    · subst hi
      exact (unsubmitted_write hqueued rfl).trans_le hfew
    · rw [unsubmitted_queue hqueued, sendTo_ne hi, Option.toList_none, List.append_nil]
      exact h.sends i
  · rw [hpc', hpc, State.allowance, unsubmitted_write hqueued rfl, hqueued, hlen, List.length_append,
      List.length_singleton]
    omega

theorem waiting_step (hw : Routed s.loop) (h : Waiting s) (hg : WellBehaved s a)
    (hs : Step c s a s') : Waiting s' := by
  have hbound := h.bound
  cases hs with
  | @kernel a w p ring ha hs hp hring =>
    obtain ⟨-, -, hstreams, hqueued, hsq, -, hne⟩ := kernel_frame ha hs hp
    exact h.frame hsq hqueued (congrArg _ hstreams) rfl hbound
      fun hset => absurd (h.unsubmitted hset).1 hne
  | connect hpc hs =>
    have hentries := (step_ringEntries hw hs).trans h.entries
    cases hs with
    | connect => exact waiting_connect h hpc rfl hentries rfl (List.length_append ..) rfl rfl
  | enter hpc =>
    rw [hpc] at hbound
    exact h.frame rfl rfl rfl rfl hbound nofun
  | ping hpc =>
    rw [hpc] at hbound
    exact h.frame rfl rfl rfl rfl (Nat.le_add_right_of_le hbound) nofun
  | skip hpc hpinged => exact h.frame rfl rfl rfl rfl le_rfl nofun
  | write hpc hs =>
    have hentries := (step_ringEntries hw hs).trans h.entries
    cases hs with
    | write => exact waiting_write h hpc rfl hg.2 hentries rfl (List.length_set ..)
  | @next j hpc hj =>
    rw [hpc] at hbound
    have hsends := h.sends j
    refine h.frame rfl rfl rfl rfl ?_ nofun
    simp only [State.allowance] at hbound ⊢
    omega
  | offered hpc hj => exact h.frame rfl rfl rfl rfl le_rfl nofun
  | @submit n w hpc hs =>
    obtain rfl : n = s.loop.sq.count := hg
    cases hs with
    | submit hn =>
      have hnil : s.loop.queued.drop s.loop.sq.count = [] :=
        List.drop_eq_nil_of_le (Routed.queued_length hw).le
      refine ⟨h.entries, fun i => ?_, ?_, nofun⟩
      · simp [State.unsubmitted, State.withLoop, hnil]
      · exact (congrArg List.length hnil).le
  | peek hpc hring => exact h.frame rfl rfl rfl rfl hbound h.unsubmitted
  | waitReady hpc hring => exact h.frame rfl rfl rfl rfl hbound h.unsubmitted
  | waitTimeout hpc hring =>
    rw [hpc] at hbound
    exact h.frame rfl rfl rfl rfl (hbound.trans (Nat.zero_le _)) nofun
  | build hpc hl hp hraw hring => exact h.frame rfl rfl rfl rfl hbound h.unsubmitted
  | handle hpc hl hheld ht hs hring =>
    exact h.frame rfl rfl (List.length_set ..) rfl hbound h.unsubmitted
  | read hs =>
    cases hs with
    | read hreading hnone hpos ht hs =>
      exact h.frame rfl rfl (List.length_set ..) rfl hbound h.unsubmitted
  | deliver hs =>
    cases hs with
    | deliver hreading hsome => exact h.frame rfl rfl rfl rfl hbound h.unsubmitted
  | @advance i n ring hpc hidle hl hring =>
    rw [hpc] at hbound
    refine h.frame rfl rfl rfl rfl ?_ (by split <;> nofun)
    split
    · exact hbound
    · exact hbound.trans (Nat.zero_le _)

theorem reach_waiting (h : (mainLoop c).Reach WellBehaved s) : Waiting s :=
  h.invariant (fun _ => waiting_init) fun _ _ _ hr hi hg hs =>
    waiting_step (reach_routed (reach_sound hr)) hi hg hs

theorem Waiting.room_setup (hw : Routed s.loop) (h : Waiting s) (hpc : s.pc = .setup)
    (hfew : s.loop.streams.length < maxBufferGroup) :
    s.loop.sq.count < s.loop.sq.ringEntries.toNat := by
  have hbound := h.bound
  rw [hpc, State.allowance, Routed.queued_length hw] at hbound
  have hfew : s.loop.streams.length < 256 := hfew
  rw [h.entries, show cqEntries.toNat = 1024 from rfl]
  omega

theorem Waiting.room_ping (hw : Routed s.loop) (h : Waiting s) {i : ℕ} {t : TcpStream}
    (hpc : s.pc = .ping i) (ht : s.loop.streams[i]? = some t) (hfew : (s.unsubmitted i).length < 3) :
    s.loop.sq.count < s.loop.sq.ringEntries.toNat := by
  have hbound := h.bound
  rw [hpc, State.allowance, Routed.queued_length hw] at hbound
  have hi := (List.getElem?_eq_some_iff.mp ht).1
  have hall : s.loop.streams.length ≤ 256 := hw.few
  rw [h.entries, show cqEntries.toNat = 1024 from rfl]
  omega

/-! ### The calls of the program succeed -/

theorem dispatch_eq_ok {pool : BufRingPool} {mem : Memory} {streams : List TcpStream}
    {cqe : IoUringCqe} {r : List TcpStream × Memory}
    (h : dispatch pool mem streams (some cqe) = .ok r) : ∃ completion t t' mem',
    Completion.fromRawEvent pool mem (some cqe) = .ok completion ∧
    streams[completion.userData.owner.toNat]? = some t ∧
    t.onCompletion mem completion = .ok (t', mem') := by
  simp only [dispatch, bind_eq_ok, unwrap_eq_ok, Prod.exists] at h
  obtain ⟨completion, hraw, t, ht, t', mem', hs, -⟩ := h
  exact ⟨completion, t, t', mem', hraw, ht, hs⟩

/-- The next entry is accepted, whichever request it completes. -/
theorem dispatch_isOk {w : EventLoop.State} (h : eventLoop.Reach Sound w) {p : Posted}
    {rest : List Posted} (hc : w.cqes = p :: rest) :
    ∃ r, dispatch w.pool w.mem w.streams (some p.cqe) = .ok r := by
  have hw := reach_routed h
  cases ho : p.request.origin with
  | recv i recvId =>
    exact (reach_received (h.mono fun _ _ hg => hg.1)).processed hw hc (by rw [ho]; rfl)
  | send op =>
    obtain ⟨ht, hn⟩ := reach_windowed (h.mono fun _ _ hg => hg.2)
    have hp : p ∈ w.cqes := hc ▸ List.mem_cons_self
    have hop : op ∈ w.outstanding := List.mem_append_right _ (mem_finished hp ho)
    obtain ⟨t, hs⟩ : ∃ t, w.streams[op.stream]? = some t :=
      ⟨_, List.getElem?_eq_getElem (hw.outstanding_lt hop)⟩
    obtain ⟨-, -, hpos, -⟩ := hn.op op hop
    have hcomplete := hn.posted p hp op ho
    exact ⟨_, hw.process_send hp ho hs hcomplete.buffer hcomplete.bufMore
      (by rw [hcomplete.res]; exact_mod_cast hpos)
      ((ht.entry _ t hs _ _).mpr ⟨op, hop, rfl, rfl, rfl⟩) hcomplete.res.symm⟩

theorem Inv.in_batch (hi : Inv s) (hl : s.ring.loop ≠ .poll) : s.pc = .batch :=
  by_contra fun hpc => hl (hi.outside hpc)

/-- The next pointer of a batch names the first unprocessed entry. -/
theorem Inv.captured (hi : Inv s) {i n : ℕ} (hl : s.ring.loop = .build i n) :
    ∃ ptr p rest, s.ring.cqeBuf i = some ptr ∧ s.loop.cqes = p :: rest ∧
      p.cqe = s.ring.cq.cqes ptr := by
  have hcap := hi.ring.loop
  rw [hl] at hcap
  obtain ⟨hposted, hcap⟩ := hcap
  have hptr := hcap.ptr i le_rfl hcap.lt
  rw [Nat.sub_self] at hptr
  rw [s.ring.cq.queue_head? hcap.ready_pos hi.ring.wf] at hposted
  obtain ⟨p, rest, hc, hpe, -⟩ := hi.coupled.head hposted
  exact ⟨_, p, rest, hptr, hc, hpe⟩

/-- An entry is captured and not yet handled. -/
def Examining : CompletionQueue.Loop → Prop
  | .build .. | .consume .. => True
  | _ => False

/-- The program stands between capturing the completion and handling it. -/
def State.Examines (s : State M) (p : Posted) : Prop :=
  s.loop.cqes.head? = some p ∧ Examining s.ring.loop

theorem State.Examines.cons {p : Posted} (hp : s.Examines p) : ∃ rest, s.loop.cqes = p :: rest :=
  List.head?_eq_some_iff.mp hp.1

theorem Inv.examines (hi : Inv s) (hl : Examining s.ring.loop) : ∃ p, s.Examines p := by
  cases h : s.ring.loop with
  | build i n =>
    obtain ⟨-, p, rest, -, hc, -⟩ := hi.captured h
    exact ⟨p, by rw [hc]; rfl, hl⟩
  | consume i n ptr cqe =>
    obtain ⟨-, p, rest, -, hc, -⟩ := hi.coupled.held i n ptr cqe h
    exact ⟨p, by rw [hc]; rfl, hl⟩
  | poll | wait | advance =>
    rw [h] at hl
    exact False.elim hl

section Dispatch
variable {p : Posted} (hi : Inv s) (hp : s.Examines p)
  (hd : ∃ r, dispatch s.loop.pool s.loop.mem s.loop.streams (some p.cqe) = .ok r)
include hi hp hd

theorem build_of_dispatch {i n : ℕ} (hl : s.ring.loop = .build i n) :
    ∃ s', Step c s .build s' := by
  have hpc := hi.in_batch (by simp [hl])
  obtain ⟨rest, hc⟩ := hp.cons
  obtain ⟨ptr, p', rest', hptr, hc', hpe⟩ := hi.captured hl
  obtain ⟨rfl, rfl⟩ := List.cons.inj (hc.symm.trans hc')
  obtain ⟨r, hd⟩ := hd
  obtain ⟨completion, -, -, -, hraw, -⟩ := dispatch_eq_ok hd
  exact ⟨_, .build hpc hl hptr (hpe ▸ hraw) (.build hl hptr)⟩

theorem handle_of_dispatch {i n ptr : ℕ} {cqe : IoUringCqe}
    (hl : s.ring.loop = .consume i n ptr cqe) : ∃ s', Step c s .handle s' := by
  have hpc := hi.in_batch (by simp [hl])
  obtain ⟨rest, hc⟩ := hp.cons
  obtain ⟨completion, p', rest', hheld, hc', hptr, hraw⟩ := hi.coupled.held i n ptr cqe hl
  obtain ⟨rfl, rfl⟩ := List.cons.inj (hc.symm.trans hc')
  obtain ⟨r, hd⟩ := hd
  obtain ⟨completion', t, t', mem, hraw', ht, hs⟩ := dispatch_eq_ok hd
  obtain rfl : completion = completion' := Except.ok.inj (hraw.symm.trans hraw')
  have hsame : { completion with cqe := s.ring.cq.cqes ptr } = completion := by
    rw [hptr, ← (Completion.fromRawEvent_cqe hraw).1]
  exact ⟨_, .handle hpc hl hheld ht (hsame ▸ hs) (.consume hl)⟩

end Dispatch

/-- A step of the program itself. -/
def ByProgram : Action → Prop
  | .kernel _ => False
  | _ => True

/-- When the completion it examines is accepted and the decoder can go on, the
program has a step to take. -/
theorem step_enabled (hi : Inv s) (hw : Routed s.loop)
    (hd : ∀ p, s.Examines p →
      ∃ r, dispatch s.loop.pool s.loop.mem s.loop.streams (some p.cqe) = .ok r)
    (hdecode : ∀ i, s.delivery.reading = some i →
      (∃ s', Step c s .deliver s') ∨ ∃ s', Step c s (.read i [0]) s') :
    ∃ a s', ByProgram a ∧ WellBehaved s a ∧ Step c s a s' := by
  cases hpc : s.pc with
  | setup => exact ⟨.enter, _, trivial, trivial, .enter hpc⟩
  | top => exact ⟨.ping, _, trivial, trivial, .ping hpc⟩
  | ping j =>
    rcases Nat.lt_or_ge j s.loop.streams.length with hj | hj
    · exact ⟨.next, _, trivial, trivial, .next hpc hj⟩
    · exact ⟨.offered, _, trivial, trivial, .offered hpc hj⟩
  | submit => exact ⟨.submit _, _, trivial, rfl, .submit hpc hw.step_submit⟩
  | batch =>
    cases hl : s.ring.loop with
    | poll => exact ⟨.peek, _, trivial, trivial, .peek hpc (.peek hl)⟩
    | wait => exact ⟨.waitTimeout, _, trivial, trivial, .waitTimeout hpc (.waitTimeout hl)⟩
    | build i n =>
      obtain ⟨p, hp⟩ := hi.examines (by rw [hl]; trivial)
      obtain ⟨s', hs⟩ := build_of_dispatch (c := c) hi hp (hd p hp) hl
      exact ⟨.build, s', trivial, trivial, hs⟩
    | consume i n ptr cqe =>
      obtain ⟨p, hp⟩ := hi.examines (by rw [hl]; trivial)
      obtain ⟨s', hs⟩ := handle_of_dispatch (c := c) hi hp (hd p hp) hl
      exact ⟨.handle, s', trivial, trivial, hs⟩
    | advance i n =>
      cases hr : s.delivery.reading with
      | none => exact ⟨.advance, _, trivial, trivial, .advance hpc hr hl (.advance hl)⟩
      | some j =>
        rcases hdecode j hr with ⟨s', hs⟩ | ⟨s', hs⟩
        · exact ⟨.deliver, s', trivial, trivial, hs⟩
        · exact ⟨.read j [0], s', trivial, trivial, hs⟩

theorem examined_isOk (h : (mainLoop c).Reach WellBehaved s) (p : Posted) (hp : s.Examines p) :
    ∃ r, dispatch s.loop.pool s.loop.mem s.loop.streams (some p.cqe) = .ok r := by
  obtain ⟨rest, hc⟩ := hp.cons
  exact dispatch_isOk (reach_sound h) hc

theorem build_enabled (h : (mainLoop c).Reach WellBehaved s) {i n : ℕ}
    (hl : s.ring.loop = .build i n) : ∃ s', Step c s .build s' := by
  obtain ⟨p, hp⟩ := (reach_inv h).examines (by rw [hl]; trivial)
  exact build_of_dispatch (reach_inv h) hp (examined_isOk h p hp) hl

theorem handle_enabled (h : (mainLoop c).Reach WellBehaved s) {i n ptr : ℕ} {cqe : IoUringCqe}
    (hl : s.ring.loop = .consume i n ptr cqe) : ∃ s', Step c s .handle s' := by
  obtain ⟨p, hp⟩ := (reach_inv h).examines (by rw [hl]; trivial)
  exact handle_of_dispatch (reach_inv h) hp (examined_isOk h p hp) hl

theorem decode_enabled (h : (mainLoop c).Reach WellBehaved s) {i : ℕ}
    (hreading : s.delivery.reading = some i) (dest : List UInt8) (hpos : 0 < dest.length) :
    (∃ s', Step c s .deliver s') ∨ ∃ s', Step c s (.read i dest) s' := by
  rcases Delivery.reading_enabled (fun d a hg => hg a rfl) (reach_fills h) hreading hpos with
    ⟨d, hs⟩ | ⟨d, hs⟩
  · exact .inl ⟨_, .deliver hs⟩
  · exact .inr ⟨_, .read hs⟩

/-- No call of the program fails, and the program always has a step to take. -/
structure Continues (c : PrefixCode M UInt8) (s : State M) : Prop where
  /-- a round of the set-up loop connects one more stream -/
  connect : s.pc = .setup → s.loop.streams.length < maxBufferGroup →
    ∀ raw recvId ring base, (∀ g kg, s.loop.groups g = some kg → kg.ring ≠ ring) →
      (s.loop.mem.rings ring).tail = 0 →
      (∀ g kg, s.loop.groups g = some kg →
        base + blockSize ≤ kg.base ∨ kg.base + blockSize ≤ base) →
      ∃ s', Step c s (.connect raw recvId ring base) s'
  /-- a write finds room in the submission ring -/
  write : ∀ i, s.pc = .ping i → i < s.loop.streams.length → (s.unsubmitted i).length < 3 →
    ∀ ptr buf, s.loop.mem.vecs ptr = none → 0 < buf.length → ∃ s', Step c s (.write i ptr buf) s'
  /-- the decoder may ask for any number of bytes -/
  decode : ∀ i, s.delivery.reading = some i → ∀ dest : List UInt8, 0 < dest.length →
    (∃ s', Step c s .deliver s') ∨ ∃ s', Step c s (.read i dest) s'
  step : ∃ a s', ByProgram a ∧ WellBehaved s a ∧ Step c s a s'

/-- The main loop never stops: in every state of every well-behaved run. -/
theorem main_loop_continues (h : (mainLoop c).Reach WellBehaved s) : Continues c s := by
  have hw := reach_routed (reach_sound h)
  have hwait := reach_waiting h
  refine ⟨?_, ?_, fun i hi dest hpos => decode_enabled h hi dest hpos, ?_⟩
  · intro hpc hfew raw recvId ring base hring htail hblock
    obtain ⟨sq, slot, -, -, -, hs⟩ :=
      hw.step_connect _ _ _ _ (hwait.room_setup hw hpc hfew) hfew hring htail hblock
    exact ⟨_, .connect hpc hs⟩
  · intro i hpc hi hfew ptr buf hptr hpos
    have ht := List.getElem?_eq_getElem hi
    obtain ⟨sq, slot, -, -, -, hs⟩ := hw.step_write ht hptr (hwait.room_ping hw hpc ht hfew) hpos
    exact ⟨_, .write hpc hs⟩
  · exact step_enabled (reach_inv h) hw (examined_isOk h)
      fun i hi => decode_enabled h hi [0] Nat.one_pos

theorem main_loop_continues_arrived : ∃ s : State { p : List UInt8 // p.length < 126 },
    s.loop.received 0 = [7] ∧ s.loop.cqes.length = 1 ∧ Continues Delivery.textFrames s := by
  obtain ⟨sq, slot, h⟩ := reach_polling Delivery.textFrames
  have h₁ := h.next (by trivial) (step_arrived _ sq slot [7] (by decide) (by decide))
  exact ⟨_, rfl, rfl, main_loop_continues (h₁.mono fun _ _ => Quiet.wellBehaved)⟩

end UringWs.MainLoop
