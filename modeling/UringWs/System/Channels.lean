import UringWs.Foundation.Duplex
import UringWs.System.Response
import UringWs.System.SendOnce

/-! # The program as a family of channels

What the program is for, said without buffers, rings or completions: each stream
is a duplex channel that holds at most one block of unread bytes. The kernel is
taken to put each send out whole.
-/
namespace UringWs.EventLoop

variable {w w' : State} {i : ℕ} {a : Action}

/-- A stream's channel: what has arrived, was read, was written and was sent. -/
def State.channels (w : State) : Duplex ℕ UInt8 where
  arrived := w.received
  returned := w.returned
  written := w.written
  outbox i := ((w.toExecute i).map fun op => op.vec.bytes : List (List UInt8))
  wire := w.socket

/-- Every entry the kernel posts moves data; writes are short and under fresh words. -/
def Carries (w : State) (a : Action) : Prop := FillsOnly w a ∧ Whole w a

/-- No more is received and unread than the buffers of a group hold. -/
theorem Received.backlog_le (hw : Routed w) (h : Received w) (i : ℕ) :
    (w.received i).length ≤ (w.returned i).length + blockSize := by
  rcases Nat.lt_or_ge i w.streams.length with hi | hi
  · obtain ⟨kg, -, -, hcustody, hbytes⟩ := h.stream hw (List.getElem?_eq_getElem hi)
    rw [← hbytes, List.length_append]
    exact Nat.add_le_add_left hcustody.pendingBytes_length_le _
  · obtain ⟨hreceived, -⟩ := h.unconnected i hi
    rw [hreceived]
    exact Nat.zero_le _

/-- A read takes what comes next of the bytes that have arrived. -/
theorem Received.next_bytes (hw : Routed w) (h : Received w) {s : TcpStream}
    {v : KernelBufferReader} {vs : List KernelBufferReader} (hs : w.streams[i]? = some s)
    (hitems : s.inner.bufVec.items = v :: vs) {n : ℕ} (hn : n ≤ v.remaining) :
    ((w.received i).drop (w.returned i).length).take n = (v.unread w.mem).take n := by
  rw [h.front_unread hw hs hitems, List.take_take, Nat.min_eq_left hn]

/-! ### What the steps do to the channels -/

theorem channels_congr (hreceived : w'.received = w.received) (hreturned : w'.returned = w.returned)
    (hwritten : w'.written = w.written) (hsocket : w'.socket = w.socket)
    (hexec : ∀ i, w'.toExecute i = w.toExecute i) : w'.channels = w.channels := by
  simp only [State.channels, hreceived, hreturned, hwritten, hsocket, hexec]

theorem channels_arrive {data : List UInt8} (hw' : Routed w') (h' : Received w')
    (hreceived : w'.received = Function.update w.received i (w.received i ++ data))
    (hreturned : w'.returned = w.returned) (hwritten : w'.written = w.written)
    (hsocket : w'.socket = w.socket) (hexec : ∀ j, w'.toExecute j = w.toExecute j) :
    Duplex.Step blockSize w.channels (.arrive i data) w'.channels := by
  have hroom := h'.backlog_le hw' i
  rw [hreceived, hreturned, Function.update_self] at hroom
  have hstep : Duplex.Step blockSize w.channels (.arrive i data) _ := .arrive hroom
  simp only [State.channels, hreceived, hreturned, hwritten, hsocket, hexec] at hstep ⊢
  exact hstep

theorem channels_read (i n : ℕ) (hreceived : w'.received = w.received)
    (hreturned : w'.returned = Function.update w.returned i
      (w.returned i ++ ((w.received i).drop (w.returned i).length).take n))
    (hwritten : w'.written = w.written) (hsocket : w'.socket = w.socket)
    (hexec : ∀ j, w'.toExecute j = w.toExecute j) :
    Duplex.Step blockSize w.channels (.read i n) w'.channels := by
  have hstep : Duplex.Step blockSize w.channels (.read i n) _ := .read w.channels i n
  simp only [State.channels, hreceived, hreturned, hwritten, hsocket, hexec] at hstep ⊢
  exact hstep

theorem channels_write (op : SendOp) (hqueued : w'.queued = w.queued ++ [.send op])
    (hreq : w'.requests = w.requests) (hreceived : w'.received = w.received)
    (hreturned : w'.returned = w.returned) (hsocket : w'.socket = w.socket)
    (hwritten : w'.written =
      Function.update w.written op.stream (w.written op.stream ++ [op.vec.bytes])) :
    Duplex.Step blockSize w.channels (.write op.stream op.vec.bytes) w'.channels := by
  have hout : w'.channels.outbox = Function.update w.channels.outbox op.stream
      (op.vec.bytes ::ₘ w.channels.outbox op.stream) := by
    funext j
    by_cases hj : j = op.stream
    · subst hj
      rw [Function.update_self]
      simp only [State.channels, toExecute_queue hqueued hreq, sendTo_self, Option.toList_some,
        List.map_append, List.map_singleton, Multiset.cons_coe, Multiset.coe_eq_coe]
      exact List.perm_append_singleton _ _
    · rw [Function.update_of_ne hj]
      simp only [State.channels, toExecute_queue hqueued hreq, sendTo_ne (Ne.symm hj),
        Option.toList_none, List.append_nil]
  have hstep : Duplex.Step blockSize w.channels (.write op.stream op.vec.bytes) _ :=
    .write w.channels op.stream op.vec.bytes
  rw [← hout] at hstep
  simp only [State.channels, hreceived, hreturned, hwritten, hsocket] at hstep ⊢
  exact hstep

/-- Whichever send the kernel executes, its message leaves the outbox. -/
theorem channels_transmit {k : ℕ} {r : Request} {op : SendOp} (hr : w.requests[k]? = some r)
    (ho : r.origin = .send op) (hqueued : w'.queued = w.queued)
    (hreq : w'.requests = w.requests.eraseIdx k) (hreceived : w'.received = w.received)
    (hreturned : w'.returned = w.returned) (hwritten : w'.written = w.written)
    (hsocket : w'.socket =
      Function.update w.socket op.stream (w.socket op.stream ++ op.vec.bytes)) :
    Duplex.Step blockSize w.channels (.transmit op.stream op.vec.bytes) w'.channels := by
  have hperm := toExecute_sent hr ho hqueued hreq
  have hmsg : w.channels.outbox op.stream = op.vec.bytes ::ₘ w'.channels.outbox op.stream := by
    have hself := (hperm op.stream).map fun op => op.vec.bytes
    rw [sendTo_self] at hself
    exact Multiset.coe_eq_coe.mpr hself
  have hout : w'.channels.outbox =
      Function.update w.channels.outbox op.stream (w'.channels.outbox op.stream) := by
    funext j
    by_cases hj : j = op.stream
    · rw [hj, Function.update_self]
    · have hother := (hperm j).map fun op => op.vec.bytes
      rw [sendTo_ne (Ne.symm hj)] at hother
      rw [Function.update_of_ne hj]
      exact (Multiset.coe_eq_coe.mpr hother).symm
  have hstep : Duplex.Step blockSize w.channels (.transmit op.stream op.vec.bytes) _ :=
    .transmit hmsg
  rw [← hout] at hstep
  simp only [State.channels, hreceived, hreturned, hwritten, hsocket] at hstep ⊢
  exact hstep

/-- Every step of the loop is a step of one channel, or of none. -/
theorem step_channels (hw : Routed w) (h : Received w) (hw' : Routed w') (h' : Received w')
    (ht : w.Tabled) (hsend : Sending w) (hg : Carries w a) (he : Effect w a w') :
    w'.channels = w.channels ∨ ∃ b, Duplex.Step blockSize w.channels b w'.channels := by
  cases he with
  | connect hlt hring htail hblock hsq hqueue =>
    refine .inl (channels_congr rfl rfl rfl rfl fun i => ?_)
    apply (toExecute_queue (o := .recv w.streams.length _) (by rfl) (by rfl) i).trans
    rw [sendTo_recv, Option.toList_none, List.append_nil]
  | @write i ptr buf s sq slot hs hptr hpos hsq hqueue =>
    exact .inr ⟨_, channels_write ⟨i, (w.written i).length, s.sendId, ⟨ptr, buf⟩⟩
      rfl rfl rfl rfl rfl rfl⟩
  | @submit n hn => exact .inl (channels_congr rfl rfl rfl rfl (toExecute_submit hw n))
  | recv hr ho hs hg' havail hpos hlen hcqe hbuffer hbid hbufMore =>
    exact .inr ⟨_, channels_arrive hw' h' rfl rfl rfl rfl
      (toExecute_leftAfter hr (by rw [ho]; rfl) rfl rfl)⟩
  | @sent k out res flags r op cqe hr ho hready hout hres hcqe hbuffer hbufMore =>
    have hmem := mem_unexecuted hr ho
    obtain rfl := sent_bytes ht hmem (hsend.short op hmem) hout
    exact .inr ⟨_, channels_transmit hr ho rfl rfl rfl rfl rfl rfl⟩
  | @other k res flags r cqe hr hcqe =>
    have hevent := hg.1 r hr
    rw [hg.2 r hr] at hevent
    cases hevent
  | recvDone hc ho hs hget hitems => exact .inl rfl
  | sendDone hc ho hs hlookup hlen => exact .inl rfl
  | readEmpty hs hitems => exact .inl rfl
  | @readPart i dest s v vs hs hitems hpos hlt =>
    refine .inr ⟨_, channels_read i dest.length rfl ?_ rfl rfl fun _ => rfl⟩
    rw [h.next_bytes hw hs hitems hlt.le]
  | @readDrain i dest s v vs hs hitems hrem hle =>
    refine .inr ⟨_, channels_read i v.remaining rfl ?_ rfl rfl fun _ => rfl⟩
    rw [h.next_bytes hw hs hitems le_rfl, List.take_of_length_le (by simp)]

/-- The event loop refines a family of channels. -/
theorem reach_channels (h : eventLoop.Reach Carries w) :
    (Duplex.channels blockSize).Reachable w.channels := by
  refine h.simulate State.channels (fun w h₀ => ?_) fun w a w' hr hg hs => ?_
  · refine ⟨h₀.received, h₀.returned, h₀.written, fun i => ?_, h₀.socket⟩
    simp [State.channels, State.toExecute, h₀.queued, h₀.requests]
  · have hr' := hr.next hg hs
    have hw := reach_routed hr
    have hrecv := reach_received (hr.mono fun _ _ => And.left)
    have hrecv' := reach_received (hr'.mono fun _ _ => And.left)
    obtain ⟨ht, hsend⟩ := reach_tabled_sending (hr.mono fun _ _ => And.right)
    rcases step_channels hw hrecv (reach_routed hr') hrecv' ht hsend hg (step_effect hw hs) with
      he | ⟨b, hb⟩
    · rw [he]
    · exact .single ⟨b, trivial, hb⟩

end UringWs.EventLoop

namespace UringWs.MainLoop
open EventLoop
variable {M : Type*} {c : PrefixCode M UInt8} {s : State M}

/-- The same on the steps of the delivery system. -/
def Conveys (d : Delivery.State M) (b : Delivery.Action) : Prop :=
  ∀ a, b = .loop a → Carries d.loop a

/-- The main loop refines a family of channels, all of which are reliable. -/
theorem main_loop_channels (h : (mainLoop c).Reach (Lifted Conveys) s) :
    (Duplex.channels blockSize).Reachable s.loop.channels ∧
      ∀ i, s.loop.channels.Reliable blockSize i := by
  have hloop : eventLoop.Reach Carries s.loop :=
    Delivery.reach_events (fun _ _ hg => hg _ rfl) (fun _ => ⟨trivial, trivial⟩)
      (fun _ _ _ => ⟨trivial, trivial⟩) (reach_delivery h)
  have hch := reach_channels hloop
  exact ⟨hch, fun i => Duplex.reach_reliable hch i⟩

theorem conveys_of_call {a : Action} (h : ∀ b, a.call = some (.loop b) → Carries s.loop b) :
    Lifted Conveys s a := by
  rintro b hb a' rfl
  exact h a' hb

/-- No request fails, and everything that moves data does so whole. -/
def Lively (s : State M) (a : Action) : Prop := WellBehaved s a ∧ Lifted Conveys s a

theorem lively_plain {a : Action} (h : ∀ b, a.call ≠ some (.loop b)) (hg : WellBehaved s a) :
    Lively s a :=
  ⟨hg, conveys_of_call fun b hb => absurd hb (h b)⟩

theorem lively_call {a : Action} {b : EventLoop.Action} (h : a.call = some (.loop b))
    (hg : WellBehaved s a) (hb : Carries s.loop b) : Lively s a := by
  refine ⟨hg, conveys_of_call fun b' hb' => ?_⟩
  rw [h] at hb'
  cases hb'
  exact hb

/-- One byte is written and submitted together with the stream's receive. -/
def requested (w : EventLoop.State) : State M :=
  { (start : State M) with delivery := Delivery.asleep w, pc := .batch, pinged := true }

theorem reach_requested (c : PrefixCode M UInt8) : ∃ sq slot slot₁,
    (mainLoop c).Reach Lively (requested (sending idleSocket 1200 [1] sq slot slot₁)) := by
  obtain ⟨sq, slot, slot₁, hqueue, h⟩ := reach_pinging (c := c) (G := Lively)
    (lively_call rfl trivial ⟨trivial, trivial⟩) (fun _ => lively_plain nofun trivial)
    (fun _ => lively_plain nofun trivial)
    fun sq => lively_call rfl ⟨⟨by decide, nofun⟩, Nat.succ_pos 2⟩
      ⟨trivial, by decide, sole_fresh rfl rfl⟩
  have h₁ := h.next (a := Action.next) (lively_plain nofun trivial) (.next rfl Nat.one_pos)
  have h₂ := h₁.next (a := Action.offered) (lively_plain nofun trivial) (.offered rfl le_rfl)
  have hsub := (reach_routed (reach_sound (h₂.mono fun _ _ => And.left))).step_submit
  have hq : (wrote sq).sq.queue = _ := hqueue
  have hsub : EventLoop.Step (wrote sq) (.submit sq.count)
      (sending idleSocket 1200 [1] (sq.kernelTake sq.count) slot slot₁) := by
    have hs := hsub
    simp only [pinging, State.loop, Delivery.asleep, hq] at hs
    exact hs
  exact ⟨_, slot, slot₁, h₂.next (a := Action.submit sq.count)
    (lively_call rfl rfl ⟨trivial, trivial⟩) (.submit rfl hsub)⟩

/-- From the first peek to the handling of the completion it finds. -/
theorem handle_first (h : (mainLoop c).Reach Lively s) (hpc : s.pc = .batch)
    (hl : s.ring.loop = .poll) (hready : s.ring.peekBatch 10 ≠ 0) :
    ∃ s', (mainLoop c).Reach Lively s' ∧ Delivery.Step c s.delivery .process s'.delivery := by
  have h₁ := h.next (a := Action.peek) (lively_plain nofun trivial) (.peek hpc (.peek hl))
  obtain ⟨s₂, hbuild⟩ := build_enabled (h₁.mono fun _ _ => And.left) (if_neg hready)
  have h₂ := h₁.next (a := Action.build) (lively_plain nofun trivial) hbuild
  cases hbuild with
  | build _ _ _ _ hring =>
    cases hring
    obtain ⟨s₃, hhandle⟩ := handle_enabled (h₂.mono fun _ _ => And.left) rfl
    refine ⟨s₃, h₂.next (a := Action.handle) (lively_plain nofun trivial) hhandle, ?_⟩
    rcases step_call (reach_inv h₂) hhandle with ⟨b, hb, hs⟩ | ⟨hnone, -⟩
    · obtain rfl := Option.some.inj hb
      exact hs
    · cases hnone

/-- One write and one byte received, up to the read that returns it. -/
theorem reach_exchange (c : PrefixCode M UInt8) : ∃ s : State M, (mainLoop c).Reach Lively s ∧
    s.loop.received 0 = [7] ∧ s.loop.returned 0 = [7] ∧ s.loop.written 0 = [[1]] ∧
    s.loop.socket 0 = [1] := by
  obtain ⟨sq, slot, slot₁, h⟩ := reach_requested c
  have hsound := reach_sound (h.mono fun _ _ => And.left)
  obtain ⟨_, _, cqe, -, hres, hrecv⟩ :=
    (reach_received (hsound.mono fun _ _ => And.left)).step_recv (reach_routed hsound)
      (k := 0) (i := 0) rfl rfl rfl (show 0 + 0 < 1024 by decide)
      (show 0 < ([7] : List UInt8).length by decide) (by decide)
  have h₁ := h.next (a := Action.kernel (.recv 0 [7] cqe.flags))
    (lively_call rfl ⟨trivial, trivial⟩ ⟨trivial, trivial⟩)
    (.kernel trivial hrecv rfl (.post cqe (show (0 : UInt32) - 0 < 2048 by decide)))
  have hsent := (reach_routed (reach_sound (h₁.mono fun _ _ => And.left))).step_sent
    (firstSend [1]) (k := 1) rfl rfl rfl rfl (by decide)
  have h₂ := h₁.next (a := Action.kernel (.sent 1 [1] (Int32.ofNat 1) 0))
    (lively_call rfl ⟨trivial, trivial⟩ ⟨trivial, trivial⟩)
    (.kernel trivial hsent rfl (.post _ (show (0 : UInt32) + 1 - 0 < 2048 by decide)))
  obtain ⟨s₃, h₃, hprocess⟩ := handle_first h₂ rfl rfl
    (show min ((0 : UInt32) + 1 + 1 - 0).toNat 10 ≠ 0 by decide)
  have hsound₂ := reach_sound (h₂.mono fun _ _ => And.left)
  obtain ⟨v, inner, hrem, hitems, hfront⟩ := Delivery.step_queue_front (c := c)
    (reach_routed hsound₂) (reach_received (hsound₂.mono fun _ _ => And.left)) rfl (i := 0) rfl rfl
    rfl
  have hd₃ := Delivery.process_unique hprocess hfront
  have hsound₃ := reach_sound (h₃.mono fun _ _ => And.left)
  have hrem : v.remaining = 1 := by
    rw [hres] at hrem
    exact_mod_cast hrem
  have hloop₃ : s₃.loop = _ := congrArg Delivery.State.loop hd₃
  have hreceived : s₃.loop.received 0 = [7] := by
    rw [hloop₃]
    rfl
  have hreturned : s₃.loop.returned 0 = [] := by
    rw [hloop₃]
    rfl
  have hdrain := Delivery.step_drain (c := c) (reach_routed hsound₃)
    (reach_received (hsound₃.mono fun _ _ => And.left)) (i := 0)
    (congrArg Delivery.State.reading hd₃) (by rw [hd₃]; exact c.decode_nil) (by rw [hd₃]; rfl)
    hitems (by omega)
    (show v.remaining ≤ ([0] : List UInt8).length from hrem.le) [7]
    (by rw [hreceived, hreturned, hrem]; rfl)
  refine ⟨_, h₃.next (a := Action.read 0 [0]) (lively_plain nofun trivial) (.read hdrain),
    hreceived, ?_, ?_, ?_⟩
  · simp only [Function.update_self]
    exact congrArg (· ++ [7]) hreturned
  · rw [State.loop, hd₃]
    rfl
  · rw [State.loop, hd₃]
    rfl

/-- A read, a write and a send: one byte each way. -/
theorem main_loop_channels_arrived : ∃ s : State { p : List UInt8 // p.length < 126 },
    s.loop.channels.arrived 0 = [7] ∧ s.loop.channels.returned 0 = [7] ∧
      s.loop.channels.written 0 = [[1]] ∧ s.loop.channels.wire 0 = [1] ∧
      (Duplex.channels blockSize).Reachable s.loop.channels ∧
      ∀ i, s.loop.channels.Reliable blockSize i := by
  obtain ⟨s, h, hreceived, hreturned, hwritten, hsocket⟩ := reach_exchange Delivery.textFrames
  exact ⟨s, hreceived, hreturned, hwritten, hsocket,
    main_loop_channels (h.mono fun _ _ => And.right)⟩

end UringWs.MainLoop
