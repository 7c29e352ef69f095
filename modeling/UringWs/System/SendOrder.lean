import UringWs.System.SendTable
import UringWs.System.Progress

/-! # The order of sent bytes

The entries of a stream's writes are neither linked nor drained, so the kernel
may execute a later one first. The bytes on the socket keep the order of the
writes as long as it does not.
-/
namespace UringWs.EventLoop

def Origin.sendTo (i : ℕ) (o : Origin) : Option SendOp :=
  o.sendOp?.filter fun op => op.stream = i

/-- The sends of a stream still to be executed, in the order of their writes. -/
def State.toExecute (w : State) (i : ℕ) : List SendOp :=
  (w.requests.map Request.origin).filterMap (Origin.sendTo i) ++
    w.queued.filterMap (Origin.sendTo i)

/-- A send is executed only when none of its stream submitted before it is left.
Writes pass fewer than 2^32 bytes, under a word that is not in the table. -/
def NotOvertaking (w : State) : Action → Prop
  | .write i _ buf => buf.length < 2 ^ 32 ∧
      ∀ s, w.streams[i]? = some s → s.pendingSent.lookup s.sendKey = none
  | .sent k _ _ _ => ∀ r op, w.requests[k]? = some r → r.origin = .send op →
      ∀ j < k, ∀ e, w.requests[j]? = some e → e.origin.sendTo op.stream = none
  | a => SendsComplete w a

theorem NotOvertaking.fresh {w : State} {a : Action} (h : NotOvertaking w a) : FreshKeys w a := by
  cases a with
  | write i ptr buf => exact h.2
  | sent => trivial
  | _ => exact h

/-- The written buffers reach the socket in the order of the writes. -/
structure BytesInOrder (w : State) : Prop where
  prefix_written : ∀ i, w.socket i <+: (w.written i).flatten
  all_sent : ∀ i, w.toExecute i = [] → w.socket i = (w.written i).flatten

/-- The sends still to be executed are the bytes the socket lacks. -/
structure Pending (w : State) : Prop where
  bytes : ∀ i, w.socket i ++ ((w.toExecute i).map fun op => op.vec.bytes).flatten =
    (w.written i).flatten
  short : ∀ op ∈ w.unexecuted, op.vec.bytes.length < 2 ^ 32

@[simp] theorem sendTo_recv (i j : ℕ) (recvId : UInt32) :
    (Origin.recv j recvId).sendTo i = none := rfl

@[simp] theorem sendTo_self (op : SendOp) : (Origin.send op).sendTo op.stream = some op := by
  simp [Origin.sendTo, Origin.sendOp?]

theorem sendTo_ne {op : SendOp} {i : ℕ} (h : op.stream ≠ i) : (Origin.send op).sendTo i = none := by
  simp [Origin.sendTo, Origin.sendOp?, h]

theorem sendTo_of_event {o : Origin} (h : o.event = .multishortRecv) (i : ℕ) :
    o.sendTo i = none := by
  cases o with
  | recv j recvId => rfl
  | send op => cases h

theorem Pending.of_eq {w w' : State} (h : Pending w) (he : ∀ i, w'.toExecute i = w.toExecute i)
    (hu : ∀ op ∈ w'.unexecuted, op ∈ w.unexecuted) (hwritten : w'.written = w.written)
    (hsocket : w'.socket = w.socket) : Pending w' := by
  refine ⟨fun i => ?_, fun op hop => h.short op (hu op hop)⟩
  rw [hsocket, hwritten, he]
  exact h.bytes i

theorem toExecute_submit {w : State} (hw : Routed w) (n i : ℕ) :
    ((w.requests ++ List.zipWith Request.mk (w.sq.queue.take n) (w.queued.take n)).map
      Request.origin).filterMap (Origin.sendTo i) ++ (w.queued.drop n).filterMap (Origin.sendTo i) =
      w.toExecute i := by
  rw [List.map_append, map_origin_zipWith hw.queued, List.filterMap_append, List.append_assoc,
    ← List.filterMap_append, List.take_append_drop]
  rfl

theorem toExecute_leftAfter {w w' : State} {k : ℕ} {r : Request} {cqe : IoUringCqe}
    (hr : w.requests[k]? = some r) (ho : r.origin.event = .multishortRecv)
    (hqueued : w'.queued = w.queued) (hreq : w'.requests = leftAfter w.requests k cqe) (i : ℕ) :
    w'.toExecute i = w.toExecute i := by
  rw [State.toExecute, State.toExecute, hqueued, hreq, leftAfter]
  split
  · rfl
  · simp only [List.filterMap_map]
    rw [filterMap_eraseIdx_of_none hr (sendTo_of_event ho i)]

theorem unexecuted_leftAfter {w w' : State} {k : ℕ} {cqe : IoUringCqe}
    (hqueued : w'.queued = w.queued) (hreq : w'.requests = leftAfter w.requests k cqe) :
    ∀ op ∈ w'.unexecuted, op ∈ w.unexecuted := by
  simp only [State.unexecuted, mem_sendsOf, hqueued, hreq, List.mem_append, List.mem_map]
  rintro op (hop | ⟨r, hr, ho⟩)
  · exact .inl hop
  · exact .inr ⟨r, mem_leftAfter hr, ho⟩

theorem unexecuted_queue {w w' : State} {op : SendOp} (hqueued : w'.queued = w.queued ++ [.send op])
    (hreq : w'.requests = w.requests) : ∀ op' ∈ w'.unexecuted, op' = op ∨ op' ∈ w.unexecuted := by
  simp only [State.unexecuted, mem_sendsOf, hqueued, hreq, List.mem_append, List.mem_singleton,
    Origin.send.injEq]
  rintro op' ((hop | hop) | hop)
  · exact .inr (.inl hop)
  · exact .inl hop
  · exact .inr (.inr hop)

theorem unexecuted_eraseIdx {w w' : State} {k : ℕ} (hqueued : w'.queued = w.queued)
    (hreq : w'.requests = w.requests.eraseIdx k) : ∀ op ∈ w'.unexecuted, op ∈ w.unexecuted := by
  simp only [State.unexecuted, mem_sendsOf, hqueued, hreq, List.mem_append, List.mem_map]
  rintro op (hop | ⟨e, he, ho⟩)
  · exact .inl hop
  · exact .inr ⟨e, List.mem_of_mem_eraseIdx he, ho⟩

/-- A send of fewer than 2^32 bytes puts the bytes of its write on the socket. -/
theorem sent_bytes {w : State} (ht : w.Tabled) {op : SendOp} {out : List UInt8}
    (hmem : op ∈ w.unexecuted) (hshort : op.vec.bytes.length < 2 ^ 32)
    (hout : ∀ data, w.mem.vecs op.vec.ptr = some data →
      out = data.take (UInt32.ofNat op.vec.bytes.length).toNat) : out = op.vec.bytes := by
  have hof : (UInt32.ofNat op.vec.bytes.length).toNat = op.vec.bytes.length :=
    UInt32.toNat_ofNat_of_lt' hshort
  rw [hout _ (ht.alive op (List.mem_append_left _ hmem)), hof, List.take_length]

theorem toExecute_queue {w w' : State} {o : Origin} (hqueued : w'.queued = w.queued ++ [o])
    (hreq : w'.requests = w.requests) (i : ℕ) :
    w'.toExecute i = w.toExecute i ++ (o.sendTo i).toList := by
  have ho : [o].filterMap (Origin.sendTo i) = (o.sendTo i).toList := by
    cases h : o.sendTo i with
    | none => rw [List.filterMap_cons_none h, List.filterMap_nil, Option.toList_none]
    | some op => rw [List.filterMap_cons_some h, List.filterMap_nil, Option.toList_some]
  rw [State.toExecute, State.toExecute, hqueued, hreq, List.filterMap_append, List.append_assoc, ho]

theorem pending_write {w w' : State} (h : Pending w) {op : SendOp}
    (hlen : op.vec.bytes.length < 2 ^ 32) (hqueued : w'.queued = w.queued ++ [.send op])
    (hreq : w'.requests = w.requests)
    (hwritten : w'.written =
      Function.update w.written op.stream (w.written op.stream ++ [op.vec.bytes]))
    (hsocket : w'.socket = w.socket) : Pending w' := by
  refine ⟨fun i => ?_, fun op' hop' => ?_⟩
  · have hb := h.bytes i
    rw [toExecute_queue hqueued hreq, hsocket, hwritten]
    by_cases hi : op.stream = i
    · subst hi
      rw [Function.update_self, List.flatten_append, ← hb]
      simp
    · rw [sendTo_ne hi, Option.toList_none, List.append_nil, Function.update_of_ne (Ne.symm hi)]
      exact hb
  · rcases unexecuted_queue hqueued hreq op' hop' with rfl | hop'
    · exact hlen
    · exact h.short op' hop'

theorem pending_sent {w w' : State} (ht : w.Tabled) (h : Pending w) {k : ℕ} {r : Request}
    {op : SendOp} {out : List UInt8} (hr : w.requests[k]? = some r) (ho : r.origin = .send op)
    (hfirst : ∀ j < k, ∀ e, w.requests[j]? = some e → e.origin.sendTo op.stream = none)
    (hout : ∀ data, w.mem.vecs op.vec.ptr = some data →
      out = data.take (UInt32.ofNat op.vec.bytes.length).toNat)
    (hqueued : w'.queued = w.queued) (hreq : w'.requests = w.requests.eraseIdx k)
    (hwritten : w'.written = w.written)
    (hsocket : w'.socket = Function.update w.socket op.stream (w.socket op.stream ++ out)) :
    Pending w' := by
  have hmem := mem_unexecuted hr ho
  have hbytes := sent_bytes ht hmem (h.short op hmem) hout
  refine ⟨fun i => ?_, fun op' hop' => h.short op' (unexecuted_eraseIdx hqueued hreq op' hop')⟩
  have hb := h.bytes i
  simp only [State.toExecute, hqueued, hreq, hwritten, hsocket, List.filterMap_map] at hb ⊢
  by_cases hi : op.stream = i
  · subst hi
    rw [filterMap_eq_cons_eraseIdx (f := Origin.sendTo op.stream ∘ Request.origin) hr (b := op)
      (by simp [ho]) hfirst] at hb
    rw [Function.update_self, ← hb, hbytes]
    simp
  · rw [Function.update_of_ne (Ne.symm hi), filterMap_eraseIdx_of_none hr]
    · exact hb
    · simp [ho, sendTo_ne hi]

theorem pending_step {w w' : State} {a : Action} (hw : Routed w) (ht : w.Tabled)
    (h : Pending w) (hg : NotOvertaking w a) (he : Effect w a w') : Pending w' := by
  cases he with
  | connect hlt hring htail hblock hsq hqueue =>
    refine h.of_eq (fun i => ?_) (fun op hop => ?_) rfl rfl
    · apply (toExecute_queue (o := .recv w.streams.length _) (by rfl) (by rfl) i).trans
      rw [sendTo_recv, Option.toList_none, List.append_nil]
    · simpa [State.unexecuted] using hop
  | @write i ptr buf s sq slot hs hptr hpos hsq hqueue => exact pending_write h hg.1 rfl rfl rfl rfl
  | @submit n hn =>
    exact h.of_eq (toExecute_submit hw n) (fun op hop => (unexecuted_submit hw n).mem_iff.mp hop)
      rfl rfl
  | recv hr ho hs hg' havail hpos hlen hcqe hbuffer hbid hbufMore =>
    exact h.of_eq (toExecute_leftAfter hr (by rw [ho]; rfl) rfl rfl) (unexecuted_leftAfter rfl rfl)
      rfl rfl
  | @sent k out res flags r op cqe hr ho hready hout hres hcqe hbuffer hbufMore =>
    exact pending_sent ht h hr ho (hg r op hr ho) hout rfl rfl rfl rfl
  | other hr hcqe =>
    exact h.of_eq (toExecute_leftAfter hr (hg _ hr) rfl rfl) (unexecuted_leftAfter rfl rfl) rfl rfl
  | recvDone hc ho hs hget hitems => exact h.of_eq (fun _ => rfl) (fun _ => id) rfl rfl
  | sendDone hc ho hs hlookup hlen => exact h.of_eq (fun _ => rfl) (fun _ => id) rfl rfl
  | readEmpty hs hitems => exact h
  | readPart hs hitems hpos hlt => exact h.of_eq (fun _ => rfl) (fun _ => id) rfl rfl
  | readDrain hs hitems hrem hle => exact h.of_eq (fun _ => rfl) (fun _ => id) rfl rfl

theorem reach_pending {w : State} (h : eventLoop.Reach NotOvertaking w) :
    w.Tabled ∧ Pending w := by
  refine reach_invariant (P := fun w => w.Tabled ∧ Pending w) (fun w h₀ => ?_)
    (fun _ _ _ _ hw hi hg he =>
      ⟨tabled_step hw hi.1 hg.fresh he, pending_step hw hi.1 hi.2 hg he⟩) h
  refine ⟨tabled_init h₀, ?_, ?_⟩
  · simp [State.toExecute, h₀.queued, h₀.requests, h₀.socket, h₀.written]
  · simp [State.unexecuted, h₀.queued, h₀.requests]

/-- Bytes stay in order in every run in which no send overtakes another. -/
theorem bytes_in_order {w : State} (h : eventLoop.Reach NotOvertaking w) : BytesInOrder w := by
  obtain ⟨-, hp⟩ := reach_pending h
  refine ⟨fun i => ⟨_, hp.bytes i⟩, fun i hi => ?_⟩
  have hb := hp.bytes i
  rwa [hi, List.map_nil, List.flatten_nil, List.append_nil] at hb

/-- Two writes submitted together, of which the kernel executes the earlier first. -/
theorem bytes_in_order_sent : ∃ w : State, w.written 0 = [[1], [2]] ∧ w.socket 0 = [1, 2] ∧
    BytesInOrder w := by
  obtain ⟨sq, slot, slot₀, slot₁, h⟩ := reach_sendingTwo (G := NotOvertaking) idleSocket 1200
    [1] [2] (by decide) (by decide) trivial (fun _ _ => trivial)
    (fun _ _ => ⟨by decide, sole_fresh rfl rfl⟩)
    (fun _ hw _ => ⟨by decide, sole_fresh hw (firstSend_fresh ..)⟩)
  -- each time only the receive stands before the send
  have h₁ := reach_sent h (firstSend [1]) (k := 1) rfl rfl rfl rfl (by decide) (by
    intro r op hr ho j hj e he
    obtain rfl : j = 0 := by omega
    obtain rfl := Option.some.inj he
    rfl)
  have h₂ := reach_sent h₁ (secondSend [2]) (k := 1) rfl rfl rfl rfl (by decide) (by
    intro r op hr ho j hj e he
    obtain rfl : j = 0 := by omega
    obtain rfl := Option.some.inj he
    rfl)
  exact ⟨_, rfl, rfl, bytes_in_order h₂⟩

/-- Two writes of one byte each, of which the kernel executes the later first. -/
theorem bytes_out_of_order : ∃ w, eventLoop.Reach FreshKeys w ∧ w.socket 0 = [2, 1] ∧
    w.written 0 = [[1], [2]] ∧ ¬ BytesInOrder w := by
  obtain ⟨sq, slot, slot₀, slot₁, h⟩ := reach_sendingTwo (G := FreshKeys) idleSocket 1200 [1] [2]
    (by decide) (by decide) trivial (fun _ _ => trivial) (fun _ _ => sole_fresh rfl rfl)
    (fun _ hw _ => sole_fresh hw (firstSend_fresh ..))
  have h₁ := reach_sent h (secondSend [2]) (k := 2) rfl rfl rfl rfl (by decide) trivial
  have h₂ := reach_sent h₁ (firstSend [1]) (k := 1) rfl rfl rfl rfl (by decide) trivial
  refine ⟨_, h₂, rfl, rfl, fun hb => ?_⟩
  exact absurd (hb.prefix_written 0) (show ¬ [2, 1] <+: [1, 2] by decide)

/-! ### Writes that do not overlap -/

/-- Writes of fewer than 2^32 bytes, made once every earlier send of the stream
is executed, under a word that is not in the table. -/
def Sequential (w : State) : Action → Prop
  | .write i _ buf => buf.length < 2 ^ 32 ∧ w.toExecute i = [] ∧
      ∀ s, w.streams[i]? = some s → s.pendingSent.lookup s.sendKey = none
  | a => SendsComplete w a

theorem length_toExecute_step {w w' : State} {a : Action} (hw : Routed w)
    (h : ∀ i, (w.toExecute i).length ≤ 1) (hg : Sequential w a) (he : Effect w a w') (i : ℕ) :
    (w'.toExecute i).length ≤ 1 := by
  have hkeep : ∀ w' : State, w'.toExecute i = w.toExecute i → (w'.toExecute i).length ≤ 1 :=
    fun w' he => he ▸ h i
  cases he with
  | connect hlt hring htail hblock hsq hqueue =>
    refine hkeep _ ((toExecute_queue (o := .recv w.streams.length _) (by rfl) (by rfl) i).trans ?_)
    rw [sendTo_recv, Option.toList_none, List.append_nil]
  | @write j ptr buf s sq slot hs hptr hpos hsq hqueue =>
    rw [toExecute_queue (w := w) (by rfl) (by rfl)]
    by_cases hj : j = i
    · subst hj
      rw [hg.2.1]
      exact Option.length_toList_le
    · rw [sendTo_ne hj, Option.toList_none, List.append_nil]
      exact h i
  | @submit n hn => exact hkeep _ (toExecute_submit hw n i)
  | recv hr ho hs hg' havail hpos hlen hcqe hbuffer hbid hbufMore =>
    exact hkeep _ (toExecute_leftAfter hr (by rw [ho]; rfl) (by rfl) (by rfl) i)
  | @sent k out res flags r op cqe hr ho hready hout hres hcqe hbuffer hbufMore =>
    have hsub := (((List.eraseIdx_sublist w.requests k).map Request.origin).filterMap
      (Origin.sendTo i)).append_right (w.queued.filterMap (Origin.sendTo i))
    exact hsub.length_le.trans (h i)
  | other hr hcqe =>
    exact hkeep _ (toExecute_leftAfter hr (hg _ hr) (by rfl) (by rfl) i)
  | recvDone hc ho hs hget hitems => exact h i
  | sendDone hc ho hs hlookup hlen => exact h i
  | readEmpty hs hitems => exact h i
  | readPart hs hitems hpos hlt => exact h i
  | readDrain hs hitems hrem hle => exact h i

theorem length_toExecute_le {w : State} (h : eventLoop.Reach Sequential w) (i : ℕ) :
    (w.toExecute i).length ≤ 1 :=
  reach_invariant (P := fun w => ∀ i, (w.toExecute i).length ≤ 1)
    (fun w h₀ => by simp [State.toExecute, h₀.queued, h₀.requests])
    (fun _ _ _ _ hw h hg he => length_toExecute_step hw h hg he) h i

/-- Writes that do not overlap leave the kernel no send to overtake. -/
theorem reach_sequential {w : State} (h : eventLoop.Reach Sequential w) :
    eventLoop.Reach NotOvertaking w := by
  refine h.refine fun w a hr hg => ?_
  cases a with
  | write i ptr buf => exact ⟨hg.1, hg.2.2⟩
  | sent k out res flags =>
    intro r op hk ho j hj e he
    by_contra hne
    have htwo := two_le_length_filterMap (f := Origin.sendTo op.stream ∘ Request.origin) hj he hk
      hne (by simp [ho])
    have hone := length_toExecute_le hr op.stream
    rw [State.toExecute, List.filterMap_map, List.length_append] at hone
    omega
  | _ => exact hg

end UringWs.EventLoop
