import Mathlib.Data.List.Perm.Basic
import UringWs.System.SendOrder

/-! # Every write is sent once

The kernel may execute the sends of a stream in any order. In whatever order it
does, each written buffer reaches the socket in one piece, and only once.
-/
namespace UringWs.EventLoop

/-- The sends of a stream that are executed, in the order in which they were. -/
def State.executed (w : State) (i : ℕ) : List SendOp :=
  (w.history.map fun p => p.request.origin).filterMap (Origin.sendTo i)

/-- Writes pass fewer than 2^32 bytes, under a word that is not in the table. -/
def Whole (w : State) : Action → Prop
  | .write i ptr buf => buf.length < 2 ^ 32 ∧ FreshKeys w (.write i ptr buf)
  | a => SendsComplete w a

theorem Whole.fresh {w : State} {a : Action} (h : Whole w a) : FreshKeys w a := by
  cases a with
  | write i ptr buf => exact h.2
  | _ => exact h

/-- The bytes of a write and its place among the writes of its stream. -/
def SendOp.entry (op : SendOp) : List UInt8 × ℕ := (op.vec.bytes, op.seq)

/-- The socket holds the buffers of the sends executed, and every write is one
send that is executed or still to be. -/
structure Sending (w : State) : Prop where
  socket : ∀ i, w.socket i = ((w.executed i).map fun op => op.vec.bytes).flatten
  once : ∀ i, ((w.executed i ++ w.toExecute i).map SendOp.entry).Perm (w.written i).zipIdx
  short : ∀ op ∈ w.unexecuted, op.vec.bytes.length < 2 ^ 32

variable {w w' : State}

theorem executed_post {p : Posted} (hhistory : w'.history = w.history ++ [p]) (i : ℕ) :
    w'.executed i = w.executed i ++ (p.request.origin.sendTo i).toList := by
  have ho : [p.request.origin].filterMap (Origin.sendTo i) =
      (p.request.origin.sendTo i).toList := by
    cases h : p.request.origin.sendTo i with
    | none => rw [List.filterMap_cons_none h, List.filterMap_nil, Option.toList_none]
    | some op => rw [List.filterMap_cons_some h, List.filterMap_nil, Option.toList_some]
  rw [State.executed, State.executed, hhistory, List.map_append, List.filterMap_append,
    List.map_singleton, ho]

theorem executed_post_of_event {p : Posted} (ho : p.request.origin.event = .multishortRecv)
    (hhistory : w'.history = w.history ++ [p]) (i : ℕ) : w'.executed i = w.executed i := by
  rw [executed_post hhistory, sendTo_of_event ho, Option.toList_none, List.append_nil]

theorem Sending.of_eq (h : Sending w) (hx : ∀ i, w'.executed i = w.executed i)
    (he : ∀ i, w'.toExecute i = w.toExecute i) (hu : ∀ op ∈ w'.unexecuted, op ∈ w.unexecuted)
    (hwritten : w'.written = w.written) (hsocket : w'.socket = w.socket) : Sending w' := by
  refine ⟨fun i => ?_, fun i => ?_, fun op hop => h.short op (hu op hop)⟩
  · rw [hsocket, hx]
    exact h.socket i
  · rw [hx, he, hwritten]
    exact h.once i

theorem sending_write (h : Sending w) {op : SendOp} (hlen : op.vec.bytes.length < 2 ^ 32)
    (hseq : op.seq = (w.written op.stream).length) (hqueued : w'.queued = w.queued ++ [.send op])
    (hreq : w'.requests = w.requests) (hhistory : w'.history = w.history)
    (hwritten : w'.written =
      Function.update w.written op.stream (w.written op.stream ++ [op.vec.bytes]))
    (hsocket : w'.socket = w.socket) : Sending w' := by
  have hx : ∀ i, w'.executed i = w.executed i := fun i => by
    rw [State.executed, hhistory, State.executed]
  refine ⟨fun i => ?_, fun i => ?_, fun op' hop' => ?_⟩
  · rw [hsocket, hx]
    exact h.socket i
  · rw [hx, toExecute_queue hqueued hreq, hwritten]
    by_cases hi : op.stream = i
    · subst hi
      rw [Function.update_self, List.zipIdx_append, Nat.zero_add, ← hseq, sendTo_self,
        Option.toList_some, ← List.append_assoc, List.map_append]
      exact (h.once _).append_right _
    · rw [sendTo_ne hi, Option.toList_none, List.append_nil, Function.update_of_ne (Ne.symm hi)]
      exact h.once i
  · rcases unexecuted_queue hqueued hreq op' hop' with rfl | hop'
    · exact hlen
    · exact h.short op' hop'

/-- An executed send leaves the sends to execute, wherever among them it stood. -/
theorem toExecute_sent {k : ℕ} {r : Request} {op : SendOp} (hr : w.requests[k]? = some r)
    (ho : r.origin = .send op) (hqueued : w'.queued = w.queued)
    (hreq : w'.requests = w.requests.eraseIdx k) (i : ℕ) :
    (w.toExecute i).Perm (((Origin.send op).sendTo i).toList ++ w'.toExecute i) := by
  have hperm := ((perm_cons_eraseIdx hr).map Request.origin).filterMap (Origin.sendTo i)
  rw [State.toExecute, State.toExecute, hqueued, hreq, ← List.append_assoc]
  apply List.Perm.append_right
  apply hperm.trans
  rw [List.map_cons, ho]
  cases h : (Origin.send op).sendTo i with
  | none => rw [List.filterMap_cons_none h, Option.toList_none, List.nil_append]
  | some op' => rw [List.filterMap_cons_some h, Option.toList_some, List.singleton_append]

theorem sending_sent (ht : w.Tabled) (h : Sending w) {k : ℕ} {r : Request} {op : SendOp}
    {cqe : IoUringCqe} {out : List UInt8} (hr : w.requests[k]? = some r)
    (ho : r.origin = .send op)
    (hout : ∀ data, w.mem.vecs op.vec.ptr = some data →
      out = data.take (UInt32.ofNat op.vec.bytes.length).toNat)
    (hqueued : w'.queued = w.queued) (hreq : w'.requests = w.requests.eraseIdx k)
    (hhistory : w'.history = w.history ++ [⟨cqe, r⟩]) (hwritten : w'.written = w.written)
    (hsocket : w'.socket = Function.update w.socket op.stream (w.socket op.stream ++ out)) :
    Sending w' := by
  have hmem := mem_unexecuted hr ho
  have hbytes := sent_bytes ht hmem (h.short op hmem) hout
  have hx : ∀ i, w'.executed i = w.executed i ++ ((Origin.send op).sendTo i).toList := by
    intro i
    rw [executed_post hhistory, ho]
  refine ⟨fun i => ?_, fun i => ?_,
    fun op' hop' => h.short op' (unexecuted_eraseIdx hqueued hreq op' hop')⟩
  · rw [hx, hsocket]
    by_cases hi : op.stream = i
    · subst hi
      rw [Function.update_self, h.socket, hbytes]
      simp
    · rw [sendTo_ne hi, Option.toList_none, List.append_nil, Function.update_of_ne (Ne.symm hi)]
      exact h.socket i
  · rw [hx, hwritten, List.append_assoc]
    exact (((toExecute_sent hr ho hqueued hreq i).symm.append_left _).map _).trans (h.once i)

theorem sending_step {a : Action} (hw : Routed w) (ht : w.Tabled) (h : Sending w)
    (hg : Whole w a) (he : Effect w a w') : Sending w' := by
  cases he with
  | connect hlt hring htail hblock hsq hqueue =>
    refine h.of_eq (fun _ => rfl) (fun i => ?_) (fun op hop => ?_) rfl rfl
    · apply (toExecute_queue (o := .recv w.streams.length _) (by rfl) (by rfl) i).trans
      rw [sendTo_recv, Option.toList_none, List.append_nil]
    · simpa [State.unexecuted] using hop
  | @write i ptr buf s sq slot hs hptr hpos hsq hqueue =>
    exact sending_write h hg.1 rfl rfl rfl rfl rfl rfl
  | @submit n hn =>
    exact h.of_eq (fun _ => rfl) (toExecute_submit hw n)
      (fun op hop => (unexecuted_submit hw n).mem_iff.mp hop) rfl rfl
  | @recv k data flags r i recvId s kg cqe hr ho hs hg' havail hpos hlen hcqe hbuffer hbid hbufMore =>
    have hevent : r.origin.event = .multishortRecv := by
      rw [ho]
      rfl
    exact h.of_eq (executed_post_of_event hevent rfl) (toExecute_leftAfter hr hevent rfl rfl)
      (unexecuted_leftAfter rfl rfl) rfl rfl
  | sent hr ho hready hout hres hcqe hbuffer hbufMore =>
    exact sending_sent ht h hr ho hout rfl rfl rfl rfl rfl
  | other hr hcqe =>
    exact h.of_eq (executed_post_of_event (hg _ hr) rfl) (toExecute_leftAfter hr (hg _ hr) rfl rfl)
      (unexecuted_leftAfter rfl rfl) rfl rfl
  | recvDone hc ho hs hget hitems =>
    exact h.of_eq (fun _ => rfl) (fun _ => rfl) (fun _ => id) rfl rfl
  | sendDone hc ho hs hlookup hlen =>
    exact h.of_eq (fun _ => rfl) (fun _ => rfl) (fun _ => id) rfl rfl
  | readEmpty hs hitems => exact h
  | readPart hs hitems hpos hlt =>
    exact h.of_eq (fun _ => rfl) (fun _ => rfl) (fun _ => id) rfl rfl
  | readDrain hs hitems hrem hle =>
    exact h.of_eq (fun _ => rfl) (fun _ => rfl) (fun _ => id) rfl rfl

theorem sending_init (h : Init w) : Sending w := by
  refine ⟨fun i => ?_, fun i => ?_, fun op hop => ?_⟩
  · simp [State.executed, h.history, h.socket]
  · simp [State.executed, State.toExecute, h.history, h.queued, h.requests, h.written]
  · simp [State.unexecuted, h.queued, h.requests] at hop

theorem reach_tabled_sending (h : eventLoop.Reach Whole w) : w.Tabled ∧ Sending w := by
  refine reach_invariant (P := fun w => w.Tabled ∧ Sending w)
    (fun w h₀ => ⟨tabled_init h₀, sending_init h₀⟩) (fun _ _ _ _ hw hi hg he => ?_) h
  exact ⟨tabled_step hw hi.1 hg.fresh he, sending_step hw hi.1 hi.2 hg he⟩

/-- What the socket of a stream holds of the stream's writes. -/
structure SentOnce (w : State) (i : ℕ) : Prop where
  /-- whole buffers, in the order in which the kernel executed their sends -/
  socket : w.socket i = ((w.executed i).map fun op => op.vec.bytes).flatten
  /-- each write, told apart by its number, is executed once or still to be executed -/
  once : ((w.executed i ++ w.toExecute i).map SendOp.entry).Perm (w.written i).zipIdx
  /-- with nothing left to execute, some order of all the writes -/
  all_sent : w.toExecute i = [] →
    ∃ bufs : List (List UInt8), bufs.Perm (w.written i) ∧ w.socket i = bufs.flatten

/-- No order of execution loses, repeats or splits a write. -/
theorem sent_once (h : eventLoop.Reach Whole w) (i : ℕ) : SentOnce w i := by
  obtain ⟨-, hsocket, honce, -⟩ := reach_tabled_sending h
  refine ⟨hsocket i, honce i, fun hnone => ⟨_, ?_, hsocket i⟩⟩
  have hperm := (honce i).map Prod.fst
  rw [hnone, List.append_nil, List.zipIdx_map_fst, List.map_map] at hperm
  exact hperm

/-- Two writes of one byte each, of which the kernel executes the later first. -/
theorem sent_once_overtaken : ∃ w : State, w.socket 0 = [2, 1] ∧ w.written 0 = [[1], [2]] ∧
    SentOnce w 0 := by
  obtain ⟨sq, slot, slot₀, slot₁, h⟩ := reach_sendingTwo (G := Whole) idleSocket 1200 [1] [2]
    (by decide) (by decide) trivial (fun _ _ => trivial)
    (fun _ _ => ⟨by decide, sole_fresh rfl rfl⟩)
    (fun _ hw _ => ⟨by decide, sole_fresh hw (firstSend_fresh ..)⟩)
  have h₁ := reach_sent h (secondSend [2]) (k := 2) rfl rfl rfl rfl (by decide) trivial
  have h₂ := reach_sent h₁ (firstSend [1]) (k := 1) rfl rfl rfl rfl (by decide) trivial
  exact ⟨_, rfl, rfl, sent_once h₂ 0⟩

end UringWs.EventLoop
