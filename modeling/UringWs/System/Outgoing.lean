import UringWs.Foundation.Response
import UringWs.System.LoopSafety

/-! # Writes are submitted in time

A write waits in the submission queue only until the loop has offered the other
streams. Whenever the program looks for completions, or sleeps until one arrives,
the queue is empty.
-/
namespace UringWs.EventLoop

variable {w w' : State} {a : Action} {op : SendOp}

/-- A send enters the queue with the write that has its number. -/
theorem mem_queued_of_step (h : Step w a w') (hop : Origin.send op ∈ w'.queued) :
    Origin.send op ∈ w.queued ∨ op.seq = (w.written op.stream).length := by
  cases h with
  | connect hring htail hblock hset =>
    rcases List.mem_append.mp hop with hop | hop
    · exact .inl hop
    · cases List.mem_singleton.mp hop
  | write hs hptr hwrite =>
    rcases List.mem_append.mp hop with hop | hop
    · exact .inl hop
    · cases List.mem_singleton.mp hop
      exact .inr rfl
  | submit hn => exact .inl (List.mem_of_mem_drop hop)
  | _ => exact .inl hop

theorem written_length_le (h : Step w a w') (i : ℕ) :
    (w.written i).length ≤ (w'.written i).length := by
  cases h with
  | @write j ptr buf s s' r mem sq hs hptr hwrite =>
    by_cases hi : i = j
    · subst hi
      simp
    · simp [hi]
  | _ => exact le_rfl

/-- The kernel has a request of this origin, or has posted an entry for it. -/
def State.Taken (w : State) (o : Origin) : Prop :=
  (∃ r ∈ w.requests, r.origin = o) ∨ ∃ p ∈ w.history, p.request.origin = o

/-- A request that leaves the kernel does so with its entry. -/
theorem State.Taken.post {o : Origin} (h : w.Taken o) {k : ℕ} {r : Request} {cqe : IoUringCqe}
    (hr : w.requests[k]? = some r)
    (hrequests : ∀ e ∈ w.requests, e ∈ w'.requests ∨ w.requests[k]? = some e)
    (hhistory : w'.history = w.history ++ [⟨cqe, r⟩]) : w'.Taken o := by
  rcases h with ⟨e, he, ho⟩ | ⟨p, hp, ho⟩
  · rcases hrequests e he with he' | he'
    · exact .inl ⟨e, he', ho⟩
    · obtain rfl : r = e := Option.some.inj (hr.symm.trans he')
      exact .inr ⟨_, by rw [hhistory]; exact List.mem_append_right _ List.mem_cons_self, ho⟩
  · exact .inr ⟨p, by rw [hhistory]; exact List.mem_append_left _ hp, ho⟩

theorem mem_eraseIdx_or {requests : List Request} (k : ℕ) {e : Request} (he : e ∈ requests) :
    e ∈ requests.eraseIdx k ∨ requests[k]? = some e := by
  obtain ⟨j, hj⟩ := List.mem_iff_getElem?.mp he
  by_cases hk : j = k
  · exact .inr (hk ▸ hj)
  · exact .inl (List.mem_eraseIdx_iff_getElem?.mpr ⟨j, hk, hj⟩)

theorem mem_leftAfter_or {requests : List Request} (k : ℕ) (cqe : IoUringCqe) {e : Request}
    (he : e ∈ requests) : e ∈ leftAfter requests k cqe ∨ requests[k]? = some e := by
  unfold leftAfter
  split
  · exact .inl he
  · exact mem_eraseIdx_or k he

theorem State.Taken.step {o : Origin} (h : w.Taken o) (hs : Step w a w') : w'.Taken o := by
  cases hs with
  | submit hn =>
    exact h.imp_left fun ⟨r, hr, ho⟩ => ⟨r, List.mem_append_left _ hr, ho⟩
  | recv hr => exact h.post hr (fun _ he => mem_leftAfter_or _ _ he) rfl
  | sent hr => exact h.post hr (fun _ he => mem_eraseIdx_or _ he) rfl
  | other hr => exact h.post hr (fun _ he => mem_leftAfter_or _ _ he) rfl
  | connect | write | process | read => exact h

/-- What leaves the submission queue is with the kernel. -/
theorem Routed.queued_step (hw : Routed w) {o : Origin} (ho : o ∈ w.queued) (hs : Step w a w') :
    o ∈ w'.queued ∨ w'.Taken o := by
  cases hs with
  | connect | write => exact .inl (List.mem_append_left _ ho)
  | @submit n hn =>
    rw [← List.take_append_drop n w.queued, List.mem_append] at ho
    rcases ho with ho | ho
    · rw [← map_origin_zipWith hw.queued n, List.mem_map] at ho
      obtain ⟨r, hr, ho⟩ := ho
      exact .inr (.inl ⟨r, List.mem_append_right _ hr, ho⟩)
    · exact .inl ho
  | _ => exact .inl ho

end UringWs.EventLoop

namespace UringWs.MainLoop
open EventLoop
variable {M : Type*} {c : PrefixCode M UInt8} {s s' : State M} {a : Action} {op : SendOp}

/-- How far the program is from submitting what waits. -/
def State.toSubmit (s : State M) : ℕ :=
  match s.pc with
  | .setup | .batch => 0
  | .top => 4 * s.loop.streams.length + 3
  | .ping j => 4 * (s.loop.streams.length - j) - (s.unsubmitted j).length + 2
  | .submit => 1

theorem toSubmit_le : s.toSubmit ≤ 4 * s.loop.streams.length + 3 := by
  unfold State.toSubmit
  split <;> omega

theorem toSubmit_pos (hsetup : s.pc ≠ .setup) (hbatch : s.pc ≠ .batch) : 0 < s.toSubmit := by
  unfold State.toSubmit
  split
  · exact absurd ‹_› hsetup
  · exact absurd ‹_› hbatch
  · exact Nat.succ_pos _
  · exact Nat.succ_pos _
  · exact Nat.one_pos

theorem toSubmit_congr (hpc : s'.pc = s.pc) (hstreams : s'.loop.streams = s.loop.streams)
    (hqueued : s'.loop.queued = s.loop.queued) : s'.toSubmit = s.toSubmit := by
  simp only [State.toSubmit, State.unsubmitted, hpc, hstreams, hqueued]

theorem Inv.decoding (hi : Inv s) (hreading : s.delivery.reading ≠ none) :
    s.pc = .batch ∧ ∃ i n, s.ring.loop = .advance i n := by
  obtain ⟨i, n, hl⟩ := hi.reading hreading
  refine ⟨?_, i, n, hl⟩
  by_contra hne
  rw [hi.outside hne] at hl
  cases hl

/-- Between the set-up loop and a batch a step of the program submits all that
waits, or brings the submission closer. -/
theorem step_outside (hw : Routed s.loop) (hi : Inv s) (hwait : Waiting s) (hg : WellBehaved s a)
    (hc : ByProgram a) (hsetup : s.pc ≠ .setup) (hbatch : s.pc ≠ .batch) (hs : Step c s a s') :
    s'.ring = s.ring ∧ s'.loop.streams.length = s.loop.streams.length ∧
      (s'.pc = .batch ∧ s'.loop.queued = [] ∨
        s'.pc ≠ .setup ∧ s'.pc ≠ .batch ∧ s.loop.queued <+: s'.loop.queued ∧
          s'.toSubmit < s.toSubmit) := by
  cases hs with
  | kernel => exact hc.elim
  | connect hpc | enter hpc => exact absurd hpc hsetup
  | ping hpc =>
    refine ⟨rfl, rfl, .inr ⟨by simp, by simp, List.prefix_rfl, ?_⟩⟩
    simp only [State.toSubmit, State.loop, hpc]
    omega
  | skip hpc hpinged =>
    refine ⟨rfl, rfl, .inr ⟨by simp, by simp, List.prefix_rfl, ?_⟩⟩
    simp only [State.toSubmit, hpc]
    omega
  | @write i ptr buf w hpc hs =>
    have hfew := hg.2
    cases hs with
    | @write _ _ _ t t' r mem sq ht hptr hs =>
      have hi := (List.getElem?_eq_some_iff.mp ht).1
      refine ⟨rfl, List.length_set .., .inr ⟨hsetup, hbatch, List.prefix_append .., ?_⟩⟩
      simp only [State.toSubmit, State.withLoop, hpc, List.length_set]
      rw [unsubmitted_write (s := s) (i := i) (by rfl) (by rfl)]
      omega
  | @next j hpc hj =>
    have hsends := hwait.sends j
    have hj : j < s.delivery.loop.streams.length := hj
    refine ⟨rfl, rfl, .inr ⟨by simp, by simp, List.prefix_rfl, ?_⟩⟩
    simp only [State.toSubmit, State.loop, hpc]
    omega
  | offered hpc hj =>
    refine ⟨rfl, rfl, .inr ⟨by simp, by simp, List.prefix_rfl, ?_⟩⟩
    simp only [State.toSubmit, hpc]
    omega
  | @submit n w hpc hs =>
    obtain rfl : n = s.loop.sq.count := hg
    cases hs with
    | submit hn =>
      exact ⟨rfl, rfl, .inl ⟨rfl, List.drop_eq_nil_of_le (Routed.queued_length hw).le⟩⟩
  | peek hpc | waitReady hpc | waitTimeout hpc | build hpc | handle hpc | advance hpc =>
    exact absurd hpc hbatch
  | read hs =>
    cases hs with
    | read hreading => exact absurd (hi.decoding (by simp [hreading])).1 hbatch
  | deliver hs =>
    cases hs with
    | deliver hreading => exact absurd (hi.decoding (by simp [hreading])).1 hbatch

/-- The send is with the kernel, and no later write queues it again. -/
structure Submitted (op : SendOp) (s : State M) : Prop where
  numbered : op.seq < (s.loop.written op.stream).length
  left : Origin.send op ∉ s.loop.queued
  taken : s.loop.Taken (.send op)

theorem step_outgoing (hs : Step c s a s') :
    (∃ b, EventLoop.Step s.loop b s'.loop) ∨
      s'.loop.queued = s.loop.queued ∧ s'.loop.written = s.loop.written ∧
        s'.loop.requests = s.loop.requests ∧ s'.loop.history = s.loop.history := by
  cases hs with
  | kernel ha h hp hring => exact .inl ⟨_, h⟩
  | connect hpc h => exact .inl ⟨_, h⟩
  | write hpc h => exact .inl ⟨_, h⟩
  | submit hpc h => exact .inl ⟨_, h⟩
  | read h =>
    cases h with
    | read hreading hnone hpos ht h => exact .inr ⟨rfl, rfl, rfl, rfl⟩
  | deliver h =>
    cases h with
    | deliver hreading hsome => exact .inr ⟨rfl, rfl, rfl, rfl⟩
  | _ => exact .inr ⟨rfl, rfl, rfl, rfl⟩

theorem written_grows (hs : Step c s a s') (i : ℕ) :
    (s.loop.written i).length ≤ (s'.loop.written i).length := by
  rcases step_outgoing hs with ⟨b, hb⟩ | ⟨-, hwritten, -⟩
  · exact written_length_le hb i
  · rw [hwritten]

theorem Submitted.step (h : Submitted op s) (hs : Step c s a s') : Submitted op s' := by
  have hnumbered := h.numbered.trans_le (written_grows hs _)
  rcases step_outgoing hs with ⟨b, hb⟩ | ⟨hqueued, -, hrequests, hhistory⟩
  · refine ⟨hnumbered, fun hop => ?_, h.taken.step hb⟩
    rcases mem_queued_of_step hb hop with hop | hseq
    · exact h.left hop
    · exact h.numbered.ne hseq
  · refine ⟨hnumbered, fun hop => h.left (hqueued ▸ hop), ?_⟩
    rw [EventLoop.State.Taken, hrequests, hhistory]
    exact h.taken

/-- A send that a step takes out of the queue is submitted. -/
theorem submitted_of_left (hw : Routed s.loop) (hop : Origin.send op ∈ s.loop.queued)
    (hseq : op.seq < (s.loop.written op.stream).length) (hleft : Origin.send op ∉ s'.loop.queued)
    (hs : Step c s a s') : Submitted op s' := by
  refine ⟨hseq.trans_le (written_grows hs _), hleft, ?_⟩
  rcases step_outgoing hs with ⟨b, hb⟩ | ⟨hqueued, -⟩
  · exact (hw.queued_step hop hb).resolve_left hleft
  · exact absurd (hqueued ▸ hop) hleft

/-- The set-up rounds prepare receives only. -/
theorem unsent_setup (h : (mainLoop c).Reach WellBehaved s) (hpc : s.pc = .setup) :
    Origin.send op ∉ s.loop.queued := by
  refine h.invariant (P := fun s => s.pc = .setup → Origin.send op ∉ s.loop.queued) ?_ ?_ hpc
  · intro s (h₀ : Init s) _ hop
    rw [h₀.delivery.loop.queued] at hop
    cases hop
  · intro s a t _ ih _ hs hpc hop
    cases hs with
    | kernel ha h hp hring =>
      obtain ⟨-, -, -, hqueued, -⟩ := kernel_frame ha h hp
      exact ih hpc (hqueued ▸ hop)
    | connect hpc' h =>
      cases h with
      | connect hring htail hblock hset =>
        rcases List.mem_append.mp hop with hop | hop
        · exact ih hpc' hop
        · cases List.mem_singleton.mp hop
    | read h =>
      cases h with
      | read hreading hnone hpos ht h => exact ih hpc hop
    | deliver h =>
      cases h with
      | deliver hreading hsome => exact ih hpc hop
    | write hpc' | peek hpc' | waitReady hpc' | build hpc' | handle hpc' =>
      cases hpc'.symm.trans hpc
    | advance hpc' =>
      revert hpc
      simp only
      split <;> nofun
    | enter | ping | skip | next | offered | submit | waitTimeout => cases hpc

theorem Waiting.queued_batch (h : Waiting s) (hpc : s.pc = .batch) : s.loop.queued = [] := by
  have hbound := h.bound
  rw [hpc] at hbound
  exact List.length_eq_zero_iff.mp (Nat.le_zero.mp hbound)

theorem toSubmit_kernel (h : Origin.send op ∈ s.loop.queued) (hc : ¬ ByProgram a)
    (hs : Step c s a s') : Origin.send op ∈ s'.loop.queued ∧ s'.toSubmit ≤ s.toSubmit := by
  cases hs with
  | kernel ha hk hp hring =>
    obtain ⟨-, -, hstreams, hqueued, -⟩ := kernel_frame ha hk hp
    refine ⟨hqueued ▸ h, (toSubmit_congr ?_ hstreams hqueued).le⟩
    rfl
  | _ => exact absurd trivial hc

/-- A send waits neither during the set-up rounds nor during a batch. -/
theorem waits_outside (hr : (mainLoop c).Reach WellBehaved s)
    (hop : Origin.send op ∈ s.loop.queued) : s.pc ≠ .setup ∧ s.pc ≠ .batch := by
  refine ⟨fun hpc => unsent_setup hr hpc hop, fun hpc => ?_⟩
  rw [(reach_waiting hr).queued_batch hpc] at hop
  cases hop

/-- The program's own steps submit the send or bring the submission closer. -/
theorem toSubmit_step (hr : (mainLoop c).Reach WellBehaved s) (hop : Origin.send op ∈ s.loop.queued)
    (hg : WellBehaved s a) (hc : ByProgram a) (hs : Step c s a s') :
    Submitted op s' ∨ Origin.send op ∈ s'.loop.queued ∧ s'.toSubmit < s.toSubmit := by
  obtain ⟨hsetup, hbatch⟩ := waits_outside hr hop
  have hw := reach_routed (reach_sound hr)
  obtain ⟨-, -, ⟨-, hnil⟩ | ⟨-, -, hkept, hlt⟩⟩ :=
    step_outside hw (reach_inv hr) (reach_waiting hr) hg hc hsetup hbatch hs
  · obtain ⟨-, hnumbered⟩ := reach_windowed ((reach_sound hr).mono fun _ _ => And.right)
    have hout : op ∈ s.loop.outstanding := by
      simp only [EventLoop.State.outstanding, EventLoop.State.unexecuted, List.mem_append,
        mem_sendsOf]
      exact .inl (.inl hop)
    have hseq := (List.getElem?_eq_some_iff.mp (hnumbered.op op hout).2.1).1
    exact .inl (submitted_of_left hw hop hseq (hnil ▸ List.not_mem_nil) hs)
  · exact .inr ⟨hkept.subset hop, hlt⟩

/-- What the loop owes the writes of its handlers. -/
structure Prompt (c : PrefixCode M UInt8) (s : State M) : Prop where
  /-- the program never waits for completions with an entry left to submit -/
  none_waits : s.pc = .batch → s.loop.queued = []
  /-- a send is submitted before the program has made so many steps -/
  in_time : ∀ (op : SendOp) (n : ℕ) (t : State M), Origin.send op ∈ s.loop.queued →
    System.Counted (mainLoop c) WellBehaved ByProgram s n t →
      Submitted op t ∨ n < 4 * s.loop.streams.length + 3

theorem submitted_in_time (h : (mainLoop c).Reach WellBehaved s) : Prompt c s := by
  refine ⟨(reach_waiting h).queued_batch, fun op n t hop hrun => ?_⟩
  have hresponse := hrun.response (P := fun u => Origin.send op ∈ u.loop.queued)
    (Q := Submitted op) State.toSubmit h (.inr hop) (fun _ _ _ _ hs hq => hq.step hs)
    (fun _ _ _ _ hp hc _ hs => toSubmit_kernel hp hc hs)
    (fun _ _ _ hr hp hc hg hs => toSubmit_step hr hp hg hc hs)
  refine hresponse.imp_right fun ⟨hwaits, hle⟩ => ?_
  obtain ⟨hsetup, hbatch⟩ := waits_outside (hrun.reach h) hwaits
  have hleft := toSubmit_pos hsetup hbatch
  have hbound := toSubmit_le (s := s)
  omega

/-! ### One write before the first submission -/

def connected (sq : IoUringSq) : EventLoop.State :=
  { armed idleSocket 1200 sq default with queued := [.recv 0 1200], requests := [] }

def wrote (sq : IoUringSq) : EventLoop.State :=
  { sending idleSocket 1200 [1] sq default default with
    queued := [.recv 0 1200, .send (firstSend [1])], requests := [] }

theorem first_write : ∃ sq sq₁ slot slot₁,
    EventLoop.Step startLoop (.connect idleSocket 1200 0 0) (connected sq) ∧
    EventLoop.Step (connected sq) (.write 0 0 [1]) (wrote sq₁) ∧
    sq₁.queue = [recvSqe idleSocket.fd 0 1200 slot,
      TcpStream.sendSqe idleSocket.fd (firstSend [1]).key ⟨0, [1]⟩ slot₁] := by
  have hw := routed_init startLoop_init
  obtain ⟨sq, slot, -, hentries, hqueue, hs⟩ := hw.step_connect idleSocket 1200 0 0 (by decide)
    (by decide) (fun _ _ h => by cases h) rfl (fun _ _ h => by cases h)
  have hq : sq.queue = [recvSqe idleSocket.fd 0 1200 slot] := hqueue
  have hroom : sq.count < sq.ringEntries.toNat := by
    rw [← IoUringSq.queue_length, hq, hentries]
    exact show 1 < startLoop.sq.ringEntries.toNat by decide
  have hs : EventLoop.Step startLoop (.connect idleSocket 1200 0 0) (connected sq) := hs
  obtain ⟨sq₁, slot₁, -, -, hqueue₁, hs₁⟩ :=
    @Routed.step_write _ (routed_effect hw (step_effect hw hs)) 0 0 [1] _ rfl rfl hroom (by decide)
  have hqueue : (connected sq).sq.queue = [recvSqe idleSocket.fd 0 1200 slot] := hq
  rw [hqueue] at hqueue₁
  exact ⟨sq, sq₁, slot, slot₁, hs, hs₁, hqueue₁⟩

def pinging (w : EventLoop.State) : State M :=
  { (start : State M) with delivery := Delivery.asleep w, pc := .ping 0, pinged := true }

theorem reach_pinging {G : State M → Action → Prop}
    (hconnect : G start (.connect idleSocket 1200 0 0)) (henter : ∀ s, G s .enter)
    (hping : ∀ s, G s .ping) (hwrite : ∀ sq, G (pinging (connected sq)) (.write 0 0 [1])) :
    ∃ sq slot slot₁, sq.queue = [recvSqe idleSocket.fd 0 1200 slot,
      TcpStream.sendSqe idleSocket.fd (firstSend [1]).key ⟨0, [1]⟩ slot₁] ∧
      (mainLoop c).Reach G (pinging (wrote sq)) := by
  obtain ⟨sq, sq₁, slot, slot₁, hs, hs₁, hqueue⟩ := first_write
  have h : (mainLoop c).Reach G start := .start start_init
  have h₁ := h.next (a := Action.connect idleSocket 1200 0 0) hconnect (.connect rfl hs)
  have h₂ := h₁.next (a := Action.enter) (henter _) (.enter rfl)
  have h₃ := h₂.next (a := Action.ping) (hping _) (.ping rfl)
  exact ⟨sq₁, slot, slot₁, hqueue,
    h₃.next (a := Action.write 0 0 [1]) (hwrite sq) (.write rfl hs₁)⟩

/-- One byte written in the first round, with the stream's receive still waiting too. -/
theorem submitted_in_time_written : ∃ s : State { p : List UInt8 // p.length < 126 },
    s.loop.written 0 = [[1]] ∧ s.loop.queued.length = 2 ∧ Prompt Delivery.textFrames s := by
  obtain ⟨sq, slot, slot₁, -, h⟩ := reach_pinging (c := Delivery.textFrames) (G := WellBehaved)
    trivial (fun _ => trivial) (fun _ => trivial)
    fun sq => ⟨⟨by decide, nofun⟩, Nat.succ_pos 2⟩
  exact ⟨_, rfl, rfl, submitted_in_time h⟩

end UringWs.MainLoop
