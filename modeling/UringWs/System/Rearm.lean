import UringWs.System.Progress

/-! # Whether a stream is still listening

A multishot receive goes on while its completions carry the more flag. The loop
never looks at the flag and prepares no second receive, so a stream is armed
exactly as long as every completion of its receive carried it.
-/
namespace UringWs.EventLoop

/-- A receive of the stream is prepared, or running in the kernel. -/
def Armed (w : State) (i : ℕ) : Prop :=
  (∃ o ∈ w.queued, o.isRecv i = true) ∨ ∃ r ∈ w.requests, r.origin.isRecv i = true

def NeverSilent (w : State) : Prop := ∀ i < w.streams.length, Armed w i

/-- A completion of the stream's receive came without the more flag. -/
def Ended (w : State) (i : ℕ) : Prop :=
  ∃ p ∈ w.history, p.request.origin.isRecv i = true ∧ ¬ p.cqe.hasMore

def State.recvCount (w : State) (i : ℕ) : ℕ :=
  w.queued.countP (Origin.isRecv i) + w.requests.countP (fun r => r.origin.isRecv i)

theorem armed_iff_recvCount {w : State} {i : ℕ} : Armed w i ↔ 0 < w.recvCount i := by
  rw [State.recvCount, Nat.add_pos_iff_pos_or_pos, List.countP_pos_iff, List.countP_pos_iff]
  rfl

/-- One receive for each stream until it ends, and none after. -/
structure Listening (w : State) : Prop where
  count : ∀ i < w.streams.length,
    Ended w i ∧ w.recvCount i = 0 ∨ ¬ Ended w i ∧ w.recvCount i = 1
  fresh : ∀ i, w.streams.length ≤ i → w.recvCount i = 0
  history : ∀ p ∈ w.history, ∀ i, p.request.origin.isRecv i = true → i < w.streams.length

theorem Listening.of_eq {w w' : State} (h : Listening w)
    (hlen : w'.streams.length = w.streams.length) (hcount : ∀ i, w'.recvCount i = w.recvCount i)
    (hhist : ∀ p, (∃ i, p.request.origin.isRecv i = true) → (p ∈ w'.history ↔ p ∈ w.history)) :
    Listening w' := by
  have hended : ∀ i, Ended w' i ↔ Ended w i := fun i =>
    exists_congr fun p => ⟨fun ⟨hp, hi, hm⟩ => ⟨(hhist p ⟨i, hi⟩).mp hp, hi, hm⟩,
      fun ⟨hp, hi, hm⟩ => ⟨(hhist p ⟨i, hi⟩).mpr hp, hi, hm⟩⟩
  refine ⟨?_, ?_, ?_⟩
  · intro i hi
    rw [hended, hcount]
    exact h.count i (hlen ▸ hi)
  · intro i hi
    rw [hcount]
    exact h.fresh i (hlen ▸ hi)
  · intro p hp i hi
    rw [hlen]
    exact h.history p ((hhist p ⟨i, hi⟩).mp hp) i hi

/-- A request posts an entry; without the more flag its receive has ended. -/
theorem listening_post {w w' : State} (hw : Routed w) (h : Listening w) {k : ℕ} {r : Request}
    {cqe : IoUringCqe} (hr : w.requests[k]? = some r)
    (hlen : w'.streams.length = w.streams.length) (hqueued : w'.queued = w.queued)
    (hreq : w'.requests = leftAfter w.requests k cqe)
    (hhist : w'.history = w.history ++ [⟨cqe, r⟩]) : Listening w' := by
  have hended : ∀ i, Ended w' i ↔ Ended w i ∨ r.origin.isRecv i = true ∧ ¬ cqe.hasMore := by
    intro i
    simp only [Ended, hhist, List.mem_append, List.mem_singleton, or_and_right, exists_or,
      exists_eq_left]
  have hcount : ∀ i, w.recvCount i = w'.recvCount i +
      if r.origin.isRecv i = true ∧ ¬ cqe.hasMore then 1 else 0 := by
    intro i
    simp only [State.recvCount, hqueued, hreq, leftAfter]
    by_cases hm : cqe.hasMore
    · simp [hm]
    · rw [if_neg hm, countP_eraseIdx hr]
      simp [hm, Nat.add_assoc]
  have hlt : r.origin.stream < w.streams.length :=
    (hw.requests r (List.mem_of_getElem? hr)).stream_lt
  refine ⟨?_, ?_, ?_⟩
  · intro i hi
    rw [hlen] at hi
    have hc := hcount i
    rw [hended]
    by_cases hx : r.origin.isRecv i = true ∧ ¬ cqe.hasMore
    · rw [if_pos hx] at hc
      rcases h.count i hi with ⟨-, h0⟩ | ⟨-, h1⟩
      · omega
      · exact .inl ⟨.inr hx, by omega⟩
    · rw [if_neg hx] at hc
      rw [show w'.recvCount i = w.recvCount i by omega]
      simpa [hx] using h.count i hi
  · intro i hi
    have := h.fresh i (hlen ▸ hi)
    have := hcount i
    omega
  · intro p hp i hi
    rw [hhist] at hp
    rw [hlen]
    rcases List.mem_append.mp hp with hp | hp
    · exact h.history p hp i hi
    · obtain rfl := List.mem_singleton.mp hp
      exact isRecv_stream hi ▸ hlt

/-- The receive prepared for a new stream is its only one. -/
theorem listening_connect {w w' : State} (h : Listening w) {recvId : UInt32}
    (hlen : w'.streams.length = w.streams.length + 1)
    (hqueued : w'.queued = w.queued ++ [.recv w.streams.length recvId])
    (hreq : w'.requests = w.requests) (hhist : w'.history = w.history) : Listening w' := by
  have hcount : ∀ i, w'.recvCount i = w.recvCount i + if w.streams.length = i then 1 else 0 := by
    intro i
    simp only [State.recvCount, hqueued, hreq, List.countP_append, List.countP_singleton,
      isRecv_iff]
    omega
  have hended : ∀ i, Ended w' i ↔ Ended w i := fun i => by rw [Ended, hhist, Ended]
  have hnew : ¬ Ended w w.streams.length := fun ⟨p, hp, hi, _⟩ =>
    absurd (h.history p hp _ hi) (Nat.lt_irrefl _)
  refine ⟨?_, ?_, ?_⟩
  · intro i hi
    rw [hended, hcount]
    by_cases he : w.streams.length = i
    · refine .inr ⟨he ▸ hnew, ?_⟩
      rw [if_pos he, h.fresh i he.le]
    · rw [if_neg he]
      exact h.count i (by omega)
  · intro i hi
    rw [hcount, if_neg (by omega), h.fresh i (by omega)]
  · intro p hp i hi
    rw [hhist] at hp
    have hlt := h.history p hp i hi
    omega

theorem recvCount_submit {w : State} (hw : Routed w) (n i : ℕ) :
    (w.queued.drop n).countP (Origin.isRecv i) + (w.requests ++
      List.zipWith Request.mk (w.sq.queue.take n) (w.queued.take n)).countP
        (fun r => r.origin.isRecv i) = w.recvCount i := by
  have hz := congrArg (List.countP (Origin.isRecv i)) (map_origin_zipWith hw.queued n)
  have hq := congrArg (List.countP (Origin.isRecv i)) (List.take_append_drop n w.queued)
  rw [List.countP_map] at hz
  rw [List.countP_append] at hq
  simp only [State.recvCount, List.countP_append]
  simp only [Function.comp_def] at hz
  omega

theorem listening_sent {w w' : State} (h : Listening w) {k : ℕ} {r : Request} {op : SendOp}
    {cqe : IoUringCqe} (hr : w.requests[k]? = some r) (ho : r.origin = .send op)
    (hlen : w'.streams.length = w.streams.length) (hqueued : w'.queued = w.queued)
    (hreq : w'.requests = w.requests.eraseIdx k) (hhist : w'.history = w.history ++ [⟨cqe, r⟩]) :
    Listening w' := by
  refine h.of_eq hlen (fun i => ?_) (fun p hp => ?_)
  · have hc := countP_eraseIdx hr (fun r => r.origin.isRecv i)
    simp only [ho, isRecv_send, Bool.false_eq_true, if_false] at hc
    simp only [State.recvCount, hqueued, hreq]
    omega
  · obtain ⟨i, hi⟩ := hp
    rw [hhist]
    refine List.mem_append.trans ⟨fun hp => hp.resolve_right fun hp => ?_, .inl⟩
    obtain rfl := List.mem_singleton.mp hp
    simp [ho] at hi

theorem listening_step {w w' : State} {a : Action} (hw : Routed w) (h : Listening w)
    (he : Effect w a w') : Listening w' := by
  cases he with
  | connect hlt hring htail hblock hsq hqueue =>
    exact listening_connect h (by simp) rfl rfl rfl
  | write hs hptr hpos hsq hqueue =>
    refine h.of_eq (by simp) (fun i => ?_) (fun _ _ => .rfl)
    simp [State.recvCount]
  | @submit n hn => exact h.of_eq rfl (recvCount_submit hw n) (fun _ _ => .rfl)
  | recv hr ho hs hg havail hpos hlen hcqe hbuffer hbid hbufMore =>
    exact listening_post hw h hr rfl rfl rfl rfl
  | sent hr ho hready hout hres hcqe hbuffer hbufMore =>
    exact listening_sent h hr ho rfl rfl rfl rfl
  | other hr hcqe => exact listening_post hw h hr rfl rfl rfl rfl
  | recvDone hc ho hs hget hitems => exact h.of_eq (by simp) (fun _ => rfl) (fun _ _ => .rfl)
  | sendDone hc ho hs hlookup hlen => exact h.of_eq (by simp) (fun _ => rfl) (fun _ _ => .rfl)
  | readEmpty hs hitems => exact h
  | readPart hs hitems hpos hlt => exact h.of_eq (by simp) (fun _ => rfl) (fun _ _ => .rfl)
  | readDrain hs hitems hrem hle => exact h.of_eq (by simp) (fun _ => rfl) (fun _ _ => .rfl)

theorem reach_listening {w : State} (h : eventLoop.Reachable w) : Listening w :=
  reach_invariant (fun w h₀ => by
    refine ⟨?_, ?_, ?_⟩ <;> simp [h₀.streams, h₀.queued, h₀.requests, h₀.history, State.recvCount])
    (fun _ _ _ _ hw hl _ he => listening_step hw hl he) h

theorem Listening.armed_iff {w : State} (h : Listening w) {i : ℕ} (hi : i < w.streams.length) :
    Armed w i ↔ ¬ Ended w i := by
  rw [armed_iff_recvCount]
  rcases h.count i hi with ⟨he, h0⟩ | ⟨he, h1⟩
  · simp [he, h0]
  · simp [he, h1]

/-- All streams still listen exactly when every completion posted for a receive
carried the more flag. -/
theorem never_silent_iff {w : State} (h : eventLoop.Reachable w) :
    NeverSilent w ↔ ∀ p ∈ w.history, p.request.origin.event = .multishortRecv → p.cqe.hasMore := by
  have hl := reach_listening h
  constructor
  · intro hs p hp he
    have hi := hl.history p hp _ (isRecv_of_event he)
    by_contra hm
    exact (hl.armed_iff hi).mp (hs _ hi) ⟨p, hp, isRecv_of_event he, hm⟩
  · intro hall i hi
    exact (hl.armed_iff hi).mpr fun ⟨p, hp, hr, hm⟩ => hm (hall p hp (event_of_isRecv hr))

theorem never_silent_iff_filled : ∃ w, w.history.length = 1 ∧ NeverSilent w := by
  obtain ⟨sq, slot, -, -, -, h⟩ := reach_armed (G := fun _ _ => True) idleSocket 1200 trivial
    (fun _ _ => trivial)
  have h₁ := reach_filled h [7] true (by decide) (by decide) trivial
  refine ⟨_, rfl, (never_silent_iff h₁).mpr fun p hp _ => ?_⟩
  obtain rfl := List.mem_singleton.mp hp
  exact (recvCqe_hasMore _ _ _ _).mpr rfl

/-- A receive that ends with its first completion leaves the stream unarmed, with
everything processed. -/
theorem silent_after_last_completion :
    ∃ w, eventLoop.Reachable w ∧ w.cqes = [] ∧ w.streams.length = 1 ∧ ¬ NeverSilent w := by
  obtain ⟨sq, slot, -, -, -, h⟩ := reach_armed (G := fun _ _ => True) idleSocket 1200 trivial
    (fun _ _ => trivial)
  have h₁ := reach_filled h [7] false (by decide) (by decide) trivial
  obtain ⟨inner, -, hs⟩ := step_queued h₁ (by decide) (by decide)
  refine ⟨_, h₁.next trivial hs, rfl, rfl, fun hs => ?_⟩
  rcases hs 0 Nat.zero_lt_one with ⟨o, ho, -⟩ | ⟨r, hr, -⟩
  · exact absurd ho List.not_mem_nil
  · exact absurd hr List.not_mem_nil

end UringWs.EventLoop
