import UringWs.System.Outgoing

/-! # Posted entries are processed in time

From any moment on, a posted entry is processed after a bounded number of steps
of the program, whatever the kernel does in between. The bound allows, for each
entry ahead, one round of the loop and one read for each byte a stream can hold.
-/
namespace UringWs.MainLoop
open EventLoop Checked
variable {M : Type*} {c : PrefixCode M UInt8} {s s' : State M} {a : Action}

/-- The steps from the top of the loop to a submission, and one more. -/
def State.round (s : State M) : ℕ := 4 * s.loop.streams.length + 6

/-- The steps of the program allowed for one entry. -/
def State.perEntry (s : State M) : ℕ := s.round + 2 + blockSize

/-- How far the program is from handling the next entry. -/
def State.ahead (s : State M) : ℕ :=
  match s.pc with
  | .setup => 0
  | .top => s.round
  | .ping j => 4 * (s.loop.streams.length - j) - (s.unsubmitted j).length + 5
  | .submit => 4
  | .batch =>
    match s.ring.loop with
    | .poll => 3
    | .wait => s.round + 1
    | .build .. => 2
    | .consume .. => 1
    | .advance .. =>
      match s.delivery.reading with
      | none => s.round + 1
      | some i => s.round + 2 + Delivery.queuedBytes s.loop i

/-- Entry k is posted and not processed. -/
structure Pending (k : ℕ) (s : State M) : Prop where
  posted : k < s.ring.posted.length
  unprocessed : s.ring.processed.length ≤ k

/-- The steps of the program left until entry k is handled. -/
def State.bound (k : ℕ) (s : State M) : ℕ :=
  (k - s.ring.processed.length) * s.perEntry + s.ahead

theorem queuedBytes_le {w : EventLoop.State} (hw : Routed w) (h : Received w) (i : ℕ) :
    Delivery.queuedBytes w i ≤ blockSize := by
  cases ht : w.streams[i]? with
  | none => simp [Delivery.queuedBytes, Delivery.readers, ht]
  | some t =>
    obtain ⟨kg, -, -, hcustody, -⟩ := h.stream hw ht
    rw [Delivery.queuedBytes, Delivery.readers_of_eq ht]
    calc (t.inner.bufVec.items.map KernelBufferReader.remaining).sum
        = (t.inner.bufVec.items.flatMap fun v => v.unread w.mem).length := by
          simp [List.length_flatMap]
      _ ≤ (pendingBytes kg w.mem t.inner.bufVec.items (w.unprocessed i)).length :=
          (List.prefix_append ..).length_le
      _ ≤ blockSize := hcustody.pendingBytes_length_le

theorem ahead_le (hw : Routed s.loop) (h : Received s.loop) : s.ahead ≤ s.perEntry := by
  unfold State.ahead State.perEntry State.round
  split
  · omega
  · omega
  · omega
  · omega
  · split
    · omega
    · omega
    · omega
    · omega
    · split
      · omega
      · have := queuedBytes_le hw h
        exact Nat.add_le_add_left (this _) _

theorem ahead_pos (hsetup : s.pc ≠ .setup) : 0 < s.ahead := by
  unfold State.ahead
  split
  · exact absurd ‹_› hsetup
  · exact Nat.succ_pos _
  · exact Nat.succ_pos _
  · exact Nat.succ_pos _
  · split
    · exact Nat.succ_pos _
    · exact Nat.succ_pos _
    · exact Nat.succ_pos _
    · exact Nat.succ_pos _
    · split
      · exact Nat.succ_pos _
      · exact Nat.add_pos_left (Nat.succ_pos _) _

theorem ahead_congr (hpc : s'.pc = s.pc) (hloop : s'.ring.loop = s.ring.loop)
    (hstreams : s'.loop.streams = s.loop.streams) (hqueued : s'.loop.queued = s.loop.queued)
    (hreading : s'.delivery.reading = s.delivery.reading) : s'.ahead = s.ahead := by
  simp only [State.ahead, State.round, State.unsubmitted, Delivery.queuedBytes, Delivery.readers,
    hpc, hloop, hstreams, hqueued, hreading]

/-- A step that processes nothing and brings the next entry closer. -/
theorem Pending.closer {k : ℕ} (h : Pending k s) (hposted : s'.ring.posted = s.ring.posted)
    (hprocessed : s'.ring.processed = s.ring.processed)
    (hlen : s'.loop.streams.length = s.loop.streams.length) (hahead : s'.ahead < s.ahead) :
    Pending k s' ∧ s'.bound k < s.bound k := by
  refine ⟨⟨hposted ▸ h.posted, hprocessed ▸ h.unprocessed⟩, ?_⟩
  rw [State.bound, State.bound, hprocessed, State.perEntry, State.round, hlen]
  exact Nat.add_lt_add_left hahead _

/-- The step that handles an entry before entry k, or entry k itself. -/
theorem Pending.handled {k : ℕ} {e : IoUringCqe} (h : Pending k s)
    (hposted : s'.ring.posted = s.ring.posted)
    (hprocessed : s'.ring.processed = s.ring.processed ++ [e])
    (hlen : s'.loop.streams.length = s.loop.streams.length) (hahead : 0 < s.ahead)
    (hle : s'.ahead ≤ s'.perEntry) :
    k < s'.ring.processed.length ∨ Pending k s' ∧ s'.bound k < s.bound k := by
  have hcount : s'.ring.processed.length = s.ring.processed.length + 1 := by
    rw [hprocessed, List.length_append, List.length_singleton]
  have hun := h.unprocessed
  rcases Nat.lt_or_ge k s'.ring.processed.length with hk | hk
  · exact .inl hk
  · refine .inr ⟨⟨hposted ▸ h.posted, hk⟩, ?_⟩
    have hentry : s'.perEntry = s.perEntry := by
      rw [State.perEntry, State.round, hlen, State.perEntry, State.round]
    have hleft : k - s.ring.processed.length = (k - (s.ring.processed.length + 1)) + 1 := by omega
    rw [hentry] at hle
    rw [State.bound, State.bound, hcount, hentry, hleft, Nat.add_mul, Nat.one_mul]
    omega

/-- The decoder's own steps end its call or take bytes off the queue. -/
theorem Pending.decoded {k i j n : ℕ} {d : Delivery.State M} (h : Pending k s) (hpc : s.pc = .batch)
    (hl : s.ring.loop = .advance j n) (hreading : s.delivery.reading = some i)
    (hlen : d.loop.streams.length = s.loop.streams.length)
    (hnext : d.reading = none ∨ d.reading = some i ∧
      Delivery.queuedBytes d.loop i < Delivery.queuedBytes s.loop i) :
    Pending k { s with delivery := d } ∧ State.bound k { s with delivery := d } < s.bound k := by
  refine h.closer rfl rfl hlen ?_
  rcases hnext with hd | ⟨hd, hlt⟩
  · simp only [State.ahead, State.round, State.loop, hpc, hl, hreading, hd, hlen]
    omega
  · simp only [State.ahead, State.round, State.loop, hpc, hl, hreading, hd, hlen]
    exact Nat.add_lt_add_left hlt _

theorem Pending.unchanged {k : ℕ} (h : Pending k s)
    (hposted : s.ring.posted.length ≤ s'.ring.posted.length)
    (hprocessed : s'.ring.processed = s.ring.processed) (hpc : s'.pc = s.pc)
    (hloop : s'.ring.loop = s.ring.loop) (hstreams : s'.loop.streams = s.loop.streams)
    (hqueued : s'.loop.queued = s.loop.queued)
    (hreading : s'.delivery.reading = s.delivery.reading) :
    Pending k s' ∧ s'.bound k ≤ s.bound k := by
  refine ⟨⟨h.posted.trans_le hposted, hprocessed ▸ h.unprocessed⟩, ?_⟩
  rw [State.bound, State.bound, hprocessed, State.perEntry, State.round, hstreams,
    ahead_congr hpc hloop hstreams hqueued hreading]
  rfl

theorem Pending.kernel {k : ℕ} (h : Pending k s) (hc : ¬ ByProgram a) (hs : Step c s a s') :
    Pending k s' ∧ s'.bound k ≤ s.bound k := by
  cases hs with
  | kernel ha hs hp hring =>
    obtain ⟨-, -, hstreams, hqueued, -⟩ := kernel_frame ha hs hp
    cases hring with
    | post =>
      refine h.unchanged ?_ rfl rfl rfl hstreams hqueued rfl
      exact (Nat.le_add_right ..).trans_eq (List.length_append ..).symm
  | _ => exact absurd trivial hc

/-- The kernel has posted nothing before the set-up loop ends. -/
theorem Pending.not_setup {k : ℕ} (h : Pending k s) (hi : Inv s) (hwait : Waiting s) :
    s.pc ≠ .setup := by
  intro hpc
  have hposted := h.posted
  rw [hi.coupled.posted, (hwait.unsubmitted hpc).2] at hposted
  exact absurd hposted (Nat.not_lt_zero _)

theorem Pending.ready {k : ℕ} (h : Pending k s) (hi : Inv s) (hl : s.ring.loop = .poll) :
    s.ring.peekBatch 10 ≠ 0 := by
  have hposted := h.posted
  have hloop := hi.ring.loop
  rw [hl] at hloop
  rw [show s.ring.posted = _ from hloop, List.length_append, CompletionQueue.IoUringCq.queue,
    RingWindow.window_length] at hposted
  have := h.unprocessed
  unfold CompletionQueue.State.peekBatch
  omega

theorem ahead_outside (hsetup : s.pc ≠ .setup) (hbatch : s.pc ≠ .batch) :
    s.ahead = s.toSubmit + 3 := by
  unfold State.ahead State.toSubmit
  cases hpc : s.pc with
  | setup => exact absurd hpc hsetup
  | batch => exact absurd hpc hbatch
  | top | ping | submit => rfl

/-- The steps of the loop outside a batch. -/
theorem Pending.outside {k : ℕ} (h : Pending k s) (hw : Routed s.loop) (hi : Inv s)
    (hwait : Waiting s) (hg : WellBehaved s a) (hpc : s.pc ≠ .batch) (hc : ByProgram a)
    (hs : Step c s a s') : Pending k s' ∧ s'.bound k < s.bound k := by
  have hsetup := h.not_setup hi hwait
  obtain ⟨hring, hlen, hnext⟩ := step_outside hw hi hwait hg hc hsetup hpc hs
  refine h.closer (by rw [hring]) (by rw [hring]) hlen ?_
  rw [ahead_outside hsetup hpc]
  rcases hnext with ⟨hpc', -⟩ | ⟨hsetup', hpc', -, hlt⟩
  · simp only [State.ahead, hpc', hring, hi.outside hpc]
    exact Nat.lt_add_of_pos_left (toSubmit_pos hsetup hpc)
  · rw [ahead_outside hsetup' hpc']
    exact Nat.add_lt_add_right hlt 3

/-- Within a batch the next entry is handled, or comes closer. -/
theorem Pending.batch {k : ℕ} (hr : (mainLoop c).Reach WellBehaved s) (h : Pending k s)
    (hg : WellBehaved s a) (hpc : s.pc = .batch) (hc : ByProgram a) (hs : Step c s a s') :
    k < s'.ring.processed.length ∨ Pending k s' ∧ s'.bound k < s.bound k := by
  have hi := reach_inv hr
  have hr' := hr.next hg hs
  cases hs with
  | kernel => exact hc.elim
  | connect hpc' | enter hpc' | ping hpc' | skip hpc' | write hpc' | next hpc' | offered hpc'
  | submit hpc' =>
    rw [hpc] at hpc'
    cases hpc'
  | peek _ hring =>
    cases hring with
    | peek hl =>
      refine .inr (h.closer rfl rfl rfl ?_)
      simp only [State.ahead, hpc, hl, h.ready hi hl, ↓reduceIte]
      omega
  | waitReady _ hring =>
    cases hring with
    | waitReady hl =>
      refine .inr (h.closer rfl rfl rfl ?_)
      simp only [State.ahead, State.round, State.loop, hpc, hl]
      omega
  | waitTimeout _ hring =>
    cases hring with
    | waitTimeout hl =>
      refine .inr (h.closer rfl rfl rfl ?_)
      simp only [State.ahead, State.round, State.loop, hpc, hl]
      omega
  | build _ hl hp hraw hring =>
    cases hring with
    | build hl' =>
      refine .inr (h.closer rfl rfl rfl ?_)
      simp only [State.ahead, hpc, hl]
      omega
  | handle _ hl hheld ht hs hring =>
    have hle := ahead_le (reach_routed (reach_sound hr'))
      (reach_received ((reach_sound hr').mono fun _ _ hg => hg.1))
    cases hring with
    | consume hl' =>
      refine h.handled rfl rfl (List.length_set ..) ?_ hle
      simp only [State.ahead, hpc, hl]
      exact Nat.one_pos
  | @read i dest d hs =>
    have hnext := Delivery.read_decreases (fun d a hg => hg a rfl) (reach_fills hr) hs
    cases hs with
    | read hreading =>
      obtain ⟨-, j, n, hl⟩ := hi.decoding (by simp [hreading])
      exact .inr (h.decoded hpc hl hreading (List.length_set ..) hnext)
  | deliver hs =>
    cases hs with
    | deliver hreading =>
      obtain ⟨-, j, n, hl⟩ := hi.decoding (by simp [hreading])
      exact .inr (h.decoded hpc hl hreading rfl (.inl rfl))
  | @advance i n _ _ hidle hl hring =>
    cases hring with
    | advance hl' =>
      obtain ⟨rfl, rfl⟩ := CompletionQueue.Loop.advance.inj (hl.symm.trans hl')
      refine .inr (h.closer rfl rfl rfl ?_)
      by_cases hn : i + 1 < n
      · simp only [State.ahead, State.round, hpc, hl, hidle, hn, ↓reduceIte]
        omega
      · simp only [State.ahead, State.round, State.loop, hpc, hl, hidle, hn, ↓reduceIte]
        omega

theorem Pending.step {k : ℕ} (hr : (mainLoop c).Reach WellBehaved s) (h : Pending k s)
    (hg : WellBehaved s a) (hc : ByProgram a) (hs : Step c s a s') :
    k < s'.ring.processed.length ∨ Pending k s' ∧ s'.bound k < s.bound k := by
  by_cases hpc : s.pc = .batch
  · exact h.batch hr hg hpc hc hs
  · have hw := reach_routed (reach_sound hr)
    exact .inr (h.outside hw (reach_inv hr) (reach_waiting hr) hg hpc hc hs)

/-- What is processed stays processed. -/
theorem processed_grows (hs : Step c s a s') : s.ring.processed <+: s'.ring.processed := by
  rcases step_ring hs with ⟨b, hb⟩ | he
  · generalize s'.ring = ring at hb ⊢
    cases hb with
    | consume => exact List.prefix_append _ _
    | _ => exact List.prefix_rfl
  · rw [he]

theorem Pending.bound_pos {k : ℕ} (h : Pending k s) (hi : Inv s) (hwait : Waiting s) :
    0 < s.bound k :=
  Nat.add_pos_right _ (ahead_pos (h.not_setup hi hwait))

/-- A posted entry is processed before the program has made a bounded number of
steps, however many steps of the kernel come in between. -/
theorem processed_in_time (h : (mainLoop c).Reach WellBehaved s) {k : ℕ}
    (hposted : k < s.ring.posted.length) {n : ℕ} {t : State M}
    (hrun : System.Counted (mainLoop c) WellBehaved ByProgram s n t) :
    k < t.ring.processed.length ∨ n < (k + 1 - s.ring.processed.length) * s.perEntry := by
  have hstart : k < s.ring.processed.length ∨ Pending k s ∧ s.ring.processed.length ≤ k := by
    rcases Nat.lt_or_ge k s.ring.processed.length with hk | hk
    · exact .inl hk
    · exact .inr ⟨⟨hposted, hk⟩, hk⟩
  have hresponse := hrun.response (P := fun u => Pending k u ∧ s.ring.processed.length ≤ k)
    (Q := fun u => k < u.ring.processed.length) (State.bound k) h hstart
    (fun _ _ _ _ hs hk => hk.trans_le (processed_grows hs).length_le)
    (fun _ _ _ _ hp hc _ hs => ⟨⟨(hp.1.kernel hc hs).1, hp.2⟩, (hp.1.kernel hc hs).2⟩)
    (fun _ _ _ hr hp hc hg hs =>
      (hp.1.step hr hg hc hs).imp_right fun hnext => ⟨⟨hnext.1, hp.2⟩, hnext.2⟩)
  refine hresponse.imp_right fun ⟨⟨hpending, hk⟩, hle⟩ => ?_
  have hr := hrun.reach h
  have hleft := hpending.bound_pos (reach_inv hr) (reach_waiting hr)
  have hsound := reach_sound h
  have hahead := ahead_le (reach_routed hsound) (reach_received (hsound.mono fun _ _ hg => hg.1))
  have hbound : s.bound k ≤ (k + 1 - s.ring.processed.length) * s.perEntry := by
    rw [Nat.sub_add_comm hk, Nat.add_mul, Nat.one_mul]
    exact Nat.add_le_add_left hahead _
  omega

/-- The entry the kernel posted before the first peek, three steps later. -/
theorem processed_in_time_arrived : ∃ s t : State { p : List UInt8 // p.length < 126 },
    s.ring.posted.length = 1 ∧ s.ring.processed = [] ∧
      System.Counted (mainLoop Delivery.textFrames) WellBehaved ByProgram s 3 t ∧
      (0 < t.ring.processed.length ∨ 3 < 1 * s.perEntry) := by
  obtain ⟨sq, slot, h⟩ := reach_polling Delivery.textFrames
  have h₁ := (h.next (by trivial)
    (step_arrived _ sq slot [7] (by decide) (by decide))).mono
    fun _ _ => Quiet.wellBehaved
  have hpeek : Step Delivery.textFrames (arrived [7] sq slot) .peek _ := .peek rfl (.peek rfl)
  have h₂ := h₁.next (by trivial) hpeek
  obtain ⟨s₃, hbuild⟩ := build_enabled h₂ (if_neg (by simp [arrived_peekBatch]))
  have h₃ := h₂.next (by trivial) hbuild
  obtain ⟨s₄, hhandle⟩ : ∃ s₄, Step Delivery.textFrames s₃ .handle s₄ := by
    cases hbuild with
    | build _ _ _ _ hring => cases hring; exact handle_enabled h₃ rfl
  have h₀ : System.Counted (mainLoop Delivery.textFrames) WellBehaved ByProgram (arrived [7] sq slot)
    0 (arrived [7] sq slot) := .refl
  have hrun := ((h₀.count (by trivial) (by trivial) hpeek).count (by trivial) (by trivial)
    hbuild).count (by trivial) (by trivial) hhandle
  exact ⟨_, s₄, rfl, rfl, hrun, processed_in_time h₁ Nat.one_pos hrun⟩

end UringWs.MainLoop
