import UringWs.System.Acceptance
import UringWs.System.PushGuard
import UringWs.System.RecvIntegrity

/-! # The read queues of a run

Each stream's deque, next to the memory all streams share, takes the steps of a
read queue: the loop pushes and reads it, and what the kernel or another stream
does leaves its unread bytes alone. As long as receives only fill buffers, the deque
holds at most the buffers of its group, so it never grows.
-/
namespace UringWs.EventLoop
open Checked

variable {w w' : State} {i : ℕ} {s s' : TcpStream} {a : Action}

def State.queue (w : State) (s : TcpStream) : ReadQueue.State := ⟨s.inner, w.mem⟩

/-- The call on its queue that a step makes for a stream, if any. -/
def State.queueCall (w : State) (i : ℕ) : Action → Option ReadQueue.Op
  | .process =>
    match w.cqes with
    | [] => none
    | p :: _ =>
      if p.request.origin.isRecv i then
        match w.pool.getReadBuf w.mem (UInt16.ofNat i) p.cqe.bufferId (resAsUsize p.cqe.res) with
        | .ok kb => some (.push kb)
        | .error _ => none
      else none
  | .read j dest => if j = i then some (.read dest) else none
  | _ => none

theorem State.queueCall_read (w : State) (i : ℕ) (dest : List UInt8) :
    w.queueCall i (.read i dest) = some (.read dest) := if_pos rfl

/-- A step makes its call on the deque of a stream, or leaves it alone. -/
def QueueTakes (w : State) (s : TcpStream) (w' : State) (s' : TcpStream) :
    Option ReadQueue.Op → Prop
  | some o => ReadQueue.CarriesData (w.queue s) (.op o) ∧ (w.queue s).apply o = .ok (w'.queue s')
  | none => s'.inner = s.inner

/-- The handler of a posted entry writes to no buffer and adds no stream. -/
theorem dispatch_frame (hw : Routed w) {p : Posted} (hp : p ∈ w.cqes) {streams : List TcpStream}
    {mem : Memory} (h : UringWs.dispatch w.pool w.mem w.streams (some p.cqe) = .ok (streams, mem)) :
    mem.bytes = w.mem.bytes ∧ streams.length = w.streams.length := by
  obtain ⟨-, hprep⟩ := hw.cqes p hp
  obtain ⟨t, ht, -⟩ := hprep.facts hw
  cases ho : p.request.origin with
  | send op =>
    rw [ho] at ht
    obtain ⟨-, -, -, v, -, -, heq⟩ := (hw.dispatch_send hp ho ht).mp h
    obtain ⟨rfl, rfl⟩ := Prod.mk.inj heq
    exact ⟨rfl, List.length_set ..⟩
  | recv j recvId =>
    rw [ho] at ht
    obtain ⟨-, -, -, kb, inner, -, -, heq⟩ := (hw.dispatch_recv hp ho ht).mp h
    obtain ⟨rfl, rfl⟩ := Prod.mk.inj heq
    exact ⟨rfl, List.length_set ..⟩

theorem process_call (hw : Routed w) {p : Posted} {rest : List Posted} (hc : w.cqes = p :: rest)
    {streams : List TcpStream} {mem : Memory}
    (h : UringWs.dispatch w.pool w.mem w.streams (some p.cqe) = .ok (streams, mem))
    (hs : w.streams[i]? = some s) : ∃ s', streams[i]? = some s' ∧
      QueueTakes w s { w with mem, streams, cqes := rest } s' (w.queueCall i .process) := by
  have hp : p ∈ w.cqes := hc ▸ List.mem_cons_self
  obtain ⟨-, hprep⟩ := hw.cqes p hp
  obtain ⟨t, ht, -⟩ := hprep.facts hw
  cases ho : p.request.origin with
  | send op =>
    rw [ho] at ht
    obtain ⟨-, -, -, v, -, -, heq⟩ := (hw.dispatch_send hp ho ht).mp h
    obtain ⟨rfl, rfl⟩ := Prod.mk.inj heq
    have hnone : w.queueCall i .process = none := by simp [State.queueCall, hc, ho, Origin.isRecv]
    rw [hnone]
    exact getElem?_set_keep TcpStream.inner ht (by rfl) hs
  | recv j recvId =>
    rw [ho] at ht
    obtain ⟨hres, -, -, kb, inner, hget, hpush, heq⟩ := (hw.dispatch_recv hp ho ht).mp h
    obtain ⟨rfl, rfl⟩ := Prod.mk.inj heq
    by_cases hij : j = i
    · subst hij
      obtain rfl : s = t := Option.some.inj (hs.symm.trans ht)
      have hcall : w.queueCall j .process = some (.push kb) := by
        simp [State.queueCall, hc, ho, Origin.isRecv, hget]
      obtain ⟨ring, -, -, -, -, rfl⟩ := BufRingPool.getReadBuf_eq_ok.mp hget
      rw [hcall]
      refine ⟨_, List.getElem?_set_self (List.getElem?_eq_some_iff.mp hs).1,
        (resAsUsize_of_pos hres).2, ?_⟩
      rw [ReadQueue.State.apply, State.queue, hpush]
      rfl
    · have hnone : w.queueCall i .process = none := by
        simp [State.queueCall, hc, ho, Origin.isRecv, hij]
      rw [hnone]
      exact ⟨s, (List.getElem?_set_ne hij).trans hs, rfl⟩

theorem step_call (hw : Routed w) (hstep : Step w a w') (hs : w.streams[i]? = some s) :
    ∃ s', w'.streams[i]? = some s' ∧ QueueTakes w s w' s' (w.queueCall i a) := by
  cases hstep with
  | process hc hd => exact process_call hw hc hd hs
  | @read j dest dest' t t' r mem ht hread =>
    obtain ⟨n, inner, hq, rfl, -⟩ := (TcpStream.read_eq_ok (hw.stream ht).2).mp hread
    by_cases hij : j = i
    · subst hij
      obtain rfl : s = t := Option.some.inj (hs.symm.trans ht)
      rw [State.queueCall_read]
      refine ⟨_, List.getElem?_set_self (List.getElem?_eq_some_iff.mp hs).1, trivial, ?_⟩
      rw [ReadQueue.State.apply, State.queue, hq]
      rfl
    · rw [show w.queueCall i (.read j dest) = none from if_neg hij]
      exact ⟨s, (List.getElem?_set_ne hij).trans hs, rfl⟩
  | connect hring htail hblock hset =>
    exact ⟨s, (List.getElem?_append_left (List.getElem?_eq_some_iff.mp hs).1).trans hs, rfl⟩
  | @write j ptr buf t t' r mem sq ht hptr hwrite =>
    obtain ⟨-, -, rfl, rfl, -⟩ := TcpStream.write_spec (hw.stream ht).2 hw.sq hwrite
    exact getElem?_set_keep TcpStream.inner ht (by rfl) hs
  | submit | recv | sent | other => exact ⟨s, hs, rfl⟩

/-- A stream that a step adds has an empty queue. -/
theorem step_starts (hw : Routed w) (hstep : Step w a w') (hs : w.streams[i]? = none)
    (hs' : w'.streams[i]? = some s') : s'.inner = .new ringPoolSize.toNat := by
  have hlen : w'.streams.length = w.streams.length → s'.inner = .new ringPoolSize.toNat := by
    intro hlen
    have hlt := (List.getElem?_eq_some_iff.mp hs').1
    rw [List.getElem?_eq_none_iff] at hs
    omega
  cases hstep with
  | connect hring htail hblock hset =>
    obtain ⟨-, -, rfl, -⟩ := setupStream_spec hw.sq hset
    rcases getElem?_concat_eq_some hs' with ⟨-, hs'⟩ | ⟨rfl, rfl⟩
    · cases hs.symm.trans hs'
    · rfl
  | process hc hd => exact hlen (dispatch_frame hw (hc ▸ List.mem_cons_self) hd).2
  | write | read => exact hlen (List.length_set ..)
  | submit | recv | sent | other => exact hlen rfl

/-- Data the kernel receives goes to no buffer that is queued. -/
theorem Received.unread_recv (hw : Routed w) (h : Received w) {j : ℕ} {t : TcpStream}
    {kg : KernelGroup} {data : List UInt8} (hs : w.streams[i]? = some s)
    (hg : w.groups (UInt16.ofNat i) = some kg) (havail : kg.head ≠ (w.mem.rings kg.ring).tail)
    (hlen : data.length ≤ (kg.selected (w.mem.rings kg.ring)).len.toNat)
    (ht : w.streams[j]? = some t) :
    ∀ v ∈ t.inner.bufVec.items,
      v.unread (w.mem.store (kg.selected (w.mem.rings kg.ring)).addr data) = v.unread w.mem := by
  intro v hv
  obtain ⟨kj, hkj, -, hcustody, -⟩ := h.stream hw ht
  refine hcustody.unread_store _ _ ?_ hv
  by_cases hij : i = j
  · subst hij
    obtain rfl := Option.some.inj (hg.symm.trans hkj)
    refine hcustody.selected_disjoint havail ?_
    rw [hcustody.selected_eq] at hlen
    exact hlen
  · exact h.selected_other hs hg ht hkj (hw.ofNat_ne hs ht hij) hlen

/-- No step changes an unread byte of a queued buffer. -/
theorem step_unread (hw : Routed w) (h : Received w) (hstep : Step w a w')
    (hs : w.streams[i]? = some s) :
    ∀ v ∈ s.inner.bufVec.items, v.unread w'.mem = v.unread w.mem := by
  cases hstep with
  | process hc hd =>
    have hbytes := (dispatch_frame hw (hc ▸ List.mem_cons_self) hd).1
    exact fun v _ => ReadQueue.unread_congr hbytes
  | @read j dest dest' t t' r mem ht hread =>
    obtain ⟨n, inner, hq, -, -⟩ := (TcpStream.read_eq_ok (hw.stream ht).2).mp hread
    refine fun v _ => ReadQueue.unread_congr ?_
    rcases KernelBufferVecReader.read_cases hq with
      ⟨-, -, -, rfl⟩ | ⟨u, us, -, -, ⟨-, -, -, -, -, rfl⟩ | ⟨-, -, -, -, rfl⟩⟩
    · rfl
    · rfl
    · exact bufRingAddAdvance_bytes ..
  | connect hring htail hblock hset =>
    obtain ⟨-, rfl, -⟩ := setupStream_spec hw.sq hset
    exact fun v _ => ReadQueue.unread_congr rfl
  | write ht hptr hwrite =>
    obtain ⟨-, -, -, rfl, -⟩ := TcpStream.write_spec (hw.stream ht).2 hw.sq hwrite
    exact fun v _ => ReadQueue.unread_congr (TcpStream.writtenMem_bytes ..)
  | @recv k data flags r kg cqe hr hop hselect hg havail hpos hlen =>
    obtain ⟨t, ht, howner, -, hasks⟩ := (hw.requests r (List.mem_of_getElem? hr)).facts hw
    cases ho : r.origin with
    | recv j recvId =>
      rw [ho] at ht howner hasks
      rw [hasks.2.2, howner] at hg
      exact h.unread_recv hw ht hg havail hlen hs
    | send op =>
      rw [ho] at hasks
      exact absurd (hop.symm.trans hasks.1) (by decide)
  | submit | sent | other => exact fun v _ => rfl

/-- The queue of a stream after a step, told from the one before it. -/
theorem step_inner (hw : Routed w) (hstep : Step w a w') (hs' : w'.streams[i]? = some s') :
    s'.inner = .new ringPoolSize.toNat ∨ ∃ s, w.streams[i]? = some s ∧ (s'.inner = s.inner ∨
      ∃ o, ReadQueue.CarriesData (w.queue s) (.op o) ∧ (w.queue s).apply o = .ok (w'.queue s')) := by
  cases hs : w.streams[i]? with
  | none => exact .inl (step_starts hw hstep hs hs')
  | some s =>
    obtain ⟨t, ht, htakes⟩ := step_call hw hstep hs
    obtain rfl : s' = t := Option.some.inj (hs'.symm.trans ht)
    cases ho : w.queueCall i a with
    | none =>
      rw [ho] at htakes
      exact .inr ⟨s, rfl, .inl htakes⟩
    | some o =>
      rw [ho] at htakes
      exact .inr ⟨s, rfl, .inr ⟨o, htakes⟩⟩

/-- Every step of the loop is one of each stream's queue. -/
theorem step_queue (hw : Routed w) (h : Received w) (hstep : Step w a w')
    (hs' : w'.streams[i]? = some s') :
    s'.inner = .new ringPoolSize.toNat ∨ ∃ s, w.streams[i]? = some s ∧ ∃ b,
      ReadQueue.CarriesData (w.queue s) b ∧ ReadQueue.Step (w.queue s) b (w'.queue s') := by
  rcases step_inner hw hstep hs' with hnew | ⟨s, hs, hinner | ⟨o, hdata, happly⟩⟩
  · exact .inl hnew
  · refine .inr ⟨s, hs, .kernel w'.mem, trivial, ?_⟩
    unfold State.queue
    rw [hinner]
    exact .kernel (step_unread hw h hstep hs)
  · exact .inr ⟨s, hs, .op o, hdata, .op happly⟩

theorem reach_queue (h : eventLoop.Reach FillsOnly w) (hs : w.streams[i]? = some s) :
    ReadQueue.readQueue.Reach ReadQueue.CarriesData (w.queue s) := by
  refine h.invariant (P := fun w => ∀ s : TcpStream, w.streams[i]? = some s →
    ReadQueue.readQueue.Reach ReadQueue.CarriesData (w.queue s)) ?_ ?_ s hs
  · intro w h₀ s hs
    rw [h₀.streams] at hs
    cases hs
  · intro w a w' hr ih _ hstep s' hs'
    rcases step_queue (reach_routed hr) (reach_received hr) hstep hs' with
      hnew | ⟨s, hs, b, hb, hq⟩
    · exact .start ⟨_, hnew⟩
    · exact (ih s hs).next hb hq

/-- The queue of one stream, next to the memory, as a run of its own. -/
structure QueueRefines (w : State) (i : ℕ) : Prop where
  reached : ∀ s, w.streams[i]? = some s →
    ReadQueue.readQueue.Reach ReadQueue.CarriesData (w.queue s)
  /-- a stream starts with an empty queue -/
  starts : ∀ a w' s', Step w a w' → w.streams[i]? = none → w'.streams[i]? = some s' →
    s'.inner = .new ringPoolSize.toNat
  /-- handling a receive's entry pushes the buffer it names, and a read reads -/
  called : ∀ a w' s o, Step w a w' → w.streams[i]? = some s → w.queueCall i a = some o →
    ReadQueue.CarriesData (w.queue s) (.op o) ∧
      ∃ s', w'.streams[i]? = some s' ∧ (w.queue s).apply o = .ok (w'.queue s')
  /-- every other step leaves the deque and its unread bytes alone -/
  left_alone : ∀ a w' s, Step w a w' → w.streams[i]? = some s → w.queueCall i a = none →
    ∃ s', w'.streams[i]? = some s' ∧ s'.inner = s.inner ∧
      ∀ v ∈ s.inner.bufVec.items, v.unread w'.mem = v.unread w.mem

/-- Each step of the loop is the step of every stream's queue that it calls for. -/
theorem stream_queue_refines (h : eventLoop.Reach FillsOnly w) (i : ℕ) : QueueRefines w i := by
  have hw := reach_routed h
  refine ⟨fun s hs => reach_queue h hs, fun a w' s' => step_starts hw, ?_, ?_⟩
  · intro a w' s o hstep hs ho
    obtain ⟨s', hs', htakes⟩ := step_call hw hstep hs
    rw [ho] at htakes
    exact ⟨htakes.1, s', hs', htakes.2⟩
  · intro a w' s hstep hs ho
    obtain ⟨s', hs', htakes⟩ := step_call hw hstep hs
    rw [ho] at htakes
    exact ⟨s', hs', htakes, step_unread hw (reach_received h) hstep hs⟩

/-- The next entry of a receive is pushed, with the bytes it reports. -/
theorem Received.queueCall_process (hw : Routed w) (h : Received w) {p : Posted}
    {rest : List Posted} {recvId : UInt32} (hc : w.cqes = p :: rest)
    (ho : p.request.origin = .recv i recvId) (hs : w.streams[i]? = some s) :
    ∃ kb : KernelBuffer, w.queueCall i .process = some (.push kb) ∧
      (kb.dataLen : ℤ) = p.cqe.res.toInt := by
  obtain ⟨_, _, _, -, -, -, -, hd⟩ := h.dispatch_recv hw hc ho hs
  obtain ⟨hres, -, -, kb, _, hget, -, -⟩ :=
    (hw.dispatch_recv (hc ▸ List.mem_cons_self) ho hs).mp hd
  refine ⟨kb, by simp [State.queueCall, hc, ho, Origin.isRecv, hget], ?_⟩
  obtain ⟨ring, -, -, -, -, rfl⟩ := BufRingPool.getReadBuf_eq_ok.mp hget
  exact (resAsUsize_of_pos hres).1

/-- A stream that queues three received bytes, with two more to be handled: the
next entry is pushed, and a read takes from the first buffer. -/
theorem stream_queue_refines_queued : ∃ (w : State) (s : TcpStream) (kb : KernelBuffer),
    w.streams[0]? = some s ∧ s.inner.unread w.mem = [1, 2, 3] ∧ kb.dataLen = 2 ∧
      w.queueCall 0 .process = some (.push kb) ∧
      w.queueCall 0 (.read 0 [0, 0]) = some (.read [0, 0]) ∧ QueueRefines w 0 := by
  obtain ⟨sq, slot, -, -, -, h⟩ := reach_armed (G := FillsOnly) idleSocket 1200 trivial
    (fun _ _ => trivial)
  obtain ⟨_, _, c₁, -, hres₁, h₁⟩ := reach_recv (fun _ _ => id) h (i := 0) (k := 0) rfl rfl rfl
    (show 0 + 0 < 1024 by decide) [1, 2, 3] (by decide) (by decide) fun _ => trivial
  obtain ⟨_, _, c₂, -, hres₂, h₂⟩ := reach_recv (fun _ _ => id) h₁ (i := 0) (k := 0) rfl rfl rfl
    (show 0 + 1 < 1024 by decide) [4, 5] (by decide) (by decide) fun _ => trivial
  obtain ⟨_, v, inner, -, -, hrem, hitems, h₃⟩ :=
    reach_process (fun _ _ => id) h₂ (i := 0) rfl rfl rfl trivial
  have hw := reach_routed h₃
  have hrecv := reach_received h₃
  obtain ⟨kb, hcall, hlen⟩ := hrecv.queueCall_process hw (i := 0) rfl rfl rfl
  have hitems : inner.bufVec.items = [v] := hitems
  have hrem : v.remaining = 3 := by
    rw [hres₁] at hrem
    exact_mod_cast hrem
  have hunread := hrecv.front_unread hw (i := 0) rfl hitems
  rw [hrem] at hunread
  refine ⟨_, _, kb, rfl, ?_, ?_, hcall, State.queueCall_read .., stream_queue_refines h₃ 0⟩
  · rw [KernelBufferVecReader.unread, hitems, List.flatMap_singleton]
    exact hunread
  · rw [hres₂] at hlen
    exact_mod_cast hlen

/-! ### The deque stays in its allocation -/

theorem Received.held_le (hw : Routed w) (h : Received w) (hs : w.streams[i]? = some s) :
    s.inner.bufVec.items.length + (w.unprocessed i).length ≤ ringPoolSize.toNat := by
  obtain ⟨kg, -, -, hcustody, -⟩ := h.stream hw hs
  have hcount := hcustody.count
  have hsize : ringPoolSize.toNat = 1024 := rfl
  omega

/-- A queue that still holds no more than its capacity did not grow. -/
theorem capacity_step {q q' : ReadQueue.State} {b : ReadQueue.Action} (h : ReadQueue.Step q b q')
    (hle : q'.reader.bufVec.items.length ≤ q.reader.bufVec.capacity) :
    q'.reader.bufVec.capacity = q.reader.bufVec.capacity := by
  cases h with
  | kernel hkeep => rfl
  | op happly =>
    apply ReadQueue.apply_capacity happly
    rintro buf rfl
    simp only [ReadQueue.State.apply, bind_eq_ok, Except.ok.injEq] at happly
    obtain ⟨reader, hpush, rfl⟩ := happly
    rw [KernelBufferVecReader.push_eq_ok hpush, List.length_append, List.length_singleton] at hle
    omega

theorem reach_capacity (h : eventLoop.Reach FillsOnly w) (hs : w.streams[i]? = some s) :
    s.inner.bufVec.capacity = ringPoolSize.toNat := by
  refine h.invariant (P := fun w => ∀ s : TcpStream, w.streams[i]? = some s →
    s.inner.bufVec.capacity = ringPoolSize.toNat) ?_ ?_ s hs
  · intro w h₀ s hs
    rw [h₀.streams] at hs
    cases hs
  · intro w a w' hr ih hg hstep s' hs'
    have hr' := hr.next hg hstep
    have hheld := (reach_received hr').held_le (reach_routed hr') hs'
    rcases step_queue (reach_routed hr) (reach_received hr) hstep hs' with
      hnew | ⟨s, hs, b, -, hq⟩
    · rw [hnew]
      rfl
    · have hcap := ih s hs
      rw [← hcap]
      refine capacity_step hq ?_
      change s'.inner.bufVec.items.length ≤ s.inner.bufVec.capacity
      omega

/-- No deque grows in a run whose receives only fill buffers: what is queued on a
stream and in its unprocessed completions fits in what it was made with. -/
theorem stream_queue_bounded (h : eventLoop.Reach FillsOnly w) (hs : w.streams[i]? = some s) :
    s.inner.bufVec.capacity = ringPoolSize.toNat ∧
      s.inner.bufVec.items.length + (w.unprocessed i).length ≤ s.inner.bufVec.capacity := by
  have hcap := reach_capacity h hs
  have hheld := (reach_received h).held_le (reach_routed h) hs
  exact ⟨hcap, by omega⟩

theorem stream_queue_bounded_posted : ∃ (w : State) (s : TcpStream),
    w.streams[0]? = some s ∧ (w.unprocessed 0).length = 1 ∧
      s.inner.bufVec.capacity = ringPoolSize.toNat ∧
      s.inner.bufVec.items.length + (w.unprocessed 0).length ≤ s.inner.bufVec.capacity := by
  obtain ⟨sq, slot, -, -, -, h⟩ := reach_armed (G := FillsOnly) idleSocket 1200 trivial
    (fun _ _ => trivial)
  have h₁ := reach_filled h [1, 2, 3] true (by decide) (by decide) trivial
  exact ⟨_, _, rfl, rfl, stream_queue_bounded h₁ (i := 0) rfl⟩

end UringWs.EventLoop
