import UringWs.System.CompletionQueue
import UringWs.System.Delivery

/-! # The main loop

After the set-up rounds the program goes around one loop: it offers every stream
to its handler for writing, submits, captures the ready entries or waits for the
first one, and then builds, handles and releases them one by one. The kernel
steps at any moment in between and posts every entry into the completion ring.
The calls at which the program panics are told apart from its steps.
-/
namespace UringWs.MainLoop
open EventLoop Checked
variable {M : Type*}

/-- Where the program stands; within a batch the loop of the ring says where. -/
inductive Pc
  | setup
  | top
  | ping (j : ℕ)
  | submit
  | batch

structure State (M : Type*) where
  delivery : Delivery.State M
  ring : CompletionQueue.State
  pc : Pc
  /-- whether there was a ping before -/
  pinged : Bool
  /-- the completion built and not yet handled -/
  held : Option Completion

namespace State

abbrev loop (s : State M) : EventLoop.State := s.delivery.loop

def withLoop (s : State M) (w : EventLoop.State) : State M :=
  { s with delivery := { s.delivery with loop := w } }

end State

inductive Action
  | kernel (a : EventLoop.Action)
  | connect (raw : RawTcpStream) (recvId : UInt32) (ring : RingPtr) (base : ℕ)
  | enter
  | ping
  | skip
  | write (i ptr : ℕ) (buf : List UInt8)
  | next
  | offered
  | submit (n : ℕ)
  | peek
  | waitReady
  | waitTimeout
  | build
  | handle
  | read (i : ℕ) (dest : List UInt8)
  | deliver
  | advance

/-- The steps a request takes in the kernel. -/
def ByKernel : EventLoop.Action → Prop
  | .recv .. | .sent .. | .other .. => True
  | _ => False

inductive Step (c : PrefixCode M UInt8) : State M → Action → State M → Prop
  /-- the entry a request posts goes into the ring, which must have room -/
  | kernel {s : State M} {a : EventLoop.Action} {w : EventLoop.State} {p : Posted}
      {ring : CompletionQueue.State} (ha : ByKernel a) (h : EventLoop.Step s.loop a w)
      (hp : w.cqes = s.loop.cqes ++ [p])
      (hring : CompletionQueue.Step s.ring (.post p.cqe) ring) :
      Step c s (.kernel a) { s.withLoop w with ring }
  | connect {s : State M} {raw : RawTcpStream} {recvId : UInt32} {ring : RingPtr} {base : ℕ}
      {w : EventLoop.State} (hpc : s.pc = .setup)
      (h : EventLoop.Step s.loop (.connect raw recvId ring base) w) :
      Step c s (.connect raw recvId ring base) (s.withLoop w)
  | enter {s : State M} (hpc : s.pc = .setup) : Step c s .enter { s with pc := .top }
  | ping {s : State M} (hpc : s.pc = .top) :
      Step c s .ping { s with pc := .ping 0, pinged := true }
  /-- the last ping was sent a moment ago -/
  | skip {s : State M} (hpc : s.pc = .top) (hpinged : s.pinged = true) :
      Step c s .skip { s with pc := .submit }
  | write {s : State M} {i ptr : ℕ} {buf : List UInt8} {w : EventLoop.State}
      (hpc : s.pc = .ping i) (h : EventLoop.Step s.loop (.write i ptr buf) w) :
      Step c s (.write i ptr buf) (s.withLoop w)
  | next {s : State M} {j : ℕ} (hpc : s.pc = .ping j) (hj : j < s.loop.streams.length) :
      Step c s .next { s with pc := .ping (j + 1) }
  | offered {s : State M} {j : ℕ} (hpc : s.pc = .ping j) (hj : s.loop.streams.length ≤ j) :
      Step c s .offered { s with pc := .submit }
  | submit {s : State M} {n : ℕ} {w : EventLoop.State} (hpc : s.pc = .submit)
      (h : EventLoop.Step s.loop (.submit n) w) :
      Step c s (.submit n) { s.withLoop w with pc := .batch }
  | peek {s : State M} {ring : CompletionQueue.State} (hpc : s.pc = .batch)
      (hring : CompletionQueue.Step s.ring .peek ring) : Step c s .peek { s with ring }
  | waitReady {s : State M} {ring : CompletionQueue.State} (hpc : s.pc = .batch)
      (hring : CompletionQueue.Step s.ring .waitReady ring) : Step c s .waitReady { s with ring }
  | waitTimeout {s : State M} {ring : CompletionQueue.State} (hpc : s.pc = .batch)
      (hring : CompletionQueue.Step s.ring .waitTimeout ring) :
      Step c s .waitTimeout { s with ring, pc := .top }
  | build {s : State M} {i n ptr : ℕ} {completion : Completion} {ring : CompletionQueue.State}
      (hpc : s.pc = .batch) (hl : s.ring.loop = .build i n) (hp : s.ring.cqeBuf i = some ptr)
      (h : Completion.fromRawEvent s.loop.pool s.loop.mem (some (s.ring.cq.cqes ptr)) =
        .ok completion)
      (hring : CompletionQueue.Step s.ring .build ring) :
      Step c s .build { s with ring, held := some completion }
  /-- the handler reads the entry again, through the pointer of the completion -/
  | handle {s : State M} {i n ptr : ℕ} {cqe : IoUringCqe} {completion : Completion}
      {t t' : TcpStream} {mem : Memory} {ring : CompletionQueue.State} (hpc : s.pc = .batch)
      (hl : s.ring.loop = .consume i n ptr cqe) (hheld : s.held = some completion)
      (ht : s.loop.streams[completion.userData.owner.toNat]? = some t)
      (h : t.onCompletion s.loop.mem { completion with cqe := s.ring.cq.cqes ptr } = .ok (t', mem))
      (hring : CompletionQueue.Step s.ring .consume ring) :
      Step c s .handle { s with
        delivery := { s.delivery with
          loop := { s.loop with
            mem
            streams := s.loop.streams.set completion.userData.owner.toNat t'
            cqes := s.loop.cqes.tail }
          reading := some completion.userData.owner.toNat }
        ring
        held := none }
  | read {s : State M} {i : ℕ} {dest : List UInt8} {d : Delivery.State M}
      (h : Delivery.Step c s.delivery (.read i dest) d) :
      Step c s (.read i dest) { s with delivery := d }
  | deliver {s : State M} {d : Delivery.State M} (h : Delivery.Step c s.delivery .deliver d) :
      Step c s .deliver { s with delivery := d }
  | advance {s : State M} {i n : ℕ} {ring : CompletionQueue.State} (hpc : s.pc = .batch)
      (hidle : s.delivery.reading = none) (hl : s.ring.loop = .advance i n)
      (hring : CompletionQueue.Step s.ring .advance ring) :
      Step c s .advance { s with ring, pc := if i + 1 < n then .batch else .top }

structure Init (s : State M) : Prop where
  delivery : Delivery.Init s.delivery
  ring : CompletionQueue.Init s.ring
  entries : s.loop.sq.ringEntries = cqEntries
  pc : s.pc = .setup
  pinged : s.pinged = false
  held : s.held = none

def mainLoop (c : PrefixCode M UInt8) : System (State M) Action := { init := Init, step := Step c }

/-! ### Where the program panics -/

/-- The calls that can end the program, with what code outside it answers. -/
inductive Call
  /-- what the handshake, the mapping and the allocation return -/
  | connect (raw : Option RawTcpStream) (recvId : UInt32) (ring : Option RingPtr)
      (base : Option ℕ)
  | write (i ptr : ℕ) (buf : List UInt8)
  /-- the handler has written and flushed, without an error or with one -/
  | handler (ok : Bool)
  | submit (rval : Int32)
  | wait (ret : Int32)
  | build
  | handle
  | read (i : ℕ) (dest : List UInt8)
  /-- the decoder returns a message, or an error other than that of a read -/
  | decode (ok : Bool)

/-- A call that ends the program: an assertion, an unwrap or a panic of its own. -/
inductive Panics (s : State M) : Call → Prop
  | handshake {recvId : UInt32} {ring : Option RingPtr} {base : Option ℕ} :
      Panics s (.connect none recvId ring base)
  | connect {raw : RawTcpStream} {recvId : UInt32} {ring : Option RingPtr} {base : Option ℕ}
      {e : Fault} (h : setupStream s.loop.pool s.loop.mem s.loop.sq raw
        (UInt16.ofNat s.loop.streams.length) recvId ring base = .error e) :
      Panics s (.connect (some raw) recvId ring base)
  | write {i ptr : ℕ} {buf : List UInt8} {t : TcpStream} {e : Fault}
      (ht : s.loop.streams[i]? = some t) (h : t.write s.loop.mem s.loop.sq ptr buf = .error e) :
      Panics s (.write i ptr buf)
  | handler : Panics s (.handler false)
  | submit {rval : Int32} (h : rval < 0) : Panics s (.submit rval)
  /-- a wait that timed out starts the loop over instead -/
  | wait {ret : Int32} (h : ret < 0) (htime : ret ≠ -62) : Panics s (.wait ret)
  | build {i n ptr : ℕ} {e : Fault} (hl : s.ring.loop = .build i n)
      (hp : s.ring.cqeBuf i = some ptr)
      (h : Completion.fromRawEvent s.loop.pool s.loop.mem (some (s.ring.cq.cqes ptr)) =
        .error e) : Panics s .build
  | noStream {completion : Completion} (hheld : s.held = some completion)
      (ht : s.loop.streams[completion.userData.owner.toNat]? = none) : Panics s .handle
  | handle {i n ptr : ℕ} {cqe : IoUringCqe} {completion : Completion} {t : TcpStream} {e : Fault}
      (hl : s.ring.loop = .consume i n ptr cqe) (hheld : s.held = some completion)
      (ht : s.loop.streams[completion.userData.owner.toNat]? = some t)
      (h : t.onCompletion s.loop.mem { completion with cqe := s.ring.cq.cqes ptr } = .error e) :
      Panics s .handle
  | read {i : ℕ} {dest : List UInt8} {t : TcpStream} {e : Fault}
      (ht : s.loop.streams[i]? = some t) (h : t.read s.loop.mem dest = .error e) :
      Panics s (.read i dest)
  | decode : Panics s (.decode false)

/-- The step that a call comes to, if it lets the program go on. -/
def Call.action : Call → Option Action
  | .connect (some raw) recvId (some ring) (some base) => some (.connect raw recvId ring base)
  | .connect .. => none
  | .write i ptr buf => some (.write i ptr buf)
  | .handler ok => if ok then some .next else none
  | .submit rval => if rval < 0 then none else some (.submit rval.toInt.toNat)
  | .wait ret =>
    if ret < 0 then if ret = -62 then some .waitTimeout else none else some .waitReady
  | .build => some .build
  | .handle => some .handle
  | .read i dest => some (.read i dest)
  | .decode ok => if ok then some .deliver else none

/-- The step of the delivery system that a step of the loop takes, if any. -/
def Action.call : Action → Option Delivery.Action
  | .kernel a => some (.loop a)
  | .connect raw recvId ring base => some (.loop (.connect raw recvId ring base))
  | .write i ptr buf => some (.loop (.write i ptr buf))
  | .submit n => some (.loop (.submit n))
  | .handle => some .process
  | .read i dest => some (.read i dest)
  | .deliver => some .deliver
  | _ => none

/-- A guard on the steps of the delivery system, read on those of the loop. -/
def Lifted (G : Delivery.State M → Delivery.Action → Prop) (s : State M) (a : Action) : Prop :=
  ∀ b, a.call = some b → G s.delivery b

/-- What the two sides know of each other. -/
structure Coupled (s : State M) : Prop where
  posted : s.ring.posted = s.loop.history.map Posted.cqe
  /-- the entries to be processed are those the ring still holds -/
  unprocessed : s.ring.posted = s.ring.processed ++ s.loop.cqes.map Posted.cqe
  /-- a held completion is what would be built now of the first of them -/
  held : ∀ i n ptr cqe, s.ring.loop = .consume i n ptr cqe → ∃ completion p rest,
    s.held = some completion ∧ s.loop.cqes = p :: rest ∧ s.ring.cq.cqes ptr = p.cqe ∧
      Completion.fromRawEvent s.loop.pool s.loop.mem (some p.cqe) = .ok completion

structure Inv (s : State M) : Prop where
  ring : CompletionQueue.Inv s.ring
  coupled : Coupled s
  outside : s.pc ≠ .batch → s.ring.loop = .poll
  reading : s.delivery.reading ≠ none → ∃ i n, s.ring.loop = .advance i n

variable {c : PrefixCode M UInt8} {s s' : State M} {a : Action}

/-! ### What a completion is built from -/

theorem getReadBuf_congr {mem mem' : Memory} (h : mem'.rings = mem.rings) (pool : BufRingPool)
    (g b : UInt16) (n : ℕ) : pool.getReadBuf mem' g b n = pool.getReadBuf mem g b n := by
  simp only [BufRingPool.getReadBuf, h]

/-- Building a completion reads the buffer rings and no other memory. -/
theorem fromRawEvent_congr {mem mem' : Memory} (h : mem'.rings = mem.rings) (pool : BufRingPool)
    (ptr : Option IoUringCqe) :
    Completion.fromRawEvent pool mem' ptr = Completion.fromRawEvent pool mem ptr := by
  simp only [Completion.fromRawEvent, getReadBuf_congr h]

/-- What the kernel leaves alone while it runs a request. -/
theorem kernel_frame {w w' : EventLoop.State} {a : EventLoop.Action} {p : Posted}
    (ha : ByKernel a) (h : EventLoop.Step w a w') (hp : w'.cqes = w.cqes ++ [p]) :
    w'.pool = w.pool ∧ w'.mem.rings = w.mem.rings ∧ w'.streams = w.streams ∧
      w'.queued = w.queued ∧ w'.sq = w.sq ∧ w'.history = w.history ++ [p] ∧ w.requests ≠ [] := by
  have hne : ∀ {k : ℕ} {r : Request}, w.requests[k]? = some r → w.requests ≠ [] := by
    intro k r hr hnil
    rw [hnil] at hr
    cases hr
  cases h with
  | recv hr => exact ⟨rfl, rfl, rfl, rfl, rfl, congrArg _ (List.append_cancel_left hp), hne hr⟩
  | sent hr => exact ⟨rfl, rfl, rfl, rfl, rfl, congrArg _ (List.append_cancel_left hp), hne hr⟩
  | other hr => exact ⟨rfl, rfl, rfl, rfl, rfl, congrArg _ (List.append_cancel_left hp), hne hr⟩
  | _ => exact ha.elim

/-! ### The two sides stay together -/

/-- The ring's loop moves on, and every entry stays where it is. -/
theorem Coupled.move (h : Coupled s) (hdelivery : s'.delivery = s.delivery)
    (hposted : s'.ring.posted = s.ring.posted) (hprocessed : s'.ring.processed = s.ring.processed)
    (hloop : ∀ i n ptr cqe, s'.ring.loop ≠ .consume i n ptr cqe) : Coupled s' := by
  refine ⟨?_, ?_, fun i n ptr cqe hl => absurd hl (hloop i n ptr cqe)⟩
  · rw [hposted, State.loop, hdelivery]
    exact h.posted
  · rw [hposted, hprocessed, State.loop, hdelivery]
    exact h.unprocessed

/-- A step of the delivery system that posts and processes nothing, away from a
held completion. -/
theorem Coupled.call (h : Coupled s) (hring : s'.ring = s.ring)
    (hhistory : s'.loop.history = s.loop.history) (hcqes : s'.loop.cqes = s.loop.cqes)
    (hloop : ∀ i n ptr cqe, s.ring.loop ≠ .consume i n ptr cqe) : Coupled s' := by
  refine ⟨?_, ?_, fun i n ptr cqe hl => absurd (hring ▸ hl) (hloop i n ptr cqe)⟩
  · rw [hring, hhistory]
    exact h.posted
  · rw [hring, hcqes]
    exact h.unprocessed

/-- The first unprocessed entry is the one at the head of the ring. -/
theorem Coupled.head (h : Coupled s) {q : List IoUringCqe} {e : IoUringCqe}
    (hring : s.ring.posted = s.ring.processed ++ e :: q) :
    ∃ p rest, s.loop.cqes = p :: rest ∧ p.cqe = e ∧ rest.map Posted.cqe = q := by
  have he : s.loop.cqes.map Posted.cqe = e :: q :=
    List.append_cancel_left (h.unprocessed.symm.trans hring)
  exact List.map_eq_cons_iff.mp he

theorem inv_init (h : Init s) : Inv s := by
  have hloop := h.ring.loop
  refine ⟨CompletionQueue.inv_init h.ring, ⟨?_, ?_, ?_⟩, fun _ => hloop, ?_⟩
  · rw [h.ring.posted, h.delivery.loop.history]
    rfl
  · rw [h.ring.posted, h.ring.processed, h.delivery.loop.cqes]
    rfl
  · simp [hloop]
  · simp [h.delivery.reading]

theorem inv_kernel {a : EventLoop.Action} {w : EventLoop.State} {p : Posted}
    {ring : CompletionQueue.State} (h : Inv s) (ha : ByKernel a) (hs : EventLoop.Step s.loop a w)
    (hp : w.cqes = s.loop.cqes ++ [p]) (hring : CompletionQueue.Step s.ring (.post p.cqe) ring) :
    Inv { s.withLoop w with ring } := by
  obtain ⟨hpool, hrings, -, -, -, hhistory, -⟩ := kernel_frame ha hs hp
  have hr := CompletionQueue.inv_step h.ring hring
  have hprotected := h.ring.exactlyOnce.protected_slots _ _ hring
  cases hring with
  | post _ hroom =>
    refine ⟨hr, ⟨?_, ?_, ?_⟩, h.outside, h.reading⟩
    · change s.ring.posted ++ [p.cqe] = w.history.map Posted.cqe
      rw [hhistory, List.map_append, ← h.coupled.posted]
      rfl
    · change s.ring.posted ++ [p.cqe] = s.ring.processed ++ w.cqes.map Posted.cqe
      rw [hp, List.map_append, ← List.append_assoc, ← h.coupled.unprocessed]
      rfl
    · intro i n ptr cqe hl
      obtain ⟨completion, p₀, rest, hheld, hc, hptr, hraw⟩ := h.coupled.held i n ptr cqe hl
      refine ⟨completion, p₀, rest ++ [p], hheld, ?_, ?_, ?_⟩
      · exact hp.trans (congrArg (· ++ [p]) hc)
      · -- the pointer of the held completion is not the slot posted into
        have hl : s.ring.loop = .consume i n ptr cqe := hl
        have hcap := h.ring.loop
        rw [hl] at hcap
        rw [← hptr]
        refine hprotected ptr ?_
        simp only [CompletionQueue.State.undropped, hl]
        exact ⟨i, le_rfl, hcap.2.1.lt, by rw [hcap.2.1.ptr i le_rfl hcap.2.1.lt, Nat.sub_self,
          hcap.2.2.1]⟩
      · change Completion.fromRawEvent w.pool w.mem (some p₀.cqe) = _
        rw [hpool, fromRawEvent_congr hrings]
        exact hraw

theorem inv_build {i n ptr : ℕ} {completion : Completion} {ring : CompletionQueue.State}
    (h : Inv s) (hpc : s.pc = .batch) (hl : s.ring.loop = .build i n)
    (hp : s.ring.cqeBuf i = some ptr)
    (hraw : Completion.fromRawEvent s.loop.pool s.loop.mem (some (s.ring.cq.cqes ptr)) =
      .ok completion)
    (hring : CompletionQueue.Step s.ring .build ring) :
    Inv { s with ring, held := some completion } := by
  have hr := CompletionQueue.inv_step h.ring hring
  have hcap := h.ring.loop
  rw [hl] at hcap
  obtain ⟨hposted, hcap⟩ := hcap
  have hslot : ptr = s.ring.cq.slot 0 := by
    have he := hcap.ptr i le_rfl hcap.lt
    rwa [hp, Nat.sub_self, Option.some.injEq] at he
  rw [s.ring.cq.queue_head? hcap.ready_pos h.ring.wf] at hposted
  obtain ⟨p, rest, hc, hpe, -⟩ := h.coupled.head hposted
  have hreading : s.delivery.reading = none := by
    by_contra hne
    obtain ⟨i', n', hl'⟩ := h.reading hne
    rw [hl] at hl'
    cases hl'
  cases hring with
  | @build i' n' ptr' hl' hp' =>
    rw [hl] at hl'
    obtain ⟨rfl, rfl⟩ := CompletionQueue.Loop.build.inj hl'
    obtain rfl : ptr = ptr' := Option.some.inj (hp.symm.trans hp')
    refine ⟨hr, ⟨h.coupled.posted, h.coupled.unprocessed, ?_⟩, fun hne => absurd hpc hne,
      fun hne => absurd hreading hne⟩
    intro i' n' ptr' cqe' hl'
    obtain ⟨-, -, rfl, -⟩ := CompletionQueue.Loop.consume.inj hl'
    have he : p.cqe = s.ring.cq.cqes ptr := by rw [hpe, hslot]
    exact ⟨completion, p, rest, rfl, hc, he.symm, he ▸ hraw⟩

/-- The held completion is that of the first unprocessed entry, so handling it is
what the dispatch of that entry comes to. -/
theorem Inv.dispatch_held {i n ptr : ℕ} {cqe : IoUringCqe} {completion : Completion}
    {t t' : TcpStream} {mem : Memory} (h : Inv s) (hl : s.ring.loop = .consume i n ptr cqe)
    (hheld : s.held = some completion)
    (ht : s.loop.streams[completion.userData.owner.toNat]? = some t)
    (hs : t.onCompletion s.loop.mem { completion with cqe := s.ring.cq.cqes ptr } = .ok (t', mem)) :
    ∃ p rest, s.loop.cqes = p :: rest ∧ s.ring.cq.cqes ptr = p.cqe ∧
      completion.userData = UserData.fromPacked p.cqe.userData ∧
      dispatch s.loop.pool s.loop.mem s.loop.streams (some p.cqe) =
        .ok (s.loop.streams.set completion.userData.owner.toNat t', mem) := by
  obtain ⟨completion', p, rest, hheld', hc, hptr, hraw⟩ := h.coupled.held i n ptr cqe hl
  obtain rfl : completion = completion' := Option.some.inj (hheld.symm.trans hheld')
  obtain ⟨hcqe, huser⟩ := Completion.fromRawEvent_cqe hraw
  have hread : { completion with cqe := s.ring.cq.cqes ptr } = completion := by rw [hptr, ← hcqe]
  rw [hread] at hs
  refine ⟨p, rest, hc, hptr, huser, ?_⟩
  simp only [dispatch, hraw, ok_bind, ht, unwrap_some, hs]

/-- Handling the held completion is the processing step of the delivery system. -/
theorem handle_process {i n ptr : ℕ} {cqe : IoUringCqe} {completion : Completion}
    {t t' : TcpStream} {mem : Memory} (h : Inv s) (hl : s.ring.loop = .consume i n ptr cqe)
    (hheld : s.held = some completion)
    (ht : s.loop.streams[completion.userData.owner.toNat]? = some t)
    (hs : t.onCompletion s.loop.mem { completion with cqe := s.ring.cq.cqes ptr } = .ok (t', mem)) :
    Delivery.Step c s.delivery .process { s.delivery with
      loop := { s.loop with
        mem
        streams := s.loop.streams.set completion.userData.owner.toNat t'
        cqes := s.loop.cqes.tail }
      reading := some completion.userData.owner.toNat } := by
  obtain ⟨p, rest, hc, -, huser, hd⟩ := h.dispatch_held hl hheld ht hs
  have hidle : s.delivery.reading = none := by
    by_contra hne
    obtain ⟨i', n', hl'⟩ := h.reading hne
    rw [hl] at hl'
    cases hl'
  rw [hc, List.tail_cons]
  have howner : (UserData.fromPacked p.cqe.userData).owner = completion.userData.owner := by
    rw [huser]
  rw [← howner] at hd ⊢
  exact .process hidle hc (.process hc hd)

theorem inv_handle {i n ptr : ℕ} {cqe : IoUringCqe} {completion : Completion} {t' : TcpStream}
    {mem : Memory} {ring : CompletionQueue.State} (h : Inv s) (hpc : s.pc = .batch)
    (hl : s.ring.loop = .consume i n ptr cqe)
    (hring : CompletionQueue.Step s.ring .consume ring) :
    Inv { s with
      delivery := { s.delivery with
        loop := { s.loop with
          mem
          streams := s.loop.streams.set completion.userData.owner.toNat t'
          cqes := s.loop.cqes.tail }
        reading := some completion.userData.owner.toNat }
      ring
      held := none } := by
  have hr := CompletionQueue.inv_step h.ring hring
  obtain ⟨completion', p, rest, -, hc, hptr, -⟩ := h.coupled.held i n ptr cqe hl
  cases hring with
  | consume hl' =>
    rw [hl] at hl'
    obtain ⟨rfl, rfl, rfl, rfl⟩ := CompletionQueue.Loop.consume.inj hl'
    refine ⟨hr, ⟨h.coupled.posted, ?_, fun _ _ _ _ hl' => (nomatch hl')⟩,
      fun hne => absurd hpc hne, fun _ => ⟨i, n, rfl⟩⟩
    change s.ring.posted = s.ring.processed ++ [s.ring.cq.cqes ptr] ++
      s.loop.cqes.tail.map Posted.cqe
    rw [h.coupled.unprocessed, hc, hptr]
    simp

/-- The steps of the loop away from a batch leave the ring alone. -/
theorem inv_outside {d : Delivery.State M} {pc : Pc} {pinged : Bool} (h : Inv s)
    (hpc : s.pc ≠ .batch) (hhistory : d.loop.history = s.loop.history)
    (hcqes : d.loop.cqes = s.loop.cqes) (hreading : d.reading = s.delivery.reading) :
    Inv { s with delivery := d, pc, pinged } := by
  have hpoll := h.outside hpc
  refine ⟨h.ring, h.coupled.call rfl hhistory hcqes ?_, fun _ => hpoll, fun hne => ?_⟩
  · simp [hpoll]
  · exact h.reading (hreading ▸ hne)

/-- The decoder's own steps post and process nothing. -/
theorem inv_decode {d : Delivery.State M} (h : Inv s) (hreading : s.delivery.reading ≠ none)
    (hhistory : d.loop.history = s.loop.history) (hcqes : d.loop.cqes = s.loop.cqes) :
    Inv { s with delivery := d } := by
  obtain ⟨i, n, hl⟩ := h.reading hreading
  exact ⟨h.ring, h.coupled.call rfl hhistory hcqes (by simp [hl]), h.outside, fun _ => ⟨i, n, hl⟩⟩

/-- The ring's own steps, which end at no held completion. -/
theorem inv_ring {b : CompletionQueue.Action} {ring : CompletionQueue.State} {pc : Pc} (h : Inv s)
    (hring : CompletionQueue.Step s.ring b ring) (hreading : s.delivery.reading = none)
    (hposted : ring.posted = s.ring.posted) (hprocessed : ring.processed = s.ring.processed)
    (hloop : ∀ i n ptr cqe, ring.loop ≠ .consume i n ptr cqe)
    (hpc : pc ≠ .batch → ring.loop = .poll) : Inv { s with ring, pc } :=
  ⟨CompletionQueue.inv_step h.ring hring, h.coupled.move rfl hposted hprocessed hloop, hpc,
    fun hne => absurd hreading hne⟩

theorem Inv.idle (h : Inv s) (hl : ∀ i n, s.ring.loop ≠ .advance i n) :
    s.delivery.reading = none := by
  by_contra hne
  obtain ⟨i, n, hl'⟩ := h.reading hne
  exact hl i n hl'

theorem inv_step (h : Inv s) (hs : Step c s a s') : Inv s' := by
  cases hs with
  | kernel ha hs hp hring => exact inv_kernel h ha hs hp hring
  | connect hpc hs => cases hs; exact inv_outside h (by simp [hpc]) rfl rfl rfl
  | enter hpc => exact inv_outside h (by simp [hpc]) rfl rfl rfl
  | ping hpc => exact inv_outside h (by simp [hpc]) rfl rfl rfl
  | skip hpc hpinged => exact inv_outside h (by simp [hpc]) rfl rfl rfl
  | write hpc hs => cases hs; exact inv_outside h (by simp [hpc]) rfl rfl rfl
  | next hpc hj => exact inv_outside h (by simp [hpc]) rfl rfl rfl
  | offered hpc hj => exact inv_outside h (by simp [hpc]) rfl rfl rfl
  | submit hpc hs => cases hs; exact inv_outside (s := s) h (by simp [hpc]) rfl rfl rfl
  | peek hpc hring =>
    have hidle := h.idle (by cases hring; simp [*])
    refine inv_ring h hring hidle ?_ ?_ ?_ (fun hne => absurd hpc hne) <;> cases hring
    · rfl
    · rfl
    · intro i n ptr cqe
      dsimp only
      split <;> simp
  | waitReady hpc hring =>
    have hidle := h.idle (by cases hring; simp [*])
    refine inv_ring h hring hidle ?_ ?_ ?_ (fun hne => absurd hpc hne) <;> cases hring <;> simp
  | waitTimeout hpc hring =>
    have hidle := h.idle (by cases hring; simp [*])
    refine inv_ring h hring hidle ?_ ?_ ?_ (fun _ => ?_) <;> cases hring <;> simp
  | build hpc hl hp hraw hring => exact inv_build h hpc hl hp hraw hring
  | handle hpc hl hheld ht hs hring => exact inv_handle h hpc hl hring
  | read hs =>
    cases hs with
    | read hreading => exact inv_decode h (by simp [hreading]) rfl rfl
  | deliver hs =>
    cases hs with
    | deliver hreading => exact inv_decode h (by simp [hreading]) rfl rfl
  | @advance i n ring hpc hidle hl hring =>
    cases hring with
    | @advance i' n' hl' =>
      obtain ⟨rfl, rfl⟩ := CompletionQueue.Loop.advance.inj (hl.symm.trans hl')
      refine inv_ring h (.advance hl') hidle rfl rfl (fun i n ptr cqe => ?_) fun hne => ?_
      · dsimp only
        split <;> simp
      · by_cases hn : i + 1 < n
        · exact absurd (if_pos hn) hne
        · exact if_neg hn

theorem reach_inv {G : State M → Action → Prop} (h : (mainLoop c).Reach G s) : Inv s :=
  h.invariant (fun _ => inv_init) (fun _ _ _ _ hi _ hs => inv_step hi hs)

/-! ### Refinement -/

/-- A step of the loop takes its call in the delivery system, and nothing else. -/
theorem step_call (h : Inv s) (hs : Step c s a s') :
    (∃ b, a.call = some b ∧ Delivery.Step c s.delivery b s'.delivery) ∨
      (a.call = none ∧ s'.delivery = s.delivery) := by
  have hidle : s.pc ≠ .batch → s.delivery.reading = none := fun hne =>
    h.idle (by simp [h.outside hne])
  cases hs with
  | @kernel a w p ring ha hs hp hring =>
    refine .inl ⟨_, rfl, .loop ?_ hs⟩
    cases a <;> trivial
  | connect hpc hs => exact .inl ⟨_, rfl, .loop (hidle (by simp [hpc])) hs⟩
  | write hpc hs => exact .inl ⟨_, rfl, .loop (hidle (by simp [hpc])) hs⟩
  | submit hpc hs => exact .inl ⟨_, rfl, .loop (hidle (by simp [hpc])) hs⟩
  | handle hpc hl hheld ht hs hring => exact .inl ⟨_, rfl, handle_process h hl hheld ht hs⟩
  | read hs => exact .inl ⟨_, rfl, hs⟩
  | deliver hs => exact .inl ⟨_, rfl, hs⟩
  | _ => exact .inr ⟨rfl, rfl⟩

/-- A step of the loop takes at most one step of the completion ring. -/
theorem step_ring (hs : Step c s a s') :
    (∃ b, CompletionQueue.Step s.ring b s'.ring) ∨ s'.ring = s.ring := by
  cases hs with
  | kernel ha hs hp hring => exact .inl ⟨_, hring⟩
  | peek hpc hring => exact .inl ⟨_, hring⟩
  | waitReady hpc hring => exact .inl ⟨_, hring⟩
  | waitTimeout hpc hring => exact .inl ⟨_, hring⟩
  | build hpc hl hp hraw hring => exact .inl ⟨_, hring⟩
  | handle hpc hl hheld ht hs hring => exact .inl ⟨_, hring⟩
  | advance hpc hidle hl hring => exact .inl ⟨_, hring⟩
  | _ => exact .inr rfl

theorem reach_delivery {G : Delivery.State M → Delivery.Action → Prop}
    (h : (mainLoop c).Reach (Lifted G) s) : (Delivery.delivery c).Reach G s.delivery := by
  refine h.simulate State.delivery (fun s (h₀ : Init s) => h₀.delivery) fun s a t hr hg hs => ?_
  rcases step_call (reach_inv hr) hs with ⟨b, hb, hd⟩ | ⟨-, hd⟩
  · exact .single ⟨b, hg b hb, hd⟩
  · rw [hd]

theorem reach_ring {G : State M → Action → Prop} (h : (mainLoop c).Reach G s) :
    CompletionQueue.completionRing.Reachable s.ring := by
  refine h.simulate State.ring (fun s (h₀ : Init s) => h₀.ring) fun s a t _ _ hs => ?_
  rcases step_ring hs with ⟨b, hb⟩ | he
  · exact .single ⟨b, trivial, hb⟩
  · rw [he]

/-! ### One stream, one buffer -/

/-- Nothing connected, and rings of the sizes the program asks for. -/
def startLoop : EventLoop.State :=
  { EventLoop.start with
    sq := { khead := 0, sqeTail := 0, ringMask := 1023, ringEntries := cqEntries
            sqes := fun _ => default } }

def startRing : CompletionQueue.State where
  cq := { khead := 0, ktail := 0, ringMask := 2047, ringEntries := 2048
          cqes := fun _ => ⟨0, 0, 0⟩ }
  cqeBuf := fun _ => none
  filled := 0
  loop := .poll
  posted := []
  processed := []

theorem startLoop_init : EventLoop.Init startLoop :=
  ⟨rfl, ⟨⟨⟨10, by decide, rfl⟩, rfl⟩, by decide⟩, rfl, rfl, fun _ => rfl, rfl, rfl, rfl, rfl,
    fun _ => rfl, fun _ => rfl, fun _ => rfl, fun _ => rfl⟩

theorem startRing_init : CompletionQueue.Init startRing :=
  ⟨⟨⟨11, by decide, rfl⟩, rfl⟩, by decide, rfl, fun _ => rfl, rfl, rfl, rfl, rfl⟩

def start : State M where
  delivery := Delivery.asleep startLoop
  ring := startRing
  pc := .setup
  pinged := false
  held := none

theorem start_init : Init (start : State M) :=
  ⟨⟨startLoop_init, rfl, fun _ => rfl, fun _ => rfl⟩, startRing_init, rfl, rfl, rfl, rfl⟩

/-- Everything is submitted, nothing is written, and requests only fill buffers. -/
def Quiet (s : State M) : Action → Prop
  | .kernel (.recv ..) => True
  | .kernel _ => False
  | .write .. => False
  | .submit n => n = s.loop.sq.count
  | _ => True

def polling (sq : IoUringSq) (slot : IoUringSqe) : State M :=
  { (start : State M) with
    delivery := Delivery.asleep (armed idleSocket 1200 sq slot)
    pc := .batch
    pinged := true }

theorem reach_polling (c : PrefixCode M UInt8) :
    ∃ sq slot, (mainLoop c).Reach Quiet (polling sq slot) := by
  have hw := routed_init startLoop_init
  obtain ⟨sq, slot, hwf, -, hqueue, hs⟩ := hw.step_connect idleSocket 1200 0 0 (by decide)
    (by decide) (fun _ _ h => by cases h) rfl (fun _ _ h => by cases h)
  have hsubmit := (routed_effect hw (step_effect hw hs)).step_submit
  have hq : sq.queue = [recvSqe idleSocket.fd 0 1200 slot] := hqueue
  simp only [hq] at hsubmit
  have h : (mainLoop c).Reach Quiet start := .start start_init
  have h₁ := h.next (a := Action.connect idleSocket 1200 0 0) (by trivial) (.connect rfl hs)
  have h₂ := h₁.next (a := Action.enter) (by trivial) (.enter rfl)
  have h₃ := h₂.next (a := Action.ping) (by trivial) (.ping rfl)
  have h₄ := h₃.next (a := Action.next) (by trivial) (.next rfl Nat.one_pos)
  have h₅ := h₄.next (a := Action.offered) (by trivial) (.offered rfl le_rfl)
  exact ⟨_, slot, h₅.next (a := Action.submit sq.count) rfl (.submit rfl hsubmit)⟩

/-- The kernel fills the first buffer while the loop stands before its peek. -/
def arrived (data : List UInt8) (sq : IoUringSq) (slot : IoUringSqe) : State M :=
  { (polling sq slot).withLoop (filled idleSocket 1200 data true sq slot) with
    ring := { startRing with
      cq := startRing.cq.post (firstRecv 1200 data.length true)
      posted := [firstRecv 1200 data.length true] } }

theorem step_arrived (c : PrefixCode M UInt8) (sq : IoUringSq) (slot : IoUringSqe)
    (data : List UInt8) (hpos : 0 < data.length) (hlen : data.length ≤ bufSize.toNat) :
    Step c (polling sq slot) (.kernel (.recv 0 data (firstRecv 1200 data.length true).flags))
      (arrived data sq slot) :=
  .kernel trivial (step_filled idleSocket 1200 sq slot data true hpos hlen) rfl
    (.post _ (show (0 : UInt32) - 0 < 2048 by decide))

theorem arrived_peekBatch (data : List UInt8) (sq : IoUringSq) (slot : IoUringSqe) :
    (arrived data sq slot : State M).ring.peekBatch 10 = 1 :=
  show min ((0 : UInt32) + 1 - 0).toNat 10 = 1 by decide

/-- Every state of the main loop is one of the delivery system next to one of the
completion ring, which agree on what is posted, processed and held. -/
theorem main_loop_refines {G : Delivery.State M → Delivery.Action → Prop}
    (h : (mainLoop c).Reach (Lifted G) s) : (Delivery.delivery c).Reach G s.delivery ∧
      CompletionQueue.completionRing.Reachable s.ring ∧ Coupled s :=
  ⟨reach_delivery h, reach_ring h, (reach_inv h).coupled⟩

theorem main_loop_refines_captured : ∃ s : State { p : List UInt8 // p.length < 126 },
    s.loop.received 0 = [7] ∧ s.ring.loop = .build 0 1 ∧
      (Delivery.delivery Delivery.textFrames).Reach (fun _ _ => True) s.delivery ∧
      CompletionQueue.completionRing.Reachable s.ring ∧ Coupled s := by
  obtain ⟨sq, slot, h⟩ := reach_polling Delivery.textFrames
  have h₁ := h.next (by trivial) (step_arrived _ sq slot [7] (by decide) (by decide))
  have h₂ := h₁.next (a := Action.peek) (by trivial) (.peek rfl (.peek rfl))
  exact ⟨_, rfl, by simp [arrived_peekBatch], main_loop_refines (G := fun _ _ => True)
    (h₂.mono fun _ _ _ _ _ => trivial)⟩

end UringWs.MainLoop
