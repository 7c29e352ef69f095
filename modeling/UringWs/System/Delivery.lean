import UringWs.Foundation.Pipeline
import UringWs.System.RecvIntegrity

/-! # Delivery of messages

After each completion the loop asks the frame decoder of its stream for one
message. The decoder returns a message it has already buffered, and otherwise
reads the stream until it has one or nothing is left to read. What the decoder
accepts is a parameter.
-/
namespace UringWs.Delivery
open EventLoop Checked
variable {M : Type*}

structure State (M : Type*) where
  loop : EventLoop.State
  /-- the stream a message is being read from -/
  reading : Option ℕ
  /-- the bytes each stream's decoder has taken and not yet returned in a message -/
  buffered : ℕ → List UInt8
  delivered : ℕ → List M

inductive Action
  | loop (a : EventLoop.Action)
  | process
  | read (i : ℕ) (dest : List UInt8)
  | deliver

/-- The kernel steps at any time, the program's other calls between two messages. -/
def Allowed (reading : Option ℕ) : EventLoop.Action → Prop
  | .recv .. | .sent .. | .other .. => True
  | .connect .. | .write .. | .submit _ => reading = none
  | .process | .read .. => False

inductive Step (c : PrefixCode M UInt8) : State M → Action → State M → Prop
  | loop {s : State M} {a : EventLoop.Action} {w : EventLoop.State} (ha : Allowed s.reading a)
      (h : EventLoop.Step s.loop a w) : Step c s (.loop a) { s with loop := w }
  /-- the completion's stream is asked for a message -/
  | process {s : State M} {p : Posted} {rest : List Posted} {w : EventLoop.State}
      (hidle : s.reading = none) (hc : s.loop.cqes = p :: rest)
      (h : EventLoop.Step s.loop .process w) :
      Step c s .process { s with
        loop := w
        reading := some (UserData.fromPacked p.cqe.userData).owner.toNat }
  /-- the decoder reads on, until the stream would block -/
  | read {s : State M} {i : ℕ} {dest dest' : List UInt8} {t t' : TcpStream}
      {r : Except IoError ℕ} {mem : Memory} (hreading : s.reading = some i)
      (hnone : c.decode (s.buffered i) = none) (hpos : 0 < dest.length)
      (ht : s.loop.streams[i]? = some t)
      (h : t.read s.loop.mem dest = .ok (r, dest', t', mem)) :
      Step c s (.read i dest) { s with
        loop := { s.loop with
          mem
          streams := s.loop.streams.set i t'
          returned := Function.update s.loop.returned i
            (s.loop.returned i ++ bytesRead r dest') }
        reading := if r.isOk then some i else none
        buffered := Function.update s.buffered i (s.buffered i ++ bytesRead r dest') }
  | deliver {s : State M} {i : ℕ} {m : M} {rest : List UInt8} (hreading : s.reading = some i)
      (hsome : c.decode (s.buffered i) = some (m, rest)) :
      Step c s .deliver { s with
        reading := none
        buffered := Function.update s.buffered i rest
        delivered := Function.update s.delivered i (s.delivered i ++ [m]) }

structure Init (s : State M) : Prop where
  loop : EventLoop.Init s.loop
  reading : s.reading = none
  buffered : ∀ i, s.buffered i = []
  delivered : ∀ i, s.delivered i = []

def delivery (c : PrefixCode M UInt8) : System (State M) Action := { init := Init, step := Step c }

/-- What arrives on each stream encodes the stream's messages. -/
def Encoded (c : PrefixCode M UInt8) (msgs : ℕ → List M) (s : State M) : Action → Prop
  | .loop (.recv k data _) => ∀ r, s.loop.requests[k]? = some r →
      s.loop.received r.origin.stream ++ data <+: c.encodeAll (msgs r.origin.stream)
  | .loop a => FillsOnly s.loop a
  | _ => True

/-- Moreover no completion ends two messages, and the read that completes a
message takes the rest of its buffer. -/
def OnePerCompletion (c : PrefixCode M UInt8) (msgs : ℕ → List M) (s : State M) : Action → Prop
  | .loop (.recv k data _) => ∀ r, s.loop.requests[k]? = some r →
      s.loop.received r.origin.stream ++ data <+: c.encodeAll (msgs r.origin.stream) ∧
      c.completeCount (msgs r.origin.stream) (s.loop.received r.origin.stream ++ data).length ≤
        c.completeCount (msgs r.origin.stream) (s.loop.received r.origin.stream).length + 1
  | .loop a => FillsOnly s.loop a
  | .read i dest => ∀ (t : TcpStream) v vs, s.loop.streams[i]? = some t →
      t.inner.bufVec.items = v :: vs →
      c.decode (s.buffered i ++ (v.unread s.loop.mem).take dest.length) ≠ none →
      v.remaining ≤ dest.length
  | _ => True

/-- All complete messages are delivered, and no buffer is withheld. -/
structure Delivered (c : PrefixCode M UInt8) (msgs : ℕ → List M) (s : State M) : Prop where
  messages : ∀ i, s.delivered i =
    (msgs i).take (c.completeCount (msgs i) (s.loop.received i).length)
  empty : ∀ (i : ℕ) (t : TcpStream), s.loop.streams[i]? = some t → t.inner.bufVec.items = []

variable {c : PrefixCode M UInt8} {msgs : ℕ → List M} {s s' : State M}

theorem OnePerCompletion.fillsOnly (s : State M) (a : EventLoop.Action)
    (h : OnePerCompletion c msgs s (.loop a)) : FillsOnly s.loop a := by
  cases a with
  | recv => trivial
  | _ => exact h

/-- The loop's share of a run, under any guard that its share satisfies. -/
theorem reach_events {G : State M → Action → Prop} {H : EventLoop.State → EventLoop.Action → Prop}
    (hloop : ∀ s a, G s (.loop a) → H s.loop a) (hprocess : ∀ w, H w .process)
    (hread : ∀ w i dest, H w (.read i dest)) (h : (delivery c).Reach G s) :
    eventLoop.Reach H s.loop := by
  refine h.simulate State.loop (fun s (h₀ : Init s) => h₀.loop) fun s a t _ hg hs => ?_
  cases hs with
  | loop ha hs => exact .single ⟨_, hloop s _ hg, hs⟩
  | process hidle hc hs => exact .single ⟨.process, hprocess _, hs⟩
  | @read i dest dest' t t' r mem hreading hnone hpos ht hs =>
    exact .single ⟨.read i dest, hread _ i dest, .read ht hs⟩
  | deliver hreading hsome => exact .refl

theorem reach_loop {G : State M → Action → Prop}
    (hG : ∀ s a, G s (.loop a) → FillsOnly s.loop a) (h : (delivery c).Reach G s) :
    eventLoop.Reach FillsOnly s.loop :=
  reach_events hG (fun _ => trivial) (fun _ _ _ => trivial) h

/-! ### One stream as a pipeline -/

/-- The queued buffers of a stream; none before it is connected. -/
def readers (w : EventLoop.State) (i : ℕ) : List KernelBufferReader :=
  match w.streams[i]? with
  | some t => t.inner.bufVec.items
  | none => []

def view (s : State M) (i : ℕ) : Pipeline M UInt8 where
  arrived := s.loop.received i
  taken := s.loop.returned i
  queue := (readers s.loop i).map KernelBufferReader.remaining
  waiting := (s.loop.unprocessed i).map fun cqe => resAsUsize cqe.res
  buffered := s.buffered i
  delivered := s.delivered i
  reading := s.reading = some i

theorem readers_of_eq {w : EventLoop.State} {i : ℕ} {t : TcpStream} (h : w.streams[i]? = some t) :
    readers w i = t.inner.bufVec.items := by rw [readers, h]

theorem readers_self {w w' : EventLoop.State} {i : ℕ} {t t' : TcpStream}
    (ht : w.streams[i]? = some t) (hs : w'.streams = w.streams.set i t') :
    readers w' i = t'.inner.bufVec.items := by
  apply readers_of_eq
  rw [hs, List.getElem?_set_self (List.getElem?_eq_some_iff.mp ht).1]

theorem readers_other {w w' : EventLoop.State} {i j : ℕ} {t' : TcpStream} (h : j ≠ i)
    (hs : w'.streams = w.streams.set i t') : readers w' j = readers w j := by
  rw [readers, readers, hs, List.getElem?_set_ne (Ne.symm h)]

theorem readers_set {w w' : EventLoop.State} {i : ℕ} {t t' : TcpStream}
    (ht : w.streams[i]? = some t) (hs : w'.streams = w.streams.set i t')
    (he : t'.inner = t.inner) (j : ℕ) : readers w' j = readers w j := by
  by_cases hj : j = i
  · subst hj
    rw [readers_self ht hs, readers_of_eq ht, he]
  · exact readers_other hj hs

theorem readers_connect {w w' : EventLoop.State} {t : TcpStream} (ht : t.inner.bufVec.items = [])
    (hs : w'.streams = w.streams ++ [t]) (j : ℕ) : readers w' j = readers w j := by
  rcases Nat.lt_trichotomy j w.streams.length with h | h | h
  · rw [readers, readers, hs, List.getElem?_append_left h]
  · subst h
    rw [readers_of_eq (t := t) (by rw [hs, List.getElem?_concat_length]), ht, readers,
      List.getElem?_eq_none le_rfl]
  · rw [readers, readers, hs, List.getElem?_eq_none (by simp; omega),
      List.getElem?_eq_none (by omega)]

theorem view_frame {i : ℕ} {ms : List M} (h : (view s i).Wf c ms)
    (hreceived : s'.loop.received i = s.loop.received i)
    (hreturned : s'.loop.returned i = s.loop.returned i)
    (hreaders : readers s'.loop i = readers s.loop i)
    (hun : s'.loop.unprocessed i = s.loop.unprocessed i) (hbuffered : s'.buffered i = s.buffered i)
    (hdelivered : s'.delivered i = s.delivered i)
    (hreading : s'.reading = some i ↔ s.reading = some i) : (view s' i).Wf c ms := by
  have hv : view s' i = view s i := by
    simp only [view, hreceived, hreturned, hreaders, hun, hbuffered, hdelivered, hreading]
  rwa [hv]

theorem view_op {i : ℕ} {ms : List M} {p : Pipeline M UInt8} (h : p.Wf c ms)
    (hreceived : s.loop.received i = p.arrived) (hreturned : s.loop.returned i = p.taken)
    (hreaders : (readers s.loop i).map KernelBufferReader.remaining = p.queue)
    (hun : ((s.loop.unprocessed i).map fun cqe => resAsUsize cqe.res) = p.waiting)
    (hbuffered : s.buffered i = p.buffered) (hdelivered : s.delivered i = p.delivered)
    (hreading : decide (s.reading = some i) = p.reading) : (view s i).Wf c ms := by
  have hv : view s i = p := by
    simp only [view, hreceived, hreturned, hreaders, hun, hbuffered, hdelivered, hreading]
  rwa [hv]

def Ordered (c : PrefixCode M UInt8) (msgs : ℕ → List M) (s : State M) : Prop :=
  ∀ i, (view s i).Wf c (msgs i)

theorem ordered_init (h : Init s) : Ordered c msgs s := by
  intro i
  have hv : view s i = ⟨[], [], [], [], [], [], false⟩ := by
    simp [view, h.loop.received, h.loop.returned, readers, h.loop.streams,
      EventLoop.State.unprocessed, h.loop.cqes, h.buffered, h.delivered, h.reading]
  rw [hv]
  exact ⟨List.nil_prefix, List.prefix_rfl, rfl, rfl, List.nil_prefix, trivial,
    fun _ => ⟨rfl, c.completeCount_zero _⟩, by simp⟩

theorem Received.returned_prefix {w : EventLoop.State} (hw : Routed w) (h : Received w) {i : ℕ}
    {t : TcpStream} (ht : w.streams[i]? = some t) : w.returned i <+: w.received i := by
  obtain ⟨kg, -, -, -, hbytes⟩ := h.stream hw ht
  exact ⟨_, hbytes⟩

theorem ordered_loop {a : EventLoop.Action} {w : EventLoop.State} (hw : Routed s.loop)
    (hr : Received s.loop) (ho : Ordered c msgs s) (hg : OnePerCompletion c msgs s (.loop a))
    (ha : Allowed s.reading a) (h : EventLoop.Step s.loop a w) : Ordered c msgs { s with loop := w } := by
  intro i
  have hp := ho i
  cases step_effect hw h with
  | connect hlt hring htail hblock hsq hqueue =>
    exact view_frame hp rfl rfl (readers_connect rfl rfl i) rfl rfl rfl .rfl
  | write ht hptr hpos hsq hqueue =>
    exact view_frame hp rfl rfl (readers_set ht rfl (by rfl) i) rfl rfl rfl .rfl
  | submit hn => exact hp
  | @recv k data flags r j recvId t kg cqe hk hor ht hg' havail hpos hlen hcqe hbuffer hbid hbufMore =>
    obtain ⟨hencoded, hone⟩ := hg r hk
    rw [hor] at hencoded hone
    by_cases hij : i = j
    · subst hij
      have hsize := ((hr.intact i t kg ht hg').reports hpos hlen (by rw [hcqe]) hbuffer hbufMore).2
      refine view_op (hp.arrive hencoded hone) (Function.update_self ..) rfl rfl ?_ rfl rfl rfl
      rw [unprocessed_recv (p := ⟨cqe, r⟩) hor (by rfl), List.map_append, ← hsize]
      rfl
    · exact view_frame hp (Function.update_of_ne hij ..) rfl rfl
        (unprocessed_post (by rw [hor]; exact isRecv_of_ne (Ne.symm hij)) rfl) rfl rfl .rfl
  | @sent k out res flags r op cqe hk hor hready hout hres hcqe hbuffer hbufMore =>
    exact view_frame hp rfl rfl rfl (unprocessed_post (by rw [hor]; rfl) rfl) rfl rfl .rfl
  | @other k res flags r cqe hk hcqe =>
    exact view_frame hp rfl rfl rfl (unprocessed_post (isRecv_of_send (hg r hk) i) rfl) rfl rfl .rfl
  | recvDone => exact ha.elim
  | sendDone => exact ha.elim
  | readEmpty => exact ha.elim
  | readPart => exact ha.elim
  | readDrain => exact ha.elim

theorem owner_eq {w : EventLoop.State} (hw : Routed w) {p : Posted} (hp : p ∈ w.cqes) :
    (UserData.fromPacked p.cqe.userData).owner.toNat = p.request.origin.stream := by
  obtain ⟨hdata, hprep⟩ := hw.cqes p hp
  obtain ⟨t, ht, -, hword, -⟩ := hprep.facts hw
  rw [hdata, hword, UserData.fromPacked_data, Origin.word, UserData.owner_fromParts,
    ofNat_toNat_of_lt (hw.index_lt ht)]

theorem ordered_process {w : EventLoop.State} {p : Posted} {rest : List Posted}
    (hw : Routed s.loop) (ho : Ordered c msgs s) (hidle : s.reading = none)
    (hc : s.loop.cqes = p :: rest) (h : EventLoop.Step s.loop .process w) :
    Ordered c msgs { s with
      loop := w
      reading := some (UserData.fromPacked p.cqe.userData).owner.toNat } := by
  have howner := owner_eq hw (hc ▸ List.mem_cons_self)
  intro i
  have hp := ho i
  have hread : (view s i).reading = false := by simp [view, hidle]
  cases step_effect hw h with
  | @recvDone q rest' j recvId t kb inner hc' hor ht hget hitems =>
    obtain ⟨rfl, rfl⟩ := List.cons.inj (hc.symm.trans hc')
    rw [hor, Origin.stream] at howner
    by_cases hij : i = j
    · subst hij
      have hun : s.loop.unprocessed i =
          p.cqe :: EventLoop.State.unprocessed { s.loop with cqes := rest } i :=
        unprocessed_first hor hc
      have hkb : (KernelBufferReader.new kb).remaining = resAsUsize p.cqe.res := by
        obtain ⟨-, -, -, -, -, rfl⟩ := BufRingPool.getReadBuf_eq_ok.mp hget
        rfl
      have hwaiting : (view s i).waiting = resAsUsize p.cqe.res :: _ :=
        congrArg (List.map fun (cqe : IoUringCqe) => resAsUsize cqe.res) hun
      refine view_op (hp.start hread hwaiting) rfl rfl ?_ rfl rfl rfl (by simp [howner])
      rw [readers_self ht rfl, hitems, List.map_append, List.map_singleton, hkb, view,
        readers_of_eq ht]
    · refine view_frame hp rfl rfl (readers_other hij rfl)
        (unprocessed_done (by rw [hor]; exact isRecv_of_ne (Ne.symm hij)) hc) rfl rfl ?_
      simp [hidle, howner, Ne.symm hij]
  | @sendDone q rest' op t v hc' hor ht hlookup hlen =>
    obtain ⟨rfl, rfl⟩ := List.cons.inj (hc.symm.trans hc')
    have hun : ∀ j, EventLoop.State.unprocessed { s.loop with cqes := rest } j =
        s.loop.unprocessed j := fun j => unprocessed_done (by rw [hor]; rfl) hc
    rw [hor, Origin.stream] at howner
    by_cases hij : i = op.stream
    · subst hij
      refine view_op (hp.wake hread) rfl rfl ?_ (congrArg _ (hun _)) rfl rfl (by simp [howner])
      exact congrArg _ (readers_set ht rfl (by rfl) _)
    · refine view_frame hp rfl rfl (readers_set ht rfl (by rfl) i) (hun i) rfl rfl ?_
      simp [hidle, howner, Ne.symm hij]

theorem ordered_read {i : ℕ} {dest dest' : List UInt8} {t t' : TcpStream} {r : Except IoError ℕ}
    {mem : Memory} (hw : Routed s.loop) (ho : Ordered c msgs s)
    (hg : OnePerCompletion c msgs s (.read i dest)) (hreading : s.reading = some i)
    (hnone : c.decode (s.buffered i) = none) (ht : s.loop.streams[i]? = some t)
    (h : t.read s.loop.mem dest = .ok (r, dest', t', mem))
    (htaken : s.loop.returned i ++ bytesRead r dest' <+: s.loop.received i) :
    Ordered c msgs { s with
      loop := { s.loop with
        mem
        streams := s.loop.streams.set i t'
        returned := Function.update s.loop.returned i
          (s.loop.returned i ++ bytesRead r dest') }
      reading := if r.isOk then some i else none
      buffered := Function.update s.buffered i (s.buffered i ++ bytesRead r dest') } := by
  intro j
  by_cases hij : j = i
  · subst hij
    have hp := ho j
    have hread : (view s j).reading = true := by simp [view, hreading]
    have hqueue : (view s j).queue = t.inner.bufVec.items.map KernelBufferReader.remaining := by
      rw [view, readers_of_eq ht]
    rcases read_outcome (hw.stream ht).2 h with
      ⟨hitems, hok, hbytes, rfl, rfl⟩ | ⟨v, vs, hitems, hrem, hok, hpart | hdrain⟩
    · have hp := hp.block hnone (by rw [hqueue, hitems]; rfl)
      rw [hbytes, List.append_nil, List.append_nil]
      refine view_op hp rfl (Function.update_self ..) ?_ rfl (Function.update_self ..) rfl ?_
      · exact congrArg _ (readers_set ht rfl (by rfl) j)
      · simp [hok]
    · obtain ⟨hpos, hlt, hbytes, rfl, rfl⟩ := hpart
      have hlen : ((v.unread s.loop.mem).take dest.length).length = dest.length := by
        simp [hlt.le]
      rw [hbytes] at htaken ⊢
      -- the guard: a read that completes a message would have taken the whole buffer
      have hstill : c.decode (s.buffered j ++ (v.unread s.loop.mem).take dest.length) = none := by
        by_contra hne
        exact absurd (hg t v vs ht hitems hne) (Nat.not_le.mpr hlt)
      have hp := hp.part hread (hqueue.trans (by rw [hitems, List.map_cons])) htaken
        (by rwa [hlen]) hstill
      refine view_op hp rfl (Function.update_self ..) ?_ rfl (Function.update_self ..) rfl ?_
      · rw [readers_self ht rfl, hlen]
        simp only [VecDeque.setFront, hitems, List.set_cons_zero, List.map_cons,
          KernelBufferReader.remaining, Nat.sub_sub]
      · simp [hok, hread]
    · obtain ⟨hle, hbytes, rfl, rfl⟩ := hdrain
      rw [hbytes] at htaken ⊢
      have hp := hp.drain hread
        (hqueue.trans (by rw [hitems, List.map_cons, KernelBufferReader.unread_length])) htaken
      refine view_op hp rfl (Function.update_self ..) ?_ rfl (Function.update_self ..) rfl ?_
      · rw [readers_self ht rfl]
        simp only [VecDeque.popFront, hitems, List.tail_cons]
      · simp [hok, hread]
  · refine view_frame (ho j) rfl (Function.update_of_ne hij ..) (readers_other hij rfl) rfl
      (Function.update_of_ne hij ..) rfl ?_
    simp [hreading, Ne.symm hij]

theorem ordered_deliver {i : ℕ} {m : M} {rest : List UInt8} (ho : Ordered c msgs s)
    (hreading : s.reading = some i) (hsome : c.decode (s.buffered i) = some (m, rest)) :
    Ordered c msgs { s with
      reading := none
      buffered := Function.update s.buffered i rest
      delivered := Function.update s.delivered i (s.delivered i ++ [m]) } := by
  intro j
  by_cases hij : j = i
  · subst hij
    have hp := (ho j).deliver (by simp [view, hreading]) hsome
    exact view_op hp rfl rfl rfl rfl (Function.update_self ..) (Function.update_self ..) rfl
  · refine view_frame (ho j) rfl rfl rfl rfl (Function.update_of_ne hij ..)
      (Function.update_of_ne hij ..) ?_
    simp [hreading, Ne.symm hij]

theorem ordered_step {a : Action} (h : (delivery c).Reach (OnePerCompletion c msgs) s)
    (ho : Ordered c msgs s) (hg : OnePerCompletion c msgs s a) (hs : Step c s a s') :
    Ordered c msgs s' := by
  have hloop := reach_loop OnePerCompletion.fillsOnly h
  have hw := reach_routed hloop
  have hnext := reach_loop OnePerCompletion.fillsOnly (h.next hg hs)
  cases hs with
  | loop ha hs => exact ordered_loop hw (reach_received hloop) ho hg ha hs
  | process hidle hc hs => exact ordered_process hw ho hidle hc hs
  | @read i dest dest' t t' r mem hreading hnone hpos ht hs =>
    apply ordered_read hw ho hg hreading hnone ht hs
    have htaken := Received.returned_prefix (reach_routed hnext) (reach_received hnext)
      (List.getElem?_set_self (List.getElem?_eq_some_iff.mp ht).1)
    simpa using htaken
  | deliver hreading hsome => exact ordered_deliver ho hreading hsome

theorem reach_ordered (h : (delivery c).Reach (OnePerCompletion c msgs) s) : Ordered c msgs s :=
  h.invariant (fun _ => ordered_init) (fun _ _ _ hr ho hg hs => ordered_step hr ho hg hs)

/-! ### A call for a message ends -/

section Calls
variable {G : State M → Action → Prop}

theorem streams_length_le {w w' : EventLoop.State} {a : EventLoop.Action} (hw : Routed w)
    (h : EventLoop.Step w a w') : w.streams.length ≤ w'.streams.length := by
  cases step_effect hw h <;> simp

theorem reach_reading (h : (delivery c).Reach G s) :
    ∀ i, s.reading = some i → i < s.loop.streams.length := by
  refine h.invariant (P := fun s => ∀ i, s.reading = some i → i < s.loop.streams.length)
    (fun s (h₀ : Init s) i hi => ?_) fun s a t hr ih hg hs i hi => ?_
  · rw [h₀.reading] at hi
    cases hi
  · have hw := reach_routed (reach_events (H := fun _ _ => True) (fun _ _ _ => trivial)
      (fun _ => trivial) (fun _ _ _ => trivial) hr)
    cases hs with
    | loop ha hs => exact (ih i hi).trans_le (streams_length_le hw hs)
    | @process p rest w hidle hc hs =>
      obtain rfl := Option.some.inj hi
      have hp : p ∈ s.loop.cqes := hc ▸ List.mem_cons_self
      rw [owner_eq hw hp]
      exact (hw.cqes p hp).2.stream_lt.trans_le (streams_length_le hw hs)
    | @read j dest dest' t t' r mem hreading hnone hpos ht hs =>
      obtain ⟨-, hj⟩ := Option.ite_none_right_eq_some.mp hi
      obtain rfl := Option.some.inj hj
      exact (ih j hreading).trans_eq (List.length_set ..).symm
    | deliver hreading hsome => cases hi

def queuedBytes (w : EventLoop.State) (i : ℕ) : ℕ :=
  ((readers w i).map KernelBufferReader.remaining).sum

/-- While a message is being read, the decoder delivers one or reads on. -/
theorem reading_enabled (hG : ∀ s a, G s (.loop a) → FillsOnly s.loop a)
    (h : (delivery c).Reach G s) {i : ℕ} (hreading : s.reading = some i) {dest : List UInt8}
    (hpos : 0 < dest.length) :
    (∃ s', Step c s .deliver s') ∨ ∃ s', Step c s (.read i dest) s' := by
  have hloop := reach_loop hG h
  cases hd : c.decode (s.buffered i) with
  | some next =>
    obtain ⟨m, rest⟩ := next
    exact .inl ⟨_, .deliver hreading hd⟩
  | none =>
    obtain ⟨t, ht⟩ : ∃ t, s.loop.streams[i]? = some t :=
      ⟨_, List.getElem?_eq_getElem (reach_reading h i hreading)⟩
    obtain ⟨⟨r, dest', t', mem⟩, hread⟩ :=
      Received.read (reach_routed hloop) (reach_received hloop) ht hpos
    exact .inr ⟨_, .read hreading hd hpos ht hread⟩

/-- Each read ends the call, or takes bytes off the queue and goes on. -/
theorem read_decreases (hG : ∀ s a, G s (.loop a) → FillsOnly s.loop a)
    (h : (delivery c).Reach G s) {i : ℕ} {dest : List UInt8} (hs : Step c s (.read i dest) s') :
    s'.reading = none ∨ s'.reading = some i ∧ queuedBytes s'.loop i < queuedBytes s.loop i := by
  have hw := reach_routed (reach_loop hG h)
  cases hs with
  | @read i dest dest' t t' r mem hreading hnone hpos ht hs =>
    rw [queuedBytes, queuedBytes, readers_of_eq ht, readers_self ht rfl]
    rcases read_outcome (hw.stream ht).2 hs with
      ⟨-, hok, -⟩ | ⟨v, vs, hitems, hrem, hok, ⟨hpos, hlt, -, -, rfl⟩ | ⟨-, -, -, rfl⟩⟩
    · exact .inl (by simp [hok])
    · refine .inr ⟨by simp [hok], ?_⟩
      simp only [VecDeque.setFront, hitems, List.set_cons_zero, List.map_cons, List.sum_cons,
        KernelBufferReader.remaining] at hlt ⊢
      omega
    · refine .inr ⟨by simp [hok], ?_⟩
      simp only [VecDeque.popFront, hitems, List.tail_cons, List.map_cons, List.sum_cons]
      omega

/-- A call for a message ends, whatever the size of its reads. -/
theorem call_ends (hG : ∀ s a, G s (.loop a) → FillsOnly s.loop a)
    (hread : ∀ s i dest, G s (.read i dest)) (hdeliver : ∀ s, G s .deliver)
    (h : (delivery c).Reach G s) {i : ℕ} (hreading : s.reading = some i) {dest : List UInt8}
    (hpos : 0 < dest.length) :
    ∃ s', Relation.ReflTransGen ((delivery c).Move G) s s' ∧ s'.reading = none := by
  refine h.exists_run (P := fun s => s.reading = some i) (fun s => queuedBytes s.loop i)
    (fun s h hreading => ?_) hreading
  rcases reading_enabled hG h hreading hpos with ⟨s', hs⟩ | ⟨s', hs⟩
  · refine ⟨s', ⟨_, hdeliver s, hs⟩, .inl ?_⟩
    cases hs
    rfl
  · exact ⟨s', ⟨_, hread s i dest, hs⟩, read_decreases hG h hs⟩

end Calls

/-! ### Rounds of one stream -/

/-- The completion of a receive queues its buffer and asks the stream for a message. -/
theorem step_queue_front (hw : Routed s.loop) (hr : Received s.loop) (hidle : s.reading = none)
    {p : Posted} {rest : List Posted} {i : ℕ} {recvId : UInt32} {t : TcpStream}
    (hc : s.loop.cqes = p :: rest) (ho : p.request.origin = .recv i recvId)
    (ht : s.loop.streams[i]? = some t) :
    ∃ (v : KernelBufferReader) (inner : KernelBufferVecReader),
      (v.remaining : ℤ) = p.cqe.res.toInt ∧ inner.bufVec.items = t.inner.bufVec.items ++ [v] ∧
      Step c s .process { s with
        loop := { s.loop with streams := s.loop.streams.set i { t with inner }, cqes := rest }
        reading := some i } := by
  obtain ⟨kg, kb, inner, -, -, hlen, hitems, hd⟩ := hr.dispatch_recv hw hc ho ht
  have hs : Step c s .process _ := .process hidle hc (.process hc hd)
  rw [owner_eq hw (hc ▸ List.mem_cons_self), ho] at hs
  exact ⟨.new kb, inner, hlen, hitems, hs⟩

/-- A read with room for the front buffer takes the bytes that come next. -/
theorem step_drain (hw : Routed s.loop) (hr : Received s.loop) {i : ℕ} {t : TcpStream}
    {v : KernelBufferReader} {vs : List KernelBufferReader} {dest : List UInt8}
    (hreading : s.reading = some i) (hnone : c.decode (s.buffered i) = none)
    (ht : s.loop.streams[i]? = some t) (hitems : t.inner.bufVec.items = v :: vs)
    (hrem : 0 < v.remaining) (hle : v.remaining ≤ dest.length) (data : List UInt8)
    (hdata : data = ((s.loop.received i).drop (s.loop.returned i).length).take v.remaining) :
    Step c s (.read i dest) { s with
      loop := { s.loop with
        mem := bufRingAddAdvance s.loop.mem v.buf
        streams := s.loop.streams.set i { t with inner := ⟨t.inner.bufVec.popFront⟩ }
        returned := Function.update s.loop.returned i (s.loop.returned i ++ data) }
      buffered := Function.update s.buffered i (s.buffered i ++ data) } := by
  have hunread := hr.front_unread hw ht hitems
  have hread := TcpStream.read_drain (hw.stream ht).2 hitems s.loop.mem hrem hle
  have hs := Step.read hreading hnone (hrem.trans_le hle) ht hread
  rw [bytesRead, List.take_left' (v.unread_length _), hunread, ← hdata] at hs
  rw [hreading]
  exact hs

theorem process_unique {s₁ s₂ : State M} (h₁ : Step c s .process s₁) (h₂ : Step c s .process s₂) :
    s₁ = s₂ := by
  cases h₁ with
  | process _ hc₁ h₁ =>
    cases h₂ with
    | process _ hc₂ h₂ =>
      obtain ⟨rfl, -⟩ := List.cons.inj (hc₁.symm.trans hc₂)
      cases h₁ with
      | process hc₁ hd₁ =>
        cases h₂ with
        | process hc₂ hd₂ =>
          obtain ⟨rfl, rfl⟩ := List.cons.inj (hc₁.symm.trans hc₂)
          obtain ⟨rfl, rfl⟩ := Prod.mk.inj (Except.ok.inj (hd₁.symm.trans hd₂))
          rfl

/-- A guard that leaves the program's calls free, if a read has room for its buffer. -/
structure Permits (G : State M → Action → Prop) : Prop where
  fills : ∀ s a, G s (.loop a) → FillsOnly s.loop a
  process : ∀ s, G s .process
  read : ∀ (s : State M) (dest : List UInt8), (∀ (t : TcpStream) v vs,
    s.loop.streams[0]? = some t → t.inner.bufVec.items = v :: vs → v.remaining ≤ dest.length) →
      G s (.read 0 dest)
  deliver : ∀ s, G s .deliver

/-- The first stream is armed, and nothing is queued on it or to be processed. -/
structure Rests (s : State M) (reading : Option ℕ) (received buffered : List UInt8)
    (delivered : List M) : Prop where
  reading : s.reading = reading
  cqes : s.loop.cqes = []
  armed : ∃ r recvId, s.loop.requests[0]? = some r ∧ r.origin = .recv 0 recvId
  empty : ∃ t, s.loop.streams[0]? = some t ∧ t.inner.bufVec.items = []
  received : s.loop.received 0 = received
  buffered : s.buffered 0 = buffered
  delivered : s.delivered 0 = delivered

section Rounds
variable {G : State M → Action → Prop} {got kept rest : List UInt8} {ms : List M} {m : M}

def asleep (w : EventLoop.State) : State M :=
  { loop := w, reading := none, buffered := fun _ => [], delivered := fun _ => [] }

theorem reach_asleep {w : EventLoop.State} (h : eventLoop.Reach
    (fun w a => Allowed none a ∧ G (asleep w) (.loop a)) w) : (delivery c).Reach G (asleep w) :=
  h.simulate (N := delivery c) asleep (fun _ h₀ => ⟨h₀, rfl, fun _ => rfl, fun _ => rfl⟩)
    fun _ a _ _ hg hs => .single ⟨.loop a, hg.2, .loop hg.1 hs⟩

theorem reach_rests (hconnect : G (asleep start) (.loop (.connect idleSocket 1200 0 0)))
    (hsubmit : ∀ w n, G (asleep w) (.loop (.submit n))) :
    ∃ s, (delivery c).Reach G s ∧ Rests s none [] [] [] := by
  obtain ⟨sq, slot, -, -, -, h⟩ := reach_armed
    (G := fun w a => Allowed none a ∧ G (asleep w) (.loop a)) idleSocket 1200 ⟨rfl, hconnect⟩
    (fun w n => ⟨rfl, hsubmit w n⟩)
  exact ⟨_, reach_asleep h, rfl, rfl, ⟨_, _, rfl, rfl⟩, ⟨_, rfl, rfl⟩, rfl, rfl, rfl⟩

/-- A receive, its completion, and the read that takes its bytes. -/
theorem Rests.receive (hG : Permits G) (h : (delivery c).Reach G s)
    (hr : Rests s none got kept ms) (hnone : c.decode kept = none) (data : List UInt8)
    (hpos : 0 < data.length) (hlen : data.length ≤ bufSize.toNat)
    (hguard : ∀ flags, G s (.loop (.recv 0 data flags))) :
    ∃ s', (delivery c).Reach G s' ∧ Rests s' (some 0) (got ++ data) (kept ++ data) ms := by
  obtain ⟨hidle, hcqes, ⟨r, recvId, hreq, ho⟩, ⟨t, ht, hempty⟩, rfl, rfl, rfl⟩ := hr
  have hloop := reach_loop hG.fills h
  have hw := reach_routed hloop
  have hrecv := reach_received hloop
  obtain ⟨kg, -, -, -, hbytes⟩ := hrecv.stream hw ht
  have hun : s.loop.unprocessed 0 = [] := by simp [EventLoop.State.unprocessed, hcqes]
  have hreturned : s.loop.returned 0 = s.loop.received 0 := by
    rw [← hbytes, hempty, hun]
    exact (List.append_nil _).symm
  obtain ⟨_, _, cqe, -, hres, hs₁⟩ := hrecv.step_recv hw hreq ho ht
    (by rw [hempty, hun]; decide) hpos hlen
  have h₁ := h.next (hguard _) (.loop trivial hs₁)
  have hloop₁ := reach_loop hG.fills h₁
  obtain ⟨v, inner, hrem, hitems, hs₂⟩ := step_queue_front (c := c) (reach_routed hloop₁)
    (reach_received hloop₁) hidle (congrArg (· ++ _) hcqes) ho ht
  have h₂ := h₁.next (hG.process _) hs₂
  have hloop₂ := reach_loop hG.fills h₂
  have hlt := (List.getElem?_eq_some_iff.mp ht).1
  rw [hempty] at hitems
  have hrem : v.remaining = data.length := by
    rw [hres] at hrem
    exact_mod_cast hrem
  have h₃ := h₂.next (hG.read _ data fun t' v' vs' ht' hv' => ?_) (step_drain (reach_routed hloop₂)
    (reach_received hloop₂) rfl hnone (List.getElem?_set_self hlt) hitems (by omega) hrem.le
    data ?_)
  · refine ⟨_, h₃, rfl, rfl, ⟨r, recvId, hreq, ho⟩, ⟨_, List.getElem?_set_self ?_, ?_⟩,
      by simp, by simp, rfl⟩
    · rwa [List.length_set]
    · simp only [VecDeque.popFront, hitems]
      rfl
  · obtain rfl := Option.some.inj ((List.getElem?_set_self hlt).symm.trans ht')
    obtain ⟨rfl, -⟩ := List.cons.inj (hitems.symm.trans hv')
    exact hrem.le
  · simp only [Function.update_self, hreturned, List.drop_left, hrem, List.take_length]

theorem Rests.deliver (hG : Permits G) (h : (delivery c).Reach G s)
    (hr : Rests s (some 0) got kept ms) (hsome : c.decode kept = some (m, rest)) :
    ∃ s', (delivery c).Reach G s' ∧ Rests s' none got rest (ms ++ [m]) := by
  obtain ⟨hreading, hcqes, harmed, hempty, hreceived, rfl, rfl⟩ := hr
  exact ⟨_, h.next (hG.deliver s) (.deliver hreading hsome), rfl, hcqes, harmed, hempty, hreceived,
    by simp, by simp⟩

/-- The message is not complete yet, and nothing is left to read. -/
theorem Rests.block (hG : Permits G) (h : (delivery c).Reach G s)
    (hr : Rests s (some 0) got kept ms) (hnone : c.decode kept = none) :
    ∃ s', (delivery c).Reach G s' ∧ Rests s' none got kept ms := by
  obtain ⟨hreading, hcqes, harmed, ⟨t, ht, hempty⟩, hreceived, rfl, hdelivered⟩ := hr
  have hn := ((reach_routed (reach_loop hG.fills h)).stream ht).2
  have hpos : 0 < ([0] : List UInt8).length := Nat.one_pos
  have hs := Step.read hreading hnone hpos ht (TcpStream.read_nil hn hempty s.loop.mem [0])
  have h' := h.next (hG.read s [0] fun t' v vs ht' hv => ?_) hs
  · have hlt := (List.getElem?_eq_some_iff.mp ht).1
    exact ⟨_, h', rfl, hcqes, harmed, ⟨t, List.getElem?_set_self hlt, hempty⟩, hreceived,
      by simp [bytesRead], hdelivered⟩
  · obtain rfl := Option.some.inj (ht.symm.trans ht')
    cases hempty.symm.trans hv

end Rounds

theorem OnePerCompletion.permits (c : PrefixCode M UInt8) (msgs : ℕ → List M) :
    Permits (OnePerCompletion c msgs) :=
  ⟨fillsOnly, fun _ => trivial, fun _ _ h t v vs ht hv _ => h t v vs ht hv, fun _ => trivial⟩

theorem Encoded.permits (c : PrefixCode M UInt8) (msgs : ℕ → List M) : Permits (Encoded c msgs) := by
  refine ⟨fun s a h => ?_, fun _ => trivial, fun _ _ _ => trivial, fun _ => trivial⟩
  cases a with
  | recv => trivial
  | _ => exact h

/-- A receive that the one-message condition allows. -/
theorem Rests.one_message {got kept : List UInt8} {ms : List M} {reading : Option ℕ}
    (hr : Rests s reading got kept ms) {data : List UInt8}
    (hsent : got ++ data <+: c.encodeAll (msgs 0))
    (hcount : c.completeCount (msgs 0) (got ++ data).length ≤
      c.completeCount (msgs 0) got.length + 1) (flags : UInt32) :
    OnePerCompletion c msgs s (.loop (.recv 0 data flags)) := by
  obtain ⟨r, recvId, hreq, ho⟩ := hr.armed
  intro r' hr'
  obtain rfl := Option.some.inj (hreq.symm.trans hr')
  rw [ho, Origin.stream, hr.received]
  exact ⟨hsent, hcount⟩

/-! ### Every message is delivered -/

/-- With at most one message ended by each completion, every complete message is
delivered by the time all completions are processed. -/
theorem messages_delivered (h : (delivery c).Reach (OnePerCompletion c msgs) s)
    (hidle : s.reading = none) (hcqes : s.loop.cqes = []) : Delivered c msgs s := by
  have ho := reach_ordered h
  have hall : ∀ i, (view s i).delivered = (msgs i).take
      (c.completeCount (msgs i) (view s i).arrived.length) ∧ (view s i).queue = [] := fun i =>
    (ho i).all_delivered (by simp [view, hidle])
      (by simp [view, EventLoop.State.unprocessed, hcqes])
  refine ⟨fun i => (hall i).1, fun i t ht => ?_⟩
  have hqueue := (hall i).2
  rw [view, readers_of_eq ht] at hqueue
  exact List.map_eq_nil_iff.mp hqueue

/-- Unmasked text frames with a one-byte length. -/
def textFrames : PrefixCode { p : List UInt8 // p.length < 126 } UInt8 where
  encode m := 0x81 :: UInt8.ofNat m.1.length :: m.1
  decode
    | b :: n :: bytes =>
      if h : b = 0x81 ∧ n.toNat < 126 ∧ n.toNat ≤ bytes.length then
        some (⟨bytes.take n.toNat, by rw [List.length_take_of_le h.2.2]; exact h.2.1⟩,
          bytes.drop n.toNat)
      else none
    | _ => none
  decode_encode m rest := by
    obtain ⟨p, hp⟩ := m
    have hn : (UInt8.ofNat p.length).toNat = p.length :=
      UInt8.toNat_ofNat_of_lt' (show p.length < 256 by omega)
    simp [hn, hp]
  decode_partial m q hq hne := by
    obtain ⟨p, hp⟩ := m
    rcases q with _ | ⟨b, _ | ⟨n, q⟩⟩
    · rfl
    · rfl
    · obtain ⟨rfl, htail⟩ := List.cons_prefix_cons.mp hq
      obtain ⟨rfl, hbytes⟩ := List.cons_prefix_cons.mp htail
      have hn : (UInt8.ofNat p.length).toNat = p.length :=
        UInt8.toNat_ofNat_of_lt' (show p.length < 256 by omega)
      refine dif_neg fun h => hne ?_
      rw [hbytes.eq_of_length_le (hn ▸ h.2.2)]
  decode_nil := rfl

def hello : { p : List UInt8 // p.length < 126 } := ⟨[7], by decide⟩

def goodbye : { p : List UInt8 // p.length < 126 } := ⟨[8], by decide⟩

/-- Two frames in three completions, the second of which ends the one and starts
the other. -/
theorem messages_delivered_frame : ∃ s : State { p : List UInt8 // p.length < 126 },
    s.loop.received 0 = [0x81, 1, 7, 0x81, 1, 8] ∧ s.delivered 0 = [hello, goodbye] ∧
      Delivered textFrames (fun _ => [hello, goodbye]) s := by
  have hG := OnePerCompletion.permits textFrames fun _ => [hello, goodbye]
  obtain ⟨s₀, h₀, hr₀⟩ := reach_rests (c := textFrames)
    (G := OnePerCompletion textFrames fun _ => [hello, goodbye]) trivial fun _ _ => trivial
  obtain ⟨s₁, h₁, hr₁⟩ := hr₀.receive hG h₀ rfl [0x81, 1] (by decide) (by decide)
    (hr₀.one_message (by decide) (by decide))
  obtain ⟨s₂, h₂, hr₂⟩ := hr₁.block hG h₁ rfl
  obtain ⟨s₃, h₃, hr₃⟩ := hr₂.receive hG h₂ rfl [7, 0x81, 1] (by decide) (by decide)
    (hr₂.one_message (by decide) (by decide))
  obtain ⟨s₄, h₄, hr₄⟩ := hr₃.deliver hG h₃ (textFrames.decode_encode hello [0x81, 1])
  obtain ⟨s₅, h₅, hr₅⟩ := hr₄.receive hG h₄ rfl [8] (by decide) (by decide)
    (hr₄.one_message (by decide) (by decide))
  obtain ⟨s₆, h₆, hr₆⟩ := hr₅.deliver hG h₅ (textFrames.decode_encode goodbye [])
  exact ⟨s₆, hr₆.received, hr₆.delivered, messages_delivered h₆ hr₆.reading hr₆.cqes⟩

/-- Two frames in one completion: only the first is delivered. -/
theorem message_left_behind : ∃ s : State { p : List UInt8 // p.length < 126 },
    (delivery textFrames).Reach (Encoded textFrames fun _ => [hello, hello]) s ∧
      s.reading = none ∧ s.loop.cqes = [] ∧
      ¬ Delivered textFrames (fun _ => [hello, hello]) s := by
  have hG := Encoded.permits textFrames fun _ => [hello, hello]
  obtain ⟨s₀, h₀, hr₀⟩ := reach_rests (c := textFrames)
    (G := Encoded textFrames fun _ => [hello, hello]) trivial fun _ _ => trivial
  obtain ⟨s₁, h₁, hr₁⟩ := hr₀.receive hG h₀ rfl
    (textFrames.encode hello ++ textFrames.encode hello) (by decide) (by decide) fun flags r hr => by
      obtain ⟨r', recvId, hreq, ho⟩ := hr₀.armed
      obtain rfl := Option.some.inj (hreq.symm.trans hr)
      rw [ho, Origin.stream, hr₀.received]
      exact show textFrames.encode hello ++ textFrames.encode hello <+:
        textFrames.encodeAll [hello, hello] by decide
  obtain ⟨s₂, h₂, hr₂⟩ := hr₁.deliver hG h₁
    (textFrames.decode_encode hello (textFrames.encode hello))
  refine ⟨s₂, h₂, hr₂.reading, hr₂.cqes, fun hd => ?_⟩
  have hm := hd.messages 0
  rw [hr₂.received, hr₂.delivered] at hm
  exact absurd hm (by decide)

end UringWs.Delivery
