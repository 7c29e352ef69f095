import UringWs.System.RecvIntegrity

/-! # From the handshake to the ring

A stream is first read by the handshake, through the blocking raw socket, until
the upgrade response is complete. What a read takes beyond the response stays in
the context of the websocket the handshake returns; the completion loop decodes
frames with a context of its own.
-/
namespace UringWs
open Checked

theorem TcpStream.read_blocking {s s' : TcpStream} {mem mem' : Memory} {dest dest' : List UInt8}
    {n : ℕ} (hn : s.nonblocking = false)
    (h : s.read mem dest = .ok (.ok n, dest', s', mem')) : mem' = mem := by
  rw [TcpStream.read, if_pos hn] at h
  cases hr : s.raw.read dest.length with
  | ok bytes =>
    rw [hr] at h
    cases h
    rfl
  | error e =>
    rw [hr] at h
    cases h

namespace Upgrade
open EventLoop

/-- A frame decoder, as far as the bytes it has been offered go. -/
structure WebSocketContext where
  offered : List UInt8

namespace WebSocketContext

def new : WebSocketContext := ⟨[]⟩

def fromPartiallyRead (part : List UInt8) : WebSocketContext := ⟨part⟩

def offer (c : WebSocketContext) (bytes : List UInt8) : WebSocketContext := ⟨c.offered ++ bytes⟩

end WebSocketContext

structure Handshake where
  raw : RawTcpStream
  recvId : UInt32
  /-- the server's upgrade response -/
  response : List UInt8
  /-- the bytes the handshake has read -/
  read : List UInt8

/-- What the handshake has read beyond the response. -/
def Handshake.excess (h : Handshake) : List UInt8 := h.read.drop h.response.length

structure State where
  loop : EventLoop.State
  shaking : Option Handshake
  /-- the handshake each stream was connected with -/
  handshakes : List Handshake
  /-- the contexts of the websockets in the table of streams -/
  sockets : List WebSocketContext
  handlers : List WebSocketContext

inductive Action
  | dial (raw : RawTcpStream) (recvId : UInt32) (response : List UInt8)
  | shake (raw : RawTcpStream) (dest : List UInt8)
  | connect (ring : RingPtr) (base : ℕ)
  | loop (a : EventLoop.Action)
  | read (i : ℕ) (dest : List UInt8)

/-- The steps that neither connect a stream nor read one. -/
def Elsewhere : EventLoop.Action → Prop
  | .connect .. | .read .. => False
  | _ => True

inductive Step : State → Action → State → Prop
  | dial {s : State} {raw : RawTcpStream} {recvId : UInt32} {response : List UInt8}
      (hidle : s.shaking = none) :
      Step s (.dial raw recvId response) { s with shaking := some ⟨raw, recvId, response, []⟩ }
  /-- while the response is incomplete the stream is read in blocking mode; `raw`
  is the dialled socket with its next answer -/
  | shake {s : State} {h : Handshake} {raw : RawTcpStream} {dest dest' : List UInt8} {n : ℕ}
      {t : TcpStream} {mem : Memory} (hshaking : s.shaking = some h)
      (hpart : h.read.length < h.response.length) (hfd : raw.fd = h.raw.fd) (hpos : 0 < n)
      (hle : n ≤ dest.length)
      (hread : (TcpStream.newFromStd raw (UInt16.ofNat s.loop.streams.length) h.recvId).read
        s.loop.mem dest = .ok (.ok n, dest', t, mem)) :
      Step s (.shake raw dest) { s with
        loop := { s.loop with mem }
        shaking := some { h with read := h.read ++ dest'.take n } }
  /-- the websocket is returned, and the round of the set-up loop goes on -/
  | connect {s : State} {h : Handshake} {ring : RingPtr} {base : ℕ} {w : EventLoop.State}
      (hshaking : s.shaking = some h) (hresponse : h.response <+: h.read)
      (hw : EventLoop.Step s.loop (.connect h.raw h.recvId ring base) w) :
      Step s (.connect ring base) { s with
        loop := w
        shaking := none
        handshakes := s.handshakes ++ [h]
        sockets := s.sockets ++ [.fromPartiallyRead h.excess]
        handlers := s.handlers ++ [.new] }
  | loop {s : State} {a : EventLoop.Action} {w : EventLoop.State} (ha : Elsewhere a)
      (hw : EventLoop.Step s.loop a w) : Step s (.loop a) { s with loop := w }
  /-- the stream's handler reads the stream -/
  | read {s : State} {i : ℕ} {dest dest' : List UInt8} {c : WebSocketContext} {t t' : TcpStream}
      {r : Except IoError ℕ} {mem : Memory} (hc : s.handlers[i]? = some c)
      (ht : s.loop.streams[i]? = some t)
      (hread : t.read s.loop.mem dest = .ok (r, dest', t', mem)) :
      Step s (.read i dest) { s with
        loop := { s.loop with
          mem
          streams := s.loop.streams.set i t'
          returned := Function.update s.loop.returned i
            (s.loop.returned i ++ bytesRead r dest') }
        handlers := s.handlers.set i (c.offer (bytesRead r dest')) }

structure Init (s : State) : Prop where
  loop : EventLoop.Init s.loop
  shaking : s.shaking = none
  handshakes : s.handshakes = []
  sockets : s.sockets = []
  handlers : s.handlers = []

def upgrade : System State Action := { init := Init, step := Step }

/-- A receive posts only the buffers it fills. -/
def FillsOnly (s : State) : Action → Prop
  | .loop a => EventLoop.FillsOnly s.loop a
  | _ => True

/-- What the handshake took of the bytes behind the response. -/
def State.excess (s : State) (i : ℕ) : List UInt8 :=
  match s.handshakes[i]? with
  | some h => h.excess
  | none => []

/-- What the server has sent behind the response. -/
def State.sent (s : State) (i : ℕ) : List UInt8 := s.excess i ++ s.loop.received i

/-- What the context that decodes the stream's frames has been offered. -/
def State.offered (s : State) (i : ℕ) : List UInt8 :=
  match s.handlers[i]? with
  | some c => c.offered
  | none => []

/-- What the returned websocket's own context holds. -/
def State.kept (s : State) (i : ℕ) : List UInt8 :=
  match s.sockets[i]? with
  | some c => c.offered
  | none => []

/-- The bytes of the stream's queued buffers and unprocessed completions. -/
def State.queued (s : State) (i : ℕ) : List UInt8 :=
  match s.loop.streams[i]?, s.loop.groups (UInt16.ofNat i) with
  | some t, some kg => pendingBytes kg s.loop.mem t.inner.bufVec.items (s.loop.unprocessed i)
  | _, _ => []

variable {s s' : State}

theorem reach_loop (h : upgrade.Reach FillsOnly s) :
    eventLoop.Reach EventLoop.FillsOnly s.loop := by
  refine h.simulate State.loop (fun s (h₀ : Init s) => h₀.loop) fun s a t _ hg hs => ?_
  cases hs with
  | dial hidle => exact .refl
  | shake hshaking hpart hfd hpos hle hread =>
    obtain rfl := TcpStream.read_blocking rfl hread
    exact .refl
  | @connect h ring base w hshaking hresponse hw =>
    exact .single ⟨.connect h.raw h.recvId ring base, trivial, hw⟩
  | loop ha hw => exact .single ⟨_, hg, hw⟩
  | @read i dest dest' c t t' r mem hc ht hread =>
    exact .single ⟨.read i dest, trivial, .read ht hread⟩

theorem elsewhere_frame {w w' : EventLoop.State} {a : EventLoop.Action} (hr : Routed w)
    (ha : Elsewhere a) (hw : EventLoop.Step w a w') :
    w'.streams.length = w.streams.length ∧ w'.returned = w.returned := by
  cases step_effect hr hw with
  | connect => exact ha.elim
  | readEmpty => exact ha.elim
  | readPart => exact ha.elim
  | readDrain => exact ha.elim
  | write => exact ⟨List.length_set .., rfl⟩
  | submit => exact ⟨rfl, rfl⟩
  | recv => exact ⟨rfl, rfl⟩
  | sent => exact ⟨rfl, rfl⟩
  | other => exact ⟨rfl, rfl⟩
  | recvDone => exact ⟨List.length_set .., rfl⟩
  | sendDone => exact ⟨List.length_set .., rfl⟩

/-- The handlers have been offered what their streams' reads returned, and each
websocket keeps what its handshake took too much. -/
structure Split (s : State) : Prop where
  handlers : s.handlers.length = s.loop.streams.length
  handshakes : s.handshakes.length = s.loop.streams.length
  responses : ∀ h ∈ s.handshakes, h.response <+: h.read
  sockets : s.sockets = s.handshakes.map fun h => .fromPartiallyRead h.excess
  offered : ∀ i, s.offered i = s.loop.returned i

theorem offered_congr (hhandlers : s'.handlers = s.handlers) (i : ℕ) :
    s'.offered i = s.offered i := by rw [State.offered, hhandlers, State.offered]

theorem split_init (h : Init s) : Split s := by
  refine ⟨?_, ?_, ?_, ?_, fun i => ?_⟩
  · rw [h.handlers, h.loop.streams]
    rfl
  · rw [h.handshakes, h.loop.streams]
    rfl
  · simp [h.handshakes]
  · rw [h.sockets, h.handshakes]
    rfl
  · rw [State.offered, h.handlers, h.loop.returned]
    rfl

/-- Only connecting and reading change what the invariant speaks of. -/
theorem Split.frame (h : Split s) (hlen : s'.loop.streams.length = s.loop.streams.length)
    (hreturned : s'.loop.returned = s.loop.returned) (hhandlers : s'.handlers = s.handlers)
    (hhandshakes : s'.handshakes = s.handshakes) (hsockets : s'.sockets = s.sockets) :
    Split s' := by
  refine ⟨?_, ?_, ?_, ?_, fun i => ?_⟩
  · rw [hhandlers, hlen, h.handlers]
  · rw [hhandshakes, hlen, h.handshakes]
  · rw [hhandshakes]
    exact h.responses
  · rw [hsockets, hhandshakes, h.sockets]
  · rw [offered_congr hhandlers, hreturned, h.offered]

theorem Split.connect (h : Split s) {hand : Handshake}
    (hresponse : hand.response <+: hand.read)
    (hlen : s'.loop.streams.length = s.loop.streams.length + 1)
    (hreturned : s'.loop.returned = s.loop.returned)
    (hhandlers : s'.handlers = s.handlers ++ [.new])
    (hhandshakes : s'.handshakes = s.handshakes ++ [hand])
    (hsockets : s'.sockets = s.sockets ++ [.fromPartiallyRead hand.excess]) : Split s' := by
  refine ⟨?_, ?_, ?_, ?_, fun i => ?_⟩
  · rw [hhandlers, List.length_append, List.length_singleton, hlen, h.handlers]
  · rw [hhandshakes, List.length_append, List.length_singleton, hlen, h.handshakes]
  · rw [hhandshakes]
    exact List.forall_mem_append.mpr ⟨h.responses, List.forall_mem_singleton.mpr hresponse⟩
  · rw [hsockets, hhandshakes, h.sockets, List.map_append, List.map_singleton]
  · rw [hreturned, ← h.offered, State.offered, State.offered, hhandlers]
    rcases Nat.lt_trichotomy i s.handlers.length with hi | rfl | hi
    · rw [List.getElem?_append_left hi]
    · rw [List.getElem?_concat_length, List.getElem?_eq_none le_rfl]
      rfl
    · rw [List.getElem?_eq_none (by simp; omega), List.getElem?_eq_none (by omega)]

theorem Split.read (h : Split s) {i : ℕ} {c : WebSocketContext} {t : TcpStream}
    {bytes : List UInt8} (hc : s.handlers[i]? = some c)
    (hstreams : s'.loop.streams = s.loop.streams.set i t)
    (hreturned : s'.loop.returned =
      Function.update s.loop.returned i (s.loop.returned i ++ bytes))
    (hhandlers : s'.handlers = s.handlers.set i (c.offer bytes))
    (hhandshakes : s'.handshakes = s.handshakes) (hsockets : s'.sockets = s.sockets) :
    Split s' := by
  refine ⟨?_, ?_, ?_, ?_, fun j => ?_⟩
  · rw [hhandlers, hstreams, List.length_set, List.length_set, h.handlers]
  · rw [hhandshakes, hstreams, List.length_set, h.handshakes]
  · rw [hhandshakes]
    exact h.responses
  · rw [hsockets, hhandshakes, h.sockets]
  · rw [State.offered, hhandlers, hreturned]
    by_cases hj : j = i
    · subst hj
      have ho := h.offered j
      rw [State.offered, hc] at ho
      rw [List.getElem?_set_self (List.getElem?_eq_some_iff.mp hc).1, Function.update_self, ← ho]
      rfl
    · rw [List.getElem?_set_ne (Ne.symm hj), Function.update_of_ne hj, ← h.offered j,
        State.offered]

theorem split_step {a : Action} (hw : Routed s.loop) (h : Split s) (hs : Step s a s') : Split s' := by
  cases hs with
  | dial hidle => exact h.frame rfl rfl rfl rfl rfl
  | shake hshaking hpart hfd hpos hle hread => exact h.frame rfl rfl rfl rfl rfl
  | connect hshaking hresponse hstep =>
    refine h.connect hresponse ?_ ?_ rfl rfl rfl
    all_goals cases step_effect hw hstep
    · exact List.length_append
    · rfl
  | loop ha hstep =>
    obtain ⟨hlen, hreturned⟩ := elsewhere_frame hw ha hstep
    exact h.frame hlen hreturned rfl rfl rfl
  | read hc ht hread => exact h.read hc rfl rfl rfl rfl rfl

theorem reach_split (h : upgrade.Reach FillsOnly s) : Split s :=
  h.invariant (fun _ => split_init) fun _ _ _ hr ih _ hs =>
    split_step (reach_routed (reach_loop hr)) ih hs

/-- The loop's reads and queues hold every byte the completions brought. -/
theorem offered_queued (h : upgrade.Reach FillsOnly s) (i : ℕ) :
    s.offered i ++ s.queued i = s.loop.received i := by
  have hloop := reach_loop h
  have hw := reach_routed hloop
  have hr := reach_received hloop
  rw [(reach_split h).offered, State.queued]
  cases ht : s.loop.streams[i]? with
  | none =>
    obtain ⟨hreceived, hreturned⟩ := hr.unconnected i (List.getElem?_eq_none_iff.mp ht)
    rw [hreceived, hreturned]
    rfl
  | some t =>
    obtain ⟨kg, hkg, -, hintact⟩ := hr.stream hw ht
    rw [hkg]
    exact hintact.bytes

theorem Split.kept (h : Split s) (i : ℕ) : s.kept i = s.excess i := by
  rw [State.kept, State.excess, h.sockets, List.getElem?_map]
  cases s.handshakes[i]? with
  | none => rfl
  | some hand => rfl

/-- What the handlers are not offered stays with the websocket. -/
theorem kept_offered_queued (h : upgrade.Reach FillsOnly s) (i : ℕ) :
    s.kept i ++ (s.offered i ++ s.queued i) = s.sent i := by
  rw [offered_queued h, (reach_split h).kept, State.sent]

theorem Split.excess_eq_nil (h : Split s) (i : ℕ) : s.excess i = [] ↔
    ∀ hand, s.handshakes[i]? = some hand → hand.read = hand.response := by
  rw [State.excess]
  cases hh : s.handshakes[i]? with
  | none => simp
  | some hand =>
    have hresponse := h.responses hand (List.mem_of_getElem? hh)
    have hexcess : hand.excess = [] ↔ hand.read = hand.response := by
      obtain ⟨tail, htail⟩ := hresponse
      rw [Handshake.excess, ← htail, List.drop_left]
      exact List.append_right_eq_self.symm
    simp [hexcess]

theorem reach_elsewhere (h : upgrade.Reach FillsOnly s) {a : EventLoop.Action} {w : EventLoop.State}
    (hw : EventLoop.Step s.loop a w) (hg : EventLoop.FillsOnly s.loop a) (ha : Elsewhere a) :
    upgrade.Reach FillsOnly { s with loop := w } :=
  h.next (a := Action.loop a) hg (.loop ha hw)

/-- A handshake in one read, which takes `extra` behind the response, and the
connection of its stream. -/
theorem reach_handshake (h : upgrade.Reach FillsOnly s) (hidle : s.shaking = none)
    {raw : RawTcpStream} {recvId : UInt32} {ring : RingPtr} {base : ℕ} {w : EventLoop.State}
    (hw : EventLoop.Step s.loop (.connect raw recvId ring base) w) {response : List UInt8}
    (hne : response ≠ []) (extra : List UInt8) :
    upgrade.Reach FillsOnly { s with
      loop := w
      shaking := none
      handshakes := s.handshakes ++ [⟨raw, recvId, response, response ++ extra⟩]
      sockets := s.sockets ++ [.fromPartiallyRead extra]
      handlers := s.handlers ++ [.new] } := by
  let raw' := { raw with read := fun _ => .ok (response ++ extra) }
  have hresponse : 0 < response.length := List.length_pos_of_ne_nil hne
  have hpos : 0 < (response ++ extra).length := by
    rw [List.length_append]
    omega
  have h₁ := h.next (a := Action.dial raw recvId response) trivial (.dial hidle)
  have h₂ := h₁.next (a := Action.shake raw' (response ++ extra)) trivial
    (.shake rfl hresponse rfl hpos le_rfl rfl)
  rw [List.take_left, List.nil_append] at h₂
  have h₃ := h₂.next (a := Action.connect ring base) trivial
    (.connect rfl (List.prefix_append response extra) hw)
  rwa [Handshake.excess, List.drop_left] at h₃

/-- Every run of the event loop has handshakes before it, whatever they read
behind the response. -/
theorem reach_lift {w : EventLoop.State} (h : eventLoop.Reach EventLoop.FillsOnly w)
    {response : List UInt8} (hne : response ≠ []) (extra : List UInt8) :
    ∃ s, upgrade.Reach FillsOnly s ∧ s.loop = w ∧ s.shaking = none ∧
      ∀ hand ∈ s.handshakes, hand.response = response ∧ hand.read = response ++ extra := by
  refine h.invariant (P := fun w => ∃ s, upgrade.Reach FillsOnly s ∧ s.loop = w ∧
    s.shaking = none ∧ ∀ hand ∈ s.handshakes, hand.response = response ∧
      hand.read = response ++ extra) ?_ ?_
  · intro w h₀
    exact ⟨⟨w, none, [], [], []⟩, .start ⟨h₀, rfl, rfl, rfl, rfl⟩, rfl, rfl,
      List.forall_mem_nil _⟩
  · rintro _ a w' - ⟨s, hs, rfl, hidle, hhands⟩ hg hstep
    cases a with
    | connect raw recvId ring base =>
      refine ⟨_, reach_handshake hs hidle hstep hne extra, rfl, rfl, ?_⟩
      exact List.forall_mem_append.mpr ⟨hhands, List.forall_mem_singleton.mpr ⟨rfl, rfl⟩⟩
    | read i dest =>
      cases hstep with
      | read ht hread =>
        have hlt := (List.getElem?_eq_some_iff.mp ht).1
        rw [← (reach_split hs).handlers] at hlt
        have h₁ := hs.next (a := Action.read i dest) trivial
          (.read (List.getElem?_eq_getElem hlt) ht hread)
        exact ⟨_, h₁, rfl, hidle, hhands⟩
    | _ => exact ⟨_, reach_elsewhere hs hstep hg trivial, rfl, hidle, hhands⟩

/-- One stream whose handshake read `extra` behind the response, and whose one
completion so far has been read in full. -/
theorem reach_one {response : List UInt8} (hne : response ≠ []) (extra : List UInt8)
    {data : List UInt8} (hpos : 0 < data.length) (hlen : data.length ≤ bufSize.toNat) :
    ∃ s hand, upgrade.Reach FillsOnly s ∧ s.handshakes[0]? = some hand ∧
      hand.response = response ∧ hand.read = response ++ extra ∧
      s.loop.received 0 = data ∧ s.loop.returned 0 = data := by
  obtain ⟨sq, slot, -, -, -, h⟩ := reach_armed (G := EventLoop.FillsOnly) idleSocket 1200 trivial
    (fun _ _ => trivial)
  have h₁ := reach_filled h data true hpos hlen trivial
  obtain ⟨inner, hitems, hs⟩ := step_queued h₁ hpos hlen
  have h₂ := h₁.next (a := EventLoop.Action.process) trivial hs
  have h₃ := reach_read_drain h₂ (i := 0) data trivial rfl hitems hpos le_rfl
  rw [filled_unread] at h₃
  obtain ⟨s, hreach, hloop, -, hhands⟩ := reach_lift h₃ hne extra
  have hone : 0 < s.handshakes.length := by
    rw [(reach_split hreach).handshakes, hloop]
    exact Nat.one_pos
  obtain ⟨hresponse, hread⟩ := hhands _ (List.getElem_mem hone)
  refine ⟨s, _, hreach, List.getElem?_eq_getElem hone, hresponse, hread, ?_, ?_⟩
  · rw [hloop]
    rfl
  · rw [hloop]
    rfl

def headerLine (s : String) : List UInt8 := s.toUTF8.toList ++ [13, 10]

/-- The whole response to a request with the key `dGhlIHNhbXBsZSBub25jZQ==`. -/
def switchingProtocols : List UInt8 :=
  headerLine "HTTP/1.1 101 Switching Protocols" ++ headerLine "Upgrade: websocket" ++
    headerLine "Connection: Upgrade" ++
    headerLine "Sec-WebSocket-Accept: s3pPLMBiTxaQ9kYGzzhZRbK+xOo=" ++ [13, 10]

theorem switchingProtocols_ne : switchingProtocols ≠ [] :=
  List.append_ne_nil_of_right_ne_nil _ (List.cons_ne_nil _ _)

/-! ### The handlers are offered everything only after an exact handshake -/

/-- A stream's handler is offered all the server sends behind the response if
and only if the handshake read nothing of it. -/
theorem offered_whole_iff (h : upgrade.Reach FillsOnly s) (i : ℕ) :
    s.offered i ++ s.queued i = s.sent i ↔
      ∀ hand, s.handshakes[i]? = some hand → hand.read = hand.response := by
  have hsplit := reach_split h
  rw [← kept_offered_queued h, hsplit.kept, ← hsplit.excess_eq_nil]
  exact List.self_eq_append_left

theorem offered_whole_silent : ∃ s, upgrade.Reach FillsOnly s ∧ s.sent 0 = [0x81, 1, 7] ∧
    s.offered 0 ++ s.queued 0 = s.sent 0 := by
  obtain ⟨s, hand, h, hhand, hresponse, hread, hreceived, -⟩ :=
    reach_one switchingProtocols_ne []
      (show 0 < ([0x81, 1, 7] : List UInt8).length by decide) (by decide)
  rw [List.append_nil, ← hresponse] at hread
  have hexcess : hand.excess = [] := by rw [Handshake.excess, hread, List.drop_length]
  refine ⟨s, h, ?_, (offered_whole_iff h 0).mpr fun hand' hhand' => ?_⟩
  · rw [State.sent, State.excess, hhand, hreceived]
    simp only [hexcess, List.nil_append]
  · rw [hhand] at hhand'
    obtain rfl := Option.some.inj hhand'
    exact hread

/-- The server greets with the first byte of a frame behind the response: the
handler is offered the frame without it. -/
theorem greeting_lost : ∃ s hand, upgrade.Reach FillsOnly s ∧ s.handshakes[0]? = some hand ∧
    hand.response = switchingProtocols ∧ hand.read = switchingProtocols ++ [0x81] ∧
    s.sent 0 = [0x81, 1, 7] ∧ s.offered 0 = [1, 7] ∧ s.queued 0 = [] ∧
    ¬ ∀ i, s.offered i ++ s.queued i = s.sent i := by
  obtain ⟨s, hand, h, hhand, hresponse, hread, hreceived, hreturned⟩ :=
    reach_one switchingProtocols_ne [0x81]
      (show 0 < ([1, 7] : List UInt8).length by decide) (by decide)
  have hoffered : s.offered 0 = [1, 7] := ((reach_split h).offered 0).trans hreturned
  have hqueued : s.queued 0 = [] := by
    have hbytes := offered_queued h 0
    rw [hoffered, hreceived] at hbytes
    exact List.append_right_eq_self.mp hbytes
  have hsent : s.sent 0 = [0x81, 1, 7] := by
    rw [State.sent, State.excess, hhand, hreceived]
    simp only [Handshake.excess, hread, hresponse, List.drop_left]
    rfl
  refine ⟨s, hand, h, hhand, hresponse, hread, hsent, hoffered, hqueued, fun hall => ?_⟩
  have hall := hall 0
  rw [hoffered, hqueued, hsent] at hall
  exact absurd hall (by decide)

end Upgrade
end UringWs
