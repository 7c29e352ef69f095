import UringWs.System.RecvIntegrity

/-! # Routing of completions

Every posted entry reaches the stream that prepared its request, in the arm of
the request's operation, and a receive's buffer is looked up in the group its
request was armed with.
-/
namespace UringWs
open Checked

/-- The faults of a misrouted completion. -/
def Fault.Misrouted : Fault → Prop
  | .ownerMismatch | .recvIdMismatch | .unknownEvent _ | .noStream _ => True
  | _ => False

theorem BufRingPool.getReadBuf_avoids (pool : BufRingPool) (mem : Memory) (g b : UInt16) (n : ℕ) :
    Avoids Fault.Misrouted (pool.getReadBuf mem g b n) := by
  refine .bind (.bind (.unwrap id) fun _ _ => .unwrap id) fun _ _ => ?_
  refine .bind (.ensure (.inr id)) fun _ _ => .bind (.ensure (.inr id)) fun _ _ => ?_
  exact .bind (.ensure (.inr id)) fun _ _ => .ok _

theorem Completion.fromRawEvent_avoids (pool : BufRingPool) (mem : Memory)
    (ptr : Option IoUringCqe) : Avoids Fault.Misrouted (fromRawEvent pool mem ptr) := by
  refine .bind (.unwrap id) fun cqe _ => ?_
  refine .bind (.ensure (.inr id)) fun _ _ => .bind (.ensure (.inr id)) fun _ _ => ?_
  split
  · refine .bind (.ensure (.inr id)) fun _ _ => ?_
    refine .bind (pool.getReadBuf_avoids _ _ _ _) fun _ _ => ?_
    exact .bind (.ensure (.inr id)) fun _ _ => .ok _
  · exact .ok _

theorem TcpStream.onSend_avoids (s : TcpStream) (mem : Memory) (c : Completion) :
    Avoids Fault.Misrouted (s.onSend mem c) := by
  refine .bind (.ensure (.inr id)) fun _ _ => .bind (.unwrap id) fun _ _ => ?_
  exact .bind (.ensure (.inr id)) fun _ _ => .bind (.ensure (.inr id)) fun _ _ => .ok _

theorem TcpStream.onMultishortRecv_avoids {s : TcpStream} {c : Completion} (mem : Memory)
    (h : c.userData.req = s.multishortRecvId) :
    Avoids Fault.Misrouted (s.onMultishortRecv mem c) := by
  refine .bind (.ensure (.inl h)) fun _ _ => .bind (.ensure (.inl h)) fun _ _ => ?_
  refine .bind (.ensure (.inr id)) fun _ _ => .bind (.ensure (.inr id)) fun _ _ => ?_
  refine .bind (.unwrap id) fun _ _ => .bind ?_ fun _ _ => ?_
  · exact .bind (.ensure (.inr id)) fun _ _ => .ok _
  · exact .bind (.ensure (.inr id)) fun _ _ => .ok _

namespace EventLoop

/-- Every unprocessed entry is routed to the request it completes. -/
structure RoutesRight (w : State) : Prop where
  /-- the stream that prepared the request gets it, in the arm of the operation -/
  dispatched : ∀ p ∈ w.cqes, ∃ s, w.streams[p.request.origin.stream]? = some s ∧
    UringWs.dispatch w.pool w.mem w.streams (some p.cqe) = (do
      let completion ← Completion.fromRawEvent w.pool w.mem (some p.cqe)
      let (s', mem') ← s.arm p.request.origin.event w.mem completion
      .ok (w.streams.set p.request.origin.stream s', mem'))
  never_misrouted : ∀ p ∈ w.cqes, ∀ f,
    UringWs.dispatch w.pool w.mem w.streams (some p.cqe) = .error f → ¬ f.Misrouted
  /-- a receive's buffer comes from the group of its request -/
  group : ∀ p ∈ w.cqes, ∀ i recvId, p.request.origin = .recv i recvId →
    (UserData.fromPacked p.cqe.userData).owner = p.request.sqe.bufGroup ∧
      ∃ kg, w.groups p.request.sqe.bufGroup = some kg ∧
        w.pool.borrowMut p.request.sqe.bufGroup = .ok kg.ring
  /-- the buffer it is given is the one that group's ring shows under its id -/
  lookup : ∀ p ∈ w.cqes, ∀ i recvId, p.request.origin = .recv i recvId → ∀ c kb,
    Completion.fromRawEvent w.pool w.mem (some p.cqe) = .ok c → c.kernelBuf = some kb →
      w.pool.getReadBuf w.mem p.request.sqe.bufGroup p.cqe.bufferId (resAsUsize p.cqe.res) =
        .ok kb ∧
      kb.bgid = p.request.sqe.bufGroup ∧
      ∃ kg, w.groups p.request.sqe.bufGroup = some kg ∧ kb.bufRing = kg.ring ∧
        kb.entry = (w.mem.rings kg.ring).bufs p.cqe.bufferId.toNat

/-- The word gives back its parts, and tells distinct parts apart. -/
def WordExact : Prop :=
  (∀ event owner req, (UserData.fromPacked (UserData.fromParts event owner req).asU64).event = event ∧
    (UserData.fromPacked (UserData.fromParts event owner req).asU64).owner = owner ∧
    (UserData.fromPacked (UserData.fromParts event owner req).asU64).req = req) ∧
  ∀ event owner req event' owner' req',
    (UserData.fromParts event owner req).asU64 = (UserData.fromParts event' owner' req').asU64 →
      event = event' ∧ owner = owner' ∧ req = req'

theorem wordExact : WordExact := by
  refine ⟨fun event owner req => ?_, fun event owner req event' owner' req' h => ?_⟩
  · exact ⟨UserData.event_fromParts .., UserData.owner_fromParts .., UserData.req_fromParts ..⟩
  · exact UserData.fromParts_inj.mp (congrArg UserData.fromPacked h)

variable {w : State}

theorem Routed.never_misrouted (hw : Routed w) {p : Posted} (hp : p ∈ w.cqes) :
    Avoids Fault.Misrouted (UringWs.dispatch w.pool w.mem w.streams (some p.cqe)) := by
  obtain ⟨s, hs, hd⟩ := hw.dispatch hp
  obtain ⟨hdata, hprep⟩ := hw.cqes p hp
  obtain ⟨s', hs', -, hword, hasks⟩ := hprep.facts hw
  obtain rfl : s = s' := Option.some.inj (hs.symm.trans hs')
  rw [hd]
  refine .bind (Completion.fromRawEvent_avoids _ _ _) fun c hc => .bind ?_ fun _ _ => .ok _
  have huser : c.userData = p.request.origin.word := by
    rw [(Completion.fromRawEvent_cqe hc).2, hdata, hword, UserData.fromPacked_data]
  cases ho : p.request.origin with
  | recv i recvId =>
    rw [ho] at hasks huser
    apply TcpStream.onMultishortRecv_avoids _
    rw [huser, Origin.word, UserData.req_fromParts]
    exact hasks.1
  | send op => exact TcpStream.onSend_avoids _ _ _

/-- A receive was armed with the group of its stream, and its entries name that group. -/
theorem Routed.group (hw : Routed w) {p : Posted} (hp : p ∈ w.cqes) {i : ℕ} {recvId : UInt32}
    (ho : p.request.origin = .recv i recvId) :
    (UserData.fromPacked p.cqe.userData).owner = p.request.sqe.bufGroup ∧
      ∃ kg, w.groups p.request.sqe.bufGroup = some kg ∧
        w.pool.borrowMut p.request.sqe.bufGroup = .ok kg.ring := by
  obtain ⟨hdata, hprep⟩ := hw.cqes p hp
  obtain ⟨s, hs, howner, hword, hasks⟩ := hprep.facts hw
  rw [ho] at hs howner hasks
  have hs : w.streams[i]? = some s := hs
  have hgroup : p.request.sqe.bufGroup = UInt16.ofNat i := hasks.2.2.trans howner
  obtain ⟨kg, hg, hptr⟩ := hw.groups i (List.getElem?_eq_some_iff.mp hs).1
  rw [hgroup]
  refine ⟨?_, kg, hg, ?_⟩
  · rw [hdata, hword, ho, UserData.fromPacked_data, Origin.word, UserData.owner_fromParts]
    rfl
  · rw [BufRingPool.borrowMut_eq_ok, ofNat_toNat_of_lt (hw.index_lt hs)]
    exact hptr

theorem Routed.lookup (hw : Routed w) {p : Posted} (hp : p ∈ w.cqes) {i : ℕ} {recvId : UInt32}
    (ho : p.request.origin = .recv i recvId) {c : Completion} {kb : KernelBuffer}
    (hc : Completion.fromRawEvent w.pool w.mem (some p.cqe) = .ok c)
    (hkb : c.kernelBuf = some kb) :
    w.pool.getReadBuf w.mem p.request.sqe.bufGroup p.cqe.bufferId (resAsUsize p.cqe.res) = .ok kb ∧
      kb.bgid = p.request.sqe.bufGroup ∧
      ∃ kg, w.groups p.request.sqe.bufGroup = some kg ∧ kb.bufRing = kg.ring ∧
        kb.entry = (w.mem.rings kg.ring).bufs p.cqe.bufferId.toNat := by
  obtain ⟨howner, kg, hkg, hring⟩ := hw.group hp ho
  have hget := Completion.fromRawEvent_kernelBuf hc hkb
  rw [howner] at hget
  refine ⟨hget, ?_⟩
  obtain ⟨ring, hptr, -, -, -, rfl⟩ := BufRingPool.getReadBuf_eq_ok.mp hget
  have hptr' := BufRingPool.borrowMut_eq_ok.mp hring
  obtain rfl : ring = kg.ring := Option.some.inj (Option.some.inj (hptr.symm.trans hptr'))
  exact ⟨rfl, kg, hkg, rfl, rfl⟩

theorem Routed.routesRight (hw : Routed w) : RoutesRight w :=
  ⟨fun _ hp => hw.dispatch hp, fun _ hp => hw.never_misrouted hp, fun _ hp _ _ => hw.group hp,
    fun _ hp _ _ ho _ _ => hw.lookup hp ho⟩

/-- Completions are routed to their requests in every reachable state. -/
theorem completions_routed (h : eventLoop.Reachable w) : RoutesRight w ∧ WordExact :=
  ⟨(reach_routed h).routesRight, wordExact⟩

/-- Two streams, of which the first sends under the id of its own receive: the
send's entry, and one of each receive. -/
theorem completions_routed_filled : ∃ w : State,
    w.cqes.map (fun p => p.request.origin.word) =
      [.fromParts Event.send.toU8 0 1000, .fromParts Event.multishortRecv.toU8 0 1000,
        .fromParts Event.multishortRecv.toU8 1 1201] ∧ RoutesRight w ∧ WordExact := by
  have h : eventLoop.Reach FillsOnly start := .start start_init
  obtain ⟨sq₁, slot₁, -, hent₁, hq₁, h₁⟩ := @reach_connect FillsOnly _ h idleSocket 1000 0 0
    trivial (by decide) (by decide) (fun _ _ h => by cases h) rfl (fun _ _ h => by cases h)
  have hgroups : ∀ g kg, Function.update start.groups 0 (some ⟨0, 0, 0⟩) g = some kg →
      kg = ⟨0, 0, 0⟩ := by
    intro g kg hg
    by_cases h0 : g = 0
    · rw [h0, Function.update_self] at hg
      exact (Option.some.inj hg).symm
    · rw [Function.update_of_ne h0] at hg
      cases hg
  have hcount₁ : sq₁.count = 1 := by
    rw [← IoUringSq.queue_length, hq₁]
    rfl
  obtain ⟨sq₂, slot₂, -, hent₂, hq₂, h₂⟩ := @reach_connect FillsOnly _ h₁ idleSocket 1201 1
    blockSize trivial
    (show sq₁.count < sq₁.ringEntries.toNat by rw [hcount₁, hent₁]; decide)
    (show 1 < maxBufferGroup by decide)
    (fun g kg hg => by rw [hgroups g kg hg]; exact show (0 : ℕ) ≠ 1 by decide) rfl
    (fun g kg hg => by rw [hgroups g kg hg]; exact .inr (Nat.zero_add _).le)
  have hq₂ : sq₂.queue =
      [recvSqe idleSocket.fd 0 1000 slot₁, recvSqe idleSocket.fd 1 1201 slot₂] := by
    rw [hq₂]
    exact congrArg (· ++ _) hq₁
  have hcount₂ : sq₂.count = 2 := by
    rw [← IoUringSq.queue_length, hq₂]
    rfl
  obtain ⟨sq₃, slot₃, -, -, hq₃, h₃⟩ := @reach_write FillsOnly _ h₂ 0 0 [7] _ trivial
    rfl rfl (show sq₂.count < sq₂.ringEntries.toNat by rw [hcount₂, hent₂, hent₁]; decide)
    (by decide)
  simp only [hq₂] at hq₃
  have h₄ := reach_submit h₃ trivial
  simp only [hq₃] at h₄
  have h₅ := reach_sent h₄ (firstSend [7]) (k := 2) rfl rfl rfl rfl (by decide) trivial
  obtain ⟨_, _, c₁, -, -, h₆⟩ := reach_recv (fun _ _ => id) h₅ (i := 0) (k := 0) rfl rfl rfl
    (show 0 + 0 < 1024 by decide) [1] (by decide) (by decide) fun _ => trivial
  obtain ⟨_, _, c₂, -, -, h₇⟩ := reach_recv (fun _ _ => id) h₆ (i := 1) (k := 1) rfl rfl rfl
    (show 0 + 0 < 1024 by decide) [2] (by decide) (by decide) fun _ => trivial
  exact ⟨_, rfl, completions_routed h₇.reachable⟩

end EventLoop
end UringWs
