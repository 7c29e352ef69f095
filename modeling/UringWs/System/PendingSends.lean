import UringWs.System.SendTable
import UringWs.System.Progress

/-! # The table of pending sends

Send ids wrap at 32 bits. As long as no send is overtaken by 2^32 later ones
before it completes, the table holds exactly the sends in flight, and every
send's completion is accepted.
-/
namespace UringWs.EventLoop

/-- Writes of fewer than 2^31 bytes, made while every send of the stream in flight
is fewer than 2^32 writes old; sends complete with all their bytes. -/
def Windowed (w : State) : Action → Prop
  | .write i _ buf => buf.length < 2 ^ 31 ∧
      ∀ op ∈ w.outstanding, op.stream = i → (w.written i).length < op.seq + 2 ^ 32
  | a => SendsComplete w a

theorem Windowed.sendsComplete {w : State} {a : Action} (h : Windowed w a) :
    SendsComplete w a := by
  cases a with
  | other => exact h
  | _ => trivial

structure Complete (op : SendOp) (cqe : IoUringCqe) : Prop where
  res : cqe.res.toInt = op.vec.bytes.length
  buffer : ¬ cqe.hasBuffer
  bufMore : ¬ cqe.hasBufMore

/-- Sends are numbered by the writes of their stream, from id 1000 on. -/
structure Numbered (w : State) : Prop where
  sendId : ∀ i s, w.streams[i]? = some s → s.sendId = 1000 + UInt32.ofNat (w.written i).length
  unwritten : ∀ i, w.streams.length ≤ i → w.written i = []
  op : ∀ op ∈ w.outstanding, op.req = 1000 + UInt32.ofNat op.seq ∧
    (w.written op.stream)[op.seq]? = some op.vec.bytes ∧ 0 < op.vec.bytes.length ∧
      op.vec.bytes.length < 2 ^ 31
  posted : ∀ p ∈ w.cqes, ∀ op, p.request.origin = .send op → Complete op p.cqe

theorem sendId_ne {m n : ℕ} (hlt : m < n) (hle : n < m + 2 ^ 32) :
    (1000 : UInt32) + UInt32.ofNat m ≠ 1000 + UInt32.ofNat n := by
  intro h
  have h := congrArg UInt32.toNat h
  simp only [UInt32.toNat_add, UInt32.toNat_ofNat', show (1000 : UInt32).toNat = 1000 from rfl] at h
  omega

theorem Numbered.fresh {w : State} (ht : w.Tabled) (hn : Numbered w) {i : ℕ}
    {s : TcpStream} (hs : w.streams[i]? = some s)
    (hwin : ∀ op ∈ w.outstanding, op.stream = i → (w.written i).length < op.seq + 2 ^ 32) :
    s.pendingSent.lookup s.sendKey = none := by
  by_contra hne
  obtain ⟨v, hv⟩ := Option.ne_none_iff_exists'.mp hne
  obtain ⟨op, hop, rfl, hkey, -⟩ := (ht.entry i s hs _ _).mp hv
  obtain ⟨hreq, hseq, -, -⟩ := hn.op op hop
  have hreq' : op.req = s.sendId := by
    have hreq := congrArg UserData.req hkey
    rwa [SendOp.key, Origin.word, TcpStream.sendKey, UserData.req_fromParts,
      UserData.req_fromParts] at hreq
  rw [hreq, hn.sendId _ s hs] at hreq'
  exact sendId_ne (List.getElem?_eq_some_iff.mp hseq).1 (hwin op hop rfl) hreq'

theorem Windowed.fresh {w : State} (ht : w.Tabled) (hn : Numbered w) {a : Action}
    (h : Windowed w a) : FreshKeys w a := by
  cases a with
  | write i ptr buf => exact fun s hs => hn.fresh ht hs h.2
  | _ => exact h

theorem Numbered.of_eq {w w' : State} (h : Numbered w)
    (hid : ∀ (i : ℕ) (s' : TcpStream), w'.streams[i]? = some s' →
      ∃ s : TcpStream, w.streams[i]? = some s ∧ s'.sendId = s.sendId)
    (hlen : w.streams.length ≤ w'.streams.length) (hwritten : w'.written = w.written)
    (hout : w'.outstanding ⊆ w.outstanding)
    (hposted : ∀ p ∈ w'.cqes, p ∈ w.cqes ∨ ∀ op, p.request.origin = .send op → Complete op p.cqe) :
    Numbered w' := by
  refine ⟨?_, ?_, ?_, ?_⟩
  · intro i s' hs'
    obtain ⟨s, hs, he⟩ := hid i s' hs'
    rw [he, hwritten]
    exact h.sendId i s hs
  · intro i hi
    rw [hwritten]
    exact h.unwritten i (hlen.trans hi)
  · intro op hop
    rw [hwritten]
    exact h.op op (hout hop)
  · intro p hp
    rcases hposted p hp with hp | hp
    · exact h.posted p hp
    · exact hp

theorem numbered_connect {w w' : State} (hn : Numbered w) {s : TcpStream}
    (hid : s.sendId = 1000) (hstreams : w'.streams = w.streams ++ [s])
    (hwritten : w'.written = w.written) (hout : w'.outstanding = w.outstanding)
    (hcqes : w'.cqes = w.cqes) : Numbered w' := by
  refine ⟨?_, ?_, ?_, ?_⟩
  · intro i t ht
    rw [hstreams] at ht
    rw [hwritten]
    rcases getElem?_concat_eq_some ht with ⟨-, ht⟩ | ⟨rfl, rfl⟩
    · exact hn.sendId i t ht
    · rw [hid, hn.unwritten _ le_rfl]
      rfl
  · intro i hi
    rw [hstreams, List.length_append] at hi
    rw [hwritten]
    exact hn.unwritten i (by omega)
  · intro op hop
    rw [hwritten]
    exact hn.op op (hout ▸ hop)
  · rw [hcqes]
    exact hn.posted

/-- The next write of a stream takes the next number. -/
theorem numbered_write {w w' : State} (hn : Numbered w) {i ptr : ℕ} {buf : List UInt8}
    {s : TcpStream} (hs : w.streams[i]? = some s) (hpos : 0 < buf.length)
    (hlt : buf.length < 2 ^ 31) (hstreams : w'.streams = w.streams.set i (s.written ptr buf))
    (hwritten : w'.written = Function.update w.written i (w.written i ++ [buf]))
    (hout : w'.outstanding ⊆ ⟨i, (w.written i).length, s.sendId, ⟨ptr, buf⟩⟩ :: w.outstanding)
    (hcqes : w'.cqes = w.cqes) : Numbered w' := by
  have hself : w'.written i = w.written i ++ [buf] := by rw [hwritten, Function.update_self]
  have hother : ∀ j ≠ i, w'.written j = w.written j := fun j hj => by
    rw [hwritten, Function.update_of_ne hj]
  refine ⟨?_, ?_, ?_, ?_⟩
  · intro j t ht
    rw [hstreams] at ht
    rcases getElem?_set_eq_some ht with ⟨rfl, rfl⟩ | ⟨hne, ht⟩
    · rw [hself, List.length_append, List.length_singleton, UInt32.ofNat_add, ← UInt32.add_assoc,
        ← hn.sendId j s hs]
      rfl
    · rw [hother j hne]
      exact hn.sendId j t ht
  · intro j hj
    rw [hstreams, List.length_set] at hj
    have hi := (List.getElem?_eq_some_iff.mp hs).1
    rw [hother j (by omega)]
    exact hn.unwritten j hj
  · intro op hop
    rcases List.mem_cons.mp (hout hop) with rfl | hop
    · exact ⟨hn.sendId i s hs, by simp [hself], hpos, hlt⟩
    · obtain ⟨hreq, hseq, hlen⟩ := hn.op op hop
      refine ⟨hreq, ?_, hlen⟩
      by_cases hj : op.stream = i
      · rw [hj] at hseq ⊢
        rw [hself, List.getElem?_append_left (List.getElem?_eq_some_iff.mp hseq).1, hseq]
      · rw [hother _ hj, hseq]
  · rw [hcqes]
    exact hn.posted

/-- A posted completion of a send must be a full one. -/
theorem numbered_post {w w' : State} (hn : Numbered w) {r : Request} {cqe : IoUringCqe}
    (hstreams : w'.streams = w.streams) (hwritten : w'.written = w.written)
    (hout : w.outstanding.Perm w'.outstanding) (hcqes : w'.cqes = w.cqes ++ [⟨cqe, r⟩])
    (hcomplete : ∀ op, r.origin = .send op → Complete op cqe) : Numbered w' := by
  refine hn.of_eq (fun i s hs => ⟨s, hstreams ▸ hs, rfl⟩) (by rw [hstreams]) hwritten
    hout.symm.subset fun p hp => ?_
  rw [hcqes] at hp
  rcases List.mem_append.mp hp with hp | hp
  · exact .inl hp
  · obtain rfl := List.mem_singleton.mp hp
    exact .inr hcomplete

theorem numbered_step {w w' : State} {a : Action} (hw : Routed w) (hn : Numbered w)
    (hg : Windowed w a) (he : Effect w a w') : Numbered w' := by
  have hset : ∀ {i : ℕ} {s s' : TcpStream}, w.streams[i]? = some s → s'.sendId = s.sendId → _ :=
    fun hs he => getElem?_set_agree TcpStream.sendId hs he
  cases he with
  | @connect raw recvId ring base sq slot hlt hring htail hblock hsq hqueue =>
    exact numbered_connect hn (s := freshStream raw (UInt16.ofNat w.streams.length) recvId) rfl rfl
      rfl (by simp [State.outstanding, State.unexecuted, State.finished]) rfl
  | @write i ptr buf s sq slot hs hptr hpos hsq hqueue =>
    exact numbered_write hn hs hpos hg.1 rfl rfl (outstanding_write (w := w) rfl).symm.subset rfl
  | submit hn' =>
    exact hn.of_eq (fun _ s hs => ⟨s, hs, rfl⟩) le_rfl rfl
      ((unexecuted_submit hw _).append_right _).subset (fun p hp => .inl hp)
  | recv hr ho hs hg' havail hpos hlen hcqe hbuffer hbid hbufMore =>
    exact numbered_post hn rfl rfl (outstanding_post hr (by rw [ho]; rfl) rfl rfl rfl) rfl
      fun op hop => by simp [ho] at hop
  | @sent k out res flags r op cqe hr ho hready hout hres hcqe hbuffer hbufMore =>
    refine numbered_post hn rfl rfl (outstanding_sent hr ho rfl rfl rfl) rfl fun op' hop' => ?_
    obtain rfl : op = op' := by simpa [ho] using hop'
    have hlen := (hn.op op (List.mem_append_left _ (mem_unexecuted hr ho))).2.2.2
    have hof : (UInt32.ofNat op.vec.bytes.length).toNat = op.vec.bytes.length :=
      UInt32.toNat_ofNat_of_lt' (show op.vec.bytes.length < 4294967296 by omega)
    rw [hof] at hres
    exact ⟨by rw [hcqe]; exact hres hlen, hbuffer, hbufMore⟩
  | @other k res flags r cqe hr hcqe =>
    have ho := hg r hr
    refine numbered_post hn rfl rfl (outstanding_post hr ho rfl rfl rfl) rfl fun op hop => ?_
    rw [hop] at ho
    cases ho
  | @recvDone p rest i recvId s kb inner hc ho hs hget hitems =>
    have hp : w.outstanding.Perm (State.outstanding { w with cqes := rest }) :=
      outstanding_recvDone hc ho rfl rfl
    exact hn.of_eq (hset hs rfl) (by simp) rfl hp.symm.subset
      (fun p hp => .inl (hc ▸ List.mem_cons_of_mem _ hp))
  | @sendDone p rest op s v hc ho hs hlookup hlen =>
    have hp : w.outstanding.Perm (op :: State.outstanding { w with cqes := rest }) :=
      outstanding_sendDone hc ho rfl rfl
    exact hn.of_eq (hset hs rfl) (by simp) rfl
      (fun _ hop => hp.mem_iff.mpr (List.mem_cons_of_mem _ hop))
      (fun p hp => .inl (hc ▸ List.mem_cons_of_mem _ hp))
  | readEmpty hs hitems => exact hn
  | readPart hs hitems hpos hlt =>
    exact hn.of_eq (hset hs rfl) (by simp) rfl (List.Subset.refl _) (fun p hp => .inl hp)
  | readDrain hs hitems hrem hle =>
    exact hn.of_eq (hset hs rfl) (by simp) rfl (List.Subset.refl _) (fun p hp => .inl hp)

theorem numbered_init {w : State} (h : Init w) : Numbered w := by
  refine ⟨?_, fun i _ => h.written i, ?_, ?_⟩
  · simp [h.streams]
  · simp [State.outstanding, State.unexecuted, State.finished, h.queued, h.requests, h.cqes]
  · simp [h.cqes]

theorem reach_windowed {w : State} (h : eventLoop.Reach Windowed w) : w.Tabled ∧ Numbered w :=
  reach_invariant (P := fun w => w.Tabled ∧ Numbered w)
    (fun _ h₀ => ⟨tabled_init h₀, numbered_init h₀⟩)
    (fun _ _ _ _ hw hi hg he => ⟨tabled_step hw hi.1 (hg.fresh hi.1 hi.2) he,
      numbered_step hw hi.2 hg he⟩) h

/-- What holds of the table of one stream. -/
structure TableExact (w : State) (i : ℕ) (s : TcpStream) : Prop where
  /-- the table maps exactly the words of the sends in flight, to their vectors -/
  entry : ∀ k v, s.pendingSent.lookup k = some v ↔
    ∃ op ∈ w.outstanding, op.stream = i ∧ op.key = k ∧ op.vec = v
  /-- a vector holds the bytes passed to the write, under the word of its send id -/
  bytes : ∀ op ∈ w.outstanding, op.stream = i →
    op.key = .fromParts Event.send.toU8 s.ownerId (1000 + UInt32.ofNat op.seq) ∧
      (w.written i)[op.seq]? = some op.vec.bytes
  /-- no vector of a send in flight has been freed -/
  alive : ∀ op ∈ w.outstanding, op.stream = i → w.mem.vecs op.vec.ptr = some op.vec.bytes
  /-- no write that the window allows replaces an entry -/
  fresh : (∀ op ∈ w.outstanding, op.stream = i → (w.written i).length < op.seq + 2 ^ 32) →
    s.pendingSent.lookup s.sendKey = none
  /-- every completion of a send is accepted, and takes out its own entry -/
  completes : ∀ p ∈ w.cqes, ∀ op, p.request.origin = .send op → op.stream = i →
    UringWs.dispatch w.pool w.mem w.streams (some p.cqe) =
      .ok (w.streams.set i { s with pendingSent := s.pendingSent.erase op.key },
        w.mem.free op.vec.ptr)
  /-- a receive's completion leaves every table alone -/
  recv : ∀ p ∈ w.cqes, p.request.origin.event = .multishortRecv → ∀ streams mem,
    UringWs.dispatch w.pool w.mem w.streams (some p.cqe) = .ok (streams, mem) →
      streams.map TcpStream.pendingSent = w.streams.map TcpStream.pendingSent
  empty : (∀ op ∈ w.outstanding, op.stream ≠ i) → s.pendingSent = ∅

theorem Routed.recv_tables {w : State} (hw : Routed w) {p : Posted} (hp : p ∈ w.cqes)
    (ho : p.request.origin.event = .multishortRecv) {streams : List TcpStream} {mem : Memory}
    (h : UringWs.dispatch w.pool w.mem w.streams (some p.cqe) = .ok (streams, mem)) :
    streams.map TcpStream.pendingSent = w.streams.map TcpStream.pendingSent := by
  obtain ⟨s, hs, hd⟩ := hw.dispatch hp
  rw [hd, ho] at h
  simp only [Checked.bind_eq_ok, Prod.exists, Except.ok.injEq, Prod.mk.injEq] at h
  obtain ⟨c, -, s', mem', harm, rfl, -⟩ := h
  obtain ⟨-, -, -, kb, -, inner, -, he⟩ := TcpStream.onMultishortRecv_eq_ok.mp harm
  obtain ⟨rfl, -⟩ := Prod.mk.inj he
  rw [List.map_set]
  obtain ⟨hlt, rfl⟩ := List.getElem?_eq_some_iff.mp hs
  refine List.ext_getElem? fun j => ?_
  by_cases hj : p.request.origin.stream = j
  · subst hj
    simp [hlt]
  · simp [hj]

/-- In every run within the window the tables are exact. -/
theorem pending_sends_exact {w : State} (h : eventLoop.Reach Windowed w) {i : ℕ} {s : TcpStream}
    (hs : w.streams[i]? = some s) : TableExact w i s := by
  have hw := reach_routed h
  obtain ⟨ht, hn⟩ := reach_windowed h
  refine ⟨ht.entry i s hs, ?_, fun op hop _ => ht.alive op hop, fun hwin => hn.fresh ht hs hwin,
    ?_, fun p hp ho streams mem hd => hw.recv_tables hp ho hd, ?_⟩
  · rintro op hop rfl
    obtain ⟨hreq, hbytes, -⟩ := hn.op op hop
    rw [(hw.stream hs).1, ← hreq]
    exact ⟨rfl, hbytes⟩
  · rintro p hp op ho rfl
    have hop : op ∈ w.outstanding := List.mem_append_right _ (mem_finished hp ho)
    obtain ⟨-, -, hpos, -⟩ := hn.op op hop
    have hc := hn.posted p hp op ho
    exact hw.process_send hp ho hs hc.buffer hc.bufMore (by rw [hc.res]; exact_mod_cast hpos)
      ((ht.entry _ s hs _ _).mpr ⟨op, hop, rfl, rfl, rfl⟩) hc.res.symm
  · intro hnone
    refine Finmap.ext_lookup fun k => ?_
    rw [Finmap.lookup_empty]
    by_contra hne
    obtain ⟨v, hv⟩ := Option.ne_none_iff_exists'.mp hne
    obtain ⟨op, hop, hst, -⟩ := (ht.entry i s hs k v).mp hv
    exact hnone op hop hst

/-- Two sends in flight, of which the later one completes first and is handled. -/
theorem pending_sends_exact_posted : ∃ w s, w.streams[0]? = some s ∧
    w.outstanding = [firstSend [1]] ∧ w.written 0 = [[1], [2]] ∧
    s.pendingSent.lookup (firstSend [1]).key = some ⟨0, [1]⟩ ∧
    s.pendingSent.lookup (secondSend [2]).key = none ∧ TableExact w 0 s := by
  obtain ⟨sq, slot, slot₀, slot₁, h⟩ := reach_sendingTwo (G := Windowed) idleSocket 1200 [1] [2]
    (by decide) (by decide) trivial (fun _ _ => trivial)
    (fun _ _ => ⟨by decide, fun _ hop => nomatch hop⟩)
    (fun w _ hw => ⟨by decide, fun op _ _ => by rw [hw]; exact Nat.lt_add_left _ (by decide)⟩)
  have h₁ := reach_sent h (secondSend [2]) (k := 2) rfl rfl rfl rfl (by decide) trivial
  have hne : (firstSend [1]).key ≠ (secondSend [2]).key := by decide
  have hdone := (reach_routed h₁).process_send (List.mem_singleton_self _) rfl rfl
    (fun hb => hb (show (0 : UInt32) &&& ioringCqeFBuffer = 0 by decide))
    (fun hb => hb (show (0 : UInt32) &&& ioringCqeFBufMore = 0 by decide))
    (show 0 < (Int32.ofNat 1).toInt by decide) (Finmap.lookup_insert _)
    (show ((1 : ℕ) : ℤ) = (Int32.ofNat 1).toInt by decide)
  have h₂ := h₁.next (a := Action.process) trivial (.process rfl hdone)
  refine ⟨_, _, rfl, rfl, rfl, ?_, Finmap.lookup_erase _ _, pending_sends_exact h₂ rfl⟩
  refine (Finmap.lookup_erase_ne hne).trans ((Finmap.lookup_insert_of_ne _ hne).trans ?_)
  exact Finmap.lookup_insert _

end UringWs.EventLoop
