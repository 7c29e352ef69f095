import UringWs.System.Effects

/-! # Sends in flight and the table of pending sends

A send is prepared, executed and completed. While it is in flight its stream's
table holds its bytes under its word, provided no write reuses a word that is
still in the table.
-/
namespace UringWs.EventLoop

def Origin.sendOp? : Origin → Option SendOp
  | .recv .. => none
  | .send op => some op

def sendsOf (os : List Origin) : List SendOp := os.filterMap Origin.sendOp?

/-- The sends the kernel has still to execute: prepared, or submitted. -/
def State.unexecuted (w : State) : List SendOp :=
  sendsOf (w.queued ++ w.requests.map Request.origin)

def State.finished (w : State) : List SendOp := sendsOf (w.cqes.map fun p => p.request.origin)

/-- The sends prepared and not yet completed. -/
def State.outstanding (w : State) : List SendOp := w.unexecuted ++ w.finished

@[simp] theorem sendsOf_append (os os' : List Origin) :
    sendsOf (os ++ os') = sendsOf os ++ sendsOf os' := List.filterMap_append

@[simp] theorem sendsOf_recv (i : ℕ) (recvId : UInt32) (os : List Origin) :
    sendsOf (.recv i recvId :: os) = sendsOf os := rfl

@[simp] theorem sendsOf_send (op : SendOp) (os : List Origin) :
    sendsOf (.send op :: os) = op :: sendsOf os := rfl

@[simp] theorem sendsOf_nil : sendsOf [] = [] := rfl

theorem mem_sendsOf {os : List Origin} {op : SendOp} : op ∈ sendsOf os ↔ .send op ∈ os := by
  rw [sendsOf, List.mem_filterMap]
  constructor
  · rintro ⟨o, ho, h⟩
    cases o with
    | recv i recvId => cases h
    | send op' => cases h; exact ho
  · exact fun h => ⟨_, h, rfl⟩

theorem mem_unexecuted {w : State} {k : ℕ} {r : Request} {op : SendOp}
    (hr : w.requests[k]? = some r) (ho : r.origin = .send op) : op ∈ w.unexecuted := by
  simp only [State.unexecuted, mem_sendsOf, List.mem_append, List.mem_map]
  exact .inr ⟨r, List.mem_of_getElem? hr, ho⟩

theorem mem_finished {w : State} {p : Posted} {op : SendOp} (hp : p ∈ w.cqes)
    (ho : p.request.origin = .send op) : op ∈ w.finished := by
  simp only [State.finished, mem_sendsOf, List.mem_map]
  exact ⟨p, hp, ho⟩

theorem sendsOf_eraseIdx {requests : List Request} {k : ℕ} {r : Request}
    (hr : requests[k]? = some r) : (sendsOf (requests.map Request.origin)).Perm
      (sendsOf (r.origin :: (requests.eraseIdx k).map Request.origin)) :=
  ((perm_cons_eraseIdx hr).map Request.origin).filterMap _

theorem sendsOf_leftAfter {requests : List Request} {k : ℕ} {r : Request} {cqe : IoUringCqe}
    (hr : requests[k]? = some r) (ho : r.origin.event = .multishortRecv) :
    (sendsOf ((leftAfter requests k cqe).map Request.origin)).Perm
      (sendsOf (requests.map Request.origin)) := by
  unfold leftAfter
  split
  · exact .refl _
  · have h := sendsOf_eraseIdx hr
    cases hor : r.origin with
    | recv i recvId =>
      rw [hor] at h
      exact h.symm
    | send op => simp [hor, Origin.event] at ho

theorem unexecuted_submit {w : State} (hw : Routed w) (n : ℕ) :
    (sendsOf (w.queued.drop n ++ (w.requests ++
      List.zipWith Request.mk (w.sq.queue.take n) (w.queued.take n)).map Request.origin)).Perm
      w.unexecuted := by
  rw [List.map_append, map_origin_zipWith hw.queued, State.unexecuted]
  apply List.Perm.filterMap _
  apply List.perm_append_comm.trans
  rw [List.append_assoc, List.take_append_drop]
  exact List.perm_append_comm

theorem Routed.outstanding_lt {w : State} (hw : Routed w) {op : SendOp}
    (h : op ∈ w.outstanding) : op.stream < w.streams.length := by
  have hprep : ∃ sqe, Prepared w.configs sqe (.send op) := by
    simp only [State.outstanding, State.unexecuted, State.finished, List.mem_append, mem_sendsOf,
      List.mem_map] at h
    rcases h with (hq | ⟨r, hr, ho⟩) | ⟨p, hp, ho⟩
    · obtain ⟨k, hk, he⟩ := List.getElem_of_mem hq
      have hk' : k < w.sq.queue.length := hw.queued.length_eq ▸ hk
      have hget : w.queued.get ⟨k, hk⟩ = .send op := he
      exact ⟨_, hget ▸ hw.queued.get hk' hk⟩
    · exact ⟨_, ho ▸ hw.requests r hr⟩
    · exact ⟨_, ho ▸ (hw.cqes p hp).2⟩
  obtain ⟨sqe, hprep⟩ := hprep
  exact hprep.stream_lt

/-! ### The table -/

/-- The tables of the streams hold exactly the given sends, each with a word and
a vector of its own, and no vector has been freed. -/
structure Table (ops : List SendOp) (streams : List TcpStream)
    (vecs : ℕ → Option (List UInt8)) : Prop where
  keys : (ops.map SendOp.key).Nodup
  ptrs : (ops.map fun op => op.vec.ptr).Nodup
  entry : ∀ i s, streams[i]? = some s → ∀ k v, s.pendingSent.lookup k = some v ↔
    ∃ op ∈ ops, op.stream = i ∧ op.key = k ∧ op.vec = v
  alive : ∀ op ∈ ops, vecs op.vec.ptr = some op.vec.bytes

variable {ops ops' : List SendOp} {streams : List TcpStream} {vecs : ℕ → Option (List UInt8)}

theorem Table.perm (h : Table ops streams vecs) (hp : ops.Perm ops') :
    Table ops' streams vecs := by
  refine ⟨(hp.map _).nodup_iff.mp h.keys, (hp.map _).nodup_iff.mp h.ptrs, ?_, ?_⟩
  · intro i s hs k v
    rw [h.entry i s hs k v]
    exact exists_congr fun op => and_congr_left fun _ => hp.mem_iff
  · exact fun op hop => h.alive op (hp.mem_iff.mpr hop)

theorem Table.set (h : Table ops streams vecs) {i : ℕ} {s s' : TcpStream}
    (hs : streams[i]? = some s) (hp : s'.pendingSent = s.pendingSent) :
    Table ops (streams.set i s') vecs := by
  refine ⟨h.keys, h.ptrs, ?_, h.alive⟩
  intro j t ht
  rcases getElem?_set_eq_some ht with ⟨rfl, rfl⟩ | ⟨-, ht⟩
  · rw [hp]
    exact h.entry j s hs
  · exact h.entry j t ht

theorem Table.connect (h : Table ops streams vecs) {s : TcpStream} (hp : s.pendingSent = ∅)
    (hlt : ∀ op ∈ ops, op.stream < streams.length) : Table ops (streams ++ [s]) vecs := by
  refine ⟨h.keys, h.ptrs, ?_, h.alive⟩
  intro i t ht k v
  rcases getElem?_concat_eq_some ht with ⟨-, ht⟩ | ⟨rfl, rfl⟩
  · exact h.entry i t ht k v
  · have hnone : ¬ ∃ op ∈ ops, op.stream = streams.length ∧ op.key = k ∧ op.vec = v := by
      rintro ⟨op, hop, hst, -⟩
      exact absurd (hlt op hop) (by omega)
    simp [hp, hnone]

/-- A send in flight with the same word would be one of this stream. -/
theorem Table.key_ne (h : Table ops streams vecs) {i : ℕ} {s : TcpStream}
    (hs : streams[i]? = some s) (howner : s.ownerId = UInt16.ofNat i)
    (hlt : ∀ op ∈ ops, op.stream < streams.length) (hfew : streams.length ≤ maxBufferGroup)
    (hfresh : s.pendingSent.lookup s.sendKey = none) : ∀ op ∈ ops, op.key ≠ s.sendKey := by
  intro op hop he
  have hi : i < streams.length := (List.getElem?_eq_some_iff.mp hs).1
  have hst : op.stream = i := by
    by_contra hne
    rw [TcpStream.sendKey, howner] at he
    exact ofNat_ne ((hlt op hop).trans_le hfew) (hi.trans_le hfew) hne
      (UserData.fromParts_inj.mp he).2.1
  have hlookup := (h.entry i s hs op.key op.vec).mpr ⟨op, hop, hst, rfl, rfl⟩
  rw [he, hfresh] at hlookup
  cases hlookup

theorem Table.ptr_ne (h : Table ops streams vecs) {ptr : ℕ} (hptr : vecs ptr = none) :
    ∀ op ∈ ops, op.vec.ptr ≠ ptr := by
  intro op hop he
  have halive := h.alive op hop
  rw [he, hptr] at halive
  cases halive

theorem Table.write (h : Table ops streams vecs) {i ptr : ℕ} (seq : ℕ) (buf : List UInt8)
    {s : TcpStream} (hs : streams[i]? = some s) (howner : s.ownerId = UInt16.ofNat i)
    (hlt : ∀ op ∈ ops, op.stream < streams.length) (hfew : streams.length ≤ maxBufferGroup)
    (hfresh : s.pendingSent.lookup s.sendKey = none) (hptr : vecs ptr = none) :
    Table (⟨i, seq, s.sendId, ⟨ptr, buf⟩⟩ :: ops) (streams.set i (s.written ptr buf))
      (Function.update vecs ptr (some buf)) := by
  have hkey : SendOp.key ⟨i, seq, s.sendId, ⟨ptr, buf⟩⟩ = s.sendKey := by
    rw [TcpStream.sendKey, howner]
    rfl
  have hnew := h.key_ne hs howner hlt hfew hfresh
  have hptrs := h.ptr_ne hptr
  refine ⟨?_, ?_, ?_, ?_⟩
  · rw [List.map_cons, List.nodup_cons, hkey]
    refine ⟨fun hm => ?_, h.keys⟩
    obtain ⟨op, hop, he⟩ := List.mem_map.mp hm
    exact hnew op hop he
  · rw [List.map_cons, List.nodup_cons]
    refine ⟨fun hm => ?_, h.ptrs⟩
    obtain ⟨op, hop, he⟩ := List.mem_map.mp hm
    exact hptrs op hop he
  · intro j t ht k v
    simp only [List.mem_cons, exists_eq_or_imp, hkey]
    rcases getElem?_set_eq_some ht with ⟨rfl, rfl⟩ | ⟨hne, ht⟩
    · rw [TcpStream.written]
      by_cases hk : k = s.sendKey
      · subst hk
        rw [Finmap.lookup_insert]
        constructor
        · intro he
          exact .inl ⟨rfl, rfl, Option.some.inj he⟩
        · rintro (⟨-, -, rfl⟩ | ⟨op, hop, -, he, -⟩)
          · rfl
          · exact absurd he (hnew op hop)
      · rw [Finmap.lookup_insert_of_ne _ hk, h.entry j s hs k v]
        simp [Ne.symm hk]
    · rw [h.entry j t ht k v]
      simp [Ne.symm hne]
  · intro op hop
    rcases List.mem_cons.mp hop with rfl | hop
    · simp
    · rw [Function.update_of_ne (hptrs op hop)]
      exact h.alive op hop

theorem Table.complete {op : SendOp} (h : Table (op :: ops) streams vecs) {s s' : TcpStream}
    (hs : streams[op.stream]? = some s) (hs' : s'.pendingSent = s.pendingSent.erase op.key) :
    Table ops (streams.set op.stream s') (Function.update vecs op.vec.ptr none) := by
  have hkeys := List.nodup_cons.mp h.keys
  have hptrs := List.nodup_cons.mp h.ptrs
  refine ⟨hkeys.2, hptrs.2, ?_, ?_⟩
  · intro i t ht k v
    rcases getElem?_set_eq_some ht with ⟨rfl, rfl⟩ | ⟨hne, ht⟩
    · rw [hs']
      by_cases hk : k = op.key
      · subst hk
        rw [Finmap.lookup_erase]
        constructor
        · intro he
          cases he
        · rintro ⟨op', hop', -, he, -⟩
          exact absurd (List.mem_map.mpr ⟨op', hop', he⟩) hkeys.1
      · rw [Finmap.lookup_erase_ne hk, h.entry _ s hs k v]
        simp [Ne.symm hk]
    · rw [h.entry i t ht k v]
      simp [Ne.symm hne]
  · intro op' hop'
    have hne : op'.vec.ptr ≠ op.vec.ptr := fun he => hptrs.1 (List.mem_map.mpr ⟨op', hop', he⟩)
    rw [Function.update_of_ne hne]
    exact h.alive op' (List.mem_cons_of_mem _ hop')

/-! ### The table along a run -/

/-- A send completes only by putting its bytes on the socket. -/
def SendsComplete (w : State) : Action → Prop
  | .other k _ _ => ∀ r, w.requests[k]? = some r → r.origin.event = .multishortRecv
  | _ => True

/-- Moreover no write reuses a word that is still in its stream's table. -/
def FreshKeys (w : State) : Action → Prop
  | .write i _ _ => ∀ s, w.streams[i]? = some s → s.pendingSent.lookup s.sendKey = none
  | a => SendsComplete w a

theorem FreshKeys.sendsComplete {w : State} {a : Action} (h : FreshKeys w a) :
    SendsComplete w a := by
  cases a with
  | other => exact h
  | _ => trivial

/-- The bytes of every send in flight are where its stream's table says. -/
abbrev State.Tabled (w : State) : Prop := Table w.outstanding w.streams w.mem.vecs

theorem outstanding_post {w w' : State} {k : ℕ} {r : Request} {cqe : IoUringCqe}
    (hr : w.requests[k]? = some r) (ho : r.origin.event = .multishortRecv)
    (hqueued : w'.queued = w.queued) (hreq : w'.requests = leftAfter w.requests k cqe)
    (hcqes : w'.cqes = w.cqes ++ [⟨cqe, r⟩]) : w.outstanding.Perm w'.outstanding := by
  have hfin : w'.finished = w.finished := by
    cases hor : r.origin with
    | recv i recvId => simp [State.finished, hcqes, hor]
    | send op => simp [hor, Origin.event] at ho
  simp only [State.outstanding, State.unexecuted, hfin, hqueued, hreq, sendsOf_append]
  exact ((sendsOf_leftAfter hr ho).symm.append_left _).append_right _

theorem outstanding_write {w : State} {op : SendOp} {queued : List Origin}
    (hq : queued = w.queued ++ [.send op]) :
    (op :: w.outstanding).Perm
      (sendsOf (queued ++ w.requests.map Request.origin) ++ w.finished) := by
  simp only [State.outstanding, State.unexecuted, hq, sendsOf_append, sendsOf_send,
    List.append_assoc, List.singleton_append]
  exact List.perm_middle.symm

theorem outstanding_sent {w w' : State} {k : ℕ} {r : Request} {op : SendOp} {cqe : IoUringCqe}
    (hr : w.requests[k]? = some r) (ho : r.origin = .send op) (hqueued : w'.queued = w.queued)
    (hreq : w'.requests = w.requests.eraseIdx k) (hcqes : w'.cqes = w.cqes ++ [⟨cqe, r⟩]) :
    w.outstanding.Perm w'.outstanding := by
  have he := sendsOf_eraseIdx hr
  rw [ho, sendsOf_send] at he
  simp only [State.outstanding, State.unexecuted, State.finished, hqueued, hreq, hcqes,
    sendsOf_append, List.map_append, List.map_cons, List.map_nil, ho, sendsOf_send, sendsOf_nil,
    List.append_assoc]
  refine List.Perm.append_left _ ((he.append_right _).trans ?_)
  rw [List.cons_append, ← List.append_assoc]
  exact (List.perm_append_singleton _ _).symm

theorem outstanding_recvDone {w w' : State} {p : Posted} {i : ℕ} {recvId : UInt32}
    (hc : w.cqes = p :: w'.cqes) (ho : p.request.origin = .recv i recvId)
    (hqueued : w'.queued = w.queued) (hreq : w'.requests = w.requests) :
    w.outstanding.Perm w'.outstanding := by
  apply List.Perm.of_eq
  simp [State.outstanding, State.unexecuted, State.finished, hc, ho, hqueued, hreq]

/-- A send is no longer in flight once its completion is processed. -/
theorem outstanding_sendDone {w w' : State} {p : Posted} {op : SendOp}
    (hc : w.cqes = p :: w'.cqes) (ho : p.request.origin = .send op)
    (hqueued : w'.queued = w.queued) (hreq : w'.requests = w.requests) :
    w.outstanding.Perm (op :: w'.outstanding) := by
  simp only [State.outstanding, State.unexecuted, State.finished, hc, ho, hqueued, hreq,
    List.map_cons, sendsOf_send]
  exact List.perm_middle

theorem tabled_step {w w' : State} {a : Action} (hw : Routed w) (ht : w.Tabled)
    (hg : FreshKeys w a) (he : Effect w a w') : w'.Tabled := by
  cases he with
  | @connect raw recvId ring base sq slot hlt hring htail hblock hsq hqueue =>
    have h := Table.connect ht (s := freshStream raw (UInt16.ofNat w.streams.length) recvId) rfl
      (fun op hop => hw.outstanding_lt hop)
    refine Table.perm h (.of_eq ?_)
    simp [State.outstanding, State.unexecuted, State.finished]
  | @write i ptr buf s sq slot hs hptr hpos hsq hqueue =>
    have h := Table.write ht (w.written i).length buf hs (hw.stream hs).1
      (fun op hop => hw.outstanding_lt hop) hw.few (hg s hs) hptr
    have hmem : (s.writtenMem w.mem ptr buf).vecs = Function.update w.mem.vecs ptr (some buf) := by
      rw [TcpStream.writtenMem_of_fresh (hg s hs)]
      rfl
    rw [State.Tabled, hmem]
    exact h.perm (outstanding_write rfl)
  | submit hn => exact ht.perm ((unexecuted_submit hw _).symm.append_right _)
  | recv hr ho hs hg' havail hpos hlen hcqe hbuffer hbid hbufMore =>
    exact ht.perm (outstanding_post hr (by rw [ho]; rfl) rfl rfl rfl)
  | sent hr ho hready hout hres hcqe hbuffer hbufMore =>
    exact ht.perm (outstanding_sent hr ho rfl rfl rfl)
  | other hr hcqe => exact ht.perm (outstanding_post hr (hg _ hr) rfl rfl rfl)
  | @recvDone p rest i recvId s kb inner hc ho hs hget hitems =>
    have hp : w.outstanding.Perm (State.outstanding { w with cqes := rest }) :=
      outstanding_recvDone hc ho rfl rfl
    exact (ht.perm hp).set hs rfl
  | @sendDone p rest op s v hc ho hs hlookup hlen =>
    have hp : w.outstanding.Perm (op :: State.outstanding { w with cqes := rest }) :=
      outstanding_sendDone hc ho rfl rfl
    have hv : op.vec = v := by
      have hlk : s.pendingSent.lookup op.key = some op.vec := (ht.entry _ s hs _ _).mpr
        ⟨op, hp.mem_iff.mpr List.mem_cons_self, rfl, rfl, rfl⟩
      rw [ho] at hlookup
      exact Option.some.inj (hlk.symm.trans hlookup)
    rw [← hv]
    exact (ht.perm hp).complete hs (by rw [ho]; rfl)
  | readEmpty hs hitems => exact ht
  | readPart hs hitems hpos hlt => exact ht.set hs rfl
  | readDrain hs hitems hrem hle => exact ht.set hs rfl

theorem tabled_init {w : State} (h : Init w) : w.Tabled := by
  have ho : w.outstanding = [] := by
    simp [State.outstanding, State.unexecuted, State.finished, h.queued, h.requests, h.cqes]
  rw [State.Tabled, ho, h.streams]
  exact ⟨by simp, by simp, by simp, by simp⟩

end UringWs.EventLoop
