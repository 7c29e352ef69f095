import UringWs.System.Custody
import UringWs.System.Progress

/-! # What a stream receives

The bytes the kernel receives for a stream are, in order, the bytes its reads
have returned, those left in its queued buffers and those of the completions
still to be processed.
-/
namespace UringWs.EventLoop
open Checked

/-- A receive posts only the buffers it fills. -/
def FillsOnly (w : State) : Action → Prop
  | .other k _ _ => ∀ r, w.requests[k]? = some r → r.origin.event = .send
  | _ => True

def State.unprocessed (w : State) (i : ℕ) : List IoUringCqe :=
  (w.cqes.filter fun p => p.request.origin.isRecv i).map Posted.cqe

/-- A stream has lost no byte, and its buffers are accounted for. -/
structure Intact (w : State) (i : ℕ) (s : TcpStream) (kg : KernelGroup) : Prop where
  custody : Custody kg w.mem s.inner.bufVec.items (w.unprocessed i)
  bytes : w.returned i ++ pendingBytes kg w.mem s.inner.bufVec.items (w.unprocessed i) =
    w.received i

/-- Groups share no ring and no block, and every stream is intact. -/
structure Received (w : State) : Prop where
  rings : ∀ g g' kg kg', w.groups g = some kg → w.groups g' = some kg' → kg.ring = kg'.ring → g = g'
  blocks : ∀ g g' kg kg', w.groups g = some kg → w.groups g' = some kg' → g ≠ g' →
    kg.base + blockSize ≤ kg'.base ∨ kg'.base + blockSize ≤ kg.base
  intact : ∀ i s kg, w.streams[i]? = some s → w.groups (UInt16.ofNat i) = some kg →
    Intact w i s kg
  unconnected : ∀ i, w.streams.length ≤ i → w.received i = [] ∧ w.returned i = []

variable {w w' : State}

theorem unprocessed_recv {i : ℕ} {recvId : UInt32} {p : Posted}
    (ho : p.request.origin = .recv i recvId) (hc : w'.cqes = w.cqes ++ [p]) :
    w'.unprocessed i = w.unprocessed i ++ [p.cqe] := by
  simp [State.unprocessed, hc, ho, isRecv_iff]

theorem unprocessed_post {i : ℕ} {p : Posted} (ho : p.request.origin.isRecv i = false)
    (hc : w'.cqes = w.cqes ++ [p]) : w'.unprocessed i = w.unprocessed i := by
  simp [State.unprocessed, hc, ho]

theorem unprocessed_done {i : ℕ} {p : Posted} (ho : p.request.origin.isRecv i = false)
    (hc : w.cqes = p :: w'.cqes) : w'.unprocessed i = w.unprocessed i := by
  simp [State.unprocessed, hc, ho]

theorem unprocessed_congr (hc : w'.cqes = w.cqes) (i : ℕ) :
    w'.unprocessed i = w.unprocessed i := by rw [State.unprocessed, hc, State.unprocessed]

theorem unprocessed_first {i : ℕ} {recvId : UInt32} {p : Posted}
    (ho : p.request.origin = .recv i recvId) (hc : w.cqes = p :: w'.cqes) :
    w.unprocessed i = p.cqe :: w'.unprocessed i := by
  simp [State.unprocessed, hc, ho, isRecv_iff]

theorem isRecv_of_ne {i j : ℕ} {recvId : UInt32} (h : i ≠ j) :
    (Origin.recv i recvId).isRecv j = false := by
  rw [← Bool.not_eq_true, isRecv_iff]
  exact h

theorem isRecv_of_send {o : Origin} (h : o.event = .send) (i : ℕ) : o.isRecv i = false := by
  cases o with
  | recv j recvId => cases h
  | send op => rfl

theorem Routed.ofNat_ne (hw : Routed w) {i j : ℕ} {s t : TcpStream} (hs : w.streams[i]? = some s)
    (ht : w.streams[j]? = some t) (h : i ≠ j) : UInt16.ofNat i ≠ UInt16.ofNat j :=
  EventLoop.ofNat_ne (hw.index_lt hs) (hw.index_lt ht) h

theorem Intact.frame {i : ℕ} {s s' : TcpStream} {kg : KernelGroup} (h : Intact w i s kg)
    (hring : w'.mem.rings kg.ring = w.mem.rings kg.ring)
    (hbytes : pendingBytes kg w'.mem s.inner.bufVec.items (w.unprocessed i) =
      pendingBytes kg w.mem s.inner.bufVec.items (w.unprocessed i))
    (hinner : s'.inner = s.inner) (hun : w'.unprocessed i = w.unprocessed i)
    (hreturned : w'.returned i = w.returned i) (hreceived : w'.received i = w.received i) :
    Intact w' i s' kg := by
  constructor
  · rw [hinner, hun]
    exact h.custody.of_ring hring
  · rw [hinner, hun, hreturned, hreceived, hbytes]
    exact h.bytes

theorem Received.frame (h : Received w) (hgroups : w'.groups = w.groups)
    (hstreams : ∀ (i : ℕ) (s' : TcpStream), w'.streams[i]? = some s' →
      ∃ s : TcpStream, w.streams[i]? = some s ∧ s'.inner = s.inner)
    (hlen : w.streams.length ≤ w'.streams.length) (hrings : w'.mem.rings = w.mem.rings)
    (hbytes : w'.mem.bytes = w.mem.bytes) (hun : ∀ i, w'.unprocessed i = w.unprocessed i)
    (hreturned : w'.returned = w.returned) (hreceived : w'.received = w.received) :
    Received w' := by
  refine ⟨?_, ?_, ?_, ?_⟩
  · rw [hgroups]
    exact h.rings
  · rw [hgroups]
    exact h.blocks
  · intro i s' kg hs' hg
    obtain ⟨s, hs, hinner⟩ := hstreams i s' hs'
    rw [hgroups] at hg
    exact (h.intact i s kg hs hg).frame (by rw [hrings]) (pendingBytes_congr hbytes) hinner (hun i)
      (by rw [hreturned]) (by rw [hreceived])
  · intro i hi
    rw [hreturned, hreceived]
    exact h.unconnected i (hlen.trans hi)

theorem Received.update (hw : Routed w) (h : Received w) {i : ℕ} {s s' : TcpStream}
    {kg kg' : KernelGroup} (hs : w.streams[i]? = some s) (hg : w.groups (UInt16.ofNat i) = some kg)
    (hstreams : w'.streams = w.streams.set i s')
    (hgroups : w'.groups = Function.update w.groups (UInt16.ofNat i) (some kg'))
    (hkring : kg'.ring = kg.ring) (hkbase : kg'.base = kg.base)
    (hrings : ∀ p ≠ kg.ring, w'.mem.rings p = w.mem.rings p)
    (hbytes : ∀ j ≠ i, ∀ t kj, w.streams[j]? = some t → w.groups (UInt16.ofNat j) = some kj →
      pendingBytes kj w'.mem t.inner.bufVec.items (w.unprocessed j) =
        pendingBytes kj w.mem t.inner.bufVec.items (w.unprocessed j))
    (hun : ∀ j ≠ i, w'.unprocessed j = w.unprocessed j)
    (hreturned : ∀ j ≠ i, w'.returned j = w.returned j)
    (hreceived : ∀ j ≠ i, w'.received j = w.received j) (hself : Intact w' i s' kg') :
    Received w' := by
  have hilt : i < w.streams.length := (List.getElem?_eq_some_iff.mp hs).1
  refine ⟨?_, ?_, ?_, ?_⟩
  · rw [hgroups]
    exact update_keeps_separate KernelGroup.ring h.rings hg hkring
  · intro g g' k k' hk hk' hne
    rw [hgroups] at hk hk'
    obtain ⟨k₀, h₀, hb⟩ := update_agree KernelGroup.base hg hkbase hk
    obtain ⟨k₁, h₁, hb'⟩ := update_agree KernelGroup.base hg hkbase hk'
    rw [hb, hb']
    exact h.blocks g g' k₀ k₁ h₀ h₁ hne
  · intro j t k ht hk
    rw [hstreams] at ht
    rw [hgroups] at hk
    rcases getElem?_set_eq_some ht with ⟨rfl, rfl⟩ | ⟨hne, ht⟩
    · rw [Function.update_self] at hk
      obtain rfl := Option.some.inj hk
      exact hself
    · have hgne := hw.ofNat_ne ht hs hne
      rw [Function.update_of_ne hgne] at hk
      refine (h.intact j t k ht hk).frame (hrings _ ?_) (hbytes j hne t k ht hk) rfl (hun j hne)
        (hreturned j hne) (hreceived j hne)
      exact fun he => hgne (h.rings _ _ _ _ hk hg he)
  · intro j hj
    have hne : j ≠ i := by
      rw [hstreams, List.length_set] at hj
      omega
    rw [hreturned j hne, hreceived j hne]
    apply h.unconnected j
    rwa [hstreams, List.length_set] at hj

theorem Received.connect (hw : Routed w) (h : Received w) {s : TcpStream} {ring : RingPtr}
    {base : ℕ} (hfew : w.streams.length < maxBufferGroup)
    (hring : ∀ g kg, w.groups g = some kg → kg.ring ≠ ring) (htail : (w.mem.rings ring).tail = 0)
    (hblock : ∀ g kg, w.groups g = some kg →
      base + blockSize ≤ kg.base ∨ kg.base + blockSize ≤ base)
    (hitems : s.inner.bufVec.items = []) (hstreams : w'.streams = w.streams ++ [s])
    (hgroups : w'.groups = Function.update w.groups (UInt16.ofNat w.streams.length)
      (some { ring, head := 0, base }))
    (hmem : w'.mem = w.mem.setRing ring (BufRingPool.filledRing (w.mem.rings ring) base))
    (hcqes : w'.cqes = w.cqes) (hreturned : w'.returned = w.returned)
    (hreceived : w'.received = w.received) : Received w' := by
  have hun : ∀ i, w'.unprocessed i = w.unprocessed i := unprocessed_congr hcqes
  refine ⟨?_, ?_, ?_, ?_⟩
  · rw [hgroups]
    exact update_separates KernelGroup.ring h.rings hring
  · intro g g' k k' hk hk' hne
    rw [hgroups] at hk hk'
    rcases update_eq_some hk with ⟨rfl, rfl⟩ | ⟨-, hk⟩ <;>
      rcases update_eq_some hk' with ⟨rfl, rfl⟩ | ⟨-, hk'⟩
    · exact absurd rfl hne
    · exact hblock _ _ hk'
    · exact (hblock _ _ hk).symm
    · exact h.blocks g g' k k' hk hk' hne
  · intro i t k ht hk
    rw [hstreams] at ht
    rw [hgroups] at hk
    rcases getElem?_concat_eq_some ht with ⟨hi, ht⟩ | ⟨rfl, rfl⟩
    · rw [Function.update_of_ne (ofNat_ne (hi.trans hfew) hfew hi.ne)] at hk
      refine (h.intact i t k ht hk).frame ?_ (pendingBytes_congr (by rw [hmem]; rfl)) rfl (hun i)
        (by rw [hreturned]) (by rw [hreceived])
      rw [hmem, Memory.setRing_ne _ _ (hring _ _ hk)]
    · rw [Function.update_self] at hk
      obtain rfl := Option.some.inj hk
      have hnil : w.unprocessed w.streams.length = [] := by
        refine List.map_eq_nil_iff.mpr (List.filter_eq_nil_iff.mpr fun p hp hr => ?_)
        have hlt := (hw.cqes p hp).2.stream_lt
        rw [isRecv_stream hr] at hlt
        exact Nat.lt_irrefl _ hlt
      obtain ⟨hrec, hret⟩ := h.unconnected w.streams.length le_rfl
      constructor
      · rw [hun, hnil, hitems]
        apply Custody.fresh htail
        rw [hmem, Memory.setRing_self]
      · rw [hun, hnil, hitems, hreturned, hreceived, hrec, hret]
        rfl
  · intro i hi
    rw [hstreams, List.length_append] at hi
    rw [hreturned, hreceived]
    exact h.unconnected i (by omega)

theorem Intact.reports {i : ℕ} {s : TcpStream} {kg : KernelGroup} (h : Intact w i s kg)
    {data : List UInt8} {cqe : IoUringCqe} (hpos : 0 < data.length)
    (hlen : data.length ≤ (kg.selected (w.mem.rings kg.ring)).len.toNat)
    (hres : cqe.res = Int32.ofNat data.length) (hbuffer : cqe.hasBuffer)
    (hbufMore : ¬ cqe.hasBufMore) : Reports cqe ∧ resAsUsize cqe.res = data.length := by
  have hle : data.length ≤ bufSize.toNat := by
    rw [h.custody.selected_eq] at hlen
    exact hlen
  have hint : cqe.res.toInt = data.length := by
    have hle : data.length ≤ 1500 := hle
    rw [hres]
    exact Int32.toInt_ofNat_of_lt (show data.length < 2 ^ 31 by omega)
  have hreports : Reports cqe := ⟨hbuffer, hbufMore, by omega, by omega⟩
  have hsize := hreports.resAsUsize_eq
  exact ⟨hreports, by omega⟩

theorem Intact.recv {i : ℕ} {s : TcpStream} {kg : KernelGroup} (h : Intact w i s kg)
    {data : List UInt8} {cqe : IoUringCqe} (havail : kg.head ≠ (w.mem.rings kg.ring).tail)
    (hpos : 0 < data.length)
    (hlen : data.length ≤ (kg.selected (w.mem.rings kg.ring)).len.toNat)
    (hres : cqe.res = Int32.ofNat data.length) (hbuffer : cqe.hasBuffer)
    (hbid : cqe.bufferId = (kg.selected (w.mem.rings kg.ring)).bid) (hbufMore : ¬ cqe.hasBufMore)
    (hmem : w'.mem = w.mem.store (kg.selected (w.mem.rings kg.ring)).addr data)
    (hun : w'.unprocessed i = w.unprocessed i ++ [cqe]) (hreturned : w'.returned i = w.returned i)
    (hreceived : w'.received i = w.received i ++ data) : Intact w' i s kg.advance := by
  obtain ⟨hreports, hsize⟩ := h.reports hpos hlen hres hbuffer hbufMore
  have hle : data.length ≤ bufSize.toNat := hsize ▸ hreports.resAsUsize_le
  constructor
  · rw [hmem, hun]
    exact h.custody.select havail hreports hbid
  · rw [hmem, hun, hreturned, hreceived, h.custody.select_bytes havail hle hsize hbid,
      ← List.append_assoc, h.bytes]

/-- The buffer selected for a stream overlaps none that another stream holds. -/
theorem Received.selected_other (h : Received w) {i j : ℕ} {s t : TcpStream} {kg kj : KernelGroup}
    (hs : w.streams[i]? = some s) (hg : w.groups (UInt16.ofNat i) = some kg)
    (ht : w.streams[j]? = some t) (hj : w.groups (UInt16.ofNat j) = some kj)
    (hne : UInt16.ofNat i ≠ UInt16.ofNat j) {data : List UInt8}
    (hlen : data.length ≤ (kg.selected (w.mem.rings kg.ring)).len.toNat) :
    ∀ b ∈ heldIds t.inner.bufVec.items (w.unprocessed j),
      (groupBuf kj.base b).addr + bufSize.toNat ≤ (kg.selected (w.mem.rings kg.ring)).addr ∨
      (kg.selected (w.mem.rings kg.ring)).addr + data.length ≤ (groupBuf kj.base b).addr := by
  intro b hb
  have hi := h.intact i s kg hs hg
  have hblock := h.blocks _ _ kg kj hg hj hne
  have hlt := (h.intact j t kj ht hj).custody.id_lt hb
  have hslot : kg.head.toNat % 1024 < 1024 := Nat.mod_lt _ (by decide)
  rw [hi.custody.selected_eq] at hlen ⊢
  have hsize : bufSize.toNat = 1500 := rfl
  have hbs : blockSize = 1024 * 1500 := rfl
  simp only [groupBuf, hsize, hbs] at *
  omega

theorem Received.store_other (h : Received w) {i j : ℕ} {s t : TcpStream} {kg kj : KernelGroup}
    (hs : w.streams[i]? = some s) (hg : w.groups (UInt16.ofNat i) = some kg)
    (ht : w.streams[j]? = some t) (hj : w.groups (UInt16.ofNat j) = some kj)
    (hne : UInt16.ofNat i ≠ UInt16.ofNat j) {data : List UInt8}
    (hlen : data.length ≤ (kg.selected (w.mem.rings kg.ring)).len.toNat) :
    pendingBytes kj (w.mem.store (kg.selected (w.mem.rings kg.ring)).addr data) t.inner.bufVec.items
      (w.unprocessed j) = pendingBytes kj w.mem t.inner.bufVec.items (w.unprocessed j) :=
  (h.intact j t kj ht hj).custody.pendingBytes_store _ _ (h.selected_other hs hg ht hj hne hlen)

theorem Received.stream (hw : Routed w) (h : Received w) {i : ℕ} {s : TcpStream}
    (hs : w.streams[i]? = some s) : ∃ kg, w.groups (UInt16.ofNat i) = some kg ∧
      w.pool.bufRingPtrs[i]? = some (some kg.ring) ∧ Intact w i s kg := by
  obtain ⟨kg, hkg, hpool⟩ := hw.groups i (List.getElem?_eq_some_iff.mp hs).1
  exact ⟨kg, hkg, hpool, h.intact i s kg hs hkg⟩

/-- The stream moves bytes on while the kernel's side of its group stays as it is. -/
theorem Received.move (hw : Routed w) (h : Received w) {i : ℕ} {s s' : TcpStream}
    {kg : KernelGroup} (hs : w.streams[i]? = some s) (hg : w.groups (UInt16.ofNat i) = some kg)
    (hstreams : w'.streams = w.streams.set i s') (hgroups : w'.groups = w.groups)
    (hrings : ∀ p ≠ kg.ring, w'.mem.rings p = w.mem.rings p)
    (hbytes : w'.mem.bytes = w.mem.bytes) (hun : ∀ j ≠ i, w'.unprocessed j = w.unprocessed j)
    (hreturned : ∀ j ≠ i, w'.returned j = w.returned j) (hreceived : w'.received = w.received)
    (hself : Intact w' i s' kg) : Received w' := by
  refine h.update hw hs hg hstreams ?_ rfl rfl hrings
    (fun _ _ _ _ _ _ => pendingBytes_congr hbytes) hun hreturned (fun _ _ => by rw [hreceived])
    hself
  rw [hgroups, ← hg, Function.update_eq_self]

theorem Received.recv (hw : Routed w) (h : Received w) {r : Request} {i : ℕ} {recvId : UInt32}
    {s : TcpStream} {kg : KernelGroup} {data : List UInt8} {cqe : IoUringCqe}
    (ho : r.origin = .recv i recvId) (hs : w.streams[i]? = some s)
    (hg : w.groups (UInt16.ofNat i) = some kg)
    (havail : kg.head ≠ (w.mem.rings kg.ring).tail) (hpos : 0 < data.length)
    (hlen : data.length ≤ (kg.selected (w.mem.rings kg.ring)).len.toNat)
    (hres : cqe.res = Int32.ofNat data.length) (hbuffer : cqe.hasBuffer)
    (hbid : cqe.bufferId = (kg.selected (w.mem.rings kg.ring)).bid) (hbufMore : ¬ cqe.hasBufMore)
    (hmem : w'.mem = w.mem.store (kg.selected (w.mem.rings kg.ring)).addr data)
    (hstreams : w'.streams = w.streams)
    (hgroups : w'.groups = Function.update w.groups (UInt16.ofNat i) (some kg.advance))
    (hcqes : w'.cqes = w.cqes ++ [⟨cqe, r⟩]) (hreturned : w'.returned = w.returned)
    (hreceived : w'.received = Function.update w.received i (w.received i ++ data)) :
    Received w' := by
  have hset : w.streams.set i s = w.streams := by
    obtain ⟨hlt, rfl⟩ := List.getElem?_eq_some_iff.mp hs
    exact List.set_getElem_self hlt
  have hself : Intact w' i s kg.advance :=
    (h.intact i s kg hs hg).recv havail hpos hlen hres hbuffer hbid hbufMore hmem
      (unprocessed_recv (p := ⟨cqe, r⟩) ho hcqes) (by rw [hreturned])
      (by rw [hreceived, Function.update_self])
  refine h.update hw hs hg (hstreams.trans hset.symm) hgroups rfl rfl (fun _ _ => by rw [hmem]; rfl)
    ?_ ?_ (fun _ _ => by rw [hreturned]) ?_ hself
  · intro j hj t kj ht hkj
    rw [hmem]
    exact h.store_other hs hg ht hkj (hw.ofNat_ne hs ht (Ne.symm hj)) hlen
  · intro j hj
    exact unprocessed_post (by rw [ho]; exact isRecv_of_ne (Ne.symm hj)) hcqes
  · intro j hj
    rw [hreceived, Function.update_of_ne hj]

theorem Received.recvDone (hw : Routed w) (h : Received w) {p : Posted} {i : ℕ} {recvId : UInt32}
    {s : TcpStream} {kb : KernelBuffer} {inner : KernelBufferVecReader}
    (hc : w.cqes = p :: w'.cqes) (ho : p.request.origin = .recv i recvId)
    (hs : w.streams[i]? = some s)
    (hget : w.pool.getReadBuf w.mem (UInt16.ofNat i) p.cqe.bufferId (resAsUsize p.cqe.res) =
      .ok kb)
    (hitems : inner.bufVec.items = s.inner.bufVec.items ++ [KernelBufferReader.new kb])
    (hmem : w'.mem = w.mem) (hstreams : w'.streams = w.streams.set i { s with inner })
    (hgroups : w'.groups = w.groups) (hreturned : w'.returned = w.returned)
    (hreceived : w'.received = w.received) : Received w' := by
  obtain ⟨kg, hkg, hpool, hcustody, hbytes⟩ := h.stream hw hs
  rw [unprocessed_first ho hc] at hcustody hbytes
  have hkb := hget
  rw [hcustody.getReadBuf (by rwa [ofNat_toNat_of_lt (hw.index_lt hs)])] at hkb
  have hkb := (Except.ok.inj hkb).symm
  have hgid : kb.bgid = UInt16.ofNat i := by rw [hkb]
  rw [← hgid] at hkb
  refine h.move hw hs hkg hstreams hgroups (fun _ _ => by rw [hmem]) (by rw [hmem]) ?_
    (fun _ _ => by rw [hreturned]) hreceived ⟨?_, ?_⟩
  · intro j hj
    exact unprocessed_done (by rw [ho]; exact isRecv_of_ne (Ne.symm hj)) hc
  · rw [hmem]
    simp only [hitems]
    exact hcustody.take hkb
  · rw [hmem, hreturned, hreceived, ← hbytes]
    simp only [hitems]
    exact congrArg _ (Custody.take_bytes hkb)

theorem Received.readPart (hw : Routed w) (h : Received w) {i n : ℕ} {s : TcpStream}
    {v : KernelBufferReader} {vs : List KernelBufferReader} (hs : w.streams[i]? = some s)
    (hitems : s.inner.bufVec.items = v :: vs) (hlt : n < v.remaining) (hmem : w'.mem = w.mem)
    (hstreams : w'.streams = w.streams.set i { s with
      inner := ⟨s.inner.bufVec.setFront { v with claimed := v.claimed + n }⟩ })
    (hgroups : w'.groups = w.groups) (hcqes : w'.cqes = w.cqes)
    (hreturned : w'.returned = Function.update w.returned i
      (w.returned i ++ (v.unread w.mem).take n))
    (hreceived : w'.received = w.received) : Received w' := by
  obtain ⟨kg, hkg, -, hcustody, hbytes⟩ := h.stream hw hs
  rw [hitems] at hcustody hbytes
  have hun : ∀ j, w'.unprocessed j = w.unprocessed j := unprocessed_congr hcqes
  refine h.move hw hs hkg hstreams hgroups (fun _ _ => by rw [hmem]) (by rw [hmem])
    (fun j _ => hun j) ?_ hreceived ⟨?_, ?_⟩
  · intro j hj
    rw [hreturned, Function.update_of_ne hj]
  · rw [hmem, hun]
    simp only [VecDeque.setFront, hitems]
    exact hcustody.part hlt
  · rw [hmem, hun, hreturned, hreceived, ← hbytes]
    simp only [VecDeque.setFront, hitems, Function.update_self]
    rw [List.append_assoc]
    exact congrArg _ (Custody.part_bytes _)

theorem Received.readDrain (hw : Routed w) (h : Received w) {i : ℕ} {s : TcpStream}
    {v : KernelBufferReader} {vs : List KernelBufferReader} (hs : w.streams[i]? = some s)
    (hitems : s.inner.bufVec.items = v :: vs) (hmem : w'.mem = bufRingAddAdvance w.mem v.buf)
    (hstreams : w'.streams = w.streams.set i { s with inner := ⟨s.inner.bufVec.popFront⟩ })
    (hgroups : w'.groups = w.groups) (hcqes : w'.cqes = w.cqes)
    (hreturned : w'.returned = Function.update w.returned i (w.returned i ++ v.unread w.mem))
    (hreceived : w'.received = w.received) : Received w' := by
  obtain ⟨kg, hkg, -, hcustody, hbytes⟩ := h.stream hw hs
  rw [hitems] at hcustody hbytes
  have hun : ∀ j, w'.unprocessed j = w.unprocessed j := unprocessed_congr hcqes
  have hring := (hcustody.readers v List.mem_cons_self).ring
  refine h.move hw hs hkg hstreams hgroups ?_ (by rw [hmem, bufRingAddAdvance_bytes])
    (fun j _ => hun j) ?_ hreceived ⟨?_, ?_⟩
  · intro p hp
    rw [hmem]
    exact bufRingAddAdvance_ne _ _ (by rwa [hring])
  · intro j hj
    rw [hreturned, Function.update_of_ne hj]
  · rw [hmem, hun]
    simp only [VecDeque.popFront, hitems]
    exact hcustody.drain
  · rw [hmem, hun, hreturned, hreceived, ← hbytes]
    simp only [VecDeque.popFront, hitems, Function.update_self]
    rw [List.append_assoc]
    exact congrArg _ Custody.drain_bytes

theorem received_step {a : Action} (hw : Routed w) (h : Received w) (hg : FillsOnly w a)
    (he : Effect w a w') : Received w' := by
  have hsame : ∀ (i : ℕ) (s : TcpStream), w.streams[i]? = some s →
      ∃ t : TcpStream, w.streams[i]? = some t ∧ s.inner = t.inner := fun _ s hs => ⟨s, hs, rfl⟩
  cases he with
  | @connect raw recvId ring base sq slot hlt hring htail hblock hsq hqueue =>
    exact h.connect hw hlt hring htail hblock rfl rfl rfl rfl rfl rfl rfl
  | write hs hptr hpos hsq hqueue =>
    exact h.frame rfl (getElem?_set_agree TcpStream.inner hs rfl) (by simp) (by simp) (by simp)
      (fun _ => rfl) rfl rfl
  | submit hn => exact h.frame rfl hsame le_rfl rfl rfl (fun _ => rfl) rfl rfl
  | recv hr ho hs hg' havail hpos hlen hcqe hbuffer hbid hbufMore =>
    exact h.recv hw ho hs hg' havail hpos hlen (by rw [hcqe]) hbuffer hbid hbufMore rfl rfl rfl rfl
      rfl rfl
  | sent hr ho hready hout hres hcqe hbuffer hbufMore =>
    exact h.frame rfl hsame le_rfl rfl rfl (fun _ => unprocessed_post (by rw [ho]; rfl) rfl) rfl rfl
  | @other k res flags r cqe hr hcqe =>
    exact h.frame rfl hsame le_rfl rfl rfl
      (fun i => unprocessed_post (isRecv_of_send (hg r hr) i) rfl) rfl rfl
  | recvDone hc ho hs hget hitems =>
    exact h.recvDone hw hc ho hs hget hitems rfl rfl rfl rfl rfl
  | sendDone hc ho hs hlookup hlen =>
    exact h.frame rfl (getElem?_set_agree TcpStream.inner hs rfl) (by simp) rfl rfl
      (fun _ => (unprocessed_done (by rw [ho]; rfl) hc)) rfl rfl
  | readEmpty hs hitems => exact h
  | readPart hs hitems hpos hlt => exact h.readPart hw hs hitems hlt rfl rfl rfl rfl rfl rfl
  | readDrain hs hitems hrem hle => exact h.readDrain hw hs hitems rfl rfl rfl rfl rfl rfl

theorem received_init (h : Init w) : Received w := by
  refine ⟨?_, ?_, ?_, fun i _ => ⟨h.received i, h.returned i⟩⟩
  · simp [h.groups]
  · simp [h.groups]
  · simp [h.streams]

theorem reach_received (h : eventLoop.Reach FillsOnly w) : Received w :=
  reach_invariant (fun _ h₀ => received_init h₀)
    (fun _ _ _ _ hw hr hg he => received_step hw hr hg he) h

/-- What every run guarantees about received bytes. -/
structure ReceiveIntegrity (w : State) : Prop where
  /-- no byte is lost, duplicated or reordered -/
  bytes : ∀ (i : ℕ) (s : TcpStream), w.streams[i]? = some s →
    ∃ kg, w.groups (UInt16.ofNat i) = some kg ∧
    w.returned i ++ s.inner.unread w.mem ++ (w.unprocessed i).flatMap (kg.chunk w.mem) =
      w.received i
  /-- every slot holds its own buffer -/
  slots : ∀ g kg, w.groups g = some kg → ∀ j < 1024,
    (w.mem.rings kg.ring).bufs j = groupBuf kg.base j
  /-- the next completion of a receive is accepted -/
  processed : ∀ p rest, w.cqes = p :: rest → p.request.origin.event = .multishortRecv →
    ∃ r, UringWs.dispatch w.pool w.mem w.streams (some p.cqe) = .ok r
  /-- a read into a nonempty destination runs into no assertion -/
  read : ∀ (i : ℕ) (s : TcpStream) (dest : List UInt8), w.streams[i]? = some s → 0 < dest.length →
    ∃ r, s.read w.mem dest = .ok r

/-- The next completion of a receive queues the buffer it names. -/
theorem Received.dispatch_recv (hw : Routed w) (h : Received w) {p : Posted} {rest : List Posted}
    {i : ℕ} {recvId : UInt32} {s : TcpStream} (hc : w.cqes = p :: rest)
    (ho : p.request.origin = .recv i recvId) (hs : w.streams[i]? = some s) :
    ∃ (kg : KernelGroup) (kb : KernelBuffer) (inner : KernelBufferVecReader),
      w.groups (UInt16.ofNat i) = some kg ∧ kb.bufRing = kg.ring ∧
      (kb.dataLen : ℤ) = p.cqe.res.toInt ∧
      inner.bufVec.items = s.inner.bufVec.items ++ [.new kb] ∧
      UringWs.dispatch w.pool w.mem w.streams (some p.cqe) =
        .ok (w.streams.set i { s with inner }, w.mem) := by
  obtain ⟨kg, hkg, hpool, hcustody, -⟩ := h.stream hw hs
  have hun : w.unprocessed i = p.cqe :: State.unprocessed { w with cqes := rest } i :=
    unprocessed_first ho hc
  rw [hun] at hcustody
  have hreports := hcustody.cqes p.cqe List.mem_cons_self
  obtain ⟨inner, hitems, hd⟩ := hw.process_recv (hc ▸ List.mem_cons_self) ho hs hreports.buffer
    hreports.bufMore hreports.res_pos
    (hcustody.getReadBuf (by rwa [ofNat_toNat_of_lt (hw.index_lt hs)]))
  exact ⟨kg, _, inner, hkg, rfl, hreports.resAsUsize_eq, hitems, hd⟩

theorem Received.processed (hw : Routed w) (h : Received w) {p : Posted} {rest : List Posted}
    (hc : w.cqes = p :: rest) (he : p.request.origin.event = .multishortRecv) :
    ∃ r, UringWs.dispatch w.pool w.mem w.streams (some p.cqe) = .ok r := by
  cases ho : p.request.origin with
  | send op =>
    rw [ho] at he
    cases he
  | recv i recvId =>
    have hlt := (hw.cqes p (hc ▸ List.mem_cons_self)).2.stream_lt
    rw [ho] at hlt
    obtain ⟨-, -, inner, -, -, -, -, hd⟩ :=
      h.dispatch_recv hw hc ho (List.getElem?_eq_getElem hlt)
    exact ⟨_, hd⟩

theorem Received.read (hw : Routed w) (h : Received w) {i : ℕ} {s : TcpStream} {dest : List UInt8}
    (hs : w.streams[i]? = some s) (hpos : 0 < dest.length) : ∃ r, s.read w.mem dest = .ok r := by
  obtain ⟨kg, -, -, hcustody, -⟩ := h.stream hw hs
  cases hitems : s.inner.bufVec.items with
  | nil =>
    exact ⟨_, TcpStream.read_nil (hw.stream hs).2 hitems w.mem dest⟩
  | cons v vs =>
    rw [hitems] at hcustody
    have hrem := (hcustody.readers v List.mem_cons_self).remaining
    rcases Nat.lt_or_ge dest.length v.remaining with hlt | hle
    · exact ⟨_, TcpStream.read_part (hw.stream hs).2 hitems w.mem hpos hlt⟩
    · exact ⟨_, TcpStream.read_drain (hw.stream hs).2 hitems w.mem hrem hle⟩

/-- The front buffer holds the bytes to be returned next. -/
theorem Received.front_unread (hw : Routed w) (h : Received w) {i : ℕ} {s : TcpStream}
    {v : KernelBufferReader} {vs : List KernelBufferReader} (hs : w.streams[i]? = some s)
    (hitems : s.inner.bufVec.items = v :: vs) :
    v.unread w.mem = ((w.received i).drop (w.returned i).length).take v.remaining := by
  obtain ⟨kg, -, -, -, hbytes⟩ := h.stream hw hs
  rw [← hbytes, List.drop_left, pendingBytes, hitems, List.flatMap_cons, List.append_assoc,
    List.take_left' (v.unread_length w.mem)]

/-! ### Runs of receives -/

/-- An armed stream receives as long as its group has a buffer left. -/
theorem Received.step_recv (hw : Routed w) (h : Received w) {i k : ℕ} {recvId : UInt32}
    {r : Request} {s : TcpStream} {data : List UInt8} (hr : w.requests[k]? = some r)
    (ho : r.origin = .recv i recvId) (hs : w.streams[i]? = some s)
    (hroom : s.inner.bufVec.items.length + (w.unprocessed i).length < 1024)
    (hpos : 0 < data.length) (hlen : data.length ≤ bufSize.toNat) :
    ∃ (kg : KernelGroup) (addr : ℕ) (cqe : IoUringCqe), w.groups (UInt16.ofNat i) = some kg ∧
      cqe.res.toInt = data.length ∧
      Step w (.recv k data cqe.flags) { w with
        mem := w.mem.store addr data
        groups := Function.update w.groups (UInt16.ofNat i) (some kg.advance)
        cqes := w.cqes ++ [⟨cqe, r⟩]
        history := w.history ++ [⟨cqe, r⟩]
        received := Function.update w.received i (w.received i ++ data) } := by
  obtain ⟨kg, hkg, -, hcustody, -⟩ := h.stream hw hs
  obtain ⟨c, slot, hc, hsqe⟩ := hw.requests r (List.mem_of_getElem? hr)
  rw [ho] at hc hsqe
  obtain ⟨rfl, hsqe⟩ := hsqe
  rw [(hw.configs i c hc).1] at hsqe
  have havail : kg.head ≠ (w.mem.rings kg.ring).tail := by
    intro he
    have hcount := hcustody.count
    rw [KernelGroup.available, he, UInt16.sub_self] at hcount
    have hzero : (0 : UInt16).toNat = 0 := rfl
    omega
  have hfits : data.length ≤ (kg.selected (w.mem.rings kg.ring)).len.toNat := by
    rw [hcustody.selected_eq]
    exact hlen
  have hshort : data.length < 2 ^ 31 := hlen.trans_lt (by decide)
  exact ⟨kg, _, _, hkg, Int32.toInt_ofNat_of_lt hshort,
    EventLoop.step_recv hr ho hsqe hkg havail hpos hfits _
      (show recvCqe r.origin.word (Int32.ofNat data.length) _ true = _ from rfl)⟩

section Runs
variable {G : State → Action → Prop} (hG : ∀ w a, G w a → FillsOnly w a)
  (h : eventLoop.Reach G w) {i : ℕ} {recvId : UInt32} {s : TcpStream}
include hG h

theorem reach_recv {k : ℕ} {r : Request} (hr : w.requests[k]? = some r)
    (ho : r.origin = .recv i recvId) (hs : w.streams[i]? = some s)
    (hroom : s.inner.bufVec.items.length + (w.unprocessed i).length < 1024) (data : List UInt8)
    (hpos : 0 < data.length) (hlen : data.length ≤ bufSize.toNat)
    (hguard : ∀ flags, G w (.recv k data flags)) :
    ∃ (kg : KernelGroup) (addr : ℕ) (cqe : IoUringCqe), w.groups (UInt16.ofNat i) = some kg ∧
      cqe.res.toInt = data.length ∧
      eventLoop.Reach G { w with
        mem := w.mem.store addr data
        groups := Function.update w.groups (UInt16.ofNat i) (some kg.advance)
        cqes := w.cqes ++ [⟨cqe, r⟩]
        history := w.history ++ [⟨cqe, r⟩]
        received := Function.update w.received i (w.received i ++ data) } := by
  obtain ⟨kg, addr, cqe, hkg, hres, hs⟩ :=
    (reach_received (h.mono hG)).step_recv (reach_routed h) hr ho hs hroom hpos hlen
  exact ⟨kg, addr, cqe, hkg, hres, h.next (hguard _) hs⟩

theorem reach_process {p : Posted} {rest : List Posted} (hc : w.cqes = p :: rest)
    (ho : p.request.origin = .recv i recvId) (hs : w.streams[i]? = some s) (hguard : G w .process) :
    ∃ (kg : KernelGroup) (v : KernelBufferReader) (inner : KernelBufferVecReader),
      w.groups (UInt16.ofNat i) = some kg ∧ v.buf.bufRing = kg.ring ∧
      (v.remaining : ℤ) = p.cqe.res.toInt ∧
      inner.bufVec.items = s.inner.bufVec.items ++ [v] ∧
      eventLoop.Reach G { w with streams := w.streams.set i { s with inner }, cqes := rest } := by
  obtain ⟨kg, kb, inner, hkg, hring, hlen, hitems, hd⟩ :=
    (reach_received (h.mono hG)).dispatch_recv (reach_routed h) hc ho hs
  exact ⟨kg, .new kb, inner, hkg, hring, hlen, hitems, h.next hguard (.process hc hd)⟩

theorem reach_read {v : KernelBufferReader} {vs : List KernelBufferReader} (dest : List UInt8)
    (hs : w.streams[i]? = some s) (hitems : s.inner.bufVec.items = v :: vs)
    (hrem : 0 < v.remaining) (hle : v.remaining ≤ dest.length) (hguard : G w (.read i dest)) :
    eventLoop.Reach G { w with
      mem := bufRingAddAdvance w.mem v.buf
      streams := w.streams.set i { s with inner := ⟨s.inner.bufVec.popFront⟩ }
      returned := Function.update w.returned i (w.returned i ++
        ((w.received i).drop (w.returned i).length).take v.remaining) } := by
  have hread := reach_read_drain h dest hguard hs hitems hrem hle
  rwa [(reach_received (h.mono hG)).front_unread (reach_routed h) hs hitems] at hread

end Runs

/-- Receive integrity holds in every run. -/
theorem received_in_order (h : eventLoop.Reach FillsOnly w) : ReceiveIntegrity w := by
  have hw := reach_routed h
  have hr := reach_received h
  refine ⟨?_, ?_, fun p rest hc he => hr.processed hw hc he,
    fun i s dest hs hpos => hr.read hw hs hpos⟩
  · intro i s hs
    obtain ⟨kg, hkg, -, -, hbytes⟩ := hr.stream hw hs
    refine ⟨kg, hkg, ?_⟩
    rw [List.append_assoc]
    exact hbytes
  · intro g kg hg
    have hlt := hw.connected g kg hg
    obtain ⟨s, hs⟩ : ∃ s, w.streams[g.toNat]? = some s := ⟨_, List.getElem?_eq_getElem hlt⟩
    have hof : UInt16.ofNat g.toNat = g := UInt16.ofNat_toNat
    exact (hr.intact _ s kg hs (by rwa [hof])).custody.slots

/-- Two completions, of which the first one's buffer is read to its end and is
back in the ring. -/
theorem received_in_order_read : ∃ w : State, w.received 0 = [1, 2, 3, 4, 5] ∧
    w.returned 0 = [1, 2, 3] ∧ (w.mem.rings 0).tail = 1025 ∧ ReceiveIntegrity w := by
  obtain ⟨sq, slot, -, -, -, h⟩ := reach_armed (G := FillsOnly) idleSocket 1200 trivial
    (fun _ _ => trivial)
  obtain ⟨_, _, c₁, hkg₁, hres₁, h₁⟩ := reach_recv (fun _ _ => id) h (i := 0) (k := 0) rfl rfl rfl
    (show 0 + 0 < 1024 by decide) [1, 2, 3] (by decide) (by decide) fun _ => trivial
  obtain ⟨_, _, c₂, hkg₂, -, h₂⟩ := reach_recv (fun _ _ => id) h₁ (i := 0) (k := 0) rfl rfl rfl
    (show 0 + 1 < 1024 by decide) [4, 5] (by decide) (by decide) fun _ => trivial
  obtain ⟨kg, v₁, inner₁, hkg, hring₁, hrem₁, hitems₁, h₃⟩ :=
    reach_process (fun _ _ => id) h₂ (i := 0) rfl rfl rfl trivial
  obtain ⟨_, v₂, inner₂, -, -, -, hitems₂, h₄⟩ :=
    reach_process (fun _ _ => id) h₃ (i := 0) rfl rfl rfl trivial
  have hrem : v₁.remaining = 3 := by
    rw [hres₁] at hrem₁
    exact_mod_cast hrem₁
  have hitems : inner₂.bufVec.items = [v₁, v₂] := by
    rw [hitems₂]
    exact congrArg (· ++ [v₂]) hitems₁
  have h₅ := reach_read (fun _ _ => id) h₄ (i := 0) [0, 0, 0] rfl hitems (by omega)
    (by rw [hrem]; decide) trivial
  rw [hrem] at h₅
  refine ⟨_, rfl, rfl, ?_, received_in_order h₅⟩
  cases hkg₁
  cases hkg₂
  cases hkg
  have htail : ((armed idleSocket 1200 sq slot).mem.rings 0).tail = 1024 := by
    rw [armed_ring, BufRingPool.filledRing_tail rfl]
  have hring : v₁.buf.bufRing = 0 := hring₁
  exact (congrArg IoUringBufRing.tail (bufRingAddAdvance_of_eq _ hring)).trans
    (congrArg (· + 1) htail)

end UringWs.EventLoop
