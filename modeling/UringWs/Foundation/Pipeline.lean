import UringWs.Foundation.PrefixCode

/-! # A decoder fed with chunks

Bytes arrive in chunks. Each chunk, when it is started, wakes a consumer that
reads until its decoder has one message or nothing is left to read. When every
chunk ends at most one message, and the read that completes it takes the rest of
its chunk, the consumer is always even with what it was given.
-/
namespace UringWs
variable {M β : Type*}

structure Pipeline (M β : Type*) where
  arrived : List β
  /-- what was handed to the decoder -/
  taken : List β
  /-- the sizes of what is left of the chunks being read -/
  queue : List ℕ
  /-- the sizes of the chunks not yet started -/
  waiting : List ℕ
  buffered : List β
  delivered : List M
  reading : Bool

namespace Pipeline

/-- The consumer stands between two chunks with nothing left to read or to deliver. -/
structure Settled (c : PrefixCode M β) (ms : List M) (p : Pipeline M β) : Prop where
  queue : p.queue = []
  count : c.completeCount ms p.taken.length = p.delivered.length

/-- What the consumer may still find: at most one message, with all of its chunk. -/
inductive Busy (c : PrefixCode M β) (ms : List M) (p : Pipeline M β) : Prop
  | empty (queue : p.queue = [])
      (count : c.completeCount ms p.taken.length ≤ p.delivered.length + 1)
  | chunk (k : ℕ) (queue : p.queue = [k])
      (count : c.completeCount ms p.taken.length = p.delivered.length)
      (next : c.completeCount ms (p.taken.length + k) ≤ p.delivered.length + 1)

structure Wf (c : PrefixCode M β) (ms : List M) (p : Pipeline M β) : Prop where
  encoded : p.arrived <+: c.encodeAll ms
  taken : p.taken <+: p.arrived
  total : p.arrived.length = p.taken.length + p.queue.sum + p.waiting.sum
  decoded : c.encodeAll p.delivered ++ p.buffered = p.taken
  delivered : p.delivered <+: ms
  spaced : c.Spaced ms (p.taken.length + p.queue.sum) p.waiting
  settled : p.reading = false → p.Settled c ms
  busy : p.reading = true → p.Busy c ms

variable {c : PrefixCode M β} {ms : List M} {p : Pipeline M β}

theorem Settled.busy (h : p.Settled c ms) : p.Busy c ms :=
  .empty h.queue (Nat.le_succ_of_le (Nat.le_of_eq h.count))

/-- The decoder's own bytes are a prefix of what the undelivered messages encode. -/
theorem Wf.buffered (h : p.Wf c ms) : ∃ rest, ms = p.delivered ++ rest ∧
    p.buffered <+: c.encodeAll rest ∧ c.completeCount ms p.taken.length =
      p.delivered.length + c.completeCount rest p.buffered.length := by
  obtain ⟨rest, hrest⟩ := h.delivered
  refine ⟨rest, hrest.symm, ?_, ?_⟩
  · have hp := h.taken.trans h.encoded
    rw [← h.decoded, ← hrest, c.encodeAll_append] at hp
    exact (List.prefix_append_right_inj _).mp hp
  · rw [← h.decoded, List.length_append, ← hrest, c.completeCount_append]

/-- A decoder that finds nothing has delivered every complete message. -/
theorem Wf.count_of_none (h : p.Wf c ms) (hnone : c.decode p.buffered = none) :
    c.completeCount ms p.taken.length = p.delivered.length := by
  obtain ⟨rest, -, hp, hcount⟩ := h.buffered
  rw [hcount, (c.decode_eq_none_iff hp).mp hnone, Nat.add_zero]

/-- A settled consumer has delivered all it was given. -/
theorem Wf.all_delivered (h : p.Wf c ms) (hreading : p.reading = false)
    (hwaiting : p.waiting = []) :
    p.delivered = ms.take (c.completeCount ms p.arrived.length) ∧ p.queue = [] := by
  obtain ⟨hqueue, hcount⟩ := h.settled hreading
  have htotal := h.total
  rw [hqueue, hwaiting, List.sum_nil, Nat.add_zero, Nat.add_zero] at htotal
  rw [htotal, hcount]
  exact ⟨(List.prefix_iff_eq_take.mp h.delivered), hqueue⟩

/-! ### The moves -/

theorem Wf.arrive (h : p.Wf c ms) {data : List β} (hencoded : p.arrived ++ data <+: c.encodeAll ms)
    (hone : c.completeCount ms (p.arrived ++ data).length ≤
      c.completeCount ms p.arrived.length + 1) :
    Wf c ms { p with
      arrived := p.arrived ++ data
      waiting := p.waiting ++ [data.length] } := by
  refine ⟨hencoded, h.taken.trans (List.prefix_append _ _), ?_, h.decoded, h.delivered, ?_,
    fun hr => ⟨(h.settled hr).queue, (h.settled hr).count⟩, fun hr => ?_⟩
  · simp only [List.length_append, h.total, List.sum_append, List.sum_singleton]
    omega
  · apply c.spaced_append h.spaced
    rwa [List.length_append, h.total] at hone
  · cases h.busy hr with
    | empty queue count => exact .empty queue count
    | chunk k queue count next => exact .chunk k queue count next

theorem Wf.start (h : p.Wf c ms) (hreading : p.reading = false) {k : ℕ} {ks : List ℕ}
    (hwaiting : p.waiting = k :: ks) :
    Wf c ms { p with queue := p.queue ++ [k], waiting := ks, reading := true } := by
  obtain ⟨hqueue, hcount⟩ := h.settled hreading
  have hspaced := h.spaced
  have htotal := h.total
  rw [hqueue, hwaiting, List.sum_nil, Nat.add_zero] at hspaced htotal
  rw [List.sum_cons] at htotal
  refine ⟨h.encoded, h.taken, ?_, h.decoded, h.delivered, ?_, fun hr => (nomatch hr), fun _ => ?_⟩
  · simp only [hqueue, List.nil_append, List.sum_singleton]
    omega
  · simp only [hqueue, List.nil_append, List.sum_singleton]
    exact hspaced.2
  · refine .chunk k (by simp [hqueue]) hcount ?_
    have hnext := hspaced.1
    rwa [hcount] at hnext

theorem Wf.wake (h : p.Wf c ms) (hreading : p.reading = false) :
    Wf c ms { p with reading := true } :=
  ⟨h.encoded, h.taken, h.total, h.decoded, h.delivered, h.spaced, fun hr => (nomatch hr),
    fun _ => .empty (h.settled hreading).queue
      (Nat.le_succ_of_le (Nat.le_of_eq (h.settled hreading).count))⟩

theorem Wf.part (h : p.Wf c ms) (hreading : p.reading = true) {k : ℕ} {ks : List ℕ}
    (hqueue : p.queue = k :: ks) {bytes : List β} (htaken : p.taken ++ bytes <+: p.arrived)
    (hlt : bytes.length < k) (hstill : c.decode (p.buffered ++ bytes) = none) :
    Wf c ms { p with
      taken := p.taken ++ bytes
      queue := (k - bytes.length) :: ks
      buffered := p.buffered ++ bytes } := by
  have htotal := h.total
  have hspaced := h.spaced
  rw [hqueue, List.sum_cons] at htotal hspaced
  have hshift : p.taken.length + (k + ks.sum) =
      (p.taken ++ bytes).length + ((k - bytes.length) :: ks).sum := by
    rw [List.length_append, List.sum_cons]
    omega
  rw [hshift] at htotal hspaced
  have hdecoded : c.encodeAll p.delivered ++ (p.buffered ++ bytes) = p.taken ++ bytes := by
    rw [← List.append_assoc, h.decoded]
  have hcount : c.completeCount ms (p.taken ++ bytes).length = p.delivered.length := by
    obtain ⟨rest, hrest⟩ := h.delivered
    have hp := htaken.trans h.encoded
    rw [← hdecoded, ← hrest, c.encodeAll_append, List.prefix_append_right_inj] at hp
    rw [← hdecoded, List.length_append, ← hrest, c.completeCount_append,
      (c.decode_eq_none_iff hp).mp hstill, Nat.add_zero]
  refine ⟨h.encoded, htaken, htotal, hdecoded, h.delivered, hspaced,
    fun hr => absurd (hreading.symm.trans hr) (by decide), fun _ => ?_⟩
  cases h.busy hreading with
  | empty queue count =>
    rw [hqueue] at queue
    cases queue
  | chunk j queue count next =>
    rw [hqueue] at queue
    obtain ⟨rfl, rfl⟩ := List.cons.inj queue
    refine .chunk _ rfl hcount ?_
    have hend : (p.taken ++ bytes).length + (k - bytes.length) = p.taken.length + k := by
      rw [List.length_append]
      omega
    simp only [hend]
    exact next

theorem Wf.drain (h : p.Wf c ms) (hreading : p.reading = true) {bytes : List β} {ks : List ℕ}
    (hqueue : p.queue = bytes.length :: ks) (htaken : p.taken ++ bytes <+: p.arrived) :
    Wf c ms { p with
      taken := p.taken ++ bytes
      queue := ks
      buffered := p.buffered ++ bytes } := by
  have htotal := h.total
  have hspaced := h.spaced
  rw [hqueue, List.sum_cons, ← Nat.add_assoc, ← List.length_append] at htotal hspaced
  refine ⟨h.encoded, htaken, htotal, ?_, h.delivered, hspaced,
    fun hr => absurd (hreading.symm.trans hr) (by decide), fun _ => ?_⟩
  · simp only
    rw [← List.append_assoc, h.decoded]
  · cases h.busy hreading with
    | empty queue count =>
      rw [hqueue] at queue
      cases queue
    | chunk j queue count next =>
      rw [hqueue] at queue
      obtain ⟨rfl, rfl⟩ := List.cons.inj queue
      refine .empty rfl ?_
      rwa [← List.length_append] at next

theorem Wf.block (h : p.Wf c ms) (hnone : c.decode p.buffered = none) (hqueue : p.queue = []) :
    Wf c ms { p with reading := false } :=
  ⟨h.encoded, h.taken, h.total, h.decoded, h.delivered, h.spaced,
    fun _ => ⟨hqueue, h.count_of_none hnone⟩, fun hr => (nomatch hr)⟩

theorem Wf.deliver (h : p.Wf c ms) (hreading : p.reading = true) {m : M} {r : List β}
    (hsome : c.decode p.buffered = some (m, r)) :
    Wf c ms { p with buffered := r, delivered := p.delivered ++ [m], reading := false } := by
  obtain ⟨rest, hrest, hp, hcount⟩ := h.buffered
  obtain ⟨rest', rfl, hbuffered⟩ := c.decode_eq_some hp hsome
  have hpos : 0 < c.completeCount (m :: rest') p.buffered.length := by
    refine Nat.pos_of_ne_zero fun h0 => ?_
    rw [(c.decode_eq_none_iff hp).mpr h0] at hsome
    cases hsome
  have hsettled : p.queue = [] ∧ c.completeCount ms p.taken.length = p.delivered.length + 1 := by
    cases h.busy hreading with
    | empty queue count => exact ⟨queue, by omega⟩
    | chunk k queue count next => omega
  refine ⟨h.encoded, h.taken, h.total, ?_, ⟨rest', ?_⟩, h.spaced, fun _ => ⟨hsettled.1, ?_⟩,
    fun hr => (nomatch hr)⟩
  · simp only [c.encodeAll_append, c.encodeAll_cons, c.encodeAll_nil, List.append_nil,
      List.append_assoc]
    rw [← hbuffered, h.decoded]
  · simp [hrest]
  · simpa using hsettled.2

end Pipeline
end UringWs
