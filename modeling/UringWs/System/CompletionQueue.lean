import UringWs.Program.Sys
import UringWs.Foundation.RingWindow
import UringWs.Foundation.Transition

/-! # The completion ring and the batch loop

The loop captures up to ten pointers with a peek, or one with a wait, and then,
pointer by pointer, builds a completion, consumes it and advances the head by
one. The kernel posts into free slots at any moment in between.
-/
namespace UringWs.CompletionQueue
open RingWindow

structure IoUringCq where
  khead : UInt32
  ktail : UInt32
  ringMask : UInt32
  ringEntries : UInt32
  cqes : ℕ → IoUringCqe

/-- Where the loop stands. A completion keeps the slot its pointer names and the
entry it was built from. -/
inductive Loop
  | poll
  | wait
  | build (i n : ℕ)
  | consume (i n ptr : ℕ) (cqe : IoUringCqe)
  | advance (i n : ℕ)

structure State where
  cq : IoUringCq
  /-- the captured pointers; none is still uninitialised -/
  cqeBuf : ℕ → Option ℕ
  /-- how many leading pointers the latest peek or wait wrote -/
  filled : ℕ
  loop : Loop
  posted : List IoUringCqe
  processed : List IoUringCqe

inductive Action
  | post (cqe : IoUringCqe)
  | peek
  | waitReady
  | waitTimeout
  | build
  | consume
  | advance

namespace IoUringCq

def ready (cq : IoUringCq) : ℕ := (cq.ktail - cq.khead).toNat

def slot (cq : IoUringCq) (j : ℕ) : ℕ := ((cq.khead + UInt32.ofNat j) &&& cq.ringMask).toNat

def postSlot (cq : IoUringCq) : ℕ := (cq.ktail &&& cq.ringMask).toNat

def post (cq : IoUringCq) (cqe : IoUringCqe) : IoUringCq :=
  { cq with ktail := cq.ktail + 1, cqes := Function.update cq.cqes cq.postSlot cqe }

def advance (cq : IoUringCq) (nr : UInt32) : IoUringCq := { cq with khead := cq.khead + nr }

end IoUringCq

/-- Batch peeking: as many pointers as are ready, at most `count`. -/
def State.peekBatch (s : State) (count : ℕ) : ℕ := min s.cq.ready count

def State.capture (s : State) (n : ℕ) : ℕ → Option ℕ :=
  fun j => if j < n then some (s.cq.slot j) else s.cqeBuf j

inductive Step : State → Action → State → Prop
  | post {s : State} (cqe : IoUringCqe) (hroom : s.cq.ktail - s.cq.khead < s.cq.ringEntries) :
      Step s (.post cqe) { s with cq := s.cq.post cqe, posted := s.posted ++ [cqe] }
  | peek {s : State} (hl : s.loop = .poll) :
      Step s .peek { s with
        cqeBuf := s.capture (s.peekBatch 10)
        filled := s.peekBatch 10
        loop := if s.peekBatch 10 = 0 then .wait else .build 0 (s.peekBatch 10) }
  | waitReady {s : State} (hl : s.loop = .wait) (hr : 0 < s.cq.ready) :
      Step s .waitReady { s with cqeBuf := s.capture 1, filled := 1, loop := .build 0 1 }
  /-- the wait timed out: nothing was written, and the loop starts over -/
  | waitTimeout {s : State} (hl : s.loop = .wait) :
      Step s .waitTimeout { s with filled := 0, loop := .poll }
  | build {s : State} {i n ptr : ℕ} (hl : s.loop = .build i n) (hp : s.cqeBuf i = some ptr) :
      Step s .build { s with loop := .consume i n ptr (s.cq.cqes ptr) }
  /-- the handler reads the entry again through the pointer and drops the completion -/
  | consume {s : State} {i n ptr : ℕ} {cqe : IoUringCqe} (hl : s.loop = .consume i n ptr cqe) :
      Step s .consume { s with
        processed := s.processed ++ [s.cq.cqes ptr], loop := .advance i n }
  | advance {s : State} {i n : ℕ} (hl : s.loop = .advance i n) :
      Step s .advance { s with
        cq := s.cq.advance 1
        loop := if i + 1 < n then .build (i + 1) n else .poll }

structure Init (s : State) : Prop where
  ring : MaskedRing s.cq.ringEntries s.cq.ringMask
  ten_le : 10 ≤ s.cq.ringEntries.toNat
  tail : s.cq.ktail = s.cq.khead
  cqeBuf : ∀ j, s.cqeBuf j = none
  filled : s.filled = 0
  loop : s.loop = .poll
  posted : s.posted = []
  processed : s.processed = []

def completionRing : System State Action := { init := Init, step := Step }

structure IoUringCq.Wf (cq : IoUringCq) : Prop where
  ring : MaskedRing cq.ringEntries cq.ringMask
  ready_le : cq.ready ≤ cq.ringEntries.toNat

namespace IoUringCq
variable {cq : IoUringCq}

def queue (cq : IoUringCq) : List IoUringCqe :=
  window cq.cqes cq.ringEntries.toNat cq.khead.toNat cq.ready

theorem ready_eq_span (cq : IoUringCq) :
    cq.ready = span (2 ^ 32) cq.khead.toNat cq.ktail.toNat := UInt32.toNat_sub ..

theorem Wf.slot_eq (h : cq.Wf) {j : ℕ} (hj : j ≤ cq.ready) :
    cq.slot j = (cq.khead.toNat + j) % cq.ringEntries.toNat := by
  have hle := h.ready_le
  have hent := h.ring.entries_le
  exact h.ring.add_and_mask cq.khead (by omega)

theorem Wf.postSlot_eq (h : cq.Wf) : cq.postSlot = cq.slot cq.ready := by
  rw [h.slot_eq le_rfl, postSlot, h.ring.and_mask, ready_eq_span,
    head_add_span h.ring.dvd cq.khead.toNat_lt]

theorem Wf.slot_inj (h : cq.Wf) {i j : ℕ} (hi : i < cq.ringEntries.toNat)
    (hj : j < cq.ringEntries.toNat) (hi' : i ≤ cq.ready) (hj' : j ≤ cq.ready)
    (he : cq.slot i = cq.slot j) : i = j := by
  rw [h.slot_eq hi', h.slot_eq hj'] at he
  exact RingWindow.slot_inj hi hj he

theorem Wf.slot_ne_postSlot (h : cq.Wf) (hroom : cq.ready < cq.ringEntries.toNat) {j : ℕ}
    (hj : j < cq.ready) : cq.slot j ≠ cq.postSlot := by
  intro he
  rw [h.postSlot_eq] at he
  have := h.slot_inj (hj.trans hroom) hroom hj.le le_rfl he
  omega

theorem Wf.post_ready (h : cq.Wf) (hroom : cq.ready < cq.ringEntries.toNat) (c : IoUringCqe) :
    (cq.post c).ready = cq.ready + 1 := by
  have hent := h.ring.entries_le
  rw [ready_eq_span] at *
  simp only [ready_eq_span, post, UInt32.toNat_add]
  exact span_tail (n := 1) (by omega)

theorem Wf.post_spec (h : cq.Wf) (hroom : cq.ready < cq.ringEntries.toNat) (c : IoUringCqe) :
    (cq.post c).Wf ∧ (cq.post c).queue = cq.queue ++ [c] := by
  have hr := h.post_ready hroom c
  refine ⟨⟨h.ring, hr.trans_le hroom⟩, ?_⟩
  rw [queue, hr, queue, ← window_push hroom, ← h.slot_eq le_rfl, ← h.postSlot_eq]
  rfl

theorem Wf.advance_spec (h : cq.Wf) (hr : 0 < cq.ready) :
    (cq.advance 1).Wf ∧ (cq.advance 1).ready = cq.ready - 1 ∧
      (cq.advance 1).queue = cq.queue.tail := by
  have hhead : (cq.advance 1).khead.toNat = (cq.khead.toNat + 1) % 2 ^ 32 :=
    UInt32.toNat_add ..
  have hready : (cq.advance 1).ready = cq.ready - 1 := by
    rw [ready_eq_span, ready_eq_span, hhead]
    exact span_head cq.khead.toNat_lt cq.ktail.toNat_lt (ready_eq_span cq ▸ hr)
  refine ⟨⟨h.ring, ?_⟩, hready, ?_⟩
  · rw [hready]
    exact (Nat.sub_le ..).trans h.ready_le
  · rw [queue, hready, hhead, ← List.drop_one]
    exact (window_wrap h.ring.dvd ..).trans (window_drop hr)

theorem Wf.advance_slot (h : cq.Wf) {j : ℕ} (hj : j + 1 ≤ cq.ready) :
    (cq.advance 1).slot j = cq.slot (j + 1) := by
  obtain ⟨hwf, hready, -⟩ := h.advance_spec (by omega)
  rw [hwf.slot_eq (by omega), h.slot_eq hj]
  simp only [advance, UInt32.toNat_add]
  rw [show (1 : UInt32).toNat = 1 from rfl, Nat.add_mod, wrapped_slot h.ring.dvd, ← Nat.add_mod,
    show cq.khead.toNat + 1 + j = cq.khead.toNat + (j + 1) by omega]

theorem queue_head? (cq : IoUringCq) (hr : 0 < cq.ready) (h : cq.Wf) :
    cq.queue = cq.cqes (cq.slot 0) :: cq.queue.tail := by
  obtain ⟨m, hm⟩ := Nat.exists_eq_add_of_lt hr
  rw [Nat.zero_add] at hm
  rw [h.slot_eq (Nat.zero_le _), queue, hm, window_succ]
  rfl

end IoUringCq

/-- The pointers from index i on are fresh and name the slots from the head on. -/
structure Captured (cq : IoUringCq) (cqeBuf : ℕ → Option ℕ) (filled i n : ℕ) : Prop where
  lt : i < n
  filled : n ≤ filled
  ready : n ≤ i + cq.ready
  ptr : ∀ j, i ≤ j → j < n → cqeBuf j = some (cq.slot (j - i))

/-- The loop's own part of the invariant: what of the posted sequence has been
processed, and what the remaining pointers name. -/
def LoopInv (s : State) : Loop → Prop
  | .poll | .wait => s.posted = s.processed ++ s.cq.queue
  | .build i n => s.posted = s.processed ++ s.cq.queue ∧
      Captured s.cq s.cqeBuf s.filled i n
  | .consume i n ptr cqe => s.posted = s.processed ++ s.cq.queue ∧
      Captured s.cq s.cqeBuf s.filled i n ∧ ptr = s.cq.slot 0 ∧ cqe = s.cq.cqes ptr
  | .advance i n => s.posted = s.processed ++ s.cq.queue.tail ∧
      Captured s.cq s.cqeBuf s.filled i n

structure Inv (s : State) : Prop where
  wf : s.cq.Wf
  loop : LoopInv s s.loop

theorem inv_init {s : State} (h : Init s) : Inv s := by
  have hr : s.cq.ready = 0 := by simp [IoUringCq.ready, h.tail]
  refine ⟨⟨h.ring, by omega⟩, ?_⟩
  rw [h.loop]
  simp [LoopInv, h.posted, h.processed, IoUringCq.queue, hr]

theorem Captured.post {cq : IoUringCq} {cqeBuf : ℕ → Option ℕ} {filled i n : ℕ}
    (h : Captured cq cqeBuf filled i n) (hwf : cq.Wf) (hroom : cq.ready < cq.ringEntries.toNat)
    (c : IoUringCqe) : Captured (cq.post c) cqeBuf filled i n := by
  refine ⟨h.lt, h.filled, ?_, h.ptr⟩
  have := h.ready
  rw [hwf.post_ready hroom]
  omega

theorem Captured.ready_pos {cq : IoUringCq} {cqeBuf : ℕ → Option ℕ} {filled i n : ℕ}
    (h : Captured cq cqeBuf filled i n) : 0 < cq.ready := by
  have := h.lt
  have := h.ready
  omega

theorem inv_post {s : State} (h : Inv s) (c : IoUringCqe)
    (hroom : s.cq.ktail - s.cq.khead < s.cq.ringEntries) :
    Inv { s with cq := s.cq.post c, posted := s.posted ++ [c] } := by
  have hroom : s.cq.ready < s.cq.ringEntries.toNat := UInt32.lt_iff_toNat_lt.mp hroom
  obtain ⟨hwf, hq⟩ := h.wf.post_spec hroom c
  refine ⟨hwf, ?_⟩
  have hl := h.loop
  cases hloop : s.loop with
  | poll | wait =>
    rw [hloop] at hl
    simp only [LoopInv, hq] at hl ⊢
    rw [hl, List.append_assoc]
  | build i n =>
    rw [hloop] at hl
    simp only [LoopInv, hq] at hl ⊢
    exact ⟨by rw [hl.1, List.append_assoc], hl.2.post h.wf hroom c⟩
  | consume i n ptr cqe =>
    rw [hloop] at hl
    obtain ⟨hposted, hcap, rfl, rfl⟩ := hl
    have hpos := hcap.ready_pos
    simp only [LoopInv, hq]
    refine ⟨by rw [hposted, List.append_assoc], hcap.post h.wf hroom c, rfl, ?_⟩
    exact (Function.update_of_ne (h.wf.slot_ne_postSlot hroom hpos) ..).symm
  | advance i n =>
    rw [hloop] at hl
    have hpos := hl.2.ready_pos
    simp only [LoopInv, hq] at hl ⊢
    refine ⟨?_, hl.2.post h.wf hroom c⟩
    rw [hl.1, s.cq.queue_head? hpos h.wf]
    simp

theorem captured_start {s : State} {n : ℕ} (hn : 0 < n) (hr : n ≤ s.cq.ready) :
    Captured s.cq (s.capture n) n 0 n := by
  refine ⟨hn, le_rfl, by simpa using hr, fun j _ hj => ?_⟩
  simp [State.capture, hj]

theorem inv_step {s t : State} {a : Action} (h : Inv s) (hs : Step s a t) : Inv t := by
  have hl := h.loop
  cases hs with
  | post cqe hroom => exact inv_post h cqe hroom
  | peek hloop =>
    refine ⟨h.wf, ?_⟩
    rw [hloop] at hl
    by_cases h0 : s.peekBatch 10 = 0
    · simpa [h0, LoopInv] using hl
    · simp only [h0, ↓reduceIte]
      exact ⟨hl, captured_start (Nat.pos_of_ne_zero h0) (Nat.min_le_left ..)⟩
  | waitReady hloop hr =>
    rw [hloop] at hl
    exact ⟨h.wf, hl, captured_start Nat.one_pos hr⟩
  | waitTimeout hloop =>
    rw [hloop] at hl
    exact ⟨h.wf, hl⟩
  | @build i n ptr hloop hp =>
    rw [hloop] at hl
    obtain ⟨hposted, hcap⟩ := hl
    have he := hcap.ptr i le_rfl hcap.lt
    rw [hp, Nat.sub_self, Option.some.injEq] at he
    exact ⟨h.wf, hposted, hcap, he, rfl⟩
  | consume hloop =>
    rw [hloop] at hl
    obtain ⟨hposted, hcap, rfl, rfl⟩ := hl
    have hpos := hcap.ready_pos
    refine ⟨h.wf, ?_, hcap⟩
    rw [hposted, s.cq.queue_head? hpos h.wf]
    simp
  | @advance i n hloop =>
    rw [hloop] at hl
    obtain ⟨hposted, hcap⟩ := hl
    have hlt := hcap.lt
    have hready := hcap.ready
    obtain ⟨hwf, hr, hq⟩ := h.wf.advance_spec (by omega)
    refine ⟨hwf, ?_⟩
    by_cases hn : i + 1 < n
    · simp only [hn, ↓reduceIte]
      refine ⟨hq ▸ hposted, hn, hcap.filled, by simp only [hr]; omega, fun j hij hj => ?_⟩
      rw [h.wf.advance_slot (by omega), show j - (i + 1) + 1 = j - i by omega]
      exact hcap.ptr j (by omega) hj
    · simp only [hn, ↓reduceIte]
      change s.posted = s.processed ++ (s.cq.advance 1).queue
      rw [hq, hposted]

theorem reachable_inv {s : State} (h : completionRing.Reachable s) : Inv s :=
  h.invariant (fun _ => inv_init) (fun _ _ _ _ hi _ hs => inv_step hi hs)

/-- The pointers of the batch whose completions have not been dropped. -/
def State.undropped (s : State) : Set ℕ :=
  match s.loop with
  | .build i n | .consume i n _ _ => { p | ∃ j, i ≤ j ∧ j < n ∧ s.cqeBuf j = some p }
  | .advance i n => { p | ∃ j, i < j ∧ j < n ∧ s.cqeBuf j = some p }
  | _ => ∅

/-- Exactly-once processing in one state. -/
structure ExactlyOnce (s : State) : Prop where
  /-- nothing was skipped, repeated or reordered -/
  processed : s.processed <+: s.posted
  /-- the next pointer was written by the latest peek or wait and names the next
  unprocessed entry -/
  dereferenced : ∀ i n, s.loop = .build i n → i < s.filled ∧
    ∃ ptr, s.cqeBuf i = some ptr ∧ s.posted[s.processed.length]? = some (s.cq.cqes ptr)
  /-- the entry read at the end is the one the completion was built from -/
  stable : ∀ i n ptr cqe, s.loop = .consume i n ptr cqe →
    s.cq.cqes ptr = cqe ∧ s.posted[s.processed.length]? = some cqe
  /-- a post overwrites no slot of a completion that has not been dropped -/
  protected_slots : ∀ cqe t, Step s (.post cqe) t →
    ∀ ptr ∈ s.undropped, t.cq.cqes ptr = s.cq.cqes ptr

theorem posted_next {s : State} (h : Inv s) (hposted : s.posted = s.processed ++ s.cq.queue)
    (hpos : 0 < s.cq.ready) :
    s.posted[s.processed.length]? = some (s.cq.cqes (s.cq.slot 0)) := by
  rw [hposted, s.cq.queue_head? hpos h.wf]
  simp

theorem Captured.undropped {cq : IoUringCq} {cqeBuf : ℕ → Option ℕ} {filled i n j ptr : ℕ}
    (h : Captured cq cqeBuf filled i n) (hij : i ≤ j) (hj : j < n) (hp : cqeBuf j = some ptr) :
    ∃ d < cq.ready, ptr = cq.slot d := by
  have he := h.ptr j hij hj
  rw [hp, Option.some.injEq] at he
  have := h.ready
  exact ⟨j - i, by omega, he⟩

theorem Inv.undropped_slot {s : State} (h : Inv s) {ptr : ℕ} (hp : ptr ∈ s.undropped) :
    ∃ d < s.cq.ready, ptr = s.cq.slot d := by
  have hl := h.loop
  unfold State.undropped at hp
  cases hloop : s.loop with
  | poll | wait =>
    rw [hloop] at hp
    exact hp.elim
  | build i n =>
    rw [hloop] at hl hp
    obtain ⟨j, hij, hj, hb⟩ := hp
    exact hl.2.undropped hij hj hb
  | consume i n p cqe =>
    rw [hloop] at hl hp
    obtain ⟨j, hij, hj, hb⟩ := hp
    exact hl.2.1.undropped hij hj hb
  | advance i n =>
    rw [hloop] at hl hp
    obtain ⟨j, hij, hj, hb⟩ := hp
    exact hl.2.undropped (by omega) hj hb

theorem Inv.exactlyOnce {s : State} (h : Inv s) : ExactlyOnce s := by
  have hl := h.loop
  refine ⟨?_, ?_, ?_, ?_⟩
  · cases hloop : s.loop with
    | poll | wait => rw [hloop] at hl; exact ⟨_, hl.symm⟩
    | build i n => rw [hloop] at hl; exact ⟨_, hl.1.symm⟩
    | consume i n ptr cqe => rw [hloop] at hl; exact ⟨_, hl.1.symm⟩
    | advance i n => rw [hloop] at hl; exact ⟨_, hl.1.symm⟩
  · intro i n hloop
    rw [hloop] at hl
    obtain ⟨hposted, hcap⟩ := hl
    refine ⟨hcap.lt.trans_le hcap.filled, s.cq.slot 0, ?_, posted_next h hposted hcap.ready_pos⟩
    simpa using hcap.ptr i le_rfl hcap.lt
  · intro i n ptr cqe hloop
    rw [hloop] at hl
    obtain ⟨hposted, hcap, rfl, rfl⟩ := hl
    exact ⟨rfl, posted_next h hposted hcap.ready_pos⟩
  · intro cqe t hs ptr hp
    obtain ⟨d, hd, rfl⟩ := h.undropped_slot hp
    cases hs with
    | post _ hroom =>
      exact Function.update_of_ne
        (h.wf.slot_ne_postSlot (UInt32.lt_iff_toNat_lt.mp hroom) hd) ..

/-- In every state that any interleaving reaches, each posted entry has been
processed at most once, in order, through pointers that were still good. -/
theorem completions_exactly_once {s : State} (h : completionRing.Reachable s) : ExactlyOnce s :=
  (reachable_inv h).exactlyOnce

def nearWrap : State where
  cq := { khead := 0xFFFFFFFF, ktail := 0xFFFFFFFF, ringMask := 15, ringEntries := 16,
          cqes := fun _ => ⟨0, 0, 0⟩ }
  cqeBuf := fun _ => none
  filled := 0
  loop := .poll
  posted := []
  processed := []

theorem nearWrap_init : Init nearWrap :=
  ⟨⟨⟨4, by decide, rfl⟩, rfl⟩, by decide, rfl, fun _ => rfl, rfl, rfl, rfl, rfl⟩

/-- Across the wrap: two entries captured, the first processed and released, and
a third posted before the second is built. -/
theorem completions_exactly_once_wrap : ∃ s : State,
    s.cq.khead = 0 ∧ s.posted = [⟨7, 1, 0⟩, ⟨8, 2, 0⟩, ⟨9, 3, 0⟩] ∧ s.processed = [⟨7, 1, 0⟩] ∧
      s.loop = .build 1 2 ∧ ExactlyOnce s := by
  have h₀ : completionRing.Reachable nearWrap := .start nearWrap_init
  have h₁ := (h₀.next trivial (.post ⟨7, 1, 0⟩ (by decide))).next trivial
    (.post ⟨8, 2, 0⟩ (by decide))
  have h₂ := (h₁.next trivial (.peek rfl)).next trivial (.build (i := 0) (n := 2) rfl rfl)
  have h₃ := (h₂.next trivial (.consume rfl)).next trivial (.advance (i := 0) (n := 2) rfl)
  have h₄ := h₃.next trivial (.post ⟨9, 3, 0⟩ (by decide))
  exact ⟨_, by decide, rfl, rfl, rfl, completions_exactly_once h₄⟩

end UringWs.CompletionQueue
