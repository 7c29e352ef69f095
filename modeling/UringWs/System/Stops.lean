import UringWs.System.Calls

/-! # Where the program stops

From the set-up rounds on, with streams that are not under TLS, whatever the kernel
posts and whatever the code outside answers, the program ends at a call that is
refused and nowhere else: a set-up round that gets no connection, ring, block, group
or entry; a write that is empty or finds the submission ring full; a handler, a
submission, a wait or a decoder that reports an error; and a completion that its
assertions refuse, which is the last one it looks at.
-/
namespace UringWs.EventLoop
variable {w w' : State} {p : Posted}

/-- What is accepted depends on the tables and the mapped rings only. -/
theorem State.Accepts.congr (h : w.Accepts p) (hrings : w'.mem.rings = w.mem.rings)
    (hstreams : w'.streams = w.streams)
    (hgroups : ∀ g, (w'.groups g).map KernelGroup.ring = (w.groups g).map KernelGroup.ring) :
    w'.Accepts p := by
  obtain ⟨hres, hbufMore, h⟩ := h
  refine ⟨hres, hbufMore, ?_⟩
  cases ho : p.request.origin with
  | recv i recvId =>
    rw [ho] at h
    obtain ⟨hbuffer, kg, hkg, hb, hbid, hlen⟩ := h
    have hmap := hgroups (UInt16.ofNat i)
    rw [hkg, Option.map_some, Option.map_eq_some_iff] at hmap
    obtain ⟨kg', hkg', hring⟩ := hmap
    refine ⟨hbuffer, kg', hkg', hb, ?_, ?_⟩
    · rw [hrings, hring]
      exact hbid
    · rw [hrings, hring]
      exact hlen
  | send op =>
    rw [ho] at h
    simpa only [hstreams] using h

end UringWs.EventLoop

namespace UringWs.MainLoop
open EventLoop
variable {M : Type*} {c : PrefixCode M UInt8} {s s' : State M} {a : Action} {p : Posted}

/-- A request moves the head of its group's ring at most. -/
theorem kernel_groups {w w' : EventLoop.State} {b : EventLoop.Action} (hb : ByKernel b)
    (h : EventLoop.Step w b w') (g : UInt16) :
    (w'.groups g).map KernelGroup.ring = (w.groups g).map KernelGroup.ring := by
  cases h with
  | @recv k data flags r kr cqe hr hop hselect hgr =>
    by_cases hg : g = r.sqe.bufGroup
    · subst hg
      simp only [Function.update_self, hgr]
      rfl
    · simp only [Function.update_of_ne hg]
  | sent | other => rfl
  | _ => exact hb.elim

/-! ### The completion the program looks at -/

theorem Inv.examines_batch (hi : Inv s) (hp : s.Examines p) : s.pc = .batch := by
  refine hi.in_batch fun hl => ?_
  rw [State.Examines, hl] at hp
  exact hp.2

theorem Inv.examines_idle (hi : Inv s) (hp : s.Examines p) : s.delivery.reading = none := by
  refine hi.idle fun i n hl => ?_
  rw [State.Examines, hl] at hp
  exact hp.2

/-- The first entry is looked at once a peek finds any. -/
theorem examines_of_peek (hp : s.loop.cqes.head? = some p) (hready : s.ring.peekBatch 10 ≠ 0)
    (hs : Step c s .peek s') : s'.Examines p := by
  cases hs with
  | peek hpc hring =>
    cases hring
    refine ⟨hp, ?_⟩
    simp only [if_neg hready]
    trivial

/-- Only a completion that is accepted is handled. -/
theorem accepts_of_handle (hr : (mainLoop c).Reachable s) (hp : s.Examines p)
    (hs : Step c s .handle s') :
    s.loop.Accepts p ∧ s'.ring.processed = s.ring.processed ++ [p.cqe] := by
  cases hs with
  | @handle i n ptr cqe completion t t' mem ring hpc hl hheld ht hs hring =>
    obtain ⟨p', rest, hc, hptr, -, hd⟩ := (reach_inv hr).dispatch_held hl hheld ht hs
    obtain rfl : p' = p := by
      have hhead := hp.1
      rw [hc] at hhead
      exact Option.some.inj hhead
    refine ⟨((reach_routed (reach_events hr)).accepts_iff hp.mem).mp ⟨_, hd⟩, ?_⟩
    cases hring with
    | consume hl' =>
      rw [hl] at hl'
      cases hl'
      rw [hptr]

/-- While the program looks at a completion, it goes on only by accepting it. -/
theorem examines_step (hr : (mainLoop c).Reachable s) (hp : s.Examines p) (hs : Step c s a s') :
    s.loop.Accepts p ∨ s'.Examines p ∧ s'.ring.processed = s.ring.processed ∧
      (s'.loop.Accepts p → s.loop.Accepts p) := by
  have hi := reach_inv hr
  have hpc := hi.examines_batch hp
  have hidle := hi.examines_idle hp
  cases hs with
  | @kernel a w q ring ha hs hq hring =>
    obtain ⟨-, hrings, hstreams, -⟩ := kernel_frame ha hs hq
    refine .inr ⟨⟨?_, ?_⟩, ?_, fun h => h.congr hrings.symm hstreams.symm
      fun g => (kernel_groups ha hs g).symm⟩
    · change w.cqes.head? = some p
      rw [hq, List.head?_append, hp.1]
      rfl
    · cases hring
      exact hp.2
    · cases hring
      rfl
  | handle hpc hl hheld ht hs hring =>
    exact .inl (accepts_of_handle hr hp (.handle hpc hl hheld ht hs hring)).1
  | build hpc hl hptr hraw hring =>
    cases hring
    exact .inr ⟨⟨hp.1, trivial⟩, rfl, id⟩
  | peek hpc hring | waitReady hpc hring | waitTimeout hpc hring =>
    cases hring with
    | _ hl =>
      rw [State.Examines, hl] at hp
      exact False.elim hp.2
  | advance hpc hidle hl hring =>
    rw [State.Examines, hl] at hp
    exact False.elim hp.2
  | read hs =>
    cases hs with
    | read hreading => cases hidle.symm.trans hreading
  | deliver hs =>
    cases hs with
    | deliver hreading => cases hidle.symm.trans hreading
  | connect hpc' | enter hpc' | ping hpc' | skip hpc' | write hpc' | next hpc' | offered hpc'
  | submit hpc' => cases hpc.symm.trans hpc'

/-- A refused completion is never left, whatever happens afterwards. -/
theorem refused_stays (hr : (mainLoop c).Reachable s) (hp : s.Examines p)
    (hrefused : ¬ s.loop.Accepts p) {t : State M}
    (h : Relation.ReflTransGen ((mainLoop c).Move fun _ _ => True) s t) :
    t.Examines p ∧ ¬ t.loop.Accepts p ∧ t.ring.processed = s.ring.processed := by
  refine hr.stays (P := fun t => t.Examines p ∧ ¬ t.loop.Accepts p ∧
    t.ring.processed = s.ring.processed) (fun t a u ht ih _ hs => ?_) ⟨hp, hrefused, rfl⟩ h
  obtain ⟨hp, hrefused, hprocessed⟩ := ih
  rcases examines_step ht hp hs with haccepts | ⟨hp', hprocessed', hback⟩
  · exact absurd haccepts hrefused
  · exact ⟨hp', fun h => hrefused (hback h), hprocessed'.trans hprocessed⟩

theorem accepted_handled (hr : (mainLoop c).Reachable s) (hp : s.Examines p)
    (haccepts : s.loop.Accepts p) {i n ptr : ℕ} {cqe : IoUringCqe}
    (hl : s.ring.loop = .consume i n ptr cqe) :
    ∃ t, Step c s .handle t ∧ t.ring.processed = s.ring.processed ++ [p.cqe] := by
  have hd := ((reach_routed (reach_events hr)).accepts_iff hp.mem).mpr haccepts
  obtain ⟨t, hs⟩ := handle_of_dispatch (c := c) (reach_inv hr) hp hd hl
  exact ⟨t, hs, (accepts_of_handle hr hp hs).2⟩

/-- An accepted completion is built and handled, without a step of the kernel. -/
theorem accepted_goes (hr : (mainLoop c).Reachable s) (hp : s.Examines p)
    (haccepts : s.loop.Accepts p) :
    ∃ t, Relation.ReflTransGen ((mainLoop c).Move fun _ a => ByProgram a) s t ∧
      t.ring.processed = s.ring.processed ++ [p.cqe] := by
  cases hl : s.ring.loop with
  | build i n =>
    have hd := ((reach_routed (reach_events hr)).accepts_iff hp.mem).mpr haccepts
    obtain ⟨s₁, hs⟩ := build_of_dispatch (c := c) (reach_inv hr) hp hd hl
    have hr₁ := hr.next trivial hs
    have hbuild : (mainLoop c).Move (fun _ a => ByProgram a) s s₁ := ⟨.build, trivial, hs⟩
    cases hs with
    | build hpc hl hptr hraw hring =>
      cases hring
      obtain ⟨t, hs, hprocessed⟩ := accepted_handled hr₁ ⟨hp.1, trivial⟩ haccepts rfl
      exact ⟨t, .head hbuild (.single ⟨.handle, trivial, hs⟩), hprocessed⟩
  | consume i n ptr cqe =>
    obtain ⟨t, hs, hprocessed⟩ := accepted_handled hr hp haccepts hl
    exact ⟨t, .single ⟨.handle, trivial, hs⟩, hprocessed⟩
  | poll | wait | advance =>
    rw [State.Examines, hl] at hp
    exact False.elim hp.2

/-! ### Nothing else ends it -/

/-- The steps of the program that no call decides. -/
def Plain : Action → Prop
  | .enter | .ping | .skip | .offered | .peek | .advance => True
  | _ => False

/-- Wherever the program stands, it makes a call or takes a plain step. -/
theorem has_turn (c : PrefixCode M UInt8) (s : State M) :
    (∃ call, s.Makes c call) ∨ ∃ a s', Plain a ∧ Step c s a s' := by
  cases hpc : s.pc with
  | setup => exact .inr ⟨.enter, _, trivial, .enter hpc⟩
  | top => exact .inr ⟨.ping, _, trivial, .ping hpc⟩
  | ping j =>
    rcases Nat.lt_or_ge j s.loop.streams.length with hj | hj
    · exact .inl ⟨.handler true, j, hpc, hj⟩
    · exact .inr ⟨.offered, _, trivial, .offered hpc hj⟩
  | submit => exact .inl ⟨.submit 0, hpc, Int.natCast_nonneg _⟩
  | batch =>
    cases hl : s.ring.loop with
    | poll => exact .inr ⟨.peek, _, trivial, .peek hpc (.peek hl)⟩
    | wait => exact .inl ⟨.wait (-62), hl, fun h => absurd (by decide) h⟩
    | build i n => exact .inl ⟨.build, i, n, hl⟩
    | consume i n ptr cqe => exact .inl ⟨.handle, i, n, ptr, cqe, hl⟩
    | advance i n =>
      cases hr : s.delivery.reading with
      | none => exact .inr ⟨.advance, _, trivial, .advance hpc hr hl (.advance hl)⟩
      | some j =>
        cases hm : c.decode (s.delivery.buffered j) with
        | none => exact .inl ⟨.read j [0], hr, hm, Nat.one_pos⟩
        | some next => exact .inl ⟨.decode true, j, hr, fun _ => by simp [hm]⟩

theorem delivery_ringEntries {d d' : Delivery.State M} {b : Delivery.Action}
    (hw : Routed d.loop) (h : Delivery.Step c d b d') :
    d'.loop.sq.ringEntries = d.loop.sq.ringEntries := by
  cases h with
  | loop ha hs => exact step_ringEntries hw hs
  | process hidle hc hs => exact step_ringEntries hw hs
  | read | deliver => rfl

theorem reach_entries (hr : (mainLoop c).Reachable s) : s.loop.sq.ringEntries = cqEntries := by
  refine hr.invariant (P := fun s => s.loop.sq.ringEntries = cqEntries)
    (fun s (h₀ : Init s) => h₀.entries) ?_
  intro s a t hr ih _ hs
  rcases step_call (reach_inv hr) hs with ⟨b, -, hd⟩ | ⟨-, hd⟩
  · exact (delivery_ringEntries (reach_routed (reach_events hr)) hd).trans ih
  · rw [State.loop, hd]
    exact ih

/-- Every step of the program is a plain one, or what a call of its comes to. -/
theorem step_turn (hr : (mainLoop c).Reachable s) (ha : ByProgram a) (hs : Step c s a s') :
    Plain a ∨ ∃ call, s.Makes c call ∧ call.action = some a := by
  cases hs with
  | kernel => exact ha.elim
  | enter | ping | skip | offered | peek | advance => exact .inl trivial
  | @connect raw recvId ring base w hpc hs =>
    cases hs with
    | connect hring htail hblock h =>
      refine .inr ⟨.connect (some raw) recvId (some ring) (some base), ⟨hpc, ?_, ?_⟩, rfl⟩
      · rintro r ⟨⟩
        exact ⟨hring, htail⟩
      · rintro b ⟨⟩
        exact hblock
  | @write i ptr buf w hpc hs =>
    cases hs with
    | write ht hptr h =>
      exact .inr ⟨.write i ptr buf, ⟨hpc, (List.getElem?_eq_some_iff.mp ht).1, hptr⟩, rfl⟩
  | @next j hpc hj => exact .inr ⟨.handler true, ⟨j, hpc, hj⟩, rfl⟩
  | @submit n w hpc hs =>
    cases hs with
    | submit hn =>
      have hle := (reach_routed (reach_events hr)).sq.count_le
      rw [reach_entries hr, show cqEntries.toNat = 1024 from rfl] at hle
      have hint : (Int32.ofNat n).toInt = n :=
        Int32.toInt_ofNat_of_lt (show n < 2 ^ 31 by omega)
      have hnonneg : ¬ Int32.ofNat n < 0 := by
        rw [Int32.lt_iff_toInt_lt, hint, show (0 : Int32).toInt = 0 from rfl]
        omega
      refine .inr ⟨.submit (Int32.ofNat n), ⟨hpc, ?_⟩, ?_⟩
      · rw [hint]
        exact_mod_cast hn
      · rw [Call.action, if_neg hnonneg, hint, Int.toNat_natCast]
  | waitReady hpc hring =>
    cases hring with
    | waitReady hl hready => exact .inr ⟨.wait 0, ⟨hl, fun _ => hready⟩, rfl⟩
  | waitTimeout hpc hring =>
    cases hring with
    | waitTimeout hl =>
      exact .inr ⟨.wait (-62), ⟨hl, fun h => absurd (by decide) h⟩, rfl⟩
  | build hpc hl => exact .inr ⟨.build, ⟨_, _, hl⟩, rfl⟩
  | handle hpc hl => exact .inr ⟨.handle, ⟨_, _, _, _, hl⟩, rfl⟩
  | @read i dest d h =>
    cases h with
    | read hreading hnone hpos => exact .inr ⟨.read i dest, ⟨hreading, hnone, hpos⟩, rfl⟩
  | deliver h =>
    cases h with
    | @deliver i m rest hreading hsome =>
      exact .inr ⟨.decode true, ⟨i, hreading, fun _ => by simp [hsome]⟩, rfl⟩

/-- A refused completion ends the program within two calls. -/
theorem refused_panics (hr : (mainLoop c).Reachable s) (hp : s.Examines p)
    (hrefused : ¬ s.loop.Accepts p) :
    ∃ t call, (t = s ∨ Step c s .build t) ∧ t.Makes c call ∧ Panics t call := by
  cases hl : s.ring.loop with
  | build i n =>
    by_cases hbuilds : s.loop.Builds p
    · have hgoes := (build_decides hr hl).goes.mpr ?_
      · obtain ⟨a, t, ⟨⟩, hs⟩ := hgoes
        have hr' := hr.next trivial hs
        refine ⟨t, .handle, .inr hs, ?_⟩
        cases hs with
        | build hpc hl hptr hraw hring =>
          cases hring
          exact ⟨⟨_, _, _, _, rfl⟩,
            (handle_decides hr' rfl).panics.mpr ⟨p, ⟨hp.1, trivial⟩, hrefused⟩⟩
      · rintro ⟨q, hq, hnot⟩
        obtain rfl : p = q := Option.some.inj (hp.1.symm.trans hq.1)
        exact hnot hbuilds
    · exact ⟨s, .build, .inl rfl, ⟨i, n, hl⟩, (build_decides hr hl).panics.mpr ⟨p, hp, hbuilds⟩⟩
  | consume i n ptr cqe =>
    exact ⟨s, .handle, .inl rfl, ⟨i, n, ptr, cqe, hl⟩,
      (handle_decides hr hl).panics.mpr ⟨p, hp, hrefused⟩⟩
  | poll | wait | advance =>
    rw [State.Examines, hl] at hp
    exact False.elim hp.2

/-- The receive finds no buffer while the loop stands before its peek. -/
theorem reach_exhausted (c : PrefixCode M UInt8) : ∃ (s : State M) (p : Posted),
    (mainLoop c).Reachable s ∧ s.pc = .batch ∧ s.ring.loop = .poll ∧ s.ring.peekBatch 10 ≠ 0 ∧
      s.loop.cqes.head? = some p ∧ p.cqe.res = -105 := by
  obtain ⟨sq, slot, h⟩ := reach_polling c
  have h₁ := (h.reachable).next (a := Action.kernel (.other 0 (-105) 0)) trivial
    (.kernel trivial (.other rfl rfl) rfl (.post _ (show (0 : UInt32) - 0 < 2048 by decide)))
  have hready : min ((0 : UInt32) + 1 - 0).toNat 10 ≠ 0 := by decide
  exact ⟨_, _, h₁, rfl, rfl, hready, rfl, rfl⟩

/-- What ends the program, and what does not. -/
structure Stops (c : PrefixCode M UInt8) (s : State M) : Prop where
  /-- a call panics exactly where it is refused -/
  calls : ∀ call, s.Makes c call → Decides c s call
  /-- the program never stands still: it makes a call or takes a plain step -/
  turns : (∃ call, s.Makes c call) ∨ ∃ a s', Plain a ∧ Step c s a s'
  covers : ∀ a s', ByProgram a → Step c s a s' →
    Plain a ∨ ∃ call, s.Makes c call ∧ call.action = some a
  /-- a completion it refuses ends it where it is built or handled, and is the last
  one it looks at -/
  refused : ∀ p, s.Examines p → ¬ s.loop.Accepts p →
    (∃ t call, (t = s ∨ Step c s .build t) ∧ t.Makes c call ∧ Panics t call) ∧
    ∀ t, Relation.ReflTransGen ((mainLoop c).Move fun _ _ => True) s t →
      t.Examines p ∧ t.ring.processed = s.ring.processed
  /-- any other it handles by itself -/
  accepted : ∀ p, s.Examines p → s.loop.Accepts p →
    ∃ t, Relation.ReflTransGen ((mainLoop c).Move fun _ a => ByProgram a) s t ∧
      t.ring.processed = s.ring.processed ++ [p.cqe]

/-- In every state of every run, whatever the kernel posts and whatever the code
outside answers. -/
theorem main_loop_stops (hr : (mainLoop c).Reachable s) : Stops c s := by
  refine ⟨fun call => call_decides hr, has_turn c s, fun a s' => step_turn hr, ?_,
    fun p => accepted_goes hr⟩
  intro p hp hrefused
  refine ⟨refused_panics hr hp hrefused, fun t hrun => ?_⟩
  obtain ⟨hp', -, hprocessed⟩ := refused_stays hr hp hrefused hrun
  exact ⟨hp', hprocessed⟩

/-- A receive that finds no buffer is the end of the program. -/
theorem main_loop_stops_exhausted : ∃ (s : State { p : List UInt8 // p.length < 126 }) (p : Posted),
    s.Examines p ∧ p.cqe.res = -105 ∧ ¬ s.loop.Accepts p ∧ s.Makes Delivery.textFrames .build ∧
      s.Refuses .build ∧ Stops Delivery.textFrames s := by
  obtain ⟨s, p, h, hpc, hl, hready, hp, hres⟩ := reach_exhausted Delivery.textFrames
  have hpeek := Step.peek (c := Delivery.textFrames) hpc (.peek hl)
  have hexamines := examines_of_peek hp hready hpeek
  have hneg : ¬ 0 ≤ p.cqe.res.toInt := by
    rw [hres]
    decide
  refine ⟨_, p, hexamines, hres, fun haccepts => hneg haccepts.1.le,
    ⟨0, s.ring.peekBatch 10, if_neg hready⟩, ⟨p, hexamines, fun hbuilds => hneg hbuilds.1⟩,
    main_loop_stops (h.next trivial hpeek)⟩

end UringWs.MainLoop
