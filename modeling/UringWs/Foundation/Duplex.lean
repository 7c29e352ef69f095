import UringWs.Foundation.Transition
import Mathlib.Data.Multiset.AddSub
import Mathlib.Data.Multiset.MapFold

/-! # A family of duplex channels

What arrives on a channel is kept in order, up to a capacity, until it is read.
What is written leaves whole, in any order, and each message once.
-/
namespace UringWs

structure Duplex (ι β : Type*) where
  arrived : ι → List β
  returned : ι → List β
  written : ι → List (List β)
  outbox : ι → Multiset (List β)
  wire : ι → List β

namespace Duplex
variable {ι β : Type*}

inductive Action (ι β : Type*)
  | arrive (i : ι) (data : List β)
  | read (i : ι) (n : ℕ)
  | write (i : ι) (msg : List β)
  | transmit (i : ι) (msg : List β)

inductive Step [DecidableEq ι] (capacity : ℕ) : Duplex ι β → Action ι β → Duplex ι β → Prop
  | arrive {d : Duplex ι β} {i : ι} {data : List β}
      (hroom : (d.arrived i ++ data).length ≤ (d.returned i).length + capacity) :
      Step capacity d (.arrive i data)
        { d with arrived := Function.update d.arrived i (d.arrived i ++ data) }
  | read (d : Duplex ι β) (i : ι) (n : ℕ) :
      Step capacity d (.read i n) { d with
        returned := Function.update d.returned i
          (d.returned i ++ ((d.arrived i).drop (d.returned i).length).take n) }
  | write (d : Duplex ι β) (i : ι) (msg : List β) :
      Step capacity d (.write i msg) { d with
        written := Function.update d.written i (d.written i ++ [msg])
        outbox := Function.update d.outbox i (msg ::ₘ d.outbox i) }
  /-- whichever message the channel takes next -/
  | transmit {d : Duplex ι β} {i : ι} {msg : List β} {rest : Multiset (List β)}
      (hmsg : d.outbox i = msg ::ₘ rest) :
      Step capacity d (.transmit i msg) { d with
        outbox := Function.update d.outbox i rest
        wire := Function.update d.wire i (d.wire i ++ msg) }

structure Init (d : Duplex ι β) : Prop where
  arrived : ∀ i, d.arrived i = []
  returned : ∀ i, d.returned i = []
  written : ∀ i, d.written i = []
  outbox : ∀ i, d.outbox i = 0
  wire : ∀ i, d.wire i = []

def channels [DecidableEq ι] (capacity : ℕ) : System (Duplex ι β) (Action ι β) :=
  { init := Init, step := Step capacity }

/-- What every channel guarantees. -/
structure Reliable (capacity : ℕ) (d : Duplex ι β) (i : ι) : Prop where
  /-- reads return what arrived, in order -/
  fifo : d.returned i <+: d.arrived i
  bounded : (d.arrived i).length ≤ (d.returned i).length + capacity
  /-- the wire holds whole messages, which with those still to leave are those written -/
  once : ∃ sent : List (List β), d.wire i = sent.flatten ∧
    (sent : Multiset (List β)) + d.outbox i = d.written i

variable {capacity : ℕ} {d d' : Duplex ι β} {a : Action ι β}

theorem Reliable.congr {i : ι} (h : d.Reliable capacity i) (harrived : d'.arrived i = d.arrived i)
    (hreturned : d'.returned i = d.returned i) (hwritten : d'.written i = d.written i)
    (houtbox : d'.outbox i = d.outbox i) (hwire : d'.wire i = d.wire i) :
    d'.Reliable capacity i := by
  obtain ⟨hfifo, hbounded, honce⟩ := h
  rw [← harrived, ← hreturned] at hfifo hbounded
  rw [← hwire, ← houtbox, ← hwritten] at honce
  exact ⟨hfifo, hbounded, honce⟩

theorem reliable_init (h : Init d) (i : ι) : d.Reliable capacity i := by
  refine ⟨?_, ?_, [], h.wire i, ?_⟩
  · rw [h.returned]
    exact List.nil_prefix
  · rw [h.arrived]
    exact Nat.zero_le _
  · rw [h.outbox, h.written]
    rfl

theorem Reliable.arrive {i : ι} {data : List β} (h : d.Reliable capacity i)
    (hroom : (d.arrived i ++ data).length ≤ (d.returned i).length + capacity)
    (harrived : d'.arrived i = d.arrived i ++ data) (hreturned : d'.returned i = d.returned i)
    (hwritten : d'.written i = d.written i) (houtbox : d'.outbox i = d.outbox i)
    (hwire : d'.wire i = d.wire i) : d'.Reliable capacity i := by
  refine ⟨?_, ?_, ?_⟩
  · rw [harrived, hreturned]
    exact h.fifo.trans (List.prefix_append ..)
  · rwa [harrived, hreturned]
  · rw [hwire, houtbox, hwritten]
    exact h.once

theorem Reliable.read {i : ι} {n : ℕ} (h : d.Reliable capacity i)
    (harrived : d'.arrived i = d.arrived i)
    (hreturned : d'.returned i =
      d.returned i ++ ((d.arrived i).drop (d.returned i).length).take n)
    (hwritten : d'.written i = d.written i) (houtbox : d'.outbox i = d.outbox i)
    (hwire : d'.wire i = d.wire i) : d'.Reliable capacity i := by
  obtain ⟨rest, hrest⟩ := h.fifo
  have hbounded := h.bounded
  refine ⟨?_, ?_, ?_⟩
  · rw [harrived, hreturned, ← hrest, List.drop_left, List.prefix_append_right_inj]
    exact List.take_prefix n rest
  · rw [harrived, hreturned, List.length_append]
    omega
  · rw [hwire, houtbox, hwritten]
    exact h.once

theorem Reliable.write {i : ι} {msg : List β} (h : d.Reliable capacity i)
    (harrived : d'.arrived i = d.arrived i) (hreturned : d'.returned i = d.returned i)
    (hwritten : d'.written i = d.written i ++ [msg]) (houtbox : d'.outbox i = msg ::ₘ d.outbox i)
    (hwire : d'.wire i = d.wire i) : d'.Reliable capacity i := by
  obtain ⟨sent, hsent, honce⟩ := h.once
  refine ⟨?_, ?_, sent, hwire.trans hsent, ?_⟩
  · rw [harrived, hreturned]
    exact h.fifo
  · rw [harrived, hreturned]
    exact h.bounded
  · rw [houtbox, hwritten, Multiset.add_cons, honce, Multiset.cons_coe, Multiset.coe_eq_coe]
    exact (List.perm_append_singleton _ _).symm

theorem Reliable.transmit {i : ι} {msg : List β} {rest : Multiset (List β)}
    (h : d.Reliable capacity i) (hmsg : d.outbox i = msg ::ₘ rest)
    (harrived : d'.arrived i = d.arrived i) (hreturned : d'.returned i = d.returned i)
    (hwritten : d'.written i = d.written i) (houtbox : d'.outbox i = rest)
    (hwire : d'.wire i = d.wire i ++ msg) : d'.Reliable capacity i := by
  obtain ⟨sent, hsent, honce⟩ := h.once
  refine ⟨?_, ?_, sent ++ [msg], ?_, ?_⟩
  · rw [harrived, hreturned]
    exact h.fifo
  · rw [harrived, hreturned]
    exact h.bounded
  · rw [hwire, hsent, List.flatten_append, List.flatten_singleton]
  · rw [houtbox, hwritten, ← honce, hmsg, ← Multiset.coe_add, Multiset.coe_singleton, Multiset.add_assoc,
      Multiset.singleton_add]

/-- A step changes one channel. -/
theorem reliable_step [DecidableEq ι] (h : ∀ i, d.Reliable capacity i)
    (hs : Step capacity d a d') (j : ι) : d'.Reliable capacity j := by
  cases hs with
  | @arrive i data hroom =>
    by_cases hj : j = i
    · subst hj
      exact (h j).arrive hroom (Function.update_self ..) rfl rfl rfl rfl
    · exact (h j).congr (Function.update_of_ne hj ..) rfl rfl rfl rfl
  | read i n =>
    by_cases hj : j = i
    · subst hj
      exact (h j).read rfl (Function.update_self ..) rfl rfl rfl
    · exact (h j).congr rfl (Function.update_of_ne hj ..) rfl rfl rfl
  | write i msg =>
    by_cases hj : j = i
    · subst hj
      exact (h j).write rfl rfl (Function.update_self ..) (Function.update_self ..) rfl
    · exact (h j).congr rfl rfl (Function.update_of_ne hj ..) (Function.update_of_ne hj ..) rfl
  | @transmit i msg rest hmsg =>
    by_cases hj : j = i
    · subst hj
      exact (h j).transmit hmsg rfl rfl rfl (Function.update_self ..) (Function.update_self ..)
    · exact (h j).congr rfl rfl rfl (Function.update_of_ne hj ..) (Function.update_of_ne hj ..)

theorem reach_reliable [DecidableEq ι] {G : Duplex ι β → Action ι β → Prop}
    (h : (channels capacity).Reach G d) (i : ι) : d.Reliable capacity i :=
  h.invariant (P := fun d => ∀ i, d.Reliable capacity i) (fun _ h₀ => reliable_init h₀)
    (fun _ _ _ _ ih _ hs => reliable_step ih hs) i

end Duplex
end UringWs
