import UringWs.Program.Cqe

/-! # The kernel's side of a provided-buffer group

The kernel selects buffers of a registered group in ring order from its own
16-bit head, and names the selected buffer in the completion it posts.
-/
namespace UringWs
open RingWindow

/-- A registered group: its ring, the kernel's head, and the address of the
block its buffers were carved from. -/
structure KernelGroup where
  ring : RingPtr
  head : UInt16
  base : ℕ

namespace KernelGroup

def available (kg : KernelGroup) (br : IoUringBufRing) : ℕ := (br.tail - kg.head).toNat

def selected (kg : KernelGroup) (br : IoUringBufRing) : IoUringBuf :=
  br.bufs (kg.head &&& ioUringBufRingMask ringPoolSize).toNat

def advance (kg : KernelGroup) : KernelGroup := { kg with head := kg.head + 1 }

/-- The buffers the kernel owns, in the order it will select them. -/
def window (kg : KernelGroup) (br : IoUringBufRing) : List IoUringBuf :=
  RingWindow.window br.bufs 1024 kg.head.toNat (kg.available br)

variable {kg : KernelGroup} {br : IoUringBufRing}

@[simp] theorem window_length (kg : KernelGroup) (br : IoUringBufRing) :
    (kg.window br).length = kg.available br := RingWindow.window_length ..

theorem available_eq_span (kg : KernelGroup) (br : IoUringBufRing) :
    kg.available br = span (2 ^ 16) kg.head.toNat br.tail.toNat := UInt16.toNat_sub ..

theorem available_pos (h : kg.head ≠ br.tail) : 0 < kg.available br := by
  have hh := kg.head.toNat_lt
  have ht := br.tail.toNat_lt
  have hne : kg.head.toNat ≠ br.tail.toNat := fun he => h (UInt16.toNat_inj.mp he)
  rw [available_eq_span, span]
  omega

theorem selected_eq (kg : KernelGroup) (br : IoUringBufRing) :
    kg.selected br = br.bufs (kg.head.toNat % 1024) := by
  rw [selected, and_bufRingMask]

theorem advance_head (kg : KernelGroup) :
    kg.advance.head.toNat = (kg.head.toNat + 1) % 2 ^ 16 := UInt16.toNat_add ..

theorem advance_available (h : 0 < kg.available br) :
    kg.advance.available br = kg.available br - 1 := by
  rw [available_eq_span] at *
  rw [available_eq_span, advance_head]
  exact span_head kg.head.toNat_lt br.tail.toNat_lt h

theorem window_select (h : 0 < kg.available br) :
    kg.window br = kg.selected br :: kg.advance.window br := by
  rw [window, window, advance_available h, advance_head, window_wrap (by decide), selected_eq,
    ← window_succ, Nat.sub_add_cancel h]

theorem available_put (h : kg.available br < 1024) (buf : IoUringBuf) :
    kg.available (br.put buf) = kg.available br + 1 := by
  have ht : (br.put buf).tail.toNat = (br.tail.toNat + 1) % 2 ^ 16 := UInt16.toNat_add ..
  rw [available_eq_span] at *
  rw [available_eq_span, ht]
  exact span_tail (by omega)

theorem window_put (h : kg.available br < 1024) (buf : IoUringBuf) :
    kg.window (br.put buf) = kg.window br ++ [buf] := by
  have hslot : br.tail.toNat % 1024 = (kg.head.toNat + kg.available br) % 1024 := by
    rw [available_eq_span, head_add_span (by decide) kg.head.toNat_lt]
  rw [window, available_put h, window, IoUringBufRing.put, hslot, window_push h]

end KernelGroup

/-- The completion of a receive into a buffer: the buffer flag, the buffer's id
in the upper half of the flags, and whether more completions follow. -/
def recvCqe (userData : UserData) (res : Int32) (bid : UInt16) (more : Bool) : IoUringCqe :=
  { userData := userData.data, res
    flags := (bid.toUInt32 <<< 16) ||| (if more then 3 else 1) }

theorem recvCqe_flags (u : UserData) (res : Int32) (bid : UInt16) (more : Bool) :
    (recvCqe u res bid more).flags.toNat = 2 ^ 16 * bid.toNat + (if more then 3 else 1) := by
  have hb := bid.toNat_lt
  have hshift : (bid.toUInt32 <<< 16).toNat = 2 ^ 16 * bid.toNat := by
    rw [UInt32.toNat_shiftLeft, show (16 : UInt32).toNat % 32 = 16 from rfl,
      UInt16.toNat_toUInt32, Nat.shiftLeft_eq, Nat.mod_eq_of_lt (by omega), Nat.mul_comm]
  rw [recvCqe, UInt32.toNat_or, hshift]
  cases more <;> exact (Nat.two_pow_add_eq_or_of_lt (by decide) _).symm

theorem recvCqe_bufferId (u : UserData) (res : Int32) (bid : UInt16) (more : Bool) :
    (recvCqe u res bid more).bufferId = bid := by
  apply UInt16.toNat_inj.mp
  have hb := bid.toNat_lt
  rw [IoUringCqe.bufferId, UInt32.toNat_toUInt16, UInt32.toNat_shiftRight,
    show ioringCqeBufferShift.toNat % 32 = 16 from rfl, recvCqe_flags, Nat.shiftRight_eq_div_pow]
  cases more <;> simp <;> omega

theorem recvCqe_flag (u : UserData) (res : Int32) (bid : UInt16) (more : Bool) {flag : UInt32}
    (hf : flag.toNat < 2 ^ 16) : (recvCqe u res bid more).flags &&& flag =
      (if more then 3 else 1) &&& flag := by
  apply UInt32.toNat_inj.mp
  have hlow : ∀ n, (2 ^ 16 * bid.toNat + n) &&& flag.toNat =
      ((2 ^ 16 * bid.toNat + n) % 2 ^ 16) &&& flag.toNat := by
    intro n
    have hle : (2 ^ 16 * bid.toNat + n) &&& flag.toNat < 2 ^ 16 := Nat.and_le_right.trans_lt hf
    rw [← Nat.mod_eq_of_lt hle, Nat.and_mod_two_pow, Nat.mod_eq_of_lt hf]
  rw [UInt32.toNat_and, recvCqe_flags, hlow, Nat.mul_add_mod]
  cases more <;> rfl

theorem recvCqe_hasBuffer (u : UserData) (res : Int32) (bid : UInt16) (more : Bool) :
    (recvCqe u res bid more).hasBuffer := by
  rw [IoUringCqe.hasBuffer, recvCqe_flag _ _ _ _ (by decide)]
  cases more <;> decide

theorem recvCqe_hasBufMore (u : UserData) (res : Int32) (bid : UInt16) (more : Bool) :
    ¬ (recvCqe u res bid more).hasBufMore := by
  rw [IoUringCqe.hasBufMore, recvCqe_flag _ _ _ _ (by decide)]
  cases more <;> decide

theorem recvCqe_hasMore (u : UserData) (res : Int32) (bid : UInt16) (more : Bool) :
    (recvCqe u res bid more).hasMore ↔ more = true := by
  rw [IoUringCqe.hasMore, recvCqe_flag _ _ _ _ (by decide)]
  cases more <;> decide

end UringWs
