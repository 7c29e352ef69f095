import UringWs.Program.Sys

/-! # The packed completion word

The 64-bit user data of a request holds the event in its top byte, the owner in
the half-word below and the request id in the low word.
-/
namespace UringWs
open Checked

inductive Event
  | send
  | multishortRecv
deriving DecidableEq, Repr

namespace Event

def toU8 : Event → UInt8
  | send => 0
  | multishortRecv => 1

def fromU8 (v : UInt8) : Except Fault Event :=
  if v = 0 then .ok send
  else if v = 1 then .ok multishortRecv
  else .error (.unknownEvent v)

@[simp] theorem fromU8_toU8 (e : Event) : fromU8 e.toU8 = .ok e := by cases e <;> rfl

end Event

structure UserData where
  data : UInt64
deriving DecidableEq, Repr

namespace UserData

def fromPacked (data : UInt64) : UserData := ⟨data⟩

def fromParts (event : UInt8) (owner : UInt16) (req : UInt32) : UserData :=
  let data : UInt64 := 0
  let data := data ||| (event.toUInt64 <<< 56)
  let data := data ||| (owner.toUInt64 <<< 40)
  let data := data ||| req.toUInt64
  ⟨data⟩

def asU64 (u : UserData) : UInt64 := u.data
def event (u : UserData) : UInt8 := (u.data >>> 56).toUInt8
def owner (u : UserData) : UInt16 := ((u.data >>> 40) &&& 0xFFFF).toUInt16
def req (u : UserData) : UInt32 := (u.data &&& 0xFFFFFFFF).toUInt32

@[simp] theorem fromPacked_data (u : UserData) : fromPacked u.data = u := rfl

/-- The packed word as a number: the three fields do not overlap. -/
theorem fromParts_toNat (event : UInt8) (owner : UInt16) (req : UInt32) :
    (fromParts event owner req).data.toNat =
      event.toNat * 2 ^ 56 + owner.toNat * 2 ^ 40 + req.toNat := by
  have he := event.toNat_lt
  have ho := owner.toNat_lt
  have hr := req.toNat_lt
  have hevent : (event.toUInt64 <<< 56).toNat = event.toNat * 2 ^ 56 := by
    rw [UInt64.toNat_shiftLeft, show (56 : UInt64).toNat % 64 = 56 from rfl,
      UInt8.toNat_toUInt64, Nat.shiftLeft_eq, Nat.mod_eq_of_lt (by omega)]
  have howner : (owner.toUInt64 <<< 40).toNat = owner.toNat * 2 ^ 40 := by
    rw [UInt64.toNat_shiftLeft, show (40 : UInt64).toNat % 64 = 40 from rfl,
      UInt16.toNat_toUInt64, Nat.shiftLeft_eq, Nat.mod_eq_of_lt (by omega)]
  have htop : event.toNat * 2 ^ 56 ||| owner.toNat * 2 ^ 40 =
      event.toNat * 2 ^ 56 + owner.toNat * 2 ^ 40 := by
    rw [Nat.mul_comm event.toNat, ← Nat.two_pow_add_eq_or_of_lt (by omega)]
  have hlow : (event.toNat * 2 ^ 56 + owner.toNat * 2 ^ 40) ||| req.toNat =
      event.toNat * 2 ^ 56 + owner.toNat * 2 ^ 40 + req.toNat := by
    rw [show event.toNat * 2 ^ 56 + owner.toNat * 2 ^ 40 =
      2 ^ 40 * (event.toNat * 2 ^ 16 + owner.toNat) by omega,
      ← Nat.two_pow_add_eq_or_of_lt (by omega)]
  simp only [fromParts, UInt64.toNat_or, hevent, howner, UInt32.toNat_toUInt64]
  rw [show (0 : UInt64).toNat = 0 from rfl, Nat.zero_or, htop, hlow]

@[simp] theorem event_fromParts (event : UInt8) (owner : UInt16) (req : UInt32) :
    (fromParts event owner req).event = event := by
  apply UInt8.toNat_inj.mp
  have := event.toNat_lt
  have := owner.toNat_lt
  have := req.toNat_lt
  rw [UserData.event, UInt64.toNat_toUInt8, UInt64.toNat_shiftRight, fromParts_toNat,
    show (56 : UInt64).toNat % 64 = 56 from rfl, Nat.shiftRight_eq_div_pow]
  omega

@[simp] theorem owner_fromParts (event : UInt8) (owner : UInt16) (req : UInt32) :
    (fromParts event owner req).owner = owner := by
  apply UInt16.toNat_inj.mp
  have := event.toNat_lt
  have := owner.toNat_lt
  have := req.toNat_lt
  rw [UserData.owner, UInt64.toNat_toUInt16, UInt64.toNat_and, UInt64.toNat_shiftRight,
    fromParts_toNat, show (40 : UInt64).toNat % 64 = 40 from rfl, Nat.shiftRight_eq_div_pow,
    show (0xFFFF : UInt64).toNat = 2 ^ 16 - 1 from rfl, Nat.and_two_pow_sub_one_eq_mod]
  omega

@[simp] theorem req_fromParts (event : UInt8) (owner : UInt16) (req : UInt32) :
    (fromParts event owner req).req = req := by
  apply UInt32.toNat_inj.mp
  have := event.toNat_lt
  have := owner.toNat_lt
  have := req.toNat_lt
  rw [UserData.req, UInt64.toNat_toUInt32, UInt64.toNat_and, fromParts_toNat,
    show (0xFFFFFFFF : UInt64).toNat = 2 ^ 32 - 1 from rfl, Nat.and_two_pow_sub_one_eq_mod]
  omega

theorem fromParts_inj {event event' : UInt8} {owner owner' : UInt16} {req req' : UInt32} :
    fromParts event owner req = fromParts event' owner' req' ↔
      event = event' ∧ owner = owner' ∧ req = req' := by
  constructor
  · intro h
    refine ⟨?_, ?_, ?_⟩
    · simpa using congrArg UserData.event h
    · simpa using congrArg UserData.owner h
    · simpa using congrArg UserData.req h
  · rintro ⟨rfl, rfl, rfl⟩
    rfl

end UserData
end UringWs
