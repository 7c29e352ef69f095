import UringWs.Foundation.Layout
import UringWs.Program.Ring

/-! # Submission entries as raw memory

The entries are an array of 64-byte records shared with the kernel. Union members
that overlap are one field. Preparing an entry is a sequence of stores to fields
of its record, in the order of the source.
-/
namespace UringWs
open Checked

inductive SqeField
  | opcode | flags | ioprio | fd | off | addr | len | opFlags | userData | bufIndex | personality
  | fileIndex | addr3 | pad2
deriving DecidableEq

namespace SqeField

def offset : SqeField → ℕ
  | opcode => 0
  | flags => 1
  | ioprio => 2
  | fd => 4
  | off => 8
  | addr => 16
  | len => 24
  | opFlags => 28
  | userData => 32
  | bufIndex => 40
  | personality => 42
  | fileIndex => 44
  | addr3 => 48
  | pad2 => 56

def width : SqeField → ℕ
  | opcode | flags => 1
  | ioprio | bufIndex | personality => 2
  | fd | len | opFlags | fileIndex => 4
  | off | addr | userData | addr3 | pad2 => 8

/-- The field a byte belongs to. -/
def ofByte (a : ℕ) : SqeField :=
  if a < 1 then opcode else if a < 2 then flags else if a < 4 then ioprio else if a < 8 then fd
  else if a < 16 then off else if a < 24 then addr else if a < 28 then len
  else if a < 32 then opFlags else if a < 40 then userData else if a < 42 then bufIndex
  else if a < 44 then personality else if a < 48 then fileIndex else if a < 56 then addr3 else pad2

end SqeField

def sqeLayout : Layout SqeField where
  size := 64
  offset := SqeField.offset
  width := SqeField.width
  fits f := by cases f <;> decide
  apart f g h := by cases f <;> cases g <;> first | exact absurd rfl h | decide
  covers a ha := ⟨SqeField.ofByte a, (show ∀ a < 64, (SqeField.ofByte a).offset ≤ a ∧
    a < (SqeField.ofByte a).offset + (SqeField.ofByte a).width by decide) a ha⟩

/-- The bytes of the entries, by offset. -/
abbrev RawSqes := ℕ → UInt8

namespace RawSqes

/-- The entry that the i-th record stands for. -/
def sqe (sqes : RawSqes) (i : ℕ) : IoUringSqe where
  opcode := UInt8.ofNat (sqeLayout.get sqes i .opcode)
  flags := UInt8.ofNat (sqeLayout.get sqes i .flags)
  ioprio := UInt16.ofNat (sqeLayout.get sqes i .ioprio)
  fd := (UInt32.ofNat (sqeLayout.get sqes i .fd)).toInt32
  off := UInt64.ofNat (sqeLayout.get sqes i .off)
  addr := sqeLayout.get sqes i .addr
  len := UInt32.ofNat (sqeLayout.get sqes i .len)
  opFlags := UInt32.ofNat (sqeLayout.get sqes i .opFlags)
  userData := UInt64.ofNat (sqeLayout.get sqes i .userData)
  bufGroup := UInt16.ofNat (sqeLayout.get sqes i .bufIndex)
  personality := UInt16.ofNat (sqeLayout.get sqes i .personality)
  fileIndex := UInt32.ofNat (sqeLayout.get sqes i .fileIndex)
  addr3 := UInt64.ofNat (sqeLayout.get sqes i .addr3)
  pad2 := UInt64.ofNat (sqeLayout.get sqes i .pad2)

def initializeSqe (sqes : RawSqes) (i : ℕ) : RawSqes :=
  sqeLayout.assign sqes i [(.flags, 0), (.ioprio, 0), (.opFlags, 0), (.bufIndex, 0),
    (.personality, 0), (.fileIndex, 0), (.addr3, 0), (.pad2, 0)]

def setData (sqes : RawSqes) (i : ℕ) (data : UInt64) : RawSqes :=
  sqeLayout.assign sqes i [(.userData, data.toNat)]

def readAt (sqes : RawSqes) (i : ℕ) (fd : Int32) (ptr : UInt64) (len : UInt32) (offset : UInt64) :
    RawSqes :=
  sqeLayout.assign sqes i [(.opcode, ioringOpRead.toNat), (.fd, fd.toUInt32.toNat),
    (.off, offset.toNat), (.addr, ptr.toNat), (.len, len.toNat)]

def recv (sqes : RawSqes) (i : ℕ) (fd : Int32) (ptr : UInt64) (len flags : UInt32) : RawSqes :=
  sqeLayout.assign sqes i [(.opcode, ioringOpRecv.toNat), (.fd, fd.toUInt32.toNat),
    (.addr, ptr.toNat), (.opFlags, flags.toNat), (.len, len.toNat)]

def writeAt (sqes : RawSqes) (i : ℕ) (fd : Int32) (ptr : UInt64) (len : UInt32) (offset : UInt64) :
    RawSqes :=
  sqeLayout.assign sqes i [(.opcode, ioringOpWrite.toNat), (.fd, fd.toUInt32.toNat),
    (.off, offset.toNat), (.addr, ptr.toNat), (.len, len.toNat)]

def send (sqes : RawSqes) (i : ℕ) (fd : Int32) (ptr : UInt64) (len flags : UInt32) : RawSqes :=
  sqeLayout.assign sqes i [(.opcode, ioringOpSend.toNat), (.fd, fd.toUInt32.toNat),
    (.addr, ptr.toNat), (.opFlags, flags.toNat), (.len, len.toNat)]

def multishotRecv (sqes : RawSqes) (i : ℕ) (fd : Int32) (flags : UInt32) (bufGroup : UInt16) :
    Except Fault RawSqes := do
  ensure (flags &&& msgWaitall = 0) .waitallMultishot
  .ok (sqeLayout.assign sqes i [(.opcode, ioringOpRecv.toNat), (.fd, fd.toUInt32.toNat),
    (.opFlags, flags.toNat), (.ioprio, ioringRecvMultishot.toNat), (.bufIndex, bufGroup.toNat),
    (.flags, ((sqes.sqe i).flags ||| iosqeBufferSelect).toNat)])

variable {sqes sqes' : RawSqes} {i j : ℕ}

/-! ### The entry after each operation -/

theorem sqe_initialize : (sqes.initializeSqe i).sqe i = ioUringInitializeSqe (sqes.sqe i) := by
  have hfits : sqeLayout.Fits [(.flags, 0), (.ioprio, 0), (.opFlags, 0), (.bufIndex, 0),
      (.personality, 0), (.fileIndex, 0), (.addr3, 0), (.pad2, 0)] := by
    simp [Layout.Fits, sqeLayout, SqeField.width]
  simp [sqe, initializeSqe, Layout.get_assign hfits, ioUringInitializeSqe]

theorem sqe_setData (data : UInt64) :
    (sqes.setData i data).sqe i = ioUringSqeSetData data (sqes.sqe i) := by
  have hfits : sqeLayout.Fits [(.userData, data.toNat)] := .cons data.toNat_lt .nil
  simp [sqe, setData, Layout.get_assign hfits, ioUringSqeSetData]

section Builders
variable (fd : Int32) (ptr : UInt64) (len flags : UInt32) (offset : UInt64) (bufGroup : UInt16)

theorem fits_transfer (op : UInt8) : sqeLayout.Fits [(.opcode, op.toNat),
    (.fd, fd.toUInt32.toNat), (.off, offset.toNat), (.addr, ptr.toNat), (.len, len.toNat)] :=
  .cons op.toNat_lt (.cons fd.toUInt32.toNat_lt (.cons offset.toNat_lt (.cons ptr.toNat_lt
    (.cons len.toNat_lt .nil))))

theorem fits_message (op : UInt8) : sqeLayout.Fits [(.opcode, op.toNat),
    (.fd, fd.toUInt32.toNat), (.addr, ptr.toNat), (.opFlags, flags.toNat), (.len, len.toNat)] :=
  .cons op.toNat_lt (.cons fd.toUInt32.toNat_lt (.cons ptr.toNat_lt (.cons flags.toNat_lt
    (.cons len.toNat_lt .nil))))

theorem sqe_readAt : (sqes.readAt i fd ptr len offset).sqe i =
    Op.readAt fd ptr.toNat len offset (sqes.sqe i) := by
  have hfits := fits_transfer fd ptr len offset ioringOpRead
  simp [sqe, readAt, Layout.get_assign hfits, Op.readAt]

theorem sqe_recv : (sqes.recv i fd ptr len flags).sqe i =
    Op.recv fd ptr.toNat len flags (sqes.sqe i) := by
  have hfits := fits_message fd ptr len flags ioringOpRecv
  simp [sqe, recv, Layout.get_assign hfits, Op.recv]

theorem sqe_writeAt : (sqes.writeAt i fd ptr len offset).sqe i =
    Op.writeAt fd ptr.toNat len offset (sqes.sqe i) := by
  have hfits := fits_transfer fd ptr len offset ioringOpWrite
  simp [sqe, writeAt, Layout.get_assign hfits, Op.writeAt]

theorem sqe_send : (sqes.send i fd ptr len flags).sqe i =
    Op.send fd ptr.toNat len flags (sqes.sqe i) := by
  have hfits := fits_message fd ptr len flags ioringOpSend
  simp [sqe, send, Layout.get_assign hfits, Op.send]

theorem sqe_multishotRecv : (sqes.multishotRecv i fd flags bufGroup).map (sqe · i) =
    Op.multishotRecv fd flags bufGroup (sqes.sqe i) := by
  by_cases h : flags &&& msgWaitall = 0
  · rw [multishotRecv, Op.multishotRecv, ensure_of h, ok_bind, ok_bind]
    generalize (sqes.sqe i).flags ||| iosqeBufferSelect = newFlags
    have hfits : sqeLayout.Fits [(.opcode, ioringOpRecv.toNat), (.fd, fd.toUInt32.toNat),
        (.opFlags, flags.toNat), (.ioprio, ioringRecvMultishot.toNat), (.bufIndex, bufGroup.toNat),
        (.flags, newFlags.toNat)] :=
      .cons (by decide) (.cons fd.toUInt32.toNat_lt (.cons flags.toNat_lt (.cons (by decide)
        (.cons bufGroup.toNat_lt (.cons newFlags.toNat_lt .nil)))))
    simp [Except.map, sqe, Layout.get_assign hfits]
  · rw [multishotRecv, Op.multishotRecv, ensure_of_not h]
    rfl

end Builders

/-! ### Entries as 64 bytes -/

/-- The bytes of one entry. -/
abbrev SqeBytes := { bytes : List UInt8 // bytes.length = 64 }

def bytes (sqes : RawSqes) (i : ℕ) : SqeBytes := ⟨sqeLayout.image sqes i, Layout.image_length⟩

def decode (bytes : SqeBytes) : IoUringSqe := sqe (Layout.memory bytes) 0

def values (sqe : IoUringSqe) : List (SqeField × ℕ) :=
  [(.opcode, sqe.opcode.toNat), (.flags, sqe.flags.toNat), (.ioprio, sqe.ioprio.toNat),
    (.fd, sqe.fd.toUInt32.toNat), (.off, sqe.off.toNat), (.addr, sqe.addr), (.len, sqe.len.toNat),
    (.opFlags, sqe.opFlags.toNat), (.userData, sqe.userData.toNat),
    (.bufIndex, sqe.bufGroup.toNat), (.personality, sqe.personality.toNat),
    (.fileIndex, sqe.fileIndex.toNat), (.addr3, sqe.addr3.toNat), (.pad2, sqe.pad2.toNat)]

def encode (sqe : IoUringSqe) : SqeBytes :=
  bytes (sqeLayout.assign (Layout.memory []) 0 (values sqe)) 0

theorem fits_values {sqe : IoUringSqe} (h : sqe.addr < 2 ^ 64) : sqeLayout.Fits (values sqe) :=
  .cons sqe.opcode.toNat_lt (.cons sqe.flags.toNat_lt (.cons sqe.ioprio.toNat_lt
    (.cons sqe.fd.toUInt32.toNat_lt (.cons sqe.off.toNat_lt (.cons h (.cons sqe.len.toNat_lt
    (.cons sqe.opFlags.toNat_lt (.cons sqe.userData.toNat_lt (.cons sqe.bufGroup.toNat_lt
    (.cons sqe.personality.toNat_lt (.cons sqe.fileIndex.toNat_lt (.cons sqe.addr3.toNat_lt
    (.cons sqe.pad2.toNat_lt .nil)))))))))))))

@[simp] theorem decode_bytes (sqes : RawSqes) (i : ℕ) : decode (sqes.bytes i) = sqes.sqe i := by
  simp only [decode, bytes, sqe, Layout.get_image]

theorem decode_encode {sqe : IoUringSqe} (h : sqe.addr < 2 ^ 64) : decode (encode sqe) = sqe := by
  rw [encode, decode_bytes]
  simp only [RawSqes.sqe, Layout.get_assign (fits_values h)]
  simp [values]

theorem addr_decode_lt (bytes : SqeBytes) : (decode bytes).addr < 2 ^ 64 :=
  Layout.get_lt (L := sqeLayout) (f := .addr)

/-- The fields cover the record, so no byte of it escapes them. -/
theorem encode_decode (bytes : SqeBytes) : encode (decode bytes) = bytes := by
  have hfits := fits_values (addr_decode_lt bytes)
  have himage := Layout.image_memory (L := sqeLayout) bytes.2
  refine Subtype.ext (Eq.trans ?_ himage)
  refine Layout.image_ext fun f => ?_
  have hlt : sqeLayout.get (Layout.memory bytes) 0 f < 256 ^ sqeLayout.width f := Layout.get_lt
  rw [Layout.get_assign hfits]
  cases f <;> simp [values, decode, sqe] <;> exact hlt

theorem decode_injective : Function.Injective decode :=
  Function.LeftInverse.injective encode_decode

/-- Entries whose address is one are their 64 bytes: each side of the other is the
identity, and records of the array with equal entries are equal bytes. -/
structure Format : Prop where
  encode_decode : ∀ bytes, encode (decode bytes) = bytes
  addr_lt : ∀ bytes, (decode bytes).addr < 2 ^ 64
  decode_encode : ∀ sqe : IoUringSqe, sqe.addr < 2 ^ 64 → decode (encode sqe) = sqe
  sqe_eq_iff : ∀ (sqes sqes' : RawSqes) (i j : ℕ),
    sqes.sqe i = sqes'.sqe j ↔ sqes.bytes i = sqes'.bytes j

theorem sqe_format : Format where
  encode_decode := encode_decode
  addr_lt := addr_decode_lt
  decode_encode _ := decode_encode
  sqe_eq_iff sqes sqes' i j := by
    rw [← decode_bytes, ← decode_bytes]
    exact decode_injective.eq_iff

/-! ### Stores to one entry -/

/-- The second memory is the first with stores to fields of the i-th entry. -/
def Stores (sqes : RawSqes) (i : ℕ) (sqes' : RawSqes) : Prop :=
  ∃ values, sqes' = sqeLayout.assign sqes i values

theorem stores_initialize : sqes.Stores i (sqes.initializeSqe i) := ⟨_, rfl⟩

theorem stores_setData (data : UInt64) : sqes.Stores i (sqes.setData i data) := ⟨_, rfl⟩

theorem Stores.bytes_ne (h : sqes.Stores i sqes') (hj : j ≠ i) : sqes'.bytes j = sqes.bytes j := by
  obtain ⟨values, rfl⟩ := h
  exact Subtype.ext (Layout.image_assign_record hj)

theorem Stores.sqe_ne (h : sqes.Stores i sqes') (hj : j ≠ i) : sqes'.sqe j = sqes.sqe j := by
  rw [← decode_bytes, h.bytes_ne hj, decode_bytes]

theorem Stores.sqe_eq (h : sqes.Stores i sqes') :
    sqes'.sqe = Function.update sqes.sqe i (sqes'.sqe i) := by
  funext j
  by_cases hj : j = i
  · rw [hj, Function.update_self]
  · rw [Function.update_of_ne hj, h.sqe_ne hj]

theorem Stores.outside (h : sqes.Stores i sqes') {a : ℕ} (ha : ¬ (64 * i ≤ a ∧ a < 64 * i + 64)) :
    sqes' a = sqes a := by
  obtain ⟨values, rfl⟩ := h
  exact Layout.assign_outside ha

end RawSqes

/-! ### The ring over the raw entries -/

structure RawSq where
  khead : UInt32
  sqeTail : UInt32
  ringMask : UInt32
  ringEntries : UInt32
  sqes : RawSqes

namespace RawSq

/-- The ring that the memory stands for. -/
def toSq (sq : RawSq) : IoUringSq :=
  { khead := sq.khead, sqeTail := sq.sqeTail, ringMask := sq.ringMask,
    ringEntries := sq.ringEntries, sqes := sq.sqes.sqe }

def ioUringGetSqe (sq : RawSq) : Except String ℕ × RawSq :=
  let next := sq.sqeTail + 1
  let kernalHead := sq.khead
  if next - kernalHead ≤ sq.ringEntries then
    let idx := ((sq.sqeTail &&& sq.ringMask) <<< (0 : UInt32)).toNat
    let sq := { sq with sqeTail := next }
    (.ok idx, { sq with sqes := sq.sqes.initializeSqe idx })
  else (.error "sq ring entries overflow", sq)

theorem toSq_getSqe (sq : RawSq) :
    UringWs.ioUringGetSqe sq.toSq = (sq.ioUringGetSqe.1, sq.ioUringGetSqe.2.toSq) := by
  by_cases h : sq.sqeTail + 1 - sq.khead ≤ sq.ringEntries
  · have htoSq : sq.toSq.sqeTail + 1 - sq.toSq.khead ≤ sq.toSq.ringEntries := h
    simp only [UringWs.ioUringGetSqe, ioUringGetSqe, if_pos h, if_pos htoSq]
    simp only [toSq]
    rw [RawSqes.stores_initialize.sqe_eq, RawSqes.sqe_initialize]
  · have htoSq : ¬ sq.toSq.sqeTail + 1 - sq.toSq.khead ≤ sq.toSq.ringEntries := h
    simp only [UringWs.ioUringGetSqe, ioUringGetSqe, if_neg h, if_neg htoSq]

end RawSq
end UringWs
