import UringWs.Foundation.ByteMemory
import Mathlib.Algebra.Ring.Nat

/-! # Words in flat memory

A word of a given width is stored as its bytes, least significant first. Stores
to disjoint words commute, and a word is read back as it was stored.
-/
namespace UringWs.ByteMemory

/-- The bytes of a number in a word; what does not fit is dropped. -/
def encodeWord : ℕ → ℕ → List UInt8
  | 0, _ => []
  | width + 1, n => UInt8.ofNat n :: encodeWord width (n / 256)

def decodeWord (bytes : List UInt8) : ℕ := bytes.foldr (fun b n => b.toNat + 256 * n) 0

@[simp] theorem encodeWord_length (width n : ℕ) : (encodeWord width n).length = width := by
  induction width generalizing n with
  | zero => rfl
  | succ width ih => rw [encodeWord, List.length_cons, ih]

theorem decode_encodeWord {width n : ℕ} (h : n < 256 ^ width) :
    decodeWord (encodeWord width n) = n := by
  induction width generalizing n with
  | zero =>
    rw [pow_zero, Nat.lt_one_iff] at h
    exact h.symm
  | succ width ih =>
    have hdiv : n / 256 < 256 ^ width := by
      rw [pow_succ] at h
      exact Nat.div_lt_of_lt_mul (by rwa [Nat.mul_comm])
    change (UInt8.ofNat n).toNat + 256 * decodeWord (encodeWord width (n / 256)) = n
    rw [ih hdiv, UInt8.toNat_ofNat']
    exact Nat.mod_add_div n 256

theorem decodeWord_lt (bytes : List UInt8) : decodeWord bytes < 256 ^ bytes.length := by
  induction bytes with
  | nil => exact Nat.one_pos
  | cons b bytes ih =>
    have hb : b.toNat < 256 := b.toNat_lt
    change b.toNat + 256 * decodeWord bytes < 256 ^ (bytes.length + 1)
    rw [pow_succ]
    omega

theorem encode_decodeWord (bytes : List UInt8) :
    encodeWord bytes.length (decodeWord bytes) = bytes := by
  induction bytes with
  | nil => rfl
  | cons b bytes ih =>
    have hb : b.toNat < 256 := b.toNat_lt
    change UInt8.ofNat (b.toNat + 256 * decodeWord bytes) ::
      encodeWord bytes.length ((b.toNat + 256 * decodeWord bytes) / 256) = b :: bytes
    have hdiv : (b.toNat + 256 * decodeWord bytes) / 256 = decodeWord bytes := by omega
    have hbyte : UInt8.ofNat (b.toNat + 256 * decodeWord bytes) = b := by
      apply UInt8.toNat_inj.mp
      rw [UInt8.toNat_ofNat']
      omega
    rw [hdiv, ih, hbyte]

def loadWord (mem : ℕ → UInt8) (addr width : ℕ) : ℕ := decodeWord (load mem addr width)

def storeWord (mem : ℕ → UInt8) (addr width n : ℕ) : ℕ → UInt8 :=
  store mem addr (encodeWord width n)

variable {mem : ℕ → UInt8} {addr addr' width width' m n : ℕ}

theorem loadWord_storeWord (h : n < 256 ^ width) :
    loadWord (storeWord mem addr width n) addr width = n := by
  have hload := load_store mem addr (encodeWord width n)
  rw [encodeWord_length] at hload
  rw [loadWord, storeWord, hload, decode_encodeWord h]

theorem loadWord_storeWord_disjoint (h : addr' + width' ≤ addr ∨ addr + width ≤ addr') :
    loadWord (storeWord mem addr width n) addr' width' = loadWord mem addr' width' := by
  rw [loadWord, storeWord, load_store_disjoint (by rwa [encodeWord_length])]
  rfl

theorem storeWord_outside {a : ℕ} (h : ¬ (addr ≤ a ∧ a < addr + width)) :
    storeWord mem addr width n a = mem a :=
  store_outside (by rwa [encodeWord_length])

theorem storeWord_comm (h : addr + width ≤ addr' ∨ addr' + width' ≤ addr) :
    storeWord (storeWord mem addr width n) addr' width' m =
      storeWord (storeWord mem addr' width' m) addr width n :=
  store_comm (by rwa [encodeWord_length, encodeWord_length])

theorem loadWord_lt : loadWord mem addr width < 256 ^ width := by
  have h := decodeWord_lt (load mem addr width)
  rwa [load_length] at h

theorem storeWord_loadWord : storeWord mem addr width (loadWord mem addr width) = mem := by
  have h := encode_decodeWord (load mem addr width)
  rw [load_length] at h
  rw [storeWord, loadWord, h, store_load]

theorem storeWord_overwrite :
    storeWord (storeWord mem addr width m) addr width n = storeWord mem addr width n :=
  store_overwrite (by rw [encodeWord_length, encodeWord_length])

end UringWs.ByteMemory
