import UringWs.Foundation.ByteWord
import Mathlib.Algebra.Ring.Nat

/-! # Records in flat memory

Records of one size stand one behind the other. Each field is a word at an
offset of its own, and the fields cover the record without overlap, so that a
record is its bytes and its bytes are a record.
-/
namespace UringWs
open ByteMemory

structure Layout (F : Type*) where
  size : ℕ
  offset : F → ℕ
  width : F → ℕ
  fits : ∀ f, offset f + width f ≤ size
  apart : ∀ f g, f ≠ g → offset f + width f ≤ offset g ∨ offset g + width g ≤ offset f
  covers : ∀ a < size, ∃ f, offset f ≤ a ∧ a < offset f + width f

namespace Layout
variable {F : Type*} (L : Layout F)

/-- A field of the i-th record. -/
def get (mem : ℕ → UInt8) (i : ℕ) (f : F) : ℕ := loadWord mem (L.size * i + L.offset f) (L.width f)

def set (mem : ℕ → UInt8) (i : ℕ) (f : F) (n : ℕ) : ℕ → UInt8 :=
  storeWord mem (L.size * i + L.offset f) (L.width f) n

/-- Assignments to fields of the i-th record, one after the other. -/
def assign (mem : ℕ → UInt8) (i : ℕ) (values : List (F × ℕ)) : ℕ → UInt8 :=
  values.foldl (fun mem v => L.set mem i v.1 v.2) mem

/-- The bytes of the i-th record. -/
def image (mem : ℕ → UInt8) (i : ℕ) : List UInt8 := load mem (L.size * i) L.size

/-- Each value fits in the field it is assigned to. -/
def Fits (values : List (F × ℕ)) : Prop := ∀ v ∈ values, v.2 < 256 ^ L.width v.1

variable {L} {mem mem' : ℕ → UInt8} {i j n : ℕ} {f g : F} {values : List (F × ℕ)}

theorem record_apart (h : i ≠ j) :
    L.size * i + L.size ≤ L.size * j ∨ L.size * j + L.size ≤ L.size * i := by
  rcases Nat.lt_or_gt_of_ne h with h | h
  · exact .inl (Nat.mul_succ L.size i ▸ Nat.mul_le_mul_left L.size h)
  · exact .inr (Nat.mul_succ L.size j ▸ Nat.mul_le_mul_left L.size h)

theorem get_lt : L.get mem i f < 256 ^ L.width f := loadWord_lt

theorem get_set_self (h : n < 256 ^ L.width f) : L.get (L.set mem i f n) i f = n :=
  loadWord_storeWord h

theorem get_set_field (h : g ≠ f) : L.get (L.set mem i f n) i g = L.get mem i g := by
  apply loadWord_storeWord_disjoint
  have := L.apart g f h
  omega

theorem set_outside {a : ℕ} (h : ¬ (L.size * i ≤ a ∧ a < L.size * i + L.size)) :
    L.set mem i f n a = mem a := by
  apply storeWord_outside
  have := L.fits f
  omega

/-! ### Assignments -/

theorem Fits.nil : L.Fits [] := fun _ hv => absurd hv List.not_mem_nil

theorem Fits.cons (hn : n < 256 ^ L.width f) (h : L.Fits values) : L.Fits ((f, n) :: values) :=
  List.forall_mem_cons.mpr ⟨hn, h⟩

theorem Fits.tail {v : F × ℕ} (h : L.Fits (v :: values)) : L.Fits values :=
  fun u hu => h u (List.mem_cons_of_mem v hu)

/-- A field holds the last value assigned to it, or what it held before. -/
theorem get_assign [DecidableEq F] (h : L.Fits values) : L.get (L.assign mem i values) i f =
    values.foldl (fun n v => if v.1 = f then v.2 else n) (L.get mem i f) := by
  induction values generalizing mem with
  | nil => rfl
  | cons v values ih =>
    have hone : L.get (L.set mem i v.1 v.2) i f = if v.1 = f then v.2 else L.get mem i f := by
      split
      · next hv =>
        subst hv
        exact get_set_self (h v List.mem_cons_self)
      · next hv => exact get_set_field (Ne.symm hv)
    rw [assign, List.foldl_cons, List.foldl_cons, ← hone]
    exact ih h.tail

theorem assign_outside {a : ℕ} (h : ¬ (L.size * i ≤ a ∧ a < L.size * i + L.size)) :
    L.assign mem i values a = mem a := by
  induction values generalizing mem with
  | nil => rfl
  | cons v values ih => exact ih.trans (set_outside h)

/-! ### Images -/

@[simp] theorem image_length : (L.image mem i).length = L.size := load_length ..

theorem image_congr (h : ∀ a, L.size * i ≤ a → a < L.size * i + L.size → mem' a = mem a) :
    L.image mem' i = L.image mem i := by
  refine List.map_congr_left fun k hk => ?_
  have hk := List.mem_range.mp hk
  exact h _ (Nat.le_add_right ..) (by omega)

theorem image_assign_record (h : j ≠ i) : L.image (L.assign mem i values) j = L.image mem j := by
  refine image_congr fun a hle hlt => assign_outside ?_
  have := L.record_apart h
  omega

/-- Bytes as a memory, read from address zero. -/
def memory (bytes : List UInt8) : ℕ → UInt8 := fun a => bytes.getD a 0

theorem image_memory {bytes : List UInt8} (h : bytes.length = L.size) :
    L.image (memory bytes) 0 = bytes := by
  apply List.ext_getElem (by rw [image_length, h])
  intro k hk hk'
  simp [image, load, memory, hk']

theorem get_image : L.get (memory (L.image mem i)) 0 f = L.get mem i f := by
  have hfits := L.fits f
  unfold get loadWord
  congr 1
  refine List.map_congr_left fun k hk => ?_
  have hk := List.mem_range.mp hk
  have hlt : L.size * 0 + L.offset f + k < (L.image mem i).length := by
    rw [image_length]
    omega
  rw [memory, List.getD_eq_getElem?_getD, List.getElem?_eq_getElem hlt, Option.getD_some]
  simp [image, load, Nat.add_assoc]

/-- Records that agree in every field are the same bytes. -/
theorem image_ext (h : ∀ f, L.get mem i f = L.get mem' j f) : L.image mem i = L.image mem' j := by
  refine List.map_congr_left fun a ha => ?_
  obtain ⟨f, hle, hlt⟩ := L.covers a (List.mem_range.mp ha)
  have hbytes : load mem (L.size * i + L.offset f) (L.width f) =
      load mem' (L.size * j + L.offset f) (L.width f) := by
    have hi := encode_decodeWord (load mem (L.size * i + L.offset f) (L.width f))
    have hj := encode_decodeWord (load mem' (L.size * j + L.offset f) (L.width f))
    rw [load_length] at hi hj
    rw [← hi, ← hj]
    exact congrArg _ (h f)
  have hk : a - L.offset f < L.width f := by omega
  have hget := congrArg (fun bytes => bytes[a - L.offset f]?) hbytes
  simp only [load, List.getElem?_map, List.getElem?_range hk, Option.map_some,
    Option.some.injEq] at hget
  rwa [Nat.add_assoc, Nat.add_assoc, Nat.add_sub_cancel' hle] at hget

end Layout
end UringWs
