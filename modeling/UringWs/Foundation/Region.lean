import Mathlib.Data.List.Nodup
import Mathlib.Data.List.Pairwise

/-! # Regions of memory

Memory is shared out in cells. Items that sit in cells of their own lie apart,
whatever part of its cell each takes up.
-/
namespace UringWs

structure Region where
  start : ℕ
  length : ℕ
deriving DecidableEq, Repr

namespace Region

def Within (r cell : Region) : Prop :=
  cell.start ≤ r.start ∧ r.start + r.length ≤ cell.start + cell.length

def Apart (r r' : Region) : Prop :=
  r.start + r.length ≤ r'.start ∨ r'.start + r'.length ≤ r.start

variable {r r' cell cell' : Region} {α ι : Type*}

theorem Within.trans (h : r.Within r') (h' : r'.Within cell) : r.Within cell :=
  ⟨Nat.le_trans h'.1 h.1, Nat.le_trans h.2 h'.2⟩

theorem Within.apart (h : r.Within cell) (h' : r'.Within cell') (hapart : cell.Apart cell') :
    r.Apart r' := by
  unfold Within at h h'
  unfold Apart at *
  omega

/-- Items in cells of their own are apart. -/
theorem pairwise_apart {cell : ι → Region} {region : α → Region} {id : α → ι} {items : List α}
    (hcells : ∀ i j, i ≠ j → (cell i).Apart (cell j))
    (hwithin : ∀ a ∈ items, (region a).Within (cell (id a))) (hids : (items.map id).Nodup) :
    (items.map region).Pairwise Apart := by
  have hne : items.Pairwise fun a b => id a ≠ id b := List.pairwise_map.mp hids
  refine List.pairwise_map.mpr (hne.imp_of_mem fun ha hb hab => ?_)
  exact (hwithin _ ha).apart (hwithin _ hb) (hcells _ _ hab)

/-- Families in blocks that lie apart are apart as one. -/
theorem pairwise_apart_flatMap (block : ι → Region) {regions : ι → List Region} {l : List ι}
    (hl : l.Nodup) (hblocks : ∀ i ∈ l, ∀ j ∈ l, i ≠ j → (block i).Apart (block j))
    (hwithin : ∀ i ∈ l, ∀ r ∈ regions i, r.Within (block i))
    (hapart : ∀ i ∈ l, (regions i).Pairwise Apart) : (l.flatMap regions).Pairwise Apart := by
  refine List.pairwise_flatMap.mpr ⟨hapart, ?_⟩
  refine List.Pairwise.imp_of_mem (fun hi hj hij r hr r' hr' => ?_) hl
  exact (hwithin _ hi r hr).apart (hwithin _ hj r' hr') (hblocks _ hi _ hj hij)

end Region
end UringWs
