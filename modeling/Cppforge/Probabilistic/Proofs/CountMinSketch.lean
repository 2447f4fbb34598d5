import Mathlib.Algebra.Group.Nat.Defs
import Mathlib.Data.List.Count
import Cppforge.Probabilistic.Sketches

namespace Cppforge.Probabilistic.CountMinSketch

variable {α : Type} {cms : CountMinSketch α} {s s' t : List UInt32} {h : History α} {x item : α}
  {count minVal : UInt32} {j k : UInt64} {ks : List UInt64} {m : Nat}

section Counters

/-- The number in a counter, 0 out of range. -/
def value (s : List UInt32) (k : UInt64) : Nat := (s.getD k.toNat 0).toNat

end Counters

section Histories

/-- The counters of an item, one in each row. -/
def cells (cms : CountMinSketch α) (item : α) : List UInt64 := cms.rows.map (cms.cell item)

/-- The counts added for an item since the last clear. -/
def total [DecidableEq α] : History α → α → Nat
  | .create, _ => 0
  | .add h item count, x => total h x + if item = x then count.toNat else 0
  | .merge h other, x => total h x + total other x
  | .clear _, _ => 0

/-- What a counter would be without a limit. -/
def load (cms : CountMinSketch α) : History α → UInt64 → Nat
  | .create, _ => 0
  | .add h item count, k => cms.load h k + (cms.cells item).count k * count.toNat
  | .merge h other, k => cms.load h k + cms.load other k
  | .clear _, _ => 0

theorem add_eq (s : List UInt32) (item : α) (count : UInt32) :
    cms.add s item count = (cms.cells item).foldlM (addAt count) s := by
  rw [add, cells, List.foldlM_map]

/-- The indices stay below the number of counters when that fits into a `size_t`. -/
theorem cell_lt (hfits : cms.Depth.toNat * cms.Width.toNat < 2 ^ 64) (hk : k ∈ cms.cells x) :
    k.toNat < cms.size.toNat := by
  simp only [cells, rows, List.map_map, List.mem_map, List.mem_range] at hk
  obtain ⟨i, hi, rfl⟩ := hk
  have hcol : (cms.hash_ x (UInt64.ofNat i * 0x9E3779B97F4A7C15) % cms.Width).toNat
      < cms.Width.toNat := by
    rw [UInt64.toNat_mod]
    exact Nat.mod_lt _ (UInt64.lt_iff_toNat_lt.mp cms.width_pos)
  have hrow : (i + 1) * cms.Width.toNat ≤ cms.Depth.toNat * cms.Width.toNat :=
    Nat.mul_le_mul_right _ hi
  rw [Nat.add_mul, Nat.one_mul] at hrow
  have hi64 : (UInt64.ofNat i).toNat = i :=
    UInt64.toNat_ofNat_of_lt' (Nat.lt_trans hi (UInt64.toNat_lt _))
  simp only [Function.comp_apply, cell, size, UInt64.toNat_add, UInt64.toNat_mul, hi64,
    Nat.mod_add_mod, Nat.mod_eq_of_lt hfits]
  rw [Nat.mod_eq_of_lt (by omega)]
  omega

end Histories

/-- One counter. -/
def single : CountMinSketch Unit := ⟨1, 1, fun _ seed => seed, by decide, by decide⟩

end Cppforge.Probabilistic.CountMinSketch
