import Mathlib.Logic.Function.Basic
import Mathlib.Data.List.Nodup

namespace Mixing

/-- What a shift by more than half the width took out comes back with the same shift. -/
theorem xorShift_xorShift (x : UInt64) :
    (x ^^^ (x >>> 33)) ^^^ ((x ^^^ (x >>> 33)) >>> 33) = x := by
  have hgone : x >>> 33 >>> 33 = 0 := by
    have hlt := x.toNat_lt
    apply UInt64.toNat_inj.mp
    simp only [UInt64.toNat_shiftRight, Nat.shiftRight_eq_div_pow, UInt64.reduceToNat, Nat.reduceMod,
      Nat.reducePow]
    omega
  rw [UInt64.shiftRight_xor, hgone, UInt64.xor_zero, UInt64.xor_assoc, UInt64.xor_self,
    UInt64.xor_zero]

theorem xorShift_injective : Function.Injective (fun x : UInt64 => x ^^^ (x >>> 33)) := by
  have hinv : Function.LeftInverse (fun x : UInt64 => x ^^^ (x >>> 33))
      (fun x : UInt64 => x ^^^ (x >>> 33)) := xorShift_xorShift
  exact hinv.injective

/-- A factor that has an inverse. -/
theorem mul_injective {c d : UInt64} (h : c * d = 1) :
    Function.Injective (fun x : UInt64 => x * c) := by
  have hinv : Function.LeftInverse (fun x : UInt64 => x * d) (fun x : UInt64 => x * c) := by
    intro x
    change x * c * d = x
    rw [UInt64.mul_assoc, h, UInt64.mul_one]
  exact hinv.injective

theorem xor_injective (c : UInt64) : Function.Injective (fun x : UInt64 => x ^^^ c) := by
  have hinv : Function.LeftInverse (fun x : UInt64 => x ^^^ c) (fun x : UInt64 => x ^^^ c) := by
    intro x
    change x ^^^ c ^^^ c = x
    rw [UInt64.xor_assoc, UInt64.xor_self, UInt64.xor_zero]
  exact hinv.injective

end Mixing

namespace Surplus

variable {α : Type} [DecidableEq α] {room : Nat} {xs ys : List α} {x : α}

end Surplus
