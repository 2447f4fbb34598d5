import Cppforge.Hash.Proofs.CuckooContents
import Cppforge.Lib.Surplus

namespace Cppforge.Hash.CuckooHashMap
open KeyMap Mixing Surplus

variable {K V : Type} {h : Hashing K} {m m' : CuckooHashMap K V} {s q e : Slot K V} {pos : Pos}
  {key a b : K} {k : Nat}

section Sizes

/-- Tables of the same power of two, and the stash. -/
structure Sized (k : Nat) (m : CuckooHashMap K V) : Prop where
  table1 : m.table1.length = 2 ^ k
  table2 : m.table2.length = 2 ^ k
  stash : m.stash.length = stashSize

theorem Sized.double (hs : Sized k m) : m.table1.length * 2 = 2 ^ (k + 1) := by
  rw [hs.table1, Nat.pow_succ]

/-- The map an insertion has come to. -/
def Placed.map : Placed K V → CuckooHashMap K V
  | .placed m _ => m
  | .full m _ => m

theorem Sized.setAt (hs : Sized k m) (pos : Pos) (q : Slot K V) : Sized k (m.setAt pos q) := by
  obtain ⟨h1, h2, h3⟩ := hs
  cases pos <;> exact ⟨by simpa [CuckooHashMap.setAt], by simpa [CuckooHashMap.setAt],
    by simpa [CuckooHashMap.setAt]⟩

theorem Sized.store (hs : Sized k m) (pos : Pos) (q : Slot K V) : Sized k (m.store pos q) := by
  obtain ⟨h1, h2, h3⟩ := hs.setAt pos { q with state := .occupied }
  exact ⟨h1, h2, h3⟩

theorem Sized.kickLoop {kicks : Nat} {r : Placed K V} (hs : Sized k m)
    (hrun : m.kickLoop h e kicks = some r) : Sized k r.map := by
  induction kicks generalizing m e with
  | zero =>
    obtain rfl := Option.some.inj hrun
    exact hs
  | succ kicks ih =>
    obtain ⟨s1, _, ⟨_, rfl⟩ | ⟨_, m₁, s2, rfl, _, ⟨_, rfl⟩ | ⟨_, hrun⟩⟩⟩ := kickLoop_cases hrun
    · exact hs.store _ _
    · exact (hs.setAt _ _).store _ _
    · exact ih ((hs.setAt _ _).setAt _ _) hrun

theorem Sized.place {r : Placed K V} (hs : Sized k m) (hrun : m.place h e = some r) :
    Sized k r.map := by
  obtain ⟨r₁, hkick, ⟨m₁, pos, rfl, rfl⟩ | ⟨m₁, e₁, rfl, hstash⟩⟩ := place_cases hrun
  · exact hs.kickLoop hkick
  · have hone := hs.kickLoop hkick
    rcases hstash with ⟨i, s, _, _, _, rfl⟩ | ⟨_, rfl⟩
    · exact Sized.store hone _ _
    · exact hone

end Sizes

section Mixing

theorem hashMix_injective (seed : UInt64) : Function.Injective (fun x => hashMix x seed) := by
  have hfirst : (0xFF51AFD7ED558CCD : UInt64) * 0x4f74430c22a54005 = 1 := by decide
  have hsecond : (0xC4CEB9FE1A85EC53 : UInt64) * 0x9cb4b2f8129337db = 1 := by decide
  exact xorShift_injective.comp ((mul_injective hsecond).comp
    (xorShift_injective.comp ((mul_injective hfirst).comp
      (xorShift_injective.comp (xor_injective seed)))))

/-- A mask of all 64 bits takes nothing off. -/
theorem and_wide {x : UInt64} {mask : Nat} (hk : 64 ≤ k) (hmask : mask + 1 = 2 ^ k) :
    x.toNat &&& mask = x.toNat := by
  obtain rfl : mask = 2 ^ k - 1 := by omega
  have hlt := x.toNat_lt
  have hle : 2 ^ 64 ≤ 2 ^ k := Nat.pow_le_pow_right (by decide) hk
  rw [Nat.and_two_pow_sub_one_eq_mod, Nat.mod_eq_of_lt (by omega)]

/-- In tables with a slot for each number of 64 bits, keys share a slot only with their hash. -/
theorem h1_wide (hm : Homed h m) (hs : Sized k m) (hk : 64 ≤ k) :
    m.h1 h a = m.h1 h b ↔ h.hash a = h.hash b := by
  have hmask : m.mask1 + 1 = 2 ^ k := hm.len1.symm.trans hs.table1
  simp only [h1, and_wide hk hmask, UInt64.toNat_inj]
  exact (hashMix_injective m.seed).eq_iff

theorem h2_wide (hm : Homed h m) (hs : Sized k m) (hk : 64 ≤ k) :
    m.h2 h a = m.h2 h b ↔ h.hash a = h.hash b := by
  have hmask : m.mask2 + 1 = 2 ^ k := hm.len2.symm.trans hs.table2
  simp only [h2, and_wide hk hmask, UInt64.toNat_inj]
  exact ((hashMix_injective m.seed).eq_iff).trans (UInt64.add_left_inj _)

end Mixing

section Filled

/-- Both slots of a key are taken. -/
def Filled (h : Hashing K) (m : CuckooHashMap K V) (key : K) : Prop :=
  (∃ s, m.slotAt (.t1 (m.h1 h key)) = some s ∧ s.state = .occupied) ∧
    ∃ s, m.slotAt (.t2 (m.h2 h key)) = some s ∧ s.state = .occupied

theorem occupied_setAt {pos' : Pos} (hs : m.slotAt pos = some s) (hq : q.state = .occupied)
    (ho : ∃ r, m.slotAt pos' = some r ∧ r.state = .occupied) :
    ∃ r, (m.setAt pos q).slotAt pos' = some r ∧ r.state = .occupied := by
  by_cases hpos : pos = pos'
  · subst hpos
    exact ⟨q, slotAt_setAt_self hs q, hq⟩
  · rwa [slotAt_setAt_ne hpos]

theorem Filled.setAt (hf : Filled h m key) (hs : m.slotAt pos = some s)
    (hq : q.state = .occupied) : Filled h (m.setAt pos q) key := by
  have hsame : (m.setAt pos q).h1 h key = m.h1 h key ∧ (m.setAt pos q).h2 h key = m.h2 h key := by
    cases pos <;> exact ⟨rfl, rfl⟩
  rw [Filled, hsame.1, hsame.2]
  exact ⟨occupied_setAt hs hq hf.1, occupied_setAt hs hq hf.2⟩

theorem filled_resize (n : Nat) : Filled h { m with size := n } key ↔ Filled h m key := Iff.rfl

theorem Filled.store (hf : Filled h m key) (hs : m.slotAt pos = some s) :
    Filled h (m.store pos q) key :=
  (filled_resize _).mpr (hf.setAt hs rfl)

end Filled

section Counting

/-- The hashes of the stored keys. -/
def hashes (h : Hashing K) (slots : List (Slot K V)) : List UInt64 :=
  (slots.filterMap Slot.held).map (fun p => h.hash p.1)

theorem mem_hashes {slots : List (Slot K V)} (hs : s ∈ slots) (ho : s.state = .occupied) :
    h.hash s.key ∈ hashes h slots :=
  List.mem_map.mpr ⟨s.pair, List.mem_filterMap.mpr ⟨s, hs, held_occupied ho⟩, rfl⟩

/-- A key whose slots are taken has its hash twice in wide tables. -/
theorem Filled.count (hf : Filled h m key) (hm : Homed h m) (hs : Sized k m) (hk : 64 ≤ k) :
    2 ≤ (hashes h m.table1 ++ hashes h m.table2).count (h.hash key) := by
  obtain ⟨⟨s1, hs1, ho1⟩, ⟨s2, hs2, ho2⟩⟩ := hf
  have hhash1 : h.hash s1.key = h.hash key := (h1_wide hm hs hk).mp (hm.home _ _ hs1 ho1).symm
  have hhash2 : h.hash s2.key = h.hash key := (h2_wide hm hs hk).mp (hm.home _ _ hs2 ho2).symm
  have hmem1 : h.hash key ∈ hashes h m.table1 := hhash1 ▸ mem_hashes (List.mem_of_getElem? hs1) ho1
  have hmem2 : h.hash key ∈ hashes h m.table2 := hhash2 ▸ mem_hashes (List.mem_of_getElem? hs2) ho2
  have hone := List.count_pos_iff.mpr hmem1
  have htwo := List.count_pos_iff.mpr hmem2
  rw [List.count_append]
  omega

end Counting

end Cppforge.Hash.CuckooHashMap
