import Cppforge.Hash.Proofs.CuckooGrowth
import Cppforge.Hash.Proofs.CuckooRefine

namespace Cppforge.Hash.CuckooHashMap
open KeyMap Surplus

variable {K V : Type} {h : Hashing K} {m m' : CuckooHashMap K V} {s q e : Slot K V} {pos : Pos}
  {k : Nat}

section Place

theorem kickLoop_some (hm : Homed h m) (he : e.state = .occupied) (kicks : Nat) :
    ∃ r, m.kickLoop h e kicks = some r := by
  induction kicks generalizing m e with
  | zero => exact ⟨_, rfl⟩
  | succ kicks ih =>
    obtain ⟨s1, hs1⟩ := hm.slot1 e.key
    have hm1 : Homed h (m.setAt (.t1 (m.h1 h e.key)) e) := hm.setAt hs1 (fun _ => rfl)
    obtain ⟨s2, hs2⟩ := hm1.slot2 s1.key
    simp only [kickLoop, hs1, Option.bind_eq_bind, Option.bind_some]
    split
    · exact ⟨_, rfl⟩
    · simp only [hs2, Option.bind_some]
      split
      · exact ⟨_, rfl⟩
      · rename_i hne
        have ho := occupied_of_ne hne
        exact ih (hm1.setAt hs2 (fun _ => rfl)) ho

theorem place_some (hm : Homed h m) (he : e.state = .occupied) : ∃ r, m.place h e = some r := by
  obtain ⟨r, hkick⟩ := kickLoop_some hm he m.maxKicks
  simp only [place, hkick, Option.bind_eq_bind, Option.bind_some]
  cases r with
  | placed m₁ pos => exact ⟨_, rfl⟩
  | full m₁ e₁ =>
    simp only
    split <;> exact ⟨_, rfl⟩

end Place

section Growth

variable {ins : CuckooHashMap K V → Slot K V → Option (CuckooHashMap K V)}

variable [Inhabited K] [Inhabited V]

/-- Capacities are powers of two. -/
theorem max_initialCapacity (k : Nat) : max initialCapacity (2 ^ k) = 2 ^ max 2 k := by
  have hfour : initialCapacity = 2 ^ 2 := rfl
  rw [hfour]
  rcases Nat.le_total 2 k with hle | hle
  · rw [Nat.max_eq_right hle, Nat.max_eq_right (Nat.pow_le_pow_right Nat.two_pos hle)]
  · rw [Nat.max_eq_left hle, Nat.max_eq_left (Nat.pow_le_pow_right Nat.two_pos hle)]

theorem blank_sized (hstash : m.stash.length = stashSize) (k : Nat) :
    Sized (max 2 k) (m.blank (2 ^ k)) := by
  have hcap : max initialCapacity (nextPowerOfTwo (2 ^ k)) = 2 ^ max 2 k := by
    rw [nextPowerOfTwo, roundUp_pow, max_initialCapacity]
  refine ⟨?_, ?_, ?_⟩
  · simp only [blank, blankTable, List.length_replicate, hcap]
  · simp only [blank, blankTable, List.length_replicate, hcap]
  · simpa [blank] using hstash

end Growth

section Sizes
variable {ins : CuckooHashMap K V → Slot K V → Option (CuckooHashMap K V)} {fuel cap : Nat}

theorem reinsert_sized
    (hins : ∀ m e m', (∃ k, Sized k m) → ins m e = some m' → ∃ k, Sized k m')
    (hs : ∃ k, Sized k m) {L : List (Slot K V)} (hrun : reinsert ins m L = some m') :
    ∃ k, Sized k m' := by
  induction L generalizing m with
  | nil => exact Option.some.inj hrun ▸ hs
  | cons s L ih =>
    rw [reinsert] at hrun
    split at hrun
    · simp only [Option.bind_eq_bind, Option.bind_eq_some_iff] at hrun
      obtain ⟨m₁, hone, hrest⟩ := hrun
      exact ih (hins m s m₁ hs hone) hrest
    · exact ih hs hrun

variable [Inhabited K] [Inhabited V]

theorem insertNoResize_sized (hs : ∃ k, Sized k m) (hrun : insertNoResize h fuel m e = some m') :
    ∃ k, Sized k m' := by
  induction fuel generalizing m e m' with
  | zero => cases hrun
  | succ fuel ih =>
    obtain ⟨k, hs⟩ := hs
    simp only [insertNoResize, Option.bind_eq_bind, Option.bind_eq_some_iff] at hrun
    obtain ⟨r, hplace, hrun⟩ := hrun
    have hs₁ := hs.place hplace
    cases r with
    | placed m₁ pos => exact Option.some.inj hrun ▸ ⟨k, hs₁⟩
    | full m₁ e₁ =>
      simp only [Option.bind_eq_some_iff] at hrun
      obtain ⟨m₂, hrehash, hretry⟩ := hrun
      rw [Sized.double (m := m₁) hs₁] at hrehash
      refine ih (reinsert_sized (fun _ _ _ hs hrun => ih hs hrun) ?_ hrehash) hretry
      exact ⟨_, blank_sized (Sized.stash hs₁) (k + 1)⟩

theorem rehashImpl_sized (hstash : m.stash.length = stashSize)
    (hrun : m.rehashImpl h fuel (2 ^ k) = some m') : ∃ k, Sized k m' :=
  reinsert_sized (fun _ _ _ hs hrun => insertNoResize_sized hs hrun) ⟨_, blank_sized hstash k⟩ hrun

end Sizes

section States

/-- No tables, as a move leaves a map. -/
def Vacated (m : CuckooHashMap K V) : Prop := m.table1 = [] ∧ m.table2 = []

/-- What holds of a map between two calls, moved from or not. -/
structure Standing (h : Hashing K) (m : CuckooHashMap K V) : Prop where
  tables : (Counted h m ∧ ∃ k, Sized k m) ∨ Vacated m
  stash : m.stash.length = stashSize

variable {key : K} {value : V}

theorem Standing.entries (hm : Standing h m) : Counted h m ∨ Vacated m := hm.tables.imp_left And.left

theorem findSlot_vacated (hm : Vacated m) (key : K) : m.findSlot h key = some none := by
  rw [findSlot, hm.1]
  rfl

theorem findSlot_some (hm : Counted h m ∨ Vacated m) (key : K) :
    ∃ r, m.findSlot h key = some r := by
  rcases hm with hm | hm
  · obtain ⟨pos, s, hfind, _⟩ | ⟨hfind, _⟩ := findSlot_cases hm.homed key
    · exact ⟨_, hfind⟩
    · exact ⟨_, hfind⟩
  · exact ⟨_, findSlot_vacated hm key⟩

/-- The capacity a rehash is called with is a power of two. -/
theorem Standing.capacity (hm : Standing h m) :
    ∃ k, (if m.bucketCount = 0 then initialCapacity else m.table1.length * 2) = 2 ^ k := by
  rcases hm.tables with ⟨_, k, hs⟩ | ⟨h1, h2⟩
  · split
    · exact ⟨2, rfl⟩
    · exact ⟨k + 1, hs.double⟩
  · exact ⟨2, by simp [bucketCount, h1, h2, initialCapacity]⟩

variable [Inhabited K] [Inhabited V] {fuel : Nat}

theorem ensureCapacity_counted (hm : Counted h m ∨ Vacated m)
    (hrun : m.ensureCapacity h fuel = some m') : Counted h m' ∧ m'.pairs.Perm m.pairs := by
  rw [ensureCapacity] at hrun
  split at hrun
  · exact rehashImpl_counted hrun
  · rename_i hroom
    rcases hm with hm | ⟨h1, h2⟩
    · exact Option.some.inj hrun ▸ ⟨hm, .refl _⟩
    · simp [bucketCount, h1, h2] at hroom

theorem ensureCapacity_sized (hm : Standing h m) (hrun : m.ensureCapacity h fuel = some m') :
    ∃ k, Sized k m' := by
  obtain ⟨k, hcap⟩ := hm.capacity
  rw [ensureCapacity, hcap] at hrun
  split at hrun
  · exact rehashImpl_sized hm.stash hrun
  · rename_i hroom
    rcases hm.tables with ⟨_, hs⟩ | ⟨h1, h2⟩
    · exact Option.some.inj hrun ▸ hs
    · simp [bucketCount, h1, h2] at hroom

/-- A key that is not found goes through the check of the capacity to the kicks. -/
theorem insert_none (hnone : m.findSlot h key = some none) (fuel : Nat) (value : V) :
    m.insert h fuel key value = (m.ensureCapacity h fuel).bind fun m₁ =>
      (m₁.insertNewEntry h fuel ⟨.occupied, key, value⟩).map fun r => (r.1, r.2, true) := by
  simp only [insert, hnone, Option.bind_eq_bind, Option.bind_some]
  cases m.ensureCapacity h fuel with
  | none => rfl
  | some m₁ =>
    simp only [Option.bind_some]
    cases m₁.insertNewEntry h fuel ⟨.occupied, key, value⟩ <;> rfl

theorem insertOrAssign_none (hnone : m.findSlot h key = some none) (fuel : Nat) (value : V) :
    m.insertOrAssign h fuel key value = m.insert h fuel key value := by
  simp only [insertOrAssign, insert, hnone, Option.bind_eq_bind, Option.bind_some]

end States

section Alike

end Alike

end Cppforge.Hash.CuckooHashMap
