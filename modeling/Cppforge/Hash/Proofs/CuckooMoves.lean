import Cppforge.Hash.Proofs.CuckooReturns

namespace Cppforge.Hash.CuckooHashMap
open KeyMap Surplus

variable {K V : Type} {h : Hashing K} {m m₀ m' : CuckooHashMap K V} {s : Slot K V} {pos : Pos}
  {key : K} {value : V} {xs : List (K × V)}

section States

theorem Standing.of_sized (hm : Counted h m) (hs : ∃ k, Sized k m) : Standing h m := by
  obtain ⟨k, hs⟩ := hs
  exact ⟨.inl ⟨hm, k, hs⟩, hs.stash⟩

/-- A change in place, where the tables stay as long as they are. -/
theorem Standing.update (hm : Standing h m) (hkeep : Counted h m → Counted h m')
    (h1 : m'.table1.length = m.table1.length) (h2 : m'.table2.length = m.table2.length)
    (hstash : m'.stash.length = m.stash.length) : Standing h m' := by
  refine ⟨?_, hstash.trans hm.stash⟩
  rcases hm.tables with ⟨hcounted, k, hs⟩ | ⟨hnil1, hnil2⟩
  · refine .inl ⟨hkeep hcounted, k, ?_⟩
    exact ⟨h1.trans hs.table1, h2.trans hs.table2, hstash.trans hs.stash⟩
  · rw [hnil1, List.length_nil] at h1
    rw [hnil2, List.length_nil] at h2
    exact .inr ⟨List.eq_nil_of_length_eq_zero h1, List.eq_nil_of_length_eq_zero h2⟩

theorem Standing.setAt (hm : Standing h m) (q : Slot K V)
    (hkeep : Counted h m → Counted h (m.setAt pos q)) : Standing h (m.setAt pos q) := by
  refine hm.update hkeep ?_ ?_ ?_ <;> cases pos <;> simp [CuckooHashMap.setAt]

theorem Standing.release (hm : Standing h m) (hs : m.slotAt pos = some s)
    (ho : Counted h m → s.state = .occupied) : Standing h (m.release pos s) := by
  refine hm.update (fun hcounted => hcounted.release hs (ho hcounted)) ?_ ?_ ?_ <;> cases pos <;>
    simp [CuckooHashMap.release, CuckooHashMap.setAt]

theorem Standing.clear (hm : Standing h m) : Standing h m.clear := by
  refine hm.update Counted.clear ?_ ?_ ?_ <;> simp [CuckooHashMap.clear]

theorem Standing.erase {r : Bool} (hm : Standing h m) (hrun : m.erase h key = some (m', r)) :
    Standing h m' := by
  obtain ⟨found, hfind⟩ := findSlot_some hm.entries key
  simp only [CuckooHashMap.erase, hfind, Option.bind_eq_bind, Option.bind_some] at hrun
  cases found with
  | some pos =>
    simp only [Option.bind_eq_some_iff] at hrun
    obtain ⟨s, hs, hrun⟩ := hrun
    obtain ⟨rfl, _⟩ := Prod.mk.inj (Option.some.inj hrun)
    refine hm.release hs (fun hcounted => ?_)
    obtain ⟨pos₁, s₁, hfind₁, hs₁, hh⟩ | ⟨hnone, _⟩ := findSlot_cases hcounted.homed key
    · obtain rfl := Option.some.inj (Option.some.inj (hfind.symm.trans hfind₁))
      obtain rfl := Option.some.inj (hs.symm.trans hs₁)
      exact (holds_iff.mp hh).1
    · rw [hfind] at hnone
      cases hnone
  | none =>
    obtain ⟨rfl, _⟩ := Prod.mk.inj (Option.some.inj hrun)
    exact hm

theorem Standing.eraseAt {it next : Option Pos} (hm : Standing h m)
    (hrun : m.eraseAt it = some (m', next)) : Standing h m' := by
  cases it with
  | none =>
    obtain ⟨rfl, _⟩ := Prod.mk.inj (Option.some.inj hrun)
    exact hm
  | some pos =>
    simp only [CuckooHashMap.eraseAt, Option.bind_eq_bind, Option.bind_eq_some_iff] at hrun
    obtain ⟨s, hs, hrun⟩ := hrun
    split at hrun
    · obtain ⟨rfl, _⟩ := Prod.mk.inj (Option.some.inj hrun)
      exact hm
    · rename_i ho
      obtain ⟨rfl, _⟩ := Prod.mk.inj (Option.some.inj hrun)
      exact hm.release hs (fun _ => not_not.mp ho)

variable [Inhabited K] [Inhabited V] {fuel : Nat}

theorem capacity_pow {capacity : Nat} (hfits : capacity / 2 + 1 ≤ 2 ^ 64) :
    ∃ k, max initialCapacity (nextPowerOfTwo (capacity / 2 + 1)) = 2 ^ k := by
  obtain ⟨k, _, hround, _⟩ := roundUp_spec hfits
  exact ⟨max 2 k, by rw [nextPowerOfTwo, hround, max_initialCapacity]⟩

theorem Standing.rehash {capacity : Nat} (hm : Standing h m) (hfits : capacity / 2 + 1 ≤ 2 ^ 64)
    (hrun : m.rehash h fuel capacity = some m') : Standing h m' := by
  obtain ⟨k, hcap⟩ := capacity_pow hfits
  simp only [CuckooHashMap.rehash, hcap] at hrun
  split at hrun
  · exact Option.some.inj hrun ▸ hm
  · exact .of_sized (rehashImpl_counted hrun).1 (rehashImpl_sized hm.stash hrun)

theorem Standing.insert {it : Pos} {r : Bool} (hm : Standing h m)
    (hrun : m.insert h fuel key value = some (m', it, r)) : Standing h m' := by
  obtain ⟨found, hfind⟩ := findSlot_some hm.entries key
  cases found with
  | some pos =>
    simp only [CuckooHashMap.insert, hfind, Option.bind_eq_bind, Option.bind_some] at hrun
    obtain ⟨rfl, _⟩ := Prod.mk.inj (Option.some.inj hrun)
    exact hm
  | none =>
    rw [insert_none hfind, Option.bind_eq_some_iff] at hrun
    obtain ⟨m₁, hcap, hmap⟩ := hrun
    obtain ⟨⟨m₂, pos⟩, hnew, hret⟩ := Option.map_eq_some_iff.mp hmap
    obtain ⟨rfl, _⟩ := Prod.mk.inj hret
    have hsame := insertNewEntry_fst (h := h) fuel m₁ ⟨.occupied, key, value⟩
    rw [hnew] at hsame
    obtain ⟨hm₁, _⟩ := ensureCapacity_counted hm.entries hcap
    exact .of_sized (insertNewEntry_added hm₁ rfl hnew).1
      (insertNoResize_sized (ensureCapacity_sized hm hcap) hsame.symm)

theorem Standing.insertOrAssign {it : Pos} {r : Bool} (hm : Standing h m)
    (hrun : m.insertOrAssign h fuel key value = some (m', it, r)) : Standing h m' := by
  obtain ⟨found, hfind⟩ := findSlot_some hm.entries key
  cases found with
  | some pos =>
    simp only [CuckooHashMap.insertOrAssign, hfind, Option.bind_eq_bind, Option.bind_some,
      Option.bind_eq_some_iff] at hrun
    obtain ⟨s, hs, hrun⟩ := hrun
    obtain ⟨rfl, _⟩ := Prod.mk.inj (Option.some.inj hrun)
    exact hm.setAt _ (fun hcounted => hcounted.rewrite hs value)
  | none =>
    rw [insertOrAssign_none hfind] at hrun
    exact hm.insert hrun

theorem Standing.apply {op : Op K V} {r : Bool} (hm : Standing h m) (hfits : op.Fits)
    (hcall : m.apply h fuel op = some (m', r)) : Standing h m' := by
  cases op with
  | insert key value =>
    obtain ⟨⟨m₁, it, b⟩, hrun, hret⟩ := Option.map_eq_some_iff.mp hcall
    obtain ⟨rfl, _⟩ := Prod.mk.inj hret
    exact hm.insert hrun
  | insertOrAssign key value =>
    obtain ⟨⟨m₁, it, b⟩, hrun, hret⟩ := Option.map_eq_some_iff.mp hcall
    obtain ⟨rfl, _⟩ := Prod.mk.inj hret
    exact hm.insertOrAssign hrun
  | erase key => exact hm.erase hcall
  | eraseAt it =>
    obtain ⟨⟨m₁, next⟩, hrun, hret⟩ := Option.map_eq_some_iff.mp hcall
    obtain ⟨rfl, _⟩ := Prod.mk.inj hret
    exact hm.eraseAt hrun
  | clear =>
    obtain ⟨rfl, _⟩ := Prod.mk.inj (Option.some.inj hcall)
    exact hm.clear
  | rehash capacity =>
    obtain ⟨m₁, hrun, hret⟩ := Option.map_eq_some_iff.mp hcall
    obtain ⟨rfl, _⟩ := Prod.mk.inj hret
    have hbound : capacity < 2 ^ 64 := hfits
    exact hm.rehash (by omega) hrun
  | reserve count =>
    obtain ⟨m₁, hrun, hret⟩ := Option.map_eq_some_iff.mp hcall
    obtain ⟨rfl, _⟩ := Prod.mk.inj hret
    have hbound : count < 2 ^ 64 := hfits
    exact hm.rehash (by omega) hrun

end States

section Moves

/-- The map answers as the finite map `xs` does. -/
structure Answers [Inhabited K] [Inhabited V] (h : Hashing K) (m : CuckooHashMap K V)
    (xs : List (K × V)) : Prop where
  size : m.size = xs.length
  iteration : ∃ ps, m.toList = some ps ∧ ps.Perm xs
  contains : ∀ key, m.contains h key = some (lookup h xs key).isSome
  valueAt : ∀ key, m.valueAt h key = some ((lookup h xs key).map Prod.snd)
  results : ∀ fuel op m' r, m.apply h fuel op = some (m', r) → r = (applyMap h m xs op).2

/-- No tables and nothing in the stash. -/
structure Bare (m : CuckooHashMap K V) : Prop where
  vacated : Vacated m
  stash : ∀ s ∈ m.stash, s.state = .empty
  size : m.size = 0

theorem Bare.slots_empty (hm : Bare m) : ∀ s ∈ m.slots, s.state = .empty := by
  intro s hs
  rw [slots, hm.vacated.1, hm.vacated.2] at hs
  exact hm.stash s hs

theorem Bare.not_occupied (hm : Bare m) (hs : m.slotAt pos = some s) : s.state ≠ .occupied := by
  rw [hm.slots_empty s (List.mem_of_getElem? (slots_offset hs))]
  nofun

theorem Bare.clear (hm : Bare m) : Bare m.clear := by
  refine ⟨?_, ?_, rfl⟩
  · simp [Vacated, CuckooHashMap.clear, hm.vacated.1, hm.vacated.2]
  · intro s hs
    exact m.clear_empty s (List.mem_append_right _ hs)

variable [Inhabited K] [Inhabited V] {fuel : Nat} {op : Op K V} {r : Bool}

theorem Holds.answers (hm : Holds h m xs) : Answers h m xs where
  size := hm.1.counted.size.trans hm.2.length_eq
  iteration := ⟨m.pairs, toList_eq hm.1.counted.homed, hm.2⟩
  contains := contains_eq hm
  valueAt := valueAt_eq hm
  results _ _ _ _ hcall := (apply_spec hm hcall).2

theorem Bare.rehashImpl {cap : Nat} (hm : Bare m) (hrun : m.rehashImpl h fuel cap = some m') :
    Holds h m' [] := by
  obtain ⟨hm', hpairs⟩ := rehashImpl_counted hrun
  rw [pairs_blank hm.slots_empty] at hpairs
  exact ⟨⟨hm', by simp [List.perm_nil.mp hpairs, Distinct]⟩, hpairs⟩

theorem Bare.rehash {cap : Nat} (hm : Bare m) (hrun : m.rehash h fuel cap = some m') :
    Holds h m' [] := by
  have hcap : 0 < max initialCapacity (nextPowerOfTwo (cap / 2 + 1)) :=
    Nat.lt_of_lt_of_le (by decide) (Nat.le_max_left _ _)
  simp only [CuckooHashMap.rehash, hm.vacated.1, List.length_nil] at hrun
  rw [if_neg (Nat.ne_of_gt hcap)] at hrun
  exact hm.rehashImpl hrun

theorem Bare.insert {it : Pos} (hm : Bare m)
    (hrun : m.insert h fuel key value = some (m', it, r)) :
    Holds h m' [(key, value)] ∧ r = true := by
  rw [insert_none (findSlot_vacated hm.vacated key), Option.bind_eq_some_iff] at hrun
  obtain ⟨m₁, hcap, hmap⟩ := hrun
  obtain ⟨⟨m₂, pos⟩, hnew, hret⟩ := Option.map_eq_some_iff.mp hmap
  simp only [Prod.mk.injEq] at hret
  obtain ⟨rfl, _, rfl⟩ := hret
  have hzero : m.bucketCount = 0 := by simp [bucketCount, hm.vacated.1, hm.vacated.2]
  rw [ensureCapacity, if_pos (.inl hzero)] at hcap
  exact ⟨insertNewEntry_spec (hm.rehashImpl hcap) rfl hnew, rfl⟩

/-- A call on a bare map leaves it bare or makes it the map that holds what the call puts in. -/
theorem Bare.apply (hm : Bare m) (hcall : m.apply h fuel op = some (m', r)) :
    (Holds h m' (applyMap h m [] op).1 ∨ Bare m' ∧ (applyMap h m [] op).1 = []) ∧
      r = (applyMap h m [] op).2 := by
  cases op with
  | insert key value =>
    obtain ⟨⟨m₁, it, b⟩, hrun, hret⟩ := Option.map_eq_some_iff.mp hcall
    obtain ⟨rfl, rfl⟩ := Prod.mk.inj hret
    obtain ⟨hm', hr⟩ := hm.insert hrun
    exact ⟨.inl hm', hr⟩
  | insertOrAssign key value =>
    obtain ⟨⟨m₁, it, b⟩, hrun, hret⟩ := Option.map_eq_some_iff.mp hcall
    obtain ⟨rfl, rfl⟩ := Prod.mk.inj hret
    rw [insertOrAssign_none (findSlot_vacated hm.vacated key)] at hrun
    obtain ⟨hm', hr⟩ := hm.insert hrun
    exact ⟨.inl hm', hr⟩
  | erase key =>
    simp only [CuckooHashMap.apply, CuckooHashMap.erase, findSlot_vacated hm.vacated key,
      Option.bind_eq_bind, Option.bind_some] at hcall
    obtain ⟨rfl, rfl⟩ := Prod.mk.inj (Option.some.inj hcall)
    exact ⟨.inr ⟨hm, rfl⟩, rfl⟩
  | eraseAt it =>
    obtain ⟨⟨m₁, next⟩, hrun, hret⟩ := Option.map_eq_some_iff.mp hcall
    obtain ⟨rfl, rfl⟩ := Prod.mk.inj hret
    have hsame : m₁ = m := by
      cases it with
      | none => exact (Prod.mk.inj (Option.some.inj hrun)).1.symm
      | some pos =>
        simp only [CuckooHashMap.eraseAt, Option.bind_eq_bind, Option.bind_eq_some_iff] at hrun
        obtain ⟨s, hs, hrun⟩ := hrun
        rw [if_pos (hm.not_occupied hs)] at hrun
        exact (Prod.mk.inj (Option.some.inj hrun)).1.symm
    rw [hsame]
    simp only [applyMap]
    split <;> exact ⟨.inr ⟨hm, rfl⟩, rfl⟩
  | clear =>
    obtain ⟨rfl, rfl⟩ := Prod.mk.inj (Option.some.inj hcall)
    exact ⟨.inr ⟨hm.clear, rfl⟩, rfl⟩
  | rehash cap =>
    obtain ⟨m₁, hrun, hret⟩ := Option.map_eq_some_iff.mp hcall
    obtain ⟨rfl, rfl⟩ := Prod.mk.inj hret
    exact ⟨.inl (hm.rehash hrun), rfl⟩
  | reserve count =>
    obtain ⟨m₁, hrun, hret⟩ := Option.map_eq_some_iff.mp hcall
    obtain ⟨rfl, rfl⟩ := Prod.mk.inj hret
    exact ⟨.inl (hm.rehash hrun), rfl⟩

theorem Bare.answers (hm : Bare m) : Answers h m [] where
  size := hm.size
  iteration := by
    refine ⟨[], ?_, .refl _⟩
    have hfirst : m.first = none := by simp [first, hm.vacated.1]
    rw [toList, hfirst, iterate]
  contains key := by simp [CuckooHashMap.contains, findSlot_vacated hm.vacated key, lookup]
  valueAt key := by simp [CuckooHashMap.valueAt, findSlot_vacated hm.vacated key, lookup]
  results _ _ _ _ hcall := (hm.apply hcall).2

/-- From a bare map on every run is one from an empty map. -/
theorem Bare.run (hm : Bare m₀) (hrun : RunFrom h m₀ m xs) : Holds h m xs ∨ Bare m ∧ xs = [] := by
  induction hrun with
  | start => exact .inr ⟨hm, rfl⟩
  | call hrun fuel op r hcall ih =>
    rcases ih with hxs | ⟨hbare, rfl⟩
    · exact .inl (apply_spec hxs hcall).1
    · exact (hbare.apply hcall).1

end Moves

end Cppforge.Hash.CuckooHashMap
