import Cppforge.Hash.Proofs.RobinHoodOrder

namespace Cppforge.Hash.RobinHoodHashMap
open KeyMap

variable {K V : Type} {h : Hashing K} {S : List (Slot K V)} {s e : Slot K V}
  {m : RobinHoodHashMap K V} {i idx : Nat} {key : K} {p : K × V} {xs : List (K × V)}

section Free

theorem exists_free (hlt : (iterate S).length < S.length) :
    ∃ (j : Nat) (q : Slot K V), S[j]? = some q ∧ q.state ≠ .occupied := by
  by_contra hfull
  have hall : ∀ s ∈ S, s.held.isSome = true := by
    intro s hs
    obtain ⟨j, hj⟩ := List.mem_iff_getElem?.mp hs
    by_contra hno
    exact hfull ⟨j, s, hj, by simpa [Slot.held] using hno⟩
  rw [iterate_eq, List.filterMap_length_eq_length.mpr hall] at hlt
  exact Nat.lt_irrefl _ hlt

theorem free_ahead (hlt : (iterate S).length < S.length) (hidx : idx < S.length) :
    ∃ t, t < S.length ∧ FreeAhead S idx t := by
  obtain ⟨j, q, hj, hfree⟩ := exists_free hlt
  obtain ⟨t, ht, hreach⟩ := exists_reach hidx (List.getElem?_eq_some_iff.mp hj).1
  exact ⟨t, ht, q, hreach ▸ hj, hfree⟩

/-- A free slot keeps every entry within one round of its ideal slot. -/
theorem RobinHood.psr_lt (hr : RobinHood h S) (hlt : (iterate S).length < S.length)
    (hi : S[i]? = some s) (ho : s.state = .occupied) : s.psr < S.length := by
  by_contra hge
  have hpos : 0 < S.length := by omega
  obtain ⟨t, ht, q, hq, hfree⟩ :=
    free_ahead hlt (Nat.mod_lt (h.hash s.key).toNat hpos)
  obtain ⟨r, hr', hro, _⟩ := hr.path (d := t) hpos hi ho (by omega)
  rw [Nat.mod_add_mod, hr'] at hq
  exact hfree (Option.some.inj hq ▸ hro)

end Free

section Refinement

/-- What holds of a map between two calls. -/
structure Inv (h : Hashing K) (m : RobinHoodHashMap K V) : Prop where
  sized : Sized m.capacityMask m.slots
  order : RobinHood h m.slots
  distinct : Distinct h (iterate m.slots)
  size : m.size = (iterate m.slots).length
  load : 4 * m.size ≤ 3 * m.slots.length
  initial : initialCapacity ≤ m.slots.length

theorem Inv.room (hm : Inv h m) : (iterate m.slots).length < m.slots.length := by
  have h1 := hm.load
  have h2 := hm.initial
  rw [hm.size] at h1
  simp only [initialCapacity] at h2
  omega

/-- The map holds the pairs of `xs`. -/
def Holds (h : Hashing K) (m : RobinHoodHashMap K V) (xs : List (K × V)) : Prop :=
  Inv h m ∧ m.toList.Perm xs

theorem Holds.distinct (hm : Holds h m xs) : Distinct h xs := hm.1.distinct.perm hm.2

theorem Holds.lookup_eq (hm : Holds h m xs) (key : K) :
    lookup h (iterate m.slots) key = lookup h xs key :=
  (lookup_perm hm.1.distinct hm.2).symm

theorem findSlot_loop (hm : Inv h m) (key : K) :
    m.findSlot h key = findLoop h m.capacityMask m.slots key m.slots.length
      ((h.hash key).toNat % m.slots.length) 0 := by
  have hpos := hm.sized.pos
  rw [findSlot, if_neg (by simp; rintro hnil; simp [hnil] at hpos), idealIndex, hm.sized.and_eq]

theorem findSlot_absent (hm : Inv h m) (ha : lookup h (iterate m.slots) key = none) :
    m.findSlot h key = some none := by
  have hidx := Nat.mod_lt (h.hash key).toNat hm.sized.pos
  obtain ⟨t, ht, hfree⟩ := free_ahead hm.room hidx
  rw [findSlot_loop hm]
  exact findLoop_miss hm.order hm.sized ha hidx hfree ht 0

theorem findSlot_stored (hm : Inv h m) (hp : lookup h (iterate m.slots) key = some p) :
    ∃ (i : Nat) (s : Slot K V), m.findSlot h key = some (some i) ∧ m.slots[i]? = some s ∧
      s.state = .occupied ∧ s.pair = p ∧ h.keyEqual s.key key = true := by
  obtain ⟨hmem, he⟩ := (lookup_some hm.distinct).mp hp
  obtain ⟨i, s, hi, ho, rfl⟩ := mem_iterate.mp hmem
  refine ⟨i, s, ?_, hi, ho, rfl, he⟩
  have hfuel := hm.order.psr_lt hm.room hi ho
  rw [findSlot_loop hm]
  exact findLoop_hit hm.order hm.sized hm.distinct hi ho he (Nat.zero_le _) (by omega)

theorem find_eq (hm : Holds h m xs) (key : K) : m.find h key = some (lookup h xs key) := by
  rw [← hm.lookup_eq, find]
  cases hl : lookup h (iterate m.slots) key with
  | none => simp [findSlot_absent hm.1 hl]
  | some p =>
    obtain ⟨i, s, hfind, hi, _, rfl, _⟩ := findSlot_stored hm.1 hl
    simp [hfind, hi, Slot.pair]

theorem valueAt_eq (hm : Holds h m xs) (key : K) :
    m.valueAt h key = some ((lookup h xs key).map Prod.snd) := by
  rw [← hm.lookup_eq, valueAt]
  cases hl : lookup h (iterate m.slots) key with
  | none => simp [findSlot_absent hm.1 hl]
  | some p =>
    obtain ⟨i, s, hfind, hi, _, rfl, _⟩ := findSlot_stored hm.1 hl
    simp [hfind, hi, Slot.pair]

theorem contains_eq (hm : Holds h m xs) (key : K) :
    m.contains h key = some (lookup h xs key).isSome := by
  rw [← hm.lookup_eq, contains]
  cases hl : lookup h (iterate m.slots) key with
  | none => simp [findSlot_absent hm.1 hl]
  | some p =>
    obtain ⟨i, s, hfind, _⟩ := findSlot_stored hm.1 hl
    simp [hfind]

end Refinement

section Growth

theorem insertNoResize_spec (hr : RobinHood h m.slots) (hs : Sized m.capacityMask m.slots)
    (hroom : (iterate m.slots).length < m.slots.length) (e : Slot K V) :
    ∃ m', m.insertNoResize h e = some m' ∧ Inserted h m.slots m'.slots e ∧
      m'.capacityMask = m.capacityMask ∧ m'.size = m.size + 1 := by
  have hidx := Nat.mod_lt (h.hash e.key).toNat hs.pos
  obtain ⟨t, ht, hfree⟩ := free_ahead hroom hidx
  obtain ⟨S', hrun, hins⟩ := insertNoResizeLoop_spec (e := { e with state := .occupied, psr := 0 })
    hr hs (Carried.start _) rfl hfree ht
  refine ⟨{ m with slots := S', size := m.size + 1 }, ?_, ⟨hins.1, hins.2, hins.3⟩, rfl, rfl⟩
  rw [insertNoResize, idealIndex, hs.and_eq, hrun]
  rfl

/-- `rehash` puts the entries of the old table one by one. -/
theorem insertAll_spec (hr : RobinHood h m.slots) (hs : Sized m.capacityMask m.slots)
    (L : List (Slot K V))
    (hroom : (iterate m.slots).length + (iterate L).length ≤ m.slots.length) :
    ∃ m', m.insertAll h L = some m' ∧ m'.slots.length = m.slots.length ∧
      RobinHood h m'.slots ∧ m'.capacityMask = m.capacityMask ∧
      (iterate m'.slots).Perm (iterate m.slots ++ iterate L) ∧
      m'.size = m.size + (iterate L).length := by
  induction L generalizing m with
  | nil => exact ⟨m, rfl, rfl, hr, rfl, by simp [iterate], rfl⟩
  | cons s L ih =>
    rw [insertAll]
    split
    · rename_i ho
      have hcount : (iterate (s :: L)).length = (iterate L).length + 1 := by
        simp [iterate_cons s L, iterate_occupied ho]
      obtain ⟨m₁, hput, hins, hmask, hsize⟩ := insertNoResize_spec hr hs (by omega) s
      have hlen₁ := hins.pairs.length_eq
      simp only [List.length_cons] at hlen₁
      have hs₁ : Sized m₁.capacityMask m₁.slots := by simpa [Sized, hins.length, hmask] using hs
      obtain ⟨m', hrun, hlen, hr', hmask', hpairs, hsize'⟩ :=
        ih hins.order hs₁ (by rw [hins.length]; omega)
      refine ⟨m', by simp [hput, hrun], hlen.trans hins.length, hr', hmask'.trans hmask, ?_, ?_⟩
      · rw [iterate_cons s L, iterate_occupied ho]
        exact (hpairs.trans (hins.pairs.append_right _)).trans (by simp [List.perm_middle.symm])
      · omega
    · rename_i ho
      rw [iterate_cons s L, iterate_unoccupied ho, List.nil_append] at hroom ⊢
      exact ih hr hs hroom

theorem iterate_blank (hall : ∀ s ∈ S, s.state = .empty) : iterate S = [] := by
  rw [iterate_eq, List.filterMap_eq_nil_iff]
  intro s hs
  simp [Slot.held, hall s hs]

theorem robinHood_blank (hall : ∀ s ∈ S, s.state = .empty) : RobinHood h S := by
  refine ⟨?_, ?_, ?_⟩
  · intro i s hi ho
    simp [hall s (List.mem_of_getElem? hi)] at ho
  · intro i s q _ hs ho
    simp [hall s (List.mem_of_getElem? hs)] at ho
  · intro s hs
    exact .inr (hall s hs)

variable [Inhabited K] [Inhabited V]

/-- The slots of a new table. -/
theorem replicate_blank (n : Nat) :
    ∀ s ∈ List.replicate n (⟨.empty, 0, default, default⟩ : Slot K V), s.state = .empty := by
  intro s hs
  rw [List.eq_of_mem_replicate hs]

/-- A table rebuilt with a power of two slots holds the same pairs. -/
theorem rehash_spec {k : Nat} (hk : initialCapacity ≤ 2 ^ k) (hne : 2 ^ k ≠ m.slots.length)
    (hsize : m.size = (iterate m.slots).length) (hroom : m.size ≤ 2 ^ k) :
    ∃ m', m.rehash h (2 ^ k) = some m' ∧ m'.slots.length = 2 ^ k ∧
      Sized m'.capacityMask m'.slots ∧ RobinHood h m'.slots ∧
      (iterate m'.slots).Perm (iterate m.slots) ∧ m'.size = m.size := by
  obtain ⟨m', hrun, hlen, hr, hmask, hpairs, hsize'⟩ := insertAll_spec (h := h)
    (m := ⟨List.replicate (2 ^ k) ⟨.empty, 0, default, default⟩, 0, 2 ^ k - 1⟩)
    (robinHood_blank (replicate_blank _)) ⟨k, by simp, rfl⟩ m.slots
    (by simpa [iterate_blank (replicate_blank _), ← hsize] using hroom)
  simp only [List.length_replicate, iterate_blank (replicate_blank _), List.nil_append,
    Nat.zero_add]
    at hlen hpairs hsize'
  refine ⟨m', ?_, hlen, ⟨k, hlen, hmask⟩, hr, hpairs, hsize'.trans hsize.symm⟩
  simp only [rehash, nextPowerOfTwo, roundUp_pow]
  rw [if_neg (Nat.not_lt.mpr hk), if_neg hne, hrun]

theorem create_spec : ∃ m : RobinHoodHashMap K V, create h = some m ∧ Holds h m [] := by
  have hcap : nextPowerOfTwo (initialCapacity * 4 / 3) = 2 ^ 4 := by decide
  obtain ⟨m, hrun, hlen, hs, hr, hpairs, hsize⟩ := rehash_spec (h := h)
    (m := (⟨[], 0, 0⟩ : RobinHoodHashMap K V)) (k := 4) (by simp [initialCapacity]) (by simp) rfl
    (by simp)
  have hnil : iterate m.slots = [] := List.perm_nil.mp hpairs
  refine ⟨m, by rw [create, reserve, hcap, hrun], ⟨hs, hr, ?_, ?_, ?_, ?_⟩, hpairs⟩
  · simp [hnil, Distinct]
  · simp [hnil, hsize]
  · simp [hsize]
  · simp [hlen, initialCapacity]

/-- What holds of a map whatever its load, and of one that has been moved from, which has no slots
left. -/
structure Table (h : Hashing K) (m : RobinHoodHashMap K V) : Prop where
  distinct : Distinct h (iterate m.slots)
  size : m.size = (iterate m.slots).length
  built : m.slots = [] ∨ Sized m.capacityMask m.slots ∧ RobinHood h m.slots ∧
    initialCapacity ≤ m.slots.length

omit [Inhabited K] [Inhabited V] in
theorem Inv.table (hm : Inv h m) : Table h m :=
  ⟨hm.distinct, hm.size, .inr ⟨hm.sized, hm.order, hm.initial⟩⟩

omit [Inhabited K] [Inhabited V] in
theorem length_iterate_le (S : List (Slot K V)) : (iterate S).length ≤ S.length := by
  rw [iterate_eq]
  exact List.length_filterMap_le _ _

/-- A table that is built again with twice the slots needed, or more. -/
theorem rehash_inv {k : Nat} (hm : Table h m) (hk : initialCapacity ≤ 2 ^ k)
    (hne : 2 ^ k ≠ m.slots.length) (hload : 2 * m.size ≤ 2 ^ k) :
    ∃ m', m.rehash h (2 ^ k) = some m' ∧ Inv h m' ∧ m'.slots.length = 2 ^ k ∧ m'.size = m.size ∧
      m'.toList.Perm m.toList := by
  obtain ⟨m', hrun, hlen, hs, hr, hpairs, hsize⟩ := rehash_spec (h := h) hk hne hm.size (by omega)
  refine ⟨m', hrun, ⟨hs, hr, hm.distinct.perm hpairs.symm, ?_, by omega, hlen ▸ hk⟩, hlen, hsize,
    hpairs⟩
  rw [hsize, hm.size, hpairs.length_eq]

/-- After `ensure_capacity` one more entry is within the load factor, whatever the load was. -/
theorem ensureCapacity_table (hm : Table h m) :
    ∃ m', m.ensureCapacity h = some m' ∧ Inv h m' ∧ m'.toList.Perm m.toList ∧
      4 * (m'.size + 1) ≤ 3 * m'.slots.length := by
  have hfew := length_iterate_le m.slots
  rw [← hm.size] at hfew
  unfold ensureCapacity
  split
  · rcases hm.built with hnil | ⟨hsized, _, hinit⟩
    · rw [hnil, List.length_nil] at hfew
      have height : initialCapacity = 2 ^ 3 := rfl
      obtain ⟨m', hrun, hinv, hlen, hsize, hpairs⟩ := rehash_inv (k := 3) hm (Nat.le_refl _)
        (by simp [hnil]) (by omega)
      exact ⟨m', by rw [hnil, List.isEmpty_nil, if_pos rfl, height]; exact hrun, hinv, hpairs,
        by omega⟩
    · obtain ⟨k, hlen, _⟩ := hsized
      have hdouble : m.slots.length * 2 = 2 ^ (k + 1) := by rw [hlen, Nat.pow_succ]
      have hsome : m.slots.isEmpty = false := by
        simp only [initialCapacity] at hinit
        cases hslots : m.slots with
        | nil => simp [hslots] at hinit
        | cons => rfl
      simp only [initialCapacity] at hinit
      obtain ⟨m', hrun, hinv, hlen', hsize, hpairs⟩ := rehash_inv (k := k + 1) hm
        (by simp only [initialCapacity]; omega) (by omega) (by omega)
      rw [← hdouble] at hrun hlen'
      exact ⟨m', by simpa [hsome] using hrun, hinv, hpairs, by omega⟩
  · rename_i hfits
    rw [not_or, Nat.not_lt] at hfits
    rcases hm.built with hnil | ⟨hsized, horder, hinit⟩
    · exact absurd (List.isEmpty_iff.mpr hnil) hfits.1
    · exact ⟨m, rfl, ⟨hsized, horder, hm.distinct, hm.size, by omega, hinit⟩, .rfl, hfits.2⟩

/-- After `ensure_capacity` one more entry is within the load factor. -/
theorem ensureCapacity_spec (hm : Holds h m xs) :
    ∃ m', m.ensureCapacity h = some m' ∧ Holds h m' xs ∧
      4 * (m'.size + 1) ≤ 3 * m'.slots.length := by
  obtain ⟨m', hrun, hinv, hpairs, hfits⟩ := ensureCapacity_table hm.1.table
  exact ⟨m', hrun, ⟨hinv, hpairs.trans hm.2⟩, hfits⟩

end Growth

section Calls

/-- New slots in place of the old ones. -/
theorem Inv.replace (hm : Inv h m) {S' : List (Slot K V)} {n : Nat}
    (hlen : S'.length = m.slots.length) (hr : RobinHood h S') (hd : Distinct h (iterate S'))
    (hn : n = (iterate S').length) (hload : 4 * n ≤ 3 * S'.length) :
    Inv h { m with slots := S', size := n } := by
  refine ⟨?_, hr, hd, hn, hload, ?_⟩
  · simpa [Sized, hlen] using hm.sized
  · simpa [hlen] using hm.initial

theorem clear_spec (hm : Holds h m xs) : Holds h m.clear [] := by
  have hblank : ∀ s ∈ m.slots.map (fun slot => { slot with state := State.empty, psr := 0 }),
      s.state = .empty := by
    intro s hs
    obtain ⟨q, _, rfl⟩ := List.mem_map.mp hs
    rfl
  have hnil := iterate_blank hblank
  refine ⟨hm.1.replace (by simp) (robinHood_blank hblank) ?_ ?_ (by simp), ?_⟩
  · simp [hnil, Distinct]
  · simp [hnil]
  · exact List.perm_nil.mpr hnil

theorem erase_spec (hm : Holds h m xs) (key : K) :
    ∃ m', m.erase h key = some (m', (KeyMap.erase h xs key).2) ∧
      Holds h m' (KeyMap.erase h xs key).1 := by
  have hlook := hm.lookup_eq key
  cases hl : lookup h (iterate m.slots) key with
  | none =>
    rw [hl] at hlook
    refine ⟨m, ?_, ?_⟩
    · simp [erase, findSlot_absent hm.1 hl, KeyMap.erase, ← hlook]
    · rwa [erase_absent hlook.symm]
  | some p =>
    rw [hl] at hlook
    obtain ⟨i, s, hfind, hi, ho, rfl, he⟩ := findSlot_stored hm.1 hl
    obtain ⟨t, ht, hfree⟩ := free_ahead hm.1.room (List.getElem?_eq_some_iff.mp hi).1
    obtain ⟨S', hrun, hlen, hr, hpairs⟩ := eraseLoop_spec hm.1.order hm.1.sized hi ho hfree ht.le
    have hperm := erase_perm hm.distinct (hm.2.symm.trans hpairs) he
    have hcount := hpairs.length_eq
    have hsize := hm.1.size
    have hload := hm.1.load
    simp only [List.length_cons] at hcount
    refine ⟨{ m with slots := S', size := m.size - 1 }, ?_, hm.1.replace hlen hr ?_ ?_ ?_, hperm⟩
    · simp [erase, eraseAt, hfind, hrun, KeyMap.erase, ← hlook]
    · exact (distinct_erase hm.distinct key).perm hperm.symm
    · omega
    · omega

/-- A value overwritten in its slot. -/
theorem assign_spec (hm : Holds h m xs) (hi : m.slots[i]? = some s) (ho : s.state = .occupied)
    (he : h.keyEqual s.key key = true) (value : V) :
    Holds h { m with slots := m.slots.set i { s with value := value } }
      (KeyMap.assign h xs key value).1 := by
  have hout := iterate_set hi { s with state := .empty }
  have hin := iterate_set hi { s with value := value }
  rw [iterate_occupied ho, iterate_unoccupied (by simp)] at hout
  rw [iterate_occupied ho, iterate_occupied (s := { s with value := value }) ho] at hin
  have hpairs := assign_of_swap hm.distinct hm.2 hout hin he
  have hcount := hin.length_eq
  simp only [List.length_append, List.length_singleton] at hcount
  have hsize := hm.1.size
  refine ⟨hm.1.replace (n := m.size) (by simp) ?_ ?_ (by omega) (by simpa using hm.1.load), hpairs⟩
  · refine hm.1.order.set (List.getElem?_eq_some_iff.mp hi).1 ?_ ?_ ?_ (.inl ho)
    · exact hm.1.order.place i s hi
    · intro j q hj hn _ hp
      exact hm.1.order.order j s q hj (hn ▸ hi) ho hp
    · intro q hq hqo hp
      exact hm.1.order.order i q s hi hq hqo hp
  · exact (distinct_assign hm.distinct key value).perm hpairs.symm

variable [Inhabited K] [Inhabited V]

omit [Inhabited K] [Inhabited V] in
/-- `insert_entry` of a key that is not stored, where there is room. -/
theorem insertEntryLoop_absent (hm : Inv h m) (hfits : 4 * (m.size + 1) ≤ 3 * m.slots.length)
    (ha : lookup h m.toList key = none) (value : V) :
    ∃ S' it, insertEntryLoop h m.capacityMask m.slots.length m.slots ⟨.empty, 0, key, value⟩ key
        ((h.hash key).toNat % m.slots.length) 0 = some (S', it, true) ∧
      Holds h { m with slots := S', size := m.size + 1 } ((key, value) :: m.toList) := by
  have hidx := Nat.mod_lt (h.hash key).toNat hm.sized.pos
  obtain ⟨t, ht, hfree⟩ := free_ahead hm.room hidx
  obtain ⟨S', hrun, hins⟩ := insertNoResizeLoop_spec (e := ⟨.occupied, 0, key, value⟩)
    hm.order hm.sized (Carried.start _) rfl hfree ht
  obtain ⟨it, hentry⟩ : ∃ it, insertEntryLoop h m.capacityMask m.slots.length m.slots
      ⟨.empty, 0, key, value⟩ key ((h.hash key).toNat % m.slots.length) 0 = _ :=
    insertEntryLoop_new hm.sized hidx hfree ht
      (fun u _ q hq hqo => lookup_none.mp ha q.pair (mem_iterate.mpr ⟨_, q, hq, hqo, rfl⟩))
  have hdistinct := distinct_cons ha hm.distinct value
  have hcount := hins.pairs.length_eq
  have hsize := hm.size
  simp only [List.length_cons] at hcount
  refine ⟨S', it, by rw [hentry, hrun, Option.map_some],
    hm.replace hins.length hins.order (hdistinct.perm hins.pairs.symm) (by omega)
      (by rw [hins.length]; omega), hins.pairs⟩

theorem insert_spec (hm : Holds h m xs) (key : K) (value : V) :
    ∃ m' it, m.insert h key value = some (m', it, (KeyMap.insert h xs key value).2) ∧
      Holds h m' (KeyMap.insert h xs key value).1 := by
  obtain ⟨m₁, hcap, hm₁, hfits⟩ := ensureCapacity_spec hm
  have hlook := hm₁.lookup_eq key
  simp only [insert, hcap, idealIndex, hm₁.1.sized.and_eq, Option.bind_eq_bind, Option.bind_some]
  cases hl : lookup h (iterate m₁.slots) key with
  | none =>
    rw [hl] at hlook
    obtain ⟨S', it, hentry, hinv, hpairs⟩ := insertEntryLoop_absent hm₁.1 hfits hl value
    refine ⟨{ m₁ with slots := S', size := m₁.size + 1 }, it, ?_, ?_⟩
    · simp [hentry, KeyMap.insert, ← hlook]
    · rw [KeyMap.insert, ← hlook]
      exact ⟨hinv, hpairs.trans (hm₁.2.cons _)⟩
  | some p =>
    rw [hl] at hlook
    obtain ⟨i, s, _, hi, ho, rfl, he⟩ := findSlot_stored hm₁.1 hl
    have hfuel := hm₁.1.order.psr_lt hm₁.1.room hi ho
    have hentry : insertEntryLoop h m₁.capacityMask m₁.slots.length m₁.slots
        ⟨.empty, 0, key, value⟩ key (((h.hash key).toNat + 0) % m₁.slots.length) 0 =
          some (m₁.slots, i, false) :=
      insertEntryLoop_stored hm₁.1.order hm₁.1.sized hm₁.1.distinct hi ho he (Nat.zero_le _)
        (by omega) _
    refine ⟨m₁, i, ?_, ?_⟩
    · rw [Nat.add_zero] at hentry
      simp [hentry, KeyMap.insert, ← hlook]
    · rw [KeyMap.insert, ← hlook]
      exact hm₁

theorem insertOrAssign_spec (hm : Holds h m xs) (key : K) (value : V) :
    ∃ m' it, m.insertOrAssign h key value = some (m', it, (KeyMap.assign h xs key value).2) ∧
      Holds h m' (KeyMap.assign h xs key value).1 := by
  have hlook := hm.lookup_eq key
  cases hl : lookup h (iterate m.slots) key with
  | none =>
    rw [hl] at hlook
    obtain ⟨m', it, hrun, hm'⟩ := insert_spec hm key value
    have hsame : KeyMap.assign h xs key value = KeyMap.insert h xs key value := by
      rw [KeyMap.assign, KeyMap.insert, ← hlook]
    refine ⟨m', it, ?_, hsame ▸ hm'⟩
    simp [insertOrAssign, findSlot_absent hm.1 hl, hrun, hsame]
  | some p =>
    rw [hl] at hlook
    obtain ⟨i, s, hfind, hi, ho, rfl, he⟩ := findSlot_stored hm.1 hl
    refine ⟨_, i, ?_, assign_spec hm hi ho he value⟩
    simp [insertOrAssign, hfind, hi, KeyMap.assign, ← hlook]

theorem apply_spec (hm : Holds h m xs) (op : Op K V) :
    ∃ m', m.apply h op = some (m', (applyMap h xs op).2) ∧ Holds h m' (applyMap h xs op).1 := by
  cases op with
  | insert key value =>
    obtain ⟨m', it, hrun, hm'⟩ := insert_spec hm key value
    exact ⟨m', by simp [apply, applyMap, hrun], hm'⟩
  | insertOrAssign key value =>
    obtain ⟨m', it, hrun, hm'⟩ := insertOrAssign_spec hm key value
    exact ⟨m', by simp [apply, applyMap, hrun], hm'⟩
  | erase key => exact erase_spec hm key
  | clear => exact ⟨m.clear, rfl, clear_spec hm⟩

theorem run_spec (hm : Holds h m xs) (ops : List (Op K V)) :
    ∃ m', m.run h ops = some (m', (runMap h xs ops).2) ∧ Holds h m' (runMap h xs ops).1 := by
  induction ops generalizing m xs with
  | nil => exact ⟨m, rfl, hm⟩
  | cons op ops ih =>
    obtain ⟨m₁, hone, hm₁⟩ := apply_spec hm op
    obtain ⟨m', hrest, hm'⟩ := ih hm₁
    exact ⟨m', by simp [run, runMap, hone, hrest], hm'⟩

/-- Every run of calls does what it does on a finite map. -/
theorem run_map (h : Hashing K) (ops : List (Op K V)) :
    ∃ m₀ m : RobinHoodHashMap K V, create h = some m₀ ∧
      m₀.run h ops = some (m, (runMap h [] ops).2) ∧
      Distinct h (runMap h [] ops).1 ∧ m.toList.Perm (runMap h [] ops).1 ∧
      m.size = (runMap h [] ops).1.length ∧
      ∀ key, m.contains h key = some (lookup h (runMap h [] ops).1 key).isSome ∧
        m.find h key = some (lookup h (runMap h [] ops).1 key) ∧
        m.valueAt h key = some ((lookup h (runMap h [] ops).1 key).map Prod.snd) := by
  obtain ⟨m₀, hnew, hm₀⟩ := create_spec (h := h) (K := K) (V := V)
  obtain ⟨m, hrun, hm⟩ := run_spec hm₀ ops
  refine ⟨m₀, m, hnew, hrun, hm.distinct, hm.2, ?_, ?_⟩
  · exact hm.1.size.trans hm.2.length_eq
  · intro key
    exact ⟨contains_eq hm key, find_eq hm key, valueAt_eq hm key⟩

end Calls

end Cppforge.Hash.RobinHoodHashMap
