import Cppforge.Probabilistic.Sketches
import Mathlib.Order.Lattice.Nat

namespace Cppforge.Probabilistic

variable {α : Type}

/-- The items since the last `clear` of each sketch that was merged in. -/
def SetHistory.elements : SetHistory α → Set α
  | .create => ∅
  | .insert h item => Insert.insert item h.elements
  | .merge h other => h.elements ∪ other.elements
  | .clear _ => ∅

namespace HyperLogLog
variable {hll : HyperLogLog} {S S' : Set (List UInt8)} {registers registers' : List UInt8}
  {item : List UInt8}

/-- What the items of a set have to say about a register. -/
def ranks (hll : HyperLogLog) (S : Set (List UInt8)) (i : Nat) : Set Nat :=
  {rank | ∃ item ∈ S, (hll.index item).toNat = i ∧ (hll.rho item).toNat = rank}

/-- The highest rank for a register, 0 where there is none. -/
noncomputable def highest (hll : HyperLogLog) (S : Set (List UInt8)) (i : Nat) : Nat :=
  sSup (hll.ranks S i)

theorem ranks_empty (i : Nat) : hll.ranks ∅ i = ∅ := by simp [ranks]

theorem ranks_union (i : Nat) : hll.ranks (S ∪ S') i = hll.ranks S i ∪ hll.ranks S' i := by
  ext rank
  simp [ranks, or_and_right, exists_or]

theorem ranks_insert (i : Nat) : hll.ranks (Insert.insert item S) i =
    if (hll.index item).toNat = i then Insert.insert (hll.rho item).toNat (hll.ranks S i)
    else hll.ranks S i := by
  ext rank
  split <;> rename_i hi <;>
    simp only [ranks, Set.mem_ofPred_eq, Set.mem_insert_iff, exists_eq_or_imp, hi, true_and,
      false_and, false_or]
  exact or_congr eq_comm Iff.rfl

theorem index_lt (hll : HyperLogLog) (item : List UInt8) :
    (hll.index item).toNat < hll.REGISTER_COUNT := by
  have hleast := UInt8.le_iff_toNat_le.mp hll.least
  have hmost := UInt8.le_iff_toNat_le.mp hll.most
  have hhash := (hashBytes item).toNat_lt
  simp only [UInt8.reduceToNat] at hleast hmost
  have hshift : (64 - hll.Precision.toUInt64).toNat % 64 = 64 - hll.Precision.toNat := by
    rw [UInt64.toNat_sub_of_le]
    · simp
      omega
    · apply UInt64.le_iff_toNat_le.mpr
      simp
      omega
  rw [index, UInt64.toNat_shiftRight, hshift, Nat.shiftRight_eq_div_pow, REGISTER_COUNT]
  apply Nat.div_lt_of_lt_mul
  rw [← pow_add]
  have : 64 - hll.Precision.toNat + hll.Precision.toNat = 64 := by omega
  rwa [this]

/-- Each register has the highest rank of a set. -/
structure Shows (hll : HyperLogLog) (S : Set (List UInt8)) (registers : List UInt8) : Prop where
  size : registers.length = hll.REGISTER_COUNT
  highest : ∀ i register, registers[i]? = some register → IsLUB (hll.ranks S i) register.toNat

theorem toNat_higher (a b : UInt8) : (if b > a then b else a).toNat = max a.toNat b.toNat := by
  split <;> rename_i h <;> simp only [gt_iff_lt, UInt8.lt_iff_toNat_lt] at h <;> omega

theorem shows_zero (h : registers.length = hll.REGISTER_COUNT)
    (hzero : ∀ register ∈ registers, register = 0) : hll.Shows ∅ registers := by
  refine ⟨h, ?_⟩
  intro i register hregister
  rw [hzero register (List.mem_of_getElem? hregister), ranks_empty]
  exact isLUB_empty

theorem Shows.insert (h : hll.Shows S registers) (item : List UInt8) :
    ∃ registers', hll.insert registers item = some registers' ∧
      hll.Shows (Insert.insert item S) registers' := by
  have hlt : (hll.index item).toNat < registers.length := h.size ▸ hll.index_lt item
  have hregister := List.getElem?_eq_getElem hlt
  have hlub := (h.highest _ _ hregister).insert (hll.rho item).toNat
  rw [max_comm, ← toNat_higher] at hlub
  have hset : hll.insert registers item = some (registers.set (hll.index item).toNat
      (if hll.rho item > registers[(hll.index item).toNat] then hll.rho item
        else registers[(hll.index item).toNat])) := by
    rw [HyperLogLog.insert, hregister]
    change some _ = some _
    split
    · rfl
    · rw [List.set_getElem_self]
  refine ⟨_, hset, ?_, ?_⟩
  · rw [List.length_set, h.size]
  · intro i register' hregister'
    rw [ranks_insert]
    split
    · rename_i hi
      rw [← hi, List.getElem?_set_self hlt] at hregister'
      rw [← hi, ← Option.some.inj hregister']
      exact hlub
    · rename_i hi
      rw [List.getElem?_set_ne hi] at hregister'
      exact h.highest i register' hregister'

theorem Shows.merge (h : hll.Shows S registers) (h' : hll.Shows S' registers') :
    hll.Shows (S ∪ S') (merge registers registers') := by
  refine ⟨by simp [HyperLogLog.merge, h.size, h'.size], ?_⟩
  intro i register hregister
  obtain ⟨mine, theirs, hmine, htheirs, rfl⟩ := List.getElem?_zipWith_eq_some.mp hregister
  rw [ranks_union, toNat_higher]
  exact (h.highest i mine hmine).union (h'.highest i theirs htheirs)

theorem run_shows (hll : HyperLogLog) (h : SetHistory (List UInt8)) :
    ∃ registers, hll.run h = some registers ∧ hll.Shows h.elements registers := by
  induction h with
  | create => exact ⟨_, rfl, shows_zero (by simp [create]) (by simp [create])⟩
  | insert h item ih =>
    obtain ⟨registers, hrun, hshows⟩ := ih
    obtain ⟨registers', hinsert, hshows'⟩ := hshows.insert item
    exact ⟨registers', by rw [HyperLogLog.run, hrun]; exact hinsert, hshows'⟩
  | merge h other ih ih' =>
    obtain ⟨registers, hrun, hshows⟩ := ih
    obtain ⟨registers', hrun', hshows'⟩ := ih'
    exact ⟨_, by rw [HyperLogLog.run, hrun, hrun']; rfl, hshows.merge hshows'⟩
  | clear h ih =>
    obtain ⟨registers, hrun, hshows⟩ := ih
    refine ⟨_, by rw [HyperLogLog.run, hrun]; rfl, shows_zero ?_ ?_⟩
    · rw [HyperLogLog.clear, List.length_map, hshows.size]
    · simp [HyperLogLog.clear]

theorem deserialize_eq_ok (data : List UInt8) : hll.deserialize data = .ok registers ↔
    registers.length = hll.REGISTER_COUNT ∧ data = hll.serialize registers := by
  unfold deserialize serialize
  split
  · rename_i version precision rest
    split_ifs with hversion hprecision hsize
    · simp [hversion]
    · simp [hprecision]
    · refine ⟨nofun, ?_⟩
      rintro ⟨hlen, he⟩
      rw [he, List.length_append, hlen] at hsize
      exact absurd rfl hsize
    · simp only [ne_eq, not_not, List.length_cons] at hversion hprecision hsize
      constructor
      · intro he
        obtain rfl := Except.ok.inj he
        exact ⟨by omega, by rw [hversion, hprecision]; rfl⟩
      · rintro ⟨-, he⟩
        cases he
        rfl
  · rename_i hshort
    simp only [reduceCtorEq, List.cons_append, List.nil_append, false_iff, not_and]
    rintro - rfl
    exact hshort _ _ _ rfl

/-- However items came into a sketch, over which other sketches and how often: each register has
the highest rank of the items it is responsible for, so that the sketch depends on the set of
items only, and no access is out of range. What `serialize` writes is what is read back, and
nothing else is. -/
theorem registers_exact (hll : HyperLogLog) (h : SetHistory (List UInt8)) :
    ∃ registers, hll.run h = some registers ∧
      registers.map UInt8.toNat = (List.range hll.REGISTER_COUNT).map (hll.highest h.elements) ∧
      ∀ data, hll.deserialize data = .ok registers ↔ data = hll.serialize registers := by
  obtain ⟨registers, hrun, hshows⟩ := run_shows hll h
  refine ⟨registers, hrun, ?_, ?_⟩
  · apply List.ext_getElem
    · simp [hshows.size]
    · intro i hi _
      rw [List.getElem_map, List.getElem_map, List.getElem_range]
      have hlub := hshows.highest i _ (List.getElem?_eq_getElem (by simpa using hi))
      exact hlub.unique (isLUB_csSup' ⟨_, hlub.1⟩)
  · intro data
    rw [deserialize_eq_ok, and_iff_right hshows.size]

end HyperLogLog

namespace MinHash
variable {mh : MinHash α} {S S' : Set α} {signature other : List UInt64}

/-- The hashes of a set under a seed, and the value of a cell that nothing has lowered. -/
def hashes (mh : MinHash α) (S : Set α) (i : Nat) : Set Nat :=
  Insert.insert maxHash.toNat ((fun item => (mh.hash_ item (seed i)).toNat) '' S)

/-- The least hash of a set. -/
noncomputable def minimum (mh : MinHash α) (S : Set α) (i : Nat) : Nat := sInf (mh.hashes S i)

/-- Each cell has the least hash of a set. -/
structure Shows (mh : MinHash α) (S : Set α) (signature : List UInt64) : Prop where
  size : signature.length = mh.SignatureSize
  least : ∀ i s, signature[i]? = some s → IsGLB (mh.hashes S i) s.toNat

theorem toNat_lower (a b : UInt64) : (if b < a then b else a).toNat = min a.toNat b.toNat := by
  split <;> rename_i h <;> simp only [UInt64.lt_iff_toNat_lt] at h <;> omega

theorem shows_max (h : signature.length = mh.SignatureSize)
    (hmax : ∀ s ∈ signature, s = maxHash) : mh.Shows ∅ signature := by
  refine ⟨h, ?_⟩
  intro i s hs
  rw [hmax s (List.mem_of_getElem? hs), hashes, Set.image_empty]
  simp

theorem Shows.insert (h : mh.Shows S signature) (item : α) :
    mh.Shows (Insert.insert item S) (mh.insert signature item) := by
  refine ⟨by simp [MinHash.insert, h.size], ?_⟩
  intro i s hs
  rw [MinHash.insert, List.getElem?_mapIdx, Option.map_eq_some_iff] at hs
  obtain ⟨old, hold, rfl⟩ := hs
  rw [hashes, Set.image_insert_eq, Set.insert_comm, toNat_lower, min_comm]
  exact (h.least i old hold).insert _

theorem Shows.merge (h : mh.Shows S signature) (h' : mh.Shows S' other) :
    mh.Shows (S ∪ S') (merge signature other) := by
  refine ⟨by simp [MinHash.merge, h.size, h'.size], ?_⟩
  intro i s hs
  obtain ⟨mine, theirs, hmine, htheirs, rfl⟩ := List.getElem?_zipWith_eq_some.mp hs
  rw [hashes, Set.image_union, Set.insert_union_distrib, toNat_lower]
  exact (h.least i mine hmine).union (h'.least i theirs htheirs)

theorem run_shows (mh : MinHash α) (h : SetHistory α) : mh.Shows h.elements (mh.run h) := by
  induction h with
  | create => exact shows_max (by simp [run, create]) (by simp [run, create])
  | insert h item ih => exact ih.insert item
  | merge h other ih ih' => exact ih.merge ih'
  | clear h ih => exact shows_max (by simp [run, clear, ih.size]) (by simp [run, clear])

theorem Shows.minima (h : mh.Shows S signature) :
    signature.map UInt64.toNat = (List.range mh.SignatureSize).map (mh.minimum S) := by
  apply List.ext_getElem
  · simp [h.size]
  · intro i hi _
    rw [List.getElem_map, List.getElem_map, List.getElem_range]
    have hglb := h.least i _ (List.getElem?_eq_getElem (by simpa using hi))
    exact (hglb.csInf_eq (Set.insert_nonempty _ _)).symm

/-- The cells in which two sets have the same least hash. -/
noncomputable def agreeing (mh : MinHash α) (S S' : Set α) : Nat :=
  (List.range mh.SignatureSize).countP fun i => mh.minimum S i == mh.minimum S' i

theorem Shows.equal (h : mh.Shows S signature) (h' : mh.Shows S' other) :
    (List.zip signature other).countP (fun e => e.1 == e.2) = mh.agreeing S S' := by
  have hnumbers : (List.zip signature other).countP (fun e => e.1 == e.2) =
      ((signature.map UInt64.toNat).zip (other.map UInt64.toNat)).countP fun e => e.1 == e.2 := by
    rw [List.zip_map, List.countP_map]
    apply List.countP_congr
    simp [UInt64.toNat_inj]
  rw [hnumbers, h.minima, h'.minima, List.zip_map', List.countP_map]
  rfl

theorem Shows.head (h : mh.Shows S signature) :
    signature.head? = some maxHash ↔ mh.minimum S 0 = maxHash.toNat := by
  have hpos := mh.pos
  have hminima := congrArg List.head? h.minima
  rw [List.head?_map, List.head?_map, List.head?_range, if_neg (by omega)] at hminima
  obtain ⟨s, hs, hmin⟩ := Option.map_eq_some_iff.mp hminima
  rw [hs, ← hmin, Option.some.injEq, UInt64.toNat_inj]

theorem Shows.isEmpty_iff (h : mh.Shows S signature) : isEmpty signature = true ↔
    ∀ item ∈ S, ∀ i < mh.SignatureSize, mh.hash_ item (seed i) = maxHash := by
  simp only [isEmpty, List.all_eq_true, beq_iff_eq]
  constructor
  · intro hall item hitem i hi
    have hlt : i < signature.length := h.size.symm ▸ hi
    have hmax := hall signature[i] (List.getElem_mem hlt)
    have hle := (h.least i _ (List.getElem?_eq_getElem hlt)).1
      (.inr (Set.mem_image_of_mem _ hitem))
    rw [hmax] at hle
    exact UInt64.toNat_inj.mp (Nat.le_antisymm (Nat.le_of_lt_succ (UInt64.toNat_lt _)) hle)
  · intro hall s hs
    obtain ⟨i, hi, rfl⟩ := List.getElem_of_mem hs
    have hglb := h.least i _ (List.getElem?_eq_getElem hi)
    have hmax : mh.hashes S i = {maxHash.toNat} := by
      apply Set.eq_singleton_iff_unique_mem.mpr
      refine ⟨Set.mem_insert _ _, ?_⟩
      rintro _ (rfl | ⟨item, hitem, rfl⟩)
      · rfl
      · exact congrArg UInt64.toNat (hall item hitem i (h.size ▸ hi))
    rw [hmax] at hglb
    exact UInt64.toNat_inj.mp (hglb.unique isGLB_singleton)

/-- However items came into two signatures, over which other signatures and how often: each cell
has the least hash of the items, so that a signature depends on the set of items only; it is
empty where no item has a hash below the largest number; and the similarity is the share of
cells with the same least hash, but 0 where all are the same and the first has the largest number. -/
theorem signatures_exact (mh : MinHash α) (h h' : SetHistory α) :
    (mh.run h).map UInt64.toNat = (List.range mh.SignatureSize).map (mh.minimum h.elements) ∧
      (isEmpty (mh.run h) = true ↔
        ∀ item ∈ h.elements, ∀ i < mh.SignatureSize, mh.hash_ item (seed i) = maxHash) ∧
      mh.jaccard (mh.run h) (mh.run h') =
        if mh.agreeing h.elements h'.elements = mh.SignatureSize ∧
            mh.minimum h.elements 0 = maxHash.toNat then 0
        else (mh.agreeing h.elements h'.elements : ℚ) / mh.SignatureSize := by
  have hshows := mh.run_shows h
  refine ⟨hshows.minima, hshows.isEmpty_iff, ?_⟩
  · rw [jaccard, hshows.equal (mh.run_shows h')]
    simp only [hshows.head]

end MinHash

end Cppforge.Probabilistic
