import Cppforge.Filter.Filters
import Mathlib.Algebra.Order.Archimedean.Real.Basic
import Mathlib.Tactic.NormNum
import Cppforge.Lib.Run
import Mathlib.Data.Set.Basic

namespace Cppforge.Filter.BloomFilter
open BloomParameters

section Access
variable {f f' : BloomFilter} {key : List UInt8}

/-- Every hash leads to a byte of the table. -/
def Indexed (f : BloomFilter) : Prop :=
  0 < f.tableSize.toNat ∧
    ∀ hash : UInt32, hash.toNat % f.tableSize.toNat / 8 < f.bitTable.length

/-- No insertion or query fails, however many keys are inserted. -/
def Total (f : BloomFilter) : Prop :=
  ∀ keys : List (List UInt8), ∃ f', keys.foldlM insert f = some f' ∧
    ∀ key, (f'.contains key).isSome = true

theorem computeIndices_eq (h : Indexed f) (hash : UInt32) :
    f.computeIndices hash =
      some (hash.toNat % f.tableSize.toNat, hash.toNat % f.tableSize.toNat % 8) := by
  have hne : f.tableSize.toNat ≠ 0 := Nat.ne_of_gt h.1
  simp [computeIndices, hne]

theorem bitMask_isSome (bitIndex : Nat) : ∃ mask, bitMask[bitIndex % 8]? = some mask :=
  ⟨_, List.getElem?_eq_getElem (show bitIndex % 8 < bitMask.length from Nat.mod_lt _ (by decide))⟩

theorem setBit_spec (h : Indexed f) (key : List UInt8) {table : List UInt8}
    (ht : table.length = f.bitTable.length) (salt : UInt32) :
    ∃ table', f.setBit key table salt = some table' ∧ table'.length = f.bitTable.length := by
  have hlt := h.2 (hashAp salt key)
  rw [← ht] at hlt
  obtain ⟨mask, hmask⟩ := bitMask_isSome ((hashAp salt key).toNat % f.tableSize.toNat)
  obtain ⟨cell, hcell⟩ : ∃ cell,
      table[(hashAp salt key).toNat % f.tableSize.toNat / 8]? = some cell :=
    ⟨_, List.getElem?_eq_getElem hlt⟩
  refine ⟨table.set ((hashAp salt key).toNat % f.tableSize.toNat / 8) (cell ||| mask), ?_, ?_⟩
  · simp [setBit, computeIndices_eq h, hcell, hmask]
  · rw [List.length_set, ht]

theorem setBits_spec (h : Indexed f) (key : List UInt8) (salts : List UInt32) {table : List UInt8}
    (ht : table.length = f.bitTable.length) :
    ∃ table', salts.foldlM (f.setBit key) table = some table' ∧
      table'.length = f.bitTable.length := by
  induction salts generalizing table with
  | nil => exact ⟨table, rfl, ht⟩
  | cons salt salts ih =>
    obtain ⟨table₁, hset, hlen⟩ := setBit_spec h key ht salt
    obtain ⟨table', hrest, hlen'⟩ := ih hlen
    exact ⟨table', by simp [hset, hrest], hlen'⟩

theorem insert_spec (h : Indexed f) (key : List UInt8) :
    ∃ f', f.insert key = some f' ∧ Indexed f' := by
  obtain ⟨table, htable, hlen⟩ := setBits_spec h key f.salt rfl
  refine ⟨{ f with bitTable := table, insertedElementCount := f.insertedElementCount + 1 },
    by simp [insert, htable], h.1, ?_⟩
  intro hash
  rw [hlen]
  exact h.2 hash

theorem containsFrom_isSome (h : Indexed f) (salts : List UInt32) :
    (f.containsFrom key salts).isSome = true := by
  induction salts with
  | nil => rfl
  | cons salt salts ih =>
    obtain ⟨mask, hmask⟩ := bitMask_isSome ((hashAp salt key).toNat % f.tableSize.toNat)
    simp only [containsFrom, computeIndices_eq h, List.getElem?_eq_getElem (h.2 (hashAp salt key)),
      hmask, Option.bind_eq_bind, Option.bind_some]
    split
    · rfl
    · exact ih

theorem Indexed.total (h : Indexed f) : Total f := by
  intro keys
  induction keys generalizing f with
  | nil => exact ⟨f, rfl, fun key => containsFrom_isSome h f.salt⟩
  | cons key keys ih =>
    obtain ⟨f₁, hinsert, h₁⟩ := insert_spec h key
    obtain ⟨f', hrest, hcontains⟩ := ih h₁
    exact ⟨f', by simp [hinsert, hrest], hcontains⟩

end Access

section Sizes

/-- The byte table covers a bit table of `n` bits, as far as 32-bit hashes reach. -/
theorem covered_iff {n : Nat} (hn : 0 < n) :
    (∀ hash : UInt32, hash.toNat % n / 8 < n / 8) ↔ 8 ∣ n ∨ 2 ^ 32 < n := by
  constructor
  · intro h
    by_cases hlarge : 2 ^ 32 < n
    · exact .inr hlarge
    · left
      -- the last bit is the one that can miss
      have hlast := h (UInt32.ofNat (n - 1))
      have hval : (UInt32.ofNat (n - 1)).toNat = n - 1 :=
        UInt32.toNat_ofNat_of_lt' (by simp only [UInt32.size]; omega)
      rw [hval, Nat.mod_eq_of_lt (by omega)] at hlast
      omega
  · intro h hash
    have hmod := Nat.mod_lt hash.toNat hn
    rcases h with h | h
    · omega
    · have hle := Nat.mod_le hash.toNat n
      have hlt := hash.toNat_lt
      omega

theorem toNat_roundUp (size : UInt64) :
    (roundUp size).toNat = 8 * ((size.toNat + 7) / 8) % 2 ^ 64 := by
  have hlt := size.toNat_lt
  have hmod : (size % 8).toNat = size.toNat % 8 := by simp
  have hsub : (8 - size % 8).toNat = 8 - size.toNat % 8 := by
    rw [UInt64.toNat_sub_of_le]
    · simp
    · rw [UInt64.le_iff_toNat_le, hmod]
      have := Nat.mod_lt size.toNat (show 8 > 0 by decide)
      simp
      omega
  by_cases hz : size % 8 = 0
  · have hz' : size.toNat % 8 = 0 := by
      rw [← hmod, hz]
      rfl
    simp only [roundUp, hz, bne_self_eq_false, Bool.false_eq_true, if_false]
    omega
  · have hz' : size.toNat % 8 ≠ 0 := by
      intro h
      exact hz (UInt64.toNat_inj.mp (by rw [hmod, h]; rfl))
    have hne : (size % 8 != 0) = true := by simpa using hz
    rw [roundUp, if_pos hne, UInt64.toNat_add, hsub]
    omega

end Sizes

/-- The sizes a table may be given: with `m` cut off and rounded up to whole bytes, the
bound that applies is itself whole bytes or beyond the reach of a 32-bit hash. -/
def SizeFits (m minimumSize maximumSize : Nat) : Prop :=
  let rounded := 8 * ((m + 7) / 8) % 2 ^ 64
  if rounded < minimumSize then 8 ∣ minimumSize ∨ 2 ^ 32 < minimumSize
  else if maximumSize < rounded then 0 < maximumSize ∧ (8 ∣ maximumSize ∨ 2 ^ 32 < maximumSize)
  else 0 < rounded

theorem clamp_fits_iff {size low high : UInt64} {m : Nat}
    (hsize : size.toNat = 8 * ((m + 7) / 8) % 2 ^ 64) :
    (0 < (clamp size low high).toNat ∧
      (8 ∣ (clamp size low high).toNat ∨ 2 ^ 32 < (clamp size low high).toNat)) ↔
      SizeFits m low.toNat high.toNat := by
  have hdvd : 8 ∣ size.toNat := by omega
  simp only [SizeFits, ← hsize, ← UInt64.lt_iff_toNat_lt, clamp, gt_iff_lt]
  split
  · rename_i hlow
    rw [UInt64.lt_iff_toNat_lt] at hlow
    constructor
    · intro h
      exact h.2
    · intro h
      exact ⟨by omega, h⟩
  · split
    · exact Iff.rfl
    · constructor
      · intro h
        exact h.1
      · intro h
        exact ⟨h, .inl hdvd⟩

theorem computeOptimalParameters_size {p : BloomParameters ℝ} {m k : ℝ} {o : OptimalParameters}
    (ho : p.computeOptimalParameters (some (m, k)) = some (some o)) :
    ⌊m⌋₊ < 2 ^ 64 ∧
      o.tableSize = clamp (roundUp (UInt64.ofNat ⌊m⌋₊)) p.minimumSize p.maximumSize := by
  unfold computeOptimalParameters at ho
  split at ho
  · cases ho
  · split at ho
    · cases ho
    · simp only at ho
      split at ho
      · rename_i hrange
        cases ho
        exact ⟨hrange.1, rfl⟩
      · cases ho

/-- Whenever the parameters are accepted, the filter made from them stays inside its
table exactly if the size bound that applies leaves whole bytes. -/
theorem create_total_iff (p : BloomParameters ℝ) (m k : ℝ) (o : OptimalParameters)
    (ho : p.computeOptimalParameters (some (m, k)) = some (some o)) (drawn : List UInt32) :
    (Indexed (create p o drawn) ∧ Total (create p o drawn)) ↔
      SizeFits ⌊m⌋₊ p.minimumSize.toNat p.maximumSize.toNat := by
  obtain ⟨hrange, hsize⟩ := computeOptimalParameters_size ho
  have hrounded : (roundUp (UInt64.ofNat ⌊m⌋₊)).toNat = 8 * ((⌊m⌋₊ + 7) / 8) % 2 ^ 64 := by
    rw [toNat_roundUp, UInt64.toNat_ofNat_of_lt' hrange]
  rw [← clamp_fits_iff hrounded, ← hsize]
  have hindexed : Indexed (create p o drawn) ↔ 0 < o.tableSize.toNat ∧
      ∀ hash : UInt32, hash.toNat % o.tableSize.toNat / 8 < o.tableSize.toNat / 8 := by
    simp [Indexed, create]
  constructor
  · intro h
    obtain ⟨hpos, hall⟩ := hindexed.mp h.1
    exact ⟨hpos, (covered_iff hpos).mp hall⟩
  · intro ⟨hpos, hfits⟩
    have h := hindexed.mpr ⟨hpos, (covered_iff hpos).mpr hfits⟩
    exact ⟨h, h.total⟩

/-- The default bounds. -/
def defaults (projectedElementCount : UInt64) (falsePositiveProbability : ℝ) : BloomParameters ℝ :=
  ⟨1, 0xFFFFFFFFFFFFFFFF, 1, 0xFFFFFFFF, projectedElementCount, falsePositiveProbability,
    0xA5A5A5A55A5A5A5A⟩

theorem defaults_accepted (n : UInt64) (hn : n ≠ 0) {fpp m k : ℝ} (hlow : 0 < fpp)
    (hhigh : fpp < 1) (hm : ⌊m⌋₊ < 2 ^ 64) (hk : ⌊k⌋₊ < 2 ^ 32) :
    (defaults n fpp).computeOptimalParameters (some (m, k)) =
      some (some ⟨clamp (UInt32.ofNat ⌊k⌋₊) 1 0xFFFFFFFF,
        clamp (roundUp (UInt64.ofNat ⌊m⌋₊)) 1 0xFFFFFFFFFFFFFFFF⟩) := by
  have hinvalid : (defaults n fpp).invalid = false := by
    simp [invalid, defaults, hn]
    exact decide_eq_false (not_lt.mpr hlow.le)
  simp only [computeOptimalParameters, hinvalid]
  have hrange : ⌊m⌋₊ < 2 ^ 64 ∧ ⌊k⌋₊ < 2 ^ 32 := ⟨hm, hk⟩
  rw [if_neg (by decide), if_neg, if_pos hrange]
  · rfl
  · simp only [defaults, beq_eq_false_iff_ne.mpr hn, Bool.false_or, Bool.or_eq_true, not_or]
    exact ⟨ne_true_of_eq_false (decide_eq_false (not_le.mpr hlow)),
      ne_true_of_eq_false (decide_eq_false (not_le.mpr hhigh))⟩

theorem create_total_hundred :
    Indexed (create (defaults 100 (1 / 100)) ⟨7, 960⟩ []) ∧
      Total (create (defaults 100 (1 / 100)) ⟨7, 960⟩ []) := by
  have hm : ⌊(958.5 : ℝ)⌋₊ = 958 :=
    (Nat.floor_eq_iff (by norm_num)).mpr ⟨by norm_num, by norm_num⟩
  have hk : ⌊(7 : ℝ)⌋₊ = 7 := Nat.floor_ofNat 7
  have ho := defaults_accepted 100 (by decide) (show (0 : ℝ) < 1 / 100 by norm_num)
    (by norm_num) (show ⌊(958.5 : ℝ)⌋₊ < 2 ^ 64 by rw [hm]; decide)
    (show ⌊(7 : ℝ)⌋₊ < 2 ^ 32 by rw [hk]; decide)
  refine (create_total_iff _ _ _ ⟨7, 960⟩ (ho.trans ?_) []).mpr ?_
  · rw [hm, hk]
    decide
  · rw [hm]
    simp [SizeFits, defaults]

/-- One projected element at a probability of 0.9: the optimum is about 0.43 bits, which
the default bounds make a table of one bit and no byte. -/
theorem one_bit_table :
    (defaults 1 0.9).computeOptimalParameters (some (0.43, 1)) = some (some ⟨1, 1⟩) ∧
      ¬ Indexed (create (defaults 1 0.9) ⟨1, 1⟩ []) := by
  have hm : ⌊(0.43 : ℝ)⌋₊ = 0 := Nat.floor_eq_zero.mpr (by norm_num)
  have hk : ⌊(1 : ℝ)⌋₊ = 1 := Nat.floor_one
  refine ⟨?_, ?_⟩
  · rw [defaults_accepted 1 (by decide) (by norm_num) (by norm_num) (by rw [hm]; decide)
      (by rw [hk]; decide), hm, hk]
    decide
  · intro h
    have := h.2 0
    simp [create] at this

end Cppforge.Filter.BloomFilter

namespace Cppforge.Filter.BloomOperand
open BloomFilter

section Bits
variable {a b m : UInt8}

theorem or_covers (h : a &&& m = m) (b : UInt8) : (a ||| b) &&& m = m := by
  rw [← UInt8.toBitVec_inj, UInt8.toBitVec_and] at h
  rw [← UInt8.toBitVec_inj, UInt8.toBitVec_and, UInt8.toBitVec_or, BitVec.and_or_distrib_right, h]
  ext i hi
  simp

theorem or_covers_right (h : b &&& m = m) (a : UInt8) : (a ||| b) &&& m = m := by
  rw [UInt8.or_comm]
  exact or_covers h a

theorem and_covers (ha : a &&& m = m) (hb : b &&& m = m) : (a &&& b) &&& m = m := by
  rw [UInt8.and_assoc, hb, ha]

end Bits

section Tables
variable {table other : List UInt8} {i j : Nat} {key : List UInt8} {f g : BloomFilter}

/-- The bit `i` of a table is set. -/
def Lit (table : List UInt8) (i : Nat) : Prop :=
  ∃ cell mask, table[i / 8]? = some cell ∧ bitMask[i % 8]? = some mask ∧ cell &&& mask = mask

/-- The bits of a key, one for each salt. -/
def bitIndex (f : BloomFilter) (key : List UInt8) (salt : UInt32) : Nat :=
  (hashAp salt key).toNat % f.tableSize.toNat

/-- All bits of the key are set. -/
def Marked (f : BloomFilter) (key : List UInt8) : Prop :=
  ∀ salt ∈ f.salt, Lit f.bitTable (bitIndex f key salt)

theorem Marked.contains (hpos : 0 < f.tableSize.toNat) (h : Marked f key) :
    f.contains key = some true := by
  have hfrom : ∀ salts : List UInt32, (∀ salt ∈ salts, Lit f.bitTable (bitIndex f key salt)) →
      f.containsFrom key salts = some true := by
    intro salts hsalts
    induction salts with
    | nil => rfl
    | cons salt salts ih =>
      obtain ⟨cell, mask, hcell, hmask, hset⟩ := hsalts salt List.mem_cons_self
      have hrest := ih fun salt hsalt => hsalts salt (List.mem_cons_of_mem _ hsalt)
      rw [bitIndex] at hcell hmask
      simp [containsFrom, computeIndices, hpos.ne', hcell, hmask, hset, hrest]
  exact hfrom f.salt h

/-- Setting a bit leaves the bits that are set. -/
theorem Lit.set {cell mask : UInt8} (hcell : table[j / 8]? = some cell) (h : Lit table i) :
    Lit (table.set (j / 8) (cell ||| mask)) i := by
  obtain ⟨c, m, hc, hm, hset⟩ := h
  by_cases hbyte : j / 8 = i / 8
  · rw [← hbyte, hcell, Option.some.injEq] at hc
    subst hc
    refine ⟨cell ||| mask, m, ?_, hm, or_covers hset mask⟩
    rw [← hbyte, List.getElem?_set_self (List.getElem?_eq_some_iff.mp hcell).1]
  · exact ⟨c, m, by rw [List.getElem?_set_ne hbyte, hc], hm, hset⟩

theorem setBit_lit (h : Indexed f) (hlen : table.length = f.bitTable.length) (salt : UInt32) :
    ∃ table', f.setBit key table salt = some table' ∧ table'.length = f.bitTable.length ∧
      Lit table' (bitIndex f key salt) ∧ ∀ i, Lit table i → Lit table' i := by
  obtain ⟨mask, hmask⟩ := bitMask_isSome (bitIndex f key salt)
  have hlt : bitIndex f key salt / 8 < table.length := hlen ▸ h.2 (hashAp salt key)
  obtain ⟨cell, hcell⟩ : ∃ cell, table[bitIndex f key salt / 8]? = some cell :=
    ⟨_, List.getElem?_eq_getElem hlt⟩
  refine ⟨table.set (bitIndex f key salt / 8) (cell ||| mask), ?_, ?_, ?_, ?_⟩
  · rw [bitIndex] at hcell hmask ⊢
    simp [setBit, computeIndices_eq h, hcell, hmask]
  · rw [List.length_set, hlen]
  · exact ⟨cell ||| mask, mask, List.getElem?_set_self hlt, hmask,
      or_covers_right UInt8.and_self cell⟩
  · intro i hi
    exact hi.set hcell

theorem setBits_lit (h : Indexed f) (hlen : table.length = f.bitTable.length)
    (salts : List UInt32) :
    ∃ table', salts.foldlM (f.setBit key) table = some table' ∧
      table'.length = f.bitTable.length ∧ (∀ salt ∈ salts, Lit table' (bitIndex f key salt)) ∧
      ∀ i, Lit table i → Lit table' i := by
  induction salts generalizing table with
  | nil => exact ⟨table, rfl, hlen, by simp, fun _ hi => hi⟩
  | cons salt salts ih =>
    obtain ⟨table₁, hset, hlen₁, hlit, hkeep⟩ := @setBit_lit _ key _ h hlen salt
    obtain ⟨table', hrest, hlen', hall, hkeep'⟩ := ih hlen₁
    refine ⟨table', by simp [hset, hrest], hlen', ?_, fun i hi => hkeep' i (hkeep i hi)⟩
    intro s hs
    rcases List.mem_cons.mp hs with rfl | hs
    · exact hkeep' _ hlit
    · exact hall s hs

/-- Every byte of a table is made of those of two others. -/
def Merges (op : UInt8 → UInt8 → UInt8) (table other table' : List UInt8) : Prop :=
  ∀ (k : Nat) (a b : UInt8), table[k]? = some a → other[k]? = some b → table'[k]? = some (op a b)

theorem combine_spec (op : UInt8 → UInt8 → UInt8) (hlen : table.length = other.length) :
    ∃ table', combine op table other = some table' ∧ table'.length = table.length ∧
      Merges op table other table' := by
  induction table generalizing other with
  | nil => exact ⟨[], rfl, rfl, by simp [Merges]⟩
  | cons a table ih =>
    cases other with
    | nil => simp at hlen
    | cons b other =>
      obtain ⟨table', hrun, hlen', hread⟩ := ih (by simpa using hlen)
      refine ⟨op a b :: table', by simp [combine, hrun], by simp [hlen'], ?_⟩
      intro k a' b' ha hb
      cases k with
      | zero =>
        obtain rfl : a = a' := by simpa using ha
        obtain rfl : b = b' := by simpa using hb
        rfl
      | succ k => exact hread k a' b' ha hb

/-- The bytes that a set bit lies in. -/
theorem Merges.at_bit {table' : List UInt8} {op : UInt8 → UInt8 → UInt8}
    (h : Merges op table other table') (hlen : table.length = other.length) (hi : i / 8 < table.length) :
    ∃ a b, table[i / 8]? = some a ∧ other[i / 8]? = some b ∧ table'[i / 8]? = some (op a b) := by
  have ha := List.getElem?_eq_getElem hi
  have hb := List.getElem?_eq_getElem (hlen ▸ hi)
  exact ⟨_, _, ha, hb, h _ _ _ ha hb⟩

theorem Lit.lt (h : Lit table i) : i / 8 < table.length := by
  obtain ⟨cell, _, hcell, _⟩ := h
  exact (List.getElem?_eq_some_iff.mp hcell).1

theorem Lit.or_left {table' : List UInt8} (h : Lit table i)
    (hm : Merges (· ||| ·) table other table') (hlen : table.length = other.length) :
    Lit table' i := by
  obtain ⟨a, b, ha, _, hab⟩ := hm.at_bit hlen h.lt
  obtain ⟨cell, mask, hcell, hmask, hset⟩ := h
  obtain rfl := Option.some.inj (hcell.symm.trans ha)
  exact ⟨_, mask, hab, hmask, or_covers hset b⟩

theorem Lit.or_right {table' : List UInt8} (h : Lit other i)
    (hm : Merges (· ||| ·) table other table') (hlen : table.length = other.length) :
    Lit table' i := by
  obtain ⟨a, b, _, hb, hab⟩ := hm.at_bit hlen (hlen ▸ h.lt)
  obtain ⟨cell, mask, hcell, hmask, hset⟩ := h
  obtain rfl := Option.some.inj (hcell.symm.trans hb)
  exact ⟨_, mask, hab, hmask, or_covers_right hset a⟩

theorem Lit.and {table' : List UInt8} (h : Lit table i) (h' : Lit other i)
    (hm : Merges (· &&& ·) table other table') (hlen : table.length = other.length) :
    Lit table' i := by
  obtain ⟨a, b, ha, hb, hab⟩ := hm.at_bit hlen h.lt
  obtain ⟨cell, mask, hcell, hmask, hset⟩ := h
  obtain ⟨cell', mask', hcell', hmask', hset'⟩ := h'
  obtain rfl := Option.some.inj (hcell.symm.trans ha)
  obtain rfl := Option.some.inj (hcell'.symm.trans hb)
  obtain rfl := Option.some.inj (hmask.symm.trans hmask')
  exact ⟨_, mask, hab, hmask, and_covers hset hset'⟩

end Tables

section Runs
variable {X : Type} [DecidableEq X] {f g : BloomOperand} {key : List UInt8}

/-- A table of whole bytes, as the constructor lays it out. -/
structure Sound (f : BloomOperand) : Prop where
  positive : 0 < f.tableSize.toNat
  whole : 8 ∣ f.tableSize.toNat
  length : f.bitTable.length = f.tableSize.toNat / 8

/-- The same parameters and salts. -/
structure Alike (f g : BloomOperand) : Prop where
  saltCount : f.saltCount = g.saltCount
  tableSize : f.tableSize = g.tableSize
  randomSeed : f.randomSeed = g.randomSeed
  salt : f.salt = g.salt

/-- Set operations take filters of the same parameters and salts. -/
def Fits (s : X → BloomOperand) : Op X → Prop
  | .insert _ _ => True
  | .orAssign x y => Alike (s x) (s y)
  | .andAssign x y => Alike (s x) (s y)

/-- The keys inserted into a filter or into one or-ed into it, and after an and those of
both operands. -/
def effect (m : X → Set (List UInt8)) : Op X → X → Set (List UInt8)
  | .insert x key => Function.update m x (Insert.insert key (m x))
  | .orAssign x y => Function.update m x (m x ∪ m y)
  | .andAssign x y => Function.update m x (m x ∩ m y)

/-- The filter can be used, and has all keys of a set marked. -/
structure Knows (f : BloomOperand) (keys : Set (List UInt8)) : Prop where
  sound : Sound f
  marked : ∀ key ∈ keys, Marked f.toBloomFilter key

theorem create_sound {α : Type} (p : BloomParameters α) (o : OptimalParameters)
    (drawn : List UInt32) (hpos : 0 < o.tableSize.toNat) (hdvd : 8 ∣ o.tableSize.toNat) :
    Sound (create p o drawn) :=
  ⟨hpos, hdvd, List.length_replicate⟩

theorem Sound.indexed (h : Sound f) : Indexed f.toBloomFilter :=
  ⟨h.positive, fun hash => h.length ▸ (covered_iff h.positive).mpr (.inl h.whole) hash⟩

theorem Knows.insert {keys : Set (List UInt8)} (h : Knows f keys) (key : List UInt8) :
    ∃ f', f.insert key = some f' ∧ Knows f' (Insert.insert key keys) := by
  obtain ⟨table, hrun, hlen, hlit, hkeep⟩ := @setBits_lit _ key _ h.sound.indexed rfl f.salt
  refine ⟨{ f with bitTable := table, insertedElementCount := f.insertedElementCount + 1 },
    by simp [BloomOperand.insert, BloomFilter.insert, hrun],
    ⟨h.sound.positive, h.sound.whole, hlen.trans h.sound.length⟩, ?_⟩
  intro k hk salt hsalt
  rcases hk with rfl | hk
  · exact hlit salt hsalt
  · exact hkeep _ (h.marked k hk salt hsalt)

theorem Alike.length (h : Alike f g) (hf : Sound f) (hg : Sound g) :
    f.bitTable.length = g.bitTable.length := by
  rw [hf.length, hg.length, h.tableSize]

theorem merge_spec (op : UInt8 → UInt8 → UInt8) (hf : Sound f) (hg : Sound g) (h : Alike f g) :
    ∃ table, merge op f g = some { f with bitTable := table } ∧
      Sound { f with bitTable := table } ∧ Merges op f.bitTable g.bitTable table := by
  have hsame : f.comparable g = true := by
    simp [comparable, h.saltCount, h.tableSize, h.randomSeed]
  obtain ⟨table, hrun, hlen, hmerges⟩ := combine_spec op (h.length hf hg)
  exact ⟨table, by simp [merge, hsame, hrun],
    ⟨hf.positive, hf.whole, hlen.trans hf.length⟩, hmerges⟩

/-- Filters of the same parameters use the same bits for a key. -/
theorem Alike.lit (h : Alike f g) (hg : Marked g.toBloomFilter key) :
    ∀ salt ∈ f.salt, Lit g.bitTable (bitIndex f.toBloomFilter key salt) := by
  intro salt hsalt
  rw [bitIndex, h.tableSize]
  exact hg salt (h.salt ▸ hsalt)

theorem Knows.orAssign {keys keys' : Set (List UInt8)} (hf : Knows f keys) (hg : Knows g keys')
    (h : Alike f g) : ∃ f', f.orAssign g = some f' ∧ Knows f' (keys ∪ keys') := by
  obtain ⟨table, hrun, hsound, hmerges⟩ := merge_spec (· ||| ·) hf.sound hg.sound h
  have hlen := h.length hf.sound hg.sound
  refine ⟨_, hrun, hsound, ?_⟩
  intro key hkey salt hsalt
  rcases hkey with hkey | hkey
  · exact (hf.marked key hkey salt hsalt).or_left hmerges hlen
  · exact (h.lit (hg.marked key hkey) salt hsalt).or_right hmerges hlen

theorem Knows.andAssign {keys keys' : Set (List UInt8)} (hf : Knows f keys) (hg : Knows g keys')
    (h : Alike f g) : ∃ f', f.andAssign g = some f' ∧ Knows f' (keys ∩ keys') := by
  obtain ⟨table, hrun, hsound, hmerges⟩ := merge_spec (· &&& ·) hf.sound hg.sound h
  refine ⟨_, hrun, hsound, ?_⟩
  intro key hkey salt hsalt
  exact (hf.marked key hkey.1 salt hsalt).and (h.lit (hg.marked key hkey.2) salt hsalt) hmerges
    (h.length hf.sound hg.sound)

theorem step_follows (s : X → BloomOperand) (m : X → Set (List UInt8)) (op : Op X)
    (h : ∀ x, Knows (s x) (m x)) (hop : Fits s op) :
    ∃ s', step s op = some s' ∧ ∀ x, Knows (s' x) (effect m op x) := by
  cases op with
  | insert x key =>
    obtain ⟨f', hrun, hf'⟩ := (h x).insert key
    exact ⟨_, by simp [step, hrun], Run.each_update h hf' x⟩
  | orAssign x y =>
    obtain ⟨f', hrun, hf'⟩ := (h x).orAssign (h y) hop
    exact ⟨_, by simp [step, hrun], Run.each_update h hf' x⟩
  | andAssign x y =>
    obtain ⟨f', hrun, hf'⟩ := (h x).andAssign (h y) hop
    exact ⟨_, by simp [step, hrun], Run.each_update h hf' x⟩

/-- No filter denies a key that was inserted into it or into a filter or-ed into it, nor one
that both operands of an and had. -/
theorem run_no_false_negatives (s : X → BloomOperand) (hs : ∀ x, Sound (s x)) (ops : List (Op X))
    (hops : Run.Along step Fits s ops) :
    ∃ s', ops.foldlM step s = some s' ∧
      ∀ x, ∀ key ∈ ops.foldl effect (fun _ => ∅) x, (s' x).contains key = some true := by
  have hstart : ∀ x, Knows (s x) ((fun _ => ∅ : X → Set (List UInt8)) x) :=
    fun x => ⟨hs x, fun key hkey => absurd hkey (Set.notMem_empty key)⟩
  obtain ⟨s', hrun, hs'⟩ := hops.follows step_follows hstart
  refine ⟨s', hrun, ?_⟩
  intro x key hkey
  exact ((hs' x).marked key hkey).contains (hs' x).sound.positive

theorem merge_alike {f' : BloomOperand} {op : UInt8 → UInt8 → UInt8} (h : merge op f g = some f') :
    Alike f f' := by
  simp only [merge] at h
  split at h
  · obtain ⟨table, _, hrest⟩ := Option.bind_eq_some_iff.mp h
    obtain rfl := Option.some.inj hrest
    exact ⟨rfl, rfl, rfl, rfl⟩
  · obtain rfl := Option.some.inj h
    exact ⟨rfl, rfl, rfl, rfl⟩

/-- No statement changes the parameters or the salts. -/
theorem step_alike {s s' : X → BloomOperand} {op : Op X} (h : step s op = some s') (y : X) :
    Alike (s y) (s' y) := by
  have hkept : ∀ (x : X) (f' : BloomOperand), Alike (s x) f' → s' = Function.update s x f' →
      Alike (s y) (s' y) := by
    rintro x f' halike rfl
    by_cases hy : y = x
    · simpa [hy] using halike
    · simpa [hy] using (⟨rfl, rfl, rfl, rfl⟩ : Alike (s y) (s y))
  cases op with
  | insert x key =>
    obtain ⟨f', hrun, hrest⟩ := Option.bind_eq_some_iff.mp h
    obtain ⟨filter, hinsert, heq⟩ := Option.bind_eq_some_iff.mp hrun
    obtain ⟨table, _, hfilter⟩ := Option.bind_eq_some_iff.mp hinsert
    obtain rfl := Option.some.inj hfilter
    obtain rfl := Option.some.inj heq
    exact hkept x { s x with
      bitTable := table
      insertedElementCount := (s x).insertedElementCount + 1 } ⟨rfl, rfl, rfl, rfl⟩
      (Option.some.inj hrest).symm
  | orAssign x z =>
    obtain ⟨f', hrun, hrest⟩ := Option.bind_eq_some_iff.mp h
    exact hkept x f' (merge_alike hrun) (Option.some.inj hrest).symm
  | andAssign x z =>
    obtain ⟨f', hrun, hrest⟩ := Option.bind_eq_some_iff.mp h
    exact hkept x f' (merge_alike hrun) (Option.some.inj hrest).symm

/-- Filters made from the same parameters and salts fit each other in every run. -/
theorem along_of_alike {s : X → BloomOperand} (h : ∀ x y, Alike (s x) (s y)) (ops : List (Op X)) :
    Run.Along step Fits s ops := by
  induction ops generalizing s with
  | nil => trivial
  | cons op ops ih =>
    refine ⟨?_, ?_⟩
    · cases op with
      | insert x key => trivial
      | orAssign x y => exact h x y
      | andAssign x y => exact h x y
    · intro s' hstep
      refine ih fun x y => ?_
      obtain ⟨hc, ht, hr, hs⟩ := step_alike hstep x
      obtain ⟨hc', ht', hr', hs'⟩ := step_alike hstep y
      obtain ⟨hc₀, ht₀, hr₀, hs₀⟩ := h x y
      exact ⟨hc.symm.trans (hc₀.trans hc'), ht.symm.trans (ht₀.trans ht'),
        hr.symm.trans (hr₀.trans hr'), hs.symm.trans (hs₀.trans hs')⟩

theorem run_no_false_negatives_pair :
    let made : BloomOperand := create (defaults 100 (1 / 100)) ⟨7, 960⟩ []
    let ops : List (Op Bool) := [.insert true [97], .insert false [98], .orAssign true false,
      .insert false [97], .andAssign false true]
    ∃ s', ops.foldlM step (fun _ => made) = some s' ∧
      ∀ x, ∀ key ∈ ops.foldl effect (fun _ => ∅) x, (s' x).contains key = some true := by
  intro made ops
  have hsound : Sound made := create_sound _ ⟨7, 960⟩ [] (by decide) (by decide)
  exact run_no_false_negatives (fun _ => made) (fun _ => hsound) ops
    (along_of_alike (fun _ _ => ⟨rfl, rfl, rfl, rfl⟩) ops)

end Runs

end Cppforge.Filter.BloomOperand
