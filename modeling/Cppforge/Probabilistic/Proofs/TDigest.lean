import Mathlib.Algebra.BigOperators.Group.List.Basic
import Mathlib.Tactic.Ring
import Cppforge.Lib.Weighted
import Cppforge.Probabilistic.Sketches

namespace Cppforge.Probabilistic.TDigest

variable {R : Type} [Sub R] [One R] [LE R] [DecidableLE R] {scale : ℚ → R}
  {sorting : KeySort Centroid ℚ} {compression : UInt64} {d other : TDigest} {c last : Centroid}
  {cs xs ys done rest : List Centroid} {merged : List Centroid × UInt64} {n k : Nat}
  {μ ν totalW : ℚ}

section Sums

def weight (cs : List Centroid) : Nat := (cs.map fun c => c.count.toNat).sum

def moment (cs : List Centroid) : ℚ := (cs.map fun c => c.mean * (c.count.toNat : ℚ)).sum

theorem weight_cons (c : Centroid) (cs : List Centroid) :
    weight (c :: cs) = c.count.toNat + weight cs := by
  simp [weight]

theorem moment_cons (c : Centroid) (cs : List Centroid) :
    moment (c :: cs) = c.mean * c.count.toNat + moment cs := by
  simp [moment]

theorem weight_append (xs ys : List Centroid) : weight (xs ++ ys) = weight xs + weight ys := by
  simp [weight]

theorem moment_append (xs ys : List Centroid) : moment (xs ++ ys) = moment xs + moment ys := by
  simp [moment]

theorem weight_perm (h : xs.Perm ys) : weight xs = weight ys := (h.map _).sum_eq

theorem moment_perm (h : xs.Perm ys) : moment xs = moment ys := (h.map _).sum_eq

end Sums

section Loop

/-- What the loop of `compress` has made of the centroids that it is done with. -/
structure Merging (merged : List Centroid × UInt64) (done : List Centroid) : Prop where
  positive : ∀ c ∈ merged.1, 0 < c.count.toNat
  sorted : merged.1.Pairwise fun a b => b.mean ≤ a.mean
  weight : weight merged.1 = weight done
  moment : moment merged.1 = moment done
  cum : merged.2.toNat = TDigest.weight done
  below : ∀ x, (∀ a ∈ done, a.mean ≤ x) → ∀ c ∈ merged.1, c.mean ≤ x

theorem merging_nil : Merging ([], 0) [] :=
  ⟨by simp, .nil, rfl, rfl, rfl, by simp⟩

theorem toNat_add_of_lt {a b : UInt64} (h : a.toNat + b.toNat < 2 ^ 64) :
    (a + b).toNat = a.toNat + b.toNat := by
  rw [UInt64.toNat_add]
  exact Nat.mod_eq_of_lt h

/-- Two neighbours in one: their weight and their moment, between their means. -/
theorem fused (hlast : 0 < last.count.toNat) (hlt : last.count.toNat + c.count.toNat < 2 ^ 64)
    (hle : last.mean ≤ c.mean) :
    ∃ m : ℚ, (last.mean * last.count.toNat + c.mean * c.count.toNat) /
        (last.count + c.count).toNat = m ∧
      m * (last.count + c.count).toNat =
        last.mean * last.count.toNat + c.mean * c.count.toNat ∧ last.mean ≤ m ∧ m ≤ c.mean := by
  have ha : (0 : ℚ) ≤ last.count.toNat := Nat.cast_nonneg _
  have hb : (0 : ℚ) ≤ c.count.toNat := Nat.cast_nonneg _
  have hpos : (0 : ℚ) < last.count.toNat + c.count.toNat :=
    add_pos_of_pos_of_nonneg (Nat.cast_pos.mpr hlast) hb
  rw [toNat_add_of_lt hlt, Nat.cast_add]
  exact ⟨_, rfl, Weighted.mean_mul hpos, Weighted.le_mean hb hpos hle, Weighted.mean_le ha hpos hle⟩

theorem mergeNext_spec (h : Merging merged done) (hc : 0 < c.count.toNat)
    (hle : ∀ a ∈ done, a.mean ≤ c.mean) (hlt : TDigest.weight done + c.count.toNat < 2 ^ 64) :
    Merging (mergeNext scale totalW merged c) (done ++ [c]) := by
  obtain ⟨cs, cum⟩ := merged
  have hcum : (cum + c.count).toNat = TDigest.weight (done ++ [c]) := by
    rw [toNat_add_of_lt (by rw [h.cum]; exact hlt), h.cum, weight_append]
    simp [TDigest.weight]
  have hbound : ∀ x, (∀ a ∈ done ++ [c], a.mean ≤ x) → (∀ a ∈ done, a.mean ≤ x) ∧ c.mean ≤ x := by
    intro x hx
    exact ⟨fun a ha => hx a (List.mem_append_left _ ha), hx c (by simp)⟩
  have hpush : Merging (c :: cs, cum + c.count) (done ++ [c]) := by
    refine ⟨?_, ?_, ?_, ?_, hcum, ?_⟩
    · intro a ha
      rcases List.mem_cons.mp ha with rfl | ha
      · exact hc
      · exact h.positive a ha
    · exact List.pairwise_cons.mpr ⟨fun a ha => h.below c.mean hle a ha, h.sorted⟩
    · rw [weight_cons, weight_append, h.weight, Nat.add_comm]
      rfl
    · rw [moment_cons, moment_append, h.moment, add_comm]
      simp [TDigest.moment]
    · intro x hx a ha
      obtain ⟨hdone, hcx⟩ := hbound x hx
      rcases List.mem_cons.mp ha with rfl | ha
      · exact hcx
      · exact h.below x hdone a ha
  cases cs with
  | nil => exact hpush
  | cons last rest =>
    unfold mergeNext
    simp only
    split
    · have hweight := h.weight
      have hmoment := h.moment
      simp only [weight_cons, moment_cons] at hweight hmoment
      have hfits : last.count.toNat + c.count.toNat < 2 ^ 64 := by omega
      obtain ⟨m, hm, hmul, hlo, hhi⟩ := fused (h.positive last List.mem_cons_self) hfits
        (h.below c.mean hle last List.mem_cons_self)
      obtain ⟨hfirst, hrest⟩ := List.pairwise_cons.mp h.sorted
      rw [hm]
      refine ⟨?_, ?_, ?_, ?_, hcum, ?_⟩
      · intro a ha
        rcases List.mem_cons.mp ha with rfl | ha
        · change 0 < (last.count + c.count).toNat
          rw [toNat_add_of_lt hfits]
          exact Nat.add_pos_right _ hc
        · exact h.positive a (List.mem_cons_of_mem _ ha)
      · exact List.pairwise_cons.mpr ⟨fun a ha => (hfirst a ha).trans hlo, hrest⟩
      · rw [weight_cons, weight_append, ← hweight, toNat_add_of_lt hfits]
        simp only [TDigest.weight, List.map_cons, List.map_nil, List.sum_cons, List.sum_nil]
        omega
      · rw [moment_cons, moment_append, ← hmoment, hmul]
        simp only [TDigest.moment, List.map_cons, List.map_nil, List.sum_cons, List.sum_nil]
        ring
      · intro x hx a ha
        obtain ⟨hdone, hcx⟩ := hbound x hx
        rcases List.mem_cons.mp ha with rfl | ha
        · exact hhi.trans hcx
        · exact h.below x hdone a (List.mem_cons_of_mem _ ha)
    · exact hpush

theorem foldl_mergeNext (scale : ℚ → R) (totalW : ℚ) (h : Merging merged done)
    (hcs : ∀ c ∈ cs, 0 < c.count.toNat)
    (hsorted : (done ++ cs).Pairwise fun a b => a.mean ≤ b.mean)
    (hlt : TDigest.weight (done ++ cs) < 2 ^ 64) :
    Merging (cs.foldl (mergeNext scale totalW) merged) (done ++ cs) := by
  induction cs generalizing merged done with
  | nil => simpa using h
  | cons c cs ih =>
    have hbefore := (List.pairwise_append.mp hsorted).2.2
    have hone : TDigest.weight done + c.count.toNat < 2 ^ 64 := by
      rw [weight_append, weight_cons] at hlt
      omega
    rw [List.append_cons] at hsorted hlt ⊢
    refine ih (mergeNext_spec h (hcs c List.mem_cons_self) ?_ hone)
      (fun a ha => hcs a (List.mem_cons_of_mem _ ha)) hsorted hlt
    intro a ha
    exact hbefore a ha c List.mem_cons_self

end Loop

section States

/-- What holds of a digest that got a weight of `n` with the moment `μ`. -/
structure Sound (d : TDigest) (n : Nat) (μ : ℚ) : Prop where
  positive : ∀ c ∈ d.centroids ++ d.buffer, 0 < c.count.toNat
  weight : TDigest.weight (d.centroids ++ d.buffer) = n
  moment : TDigest.moment (d.centroids ++ d.buffer) = μ
  total : d.totalWeight.toNat = n
  sorted : d.centroids.Pairwise fun a b => a.mean ≤ b.mean

/-- What `compress` puts together. -/
theorem compress_all (d : TDigest) :
    (if d.centroids.isEmpty then d.buffer else d.centroids ++ d.buffer) =
      d.centroids ++ d.buffer := by
  split
  · rename_i hnone
    rw [List.isEmpty_iff.mp hnone, List.nil_append]
  · rfl

theorem compress_spec (scale : ℚ → R) (sorting : KeySort Centroid ℚ) (h : Sound d n μ)
    (hn : n < 2 ^ 64) :
    Sound (d.compress scale sorting) n μ ∧ (d.compress scale sorting).buffer = [] ∧
      (d.compress scale sorting).totalWeight = d.totalWeight := by
  unfold compress
  split
  · rename_i hempty
    exact ⟨h, List.isEmpty_iff.mp hempty, rfl⟩
  · simp only [compress_all]
    split
    · rename_i hfew
      refine ⟨⟨?_, ?_, ?_, h.total, ?_⟩, rfl, rfl⟩
      · simpa using h.positive
      · simpa using h.weight
      · simpa using h.moment
      · match hcs : d.centroids ++ d.buffer, hfew with
        | [], _ => exact .nil
        | [c], _ => exact List.pairwise_singleton _ c
    · have hperm := sorting.perm Centroid.mean (d.centroids ++ d.buffer)
      have hloop := foldl_mergeNext scale d.totalWeight.toNat merging_nil
        (fun c hc => h.positive c (hperm.mem_iff.mp hc))
        (sorting.sorted Centroid.mean (d.centroids ++ d.buffer))
        (by rw [List.nil_append, weight_perm hperm, h.weight]; exact hn)
      rw [List.nil_append] at hloop
      refine ⟨⟨?_, ?_, ?_, h.total, ?_⟩, rfl, rfl⟩
      · intro c hc
        rw [List.append_nil, List.mem_reverse] at hc
        exact hloop.positive c hc
      · rw [List.append_nil, weight_perm (List.reverse_perm _), hloop.weight, weight_perm hperm,
          h.weight]
      · rw [List.append_nil, moment_perm (List.reverse_perm _), hloop.moment, moment_perm hperm,
          h.moment]
      · exact List.pairwise_reverse.mpr hloop.sorted

theorem compressIfFull_spec (h : Sound d n μ) (hn : n < 2 ^ 64) :
    Sound (compressIfFull scale sorting compression d) n μ := by
  unfold compressIfFull
  split
  · exact (compress_spec scale sorting h hn).1
  · exact h

/-- A value in the buffer, before the check for a compression. -/
theorem pushed_sound (h : Sound d n μ) (value : ℚ) {w : UInt64} (hne : w ≠ 0)
    (hn : n + w.toNat < 2 ^ 64) :
    Sound { d with buffer := d.buffer ++ [⟨value, w⟩], totalWeight := d.totalWeight + w }
      (n + w.toNat) (μ + value * w.toNat) := by
  have hpos : 0 < w.toNat := Nat.pos_of_ne_zero fun hzero => hne (UInt64.toNat_inj.mp hzero)
  refine ⟨?_, ?_, ?_, ?_, h.sorted⟩
  · intro c hc
    rw [← List.append_assoc] at hc
    rcases List.mem_append.mp hc with hold | hnew
    · exact h.positive c hold
    · rw [List.mem_singleton.mp hnew]
      exact hpos
  · rw [← List.append_assoc, weight_append, h.weight]
    simp [TDigest.weight]
  · rw [← List.append_assoc, moment_append, h.moment]
    simp [TDigest.moment]
  · rw [toNat_add_of_lt (by rw [h.total]; exact hn), h.total]

theorem add_spec (h : Sound d n μ) (value : ℚ) (w : UInt64) (hn : n + w.toNat < 2 ^ 64) :
    Sound (d.add scale sorting compression value w) (n + w.toNat) (μ + value * w.toNat) := by
  unfold add
  split
  · rename_i hzero
    simpa [hzero] using h
  · rename_i hne
    exact compressIfFull_spec (pushed_sound h value hne hn) hn

theorem gathered_eq (d other : TDigest) :
    d.centroids ++ (d.buffer ++ other.centroids ++ other.buffer) =
      (d.centroids ++ d.buffer) ++ (other.centroids ++ other.buffer) := by
  simp only [List.append_assoc]

/-- The entries of another digest in the buffer, before the check for a compression. -/
theorem gathered_sound (h : Sound d n μ) (ho : Sound other k ν) (hn : n + k < 2 ^ 64) :
    Sound { d with
      buffer := d.buffer ++ other.centroids ++ other.buffer
      totalWeight := d.totalWeight + other.totalWeight } (n + k) (μ + ν) := by
  refine ⟨?_, ?_, ?_, ?_, h.sorted⟩
  · intro c hc
    rw [gathered_eq d other] at hc
    rcases List.mem_append.mp hc with hmine | hother
    · exact h.positive c hmine
    · exact ho.positive c hother
  · rw [gathered_eq d other, weight_append, h.weight, ho.weight]
  · rw [gathered_eq d other, moment_append, h.moment, ho.moment]
  · rw [toNat_add_of_lt (by rw [h.total, ho.total]; exact hn), h.total, ho.total]

theorem merge_spec (h : Sound d n μ) (ho : Sound other k ν) (hn : n + k < 2 ^ 64) :
    Sound (d.merge scale sorting compression other) (n + k) (μ + ν) :=
  compressIfFull_spec (gathered_sound h ho hn) hn

theorem create_spec : Sound create 0 0 :=
  ⟨by simp [create], rfl, rfl, rfl, .nil⟩

/-- The digests that calls lead to, with the weight that was added and merged in since the last
`clear`, and its moment. -/
inductive Reached (scale : ℚ → R) (sorting : KeySort Centroid ℚ) (compression : UInt64) :
    TDigest → Nat → ℚ → Prop
  | create : Reached scale sorting compression create 0 0
  | add {d : TDigest} {n : Nat} {μ : ℚ} (value : ℚ) (weight : UInt64) :
    Reached scale sorting compression d n μ →
    Reached scale sorting compression (d.add scale sorting compression value weight)
      (n + weight.toNat) (μ + value * weight.toNat)
  | merge {d other : TDigest} {n k : Nat} {μ ν : ℚ} : Reached scale sorting compression d n μ →
    Reached scale sorting compression other k ν →
    Reached scale sorting compression (d.merge scale sorting compression other) (n + k) (μ + ν)
  | clear {d : TDigest} {n : Nat} {μ : ℚ} : Reached scale sorting compression d n μ →
    Reached scale sorting compression d.clear 0 0
  | serialize {d : TDigest} {n : Nat} {μ : ℚ} (layout : Layout) :
    Reached scale sorting compression d n μ →
    Reached scale sorting compression (d.serialize layout compression scale sorting).1 n μ

theorem Reached.sound (h : Reached scale sorting compression d n μ) (hn : n < 2 ^ 64) :
    Sound d n μ := by
  induction h with
  | create => exact create_spec
  | add value w _ ih => exact add_spec (ih (by omega)) value w hn
  | merge _ _ ihd iho => exact merge_spec (ihd (by omega)) (iho (by omega)) hn
  | clear => exact create_spec
  | serialize layout _ ih => exact (compress_spec scale sorting (ih hn) hn).1

end States

end Cppforge.Probabilistic.TDigest

namespace Cppforge.Probabilistic.TDigest
open LittleEndian

variable {R : Type} [Sub R] [One R] [LE R] [DecidableLE R] {scale : ℚ → R}
  {sorting : KeySort Centroid ℚ} {compression : UInt64} {layout : Layout} {d : TDigest}
  {cs : List Centroid} {n pos size : Nat} {μ : ℚ}

section Bytes

/-- What stands between two other parts. -/
theorem bytesAt_mid (front bytes back : List UInt8) (hpos : front.length = pos)
    (hsize : bytes.length = size) : bytesAt (front ++ bytes ++ back) pos size = bytes := by
  unfold bytesAt
  rw [List.append_assoc, List.drop_left' hpos, List.take_left' hsize]

theorem length_writeCentroid (layout : Layout) (c : Centroid) :
    (writeCentroid layout c).length = 16 := by
  rw [writeCentroid, List.length_append, layout.length_bytes, length_bytesOf]

theorem length_centroids (layout : Layout) (cs : List Centroid) :
    (cs.flatMap (writeCentroid layout)).length = cs.length * 16 := by
  induction cs with
  | nil => rfl
  | cons c cs ih =>
    rw [List.flatMap_cons, List.length_append, length_writeCentroid, ih, List.length_cons]
    omega

theorem readCentroids_write (front : List UInt8) (hpos : front.length = pos)
    (hexact : ∀ c ∈ cs, layout.Exact c.mean) :
    readCentroids layout (front ++ cs.flatMap (writeCentroid layout)) pos cs.length = cs := by
  induction cs generalizing front pos with
  | nil => rfl
  | cons c cs ih =>
    have hmean : bytesAt (front ++ (c :: cs).flatMap (writeCentroid layout)) pos 8 =
        layout.bytes c.mean := by
      rw [List.flatMap_cons, writeCentroid, List.append_assoc, ← List.append_assoc]
      exact bytesAt_mid _ _ _ hpos (layout.length_bytes _)
    have hcount : bytesAt (front ++ (c :: cs).flatMap (writeCentroid layout)) (pos + 8) 8 =
        bytesOf 8 c.count.toNat := by
      rw [List.flatMap_cons, writeCentroid, ← List.append_assoc, ← List.append_assoc]
      refine bytesAt_mid _ _ _ ?_ (length_bytesOf _ _)
      rw [List.length_append, hpos, layout.length_bytes]
    have hnext : (front ++ writeCentroid layout c).length = pos + 16 := by
      rw [List.length_append, hpos, length_writeCentroid]
    have hrest := ih _ hnext fun a ha => hexact a (List.mem_cons_of_mem _ ha)
    rw [List.append_assoc, ← List.flatMap_cons] at hrest
    rw [List.length_cons, readCentroids, hmean, hcount, hrest, valueOf_uint64,
      layout.value_bytes _ (hexact c List.mem_cons_self), UInt64.ofNat_toNat]

/-- Data of the right make are accepted. -/
theorem deserialize_parts {A B C D : List UInt8} (hA : A.length = 8) (hB : B.length = 8)
    (hC : C.length = 4) (hcompression : valueOf A = compression.toNat)
    (hD : D.length = valueOf C * 16) :
    deserialize layout compression ([0x01] ++ A ++ B ++ C ++ D) =
      .ok ⟨readCentroids layout ([0x01] ++ A ++ B ++ C ++ D) 21 (valueOf C), [],
        UInt64.ofNat (valueOf B)⟩ := by
  have hlength : ([0x01] ++ A ++ B ++ C ++ D).length = headerSize + valueOf C * 16 := by
    simp only [List.length_append, List.length_singleton, hA, hB, hC, hD, headerSize]
  have hshort : ¬ ([0x01] ++ A ++ B ++ C ++ D).length < headerSize := by omega
  have hversion : ¬ ([0x01] ++ A ++ B ++ C ++ D).head? ≠ some 0x01 := not_not.mpr rfl
  have hfirst : bytesAt ([0x01] ++ A ++ B ++ C ++ D) 1 8 = A := by
    rw [List.append_assoc, List.append_assoc ([0x01] ++ A)]
    exact bytesAt_mid [0x01] A _ rfl hA
  have hsecond : bytesAt ([0x01] ++ A ++ B ++ C ++ D) 9 8 = B := by
    rw [List.append_assoc]
    exact bytesAt_mid ([0x01] ++ A) B _ (by simp [hA]) hB
  have hthird : bytesAt ([0x01] ++ A ++ B ++ C ++ D) 17 4 = C :=
    bytesAt_mid ([0x01] ++ A ++ B) C D (by simp [hA, hB]) hC
  unfold deserialize
  simp only [if_neg hshort, if_neg hversion, hfirst, hsecond, hthird]
  rw [if_neg (not_not.mpr hcompression), if_neg (not_not.mpr hlength)]

/-- What was written of a digest without a buffer is read back as it was. -/
theorem deserialize_write (hbuffer : d.buffer = []) (hfew : d.centroids.length < 2 ^ 32)
    (hexact : ∀ c ∈ d.centroids, layout.Exact c.mean) :
    deserialize layout compression (d.write layout compression) = .ok d := by
  have hcount := valueOf_uint32 hfew
  have hD : (d.centroids.flatMap (writeCentroid layout)).length =
      valueOf (bytesOf 4 (UInt32.ofNat d.centroids.length).toNat) * 16 := by
    rw [hcount, length_centroids]
  unfold write
  rw [deserialize_parts (length_bytesOf _ _) (length_bytesOf _ _) (length_bytesOf _ _)
    (valueOf_uint64 _) hD, hcount, valueOf_uint64, UInt64.ofNat_toNat,
    readCentroids_write _ (by simp [length_bytesOf]) hexact, ← hbuffer]

end Bytes

section Calls

/-- What was added and merged in is all there, in order, and comes back from what is written. -/
theorem reached_conserved (h : Reached scale sorting compression d n μ) (hn : n < 2 ^ 64)
    (layout : Layout) :
    d.totalWeight.toNat = weight (d.centroids ++ d.buffer) ∧ d.totalWeight.toNat = n ∧
      moment (d.centroids ++ d.buffer) = μ ∧
      d.centroids.Pairwise (fun a b => a.mean ≤ b.mean) ∧
      moment (d.compress scale sorting).centroids = moment (d.centroids ++ d.buffer) ∧
      ((d.compress scale sorting).centroids.length < 2 ^ 32 →
        (∀ c ∈ (d.compress scale sorting).centroids, layout.Exact c.mean) →
        ∃ d', deserialize layout compression (d.serialize layout compression scale sorting).2 =
            .ok d' ∧
          d'.centroids = (d.compress scale sorting).centroids ∧ d'.buffer = [] ∧
          d'.totalWeight = d.totalWeight) := by
  have hsound := h.sound hn
  obtain ⟨hcompressed, hbuffer, htotal⟩ := compress_spec scale sorting hsound hn
  have hmoment := hcompressed.moment
  rw [hbuffer, List.append_nil] at hmoment
  refine ⟨hsound.total.trans hsound.weight.symm, hsound.total, hsound.moment, hsound.sorted,
    hmoment.trans hsound.moment.symm, ?_⟩
  intro hfew hexact
  exact ⟨_, deserialize_write hbuffer hfew hexact, rfl, hbuffer, htotal⟩

/-- The numbers 0 and 1 as a `double` has them. -/
def bits : Layout where
  bytes x := if x = 1 then [0, 0, 0, 0, 0, 0, 0xf0, 0x3f] else List.replicate 8 0
  value bytes := if bytes = [0, 0, 0, 0, 0, 0, 0xf0, 0x3f] then 1 else 0
  Exact x := x = 0 ∨ x = 1
  length_bytes x := by
    split
    · rfl
    · rfl
  value_bytes x hx := by
    rcases hx with rfl | rfl
    · rfl
    · rfl

/-- A scale by which no two centroids with more than a tenth of the weight go together. -/
def steep (q : ℚ) : ℚ := 10 * q

/-- A digest of three ones and two zeros. -/
def ones : TDigest :=
  (create.add steep (KeySort.insertion _ _) 100 1 3).add steep (KeySort.insertion _ _) 100 0 2

theorem compress_ones :
    (ones.compress steep (KeySort.insertion _ _)).centroids = [⟨0, 2⟩, ⟨1, 3⟩] := by
  have hones : ones = ⟨[], [⟨1, 3⟩, ⟨0, 2⟩], 5⟩ := rfl
  have hsorted : (KeySort.insertion _ _).apply Centroid.mean [⟨1, 3⟩, ⟨0, 2⟩] =
      [⟨0, 2⟩, ⟨1, 3⟩] := rfl
  simp [hones, compress, hsorted, mergeNext, steep]

theorem reached_conserved_ones :
    ones.totalWeight.toNat = 5 ∧
      ∃ d', deserialize bits 100 (ones.serialize bits 100 steep (KeySort.insertion _ _)).2 =
          .ok d' ∧
        d'.centroids = (ones.compress steep (KeySort.insertion _ _)).centroids ∧
        d'.buffer = [] ∧ d'.totalWeight = ones.totalWeight := by
  obtain ⟨_, htotal, _, _, _, hstored⟩ := reached_conserved (d := ones)
    (.add 0 2 (.add 1 3 .create)) (by decide) bits
  refine ⟨htotal, hstored ?_ ?_⟩
  · rw [compress_ones]
    decide
  · intro c hc
    rw [compress_ones, List.mem_cons, List.mem_singleton] at hc
    rcases hc with rfl | rfl
    · exact .inl rfl
    · exact .inr rfl

end Calls

section Histories
variable {vs ws : List ℚ} {x target₁ target₂ : ℚ} {cum : UInt64}

/-- Neither below the smallest of the values nor above the largest. -/
def Between (vs : List ℚ) (x : ℚ) : Prop := (∃ v ∈ vs, v ≤ x) ∧ ∃ v ∈ vs, x ≤ v

/-- The digests that calls of `add` and `merge` make, with the values added, the number of entries
that came into the buffer, and the weight. -/
inductive History (scale : ℚ → R) (sorting : KeySort Centroid ℚ) (compression : UInt64) :
    TDigest → List ℚ → Nat → Nat → Prop
  | create : History scale sorting compression create [] 0 0
  | add {d : TDigest} {vs : List ℚ} {k n : Nat} (value : ℚ) {weight : UInt64} (hw : weight ≠ 0) :
    History scale sorting compression d vs k n →
    History scale sorting compression (d.add scale sorting compression value weight)
      (vs ++ [value]) (k + 1) (n + weight.toNat)
  | ignored {d : TDigest} {vs : List ℚ} {k n : Nat} (value : ℚ) :
    History scale sorting compression d vs k n →
    History scale sorting compression (d.add scale sorting compression value 0) vs k n
  | merge {d other : TDigest} {vs ws : List ℚ} {k j n m : Nat} :
    History scale sorting compression d vs k n →
    History scale sorting compression other ws j m →
    History scale sorting compression (d.merge scale sorting compression other) (vs ++ ws)
      (k + (other.centroids ++ other.buffer).length) (n + m)

theorem History.reached (h : History scale sorting compression d vs k n) :
    ∃ μ, Reached scale sorting compression d n μ := by
  induction h with
  | create => exact ⟨0, .create⟩
  | add value hw _ ih =>
    obtain ⟨μ, hμ⟩ := ih
    exact ⟨_, hμ.add value _⟩
  | ignored value _ ih =>
    obtain ⟨μ, hμ⟩ := ih
    exact ⟨_, hμ.add value 0⟩
  | merge _ _ ihd iho =>
    obtain ⟨μ, hμ⟩ := ihd
    obtain ⟨ν, hν⟩ := iho
    exact ⟨_, hμ.merge hν⟩

theorem Between.append_left (h : Between vs x) (ws : List ℚ) : Between (vs ++ ws) x := by
  obtain ⟨⟨v, hv, hvx⟩, w, hw, hxw⟩ := h
  exact ⟨⟨v, List.mem_append_left _ hv, hvx⟩, w, List.mem_append_left _ hw, hxw⟩

theorem Between.append_right (h : Between ws x) (vs : List ℚ) : Between (vs ++ ws) x := by
  obtain ⟨⟨v, hv, hvx⟩, w, hw, hxw⟩ := h
  exact ⟨⟨v, List.mem_append_right _ hv, hvx⟩, w, List.mem_append_right _ hw, hxw⟩

theorem Between.of_le {a b : ℚ} (ha : Between vs a) (hb : Between vs b) (hax : a ≤ x)
    (hxb : x ≤ b) : Between vs x := by
  obtain ⟨⟨v, hv, hva⟩, -⟩ := ha
  obtain ⟨-, w, hw, hbw⟩ := hb
  exact ⟨⟨v, hv, hva.trans hax⟩, w, hw, hxb.trans hbw⟩

/-- The means of all centroids are between the values. -/
def Inside (vs : List ℚ) (cs : List Centroid) : Prop := ∀ c ∈ cs, Between vs c.mean

theorem mergeNext_inside (h : Merging merged done) (hle : ∀ a ∈ done, a.mean ≤ c.mean)
    (hlt : TDigest.weight done + c.count.toNat < 2 ^ 64)
    (hmerged : Inside vs merged.1) (hin : Between vs c.mean) :
    Inside vs (mergeNext scale totalW merged c).1 := by
  obtain ⟨cs, cum⟩ := merged
  cases cs with
  | nil => exact List.forall_mem_singleton.mpr hin
  | cons last rest =>
    obtain ⟨hlast, hrest⟩ := List.forall_mem_cons.mp hmerged
    unfold mergeNext
    simp only
    split
    · have hweight := h.weight
      simp only [weight_cons] at hweight
      obtain ⟨m, hm, -, hlo, hhi⟩ := fused (h.positive last List.mem_cons_self) (by omega)
        (h.below c.mean hle last List.mem_cons_self)
      rw [hm]
      exact List.forall_mem_cons.mpr ⟨hlast.of_le hin hlo hhi, hrest⟩
    · exact List.forall_mem_cons.mpr ⟨hin, hmerged⟩

theorem foldl_mergeNext_inside (scale : ℚ → R) (totalW : ℚ) (h : Merging merged done)
    (hcs : ∀ c ∈ cs, 0 < c.count.toNat)
    (hsorted : (done ++ cs).Pairwise fun a b => a.mean ≤ b.mean)
    (hlt : TDigest.weight (done ++ cs) < 2 ^ 64) (hmerged : Inside vs merged.1)
    (hin : Inside vs cs) : Inside vs (cs.foldl (mergeNext scale totalW) merged).1 := by
  induction cs generalizing merged done with
  | nil => exact hmerged
  | cons c cs ih =>
    obtain ⟨hc, hrest⟩ := List.forall_mem_cons.mp hcs
    obtain ⟨hcin, hrestin⟩ := List.forall_mem_cons.mp hin
    have hle : ∀ a ∈ done, a.mean ≤ c.mean := fun a ha =>
      (List.pairwise_append.mp hsorted).2.2 a ha c List.mem_cons_self
    have hone : TDigest.weight done + c.count.toNat < 2 ^ 64 := by
      rw [weight_append, weight_cons] at hlt
      omega
    rw [List.append_cons] at hsorted hlt
    exact ih (mergeNext_spec h hc hle hone) hrest hsorted hlt
      (mergeNext_inside h hle hone hmerged hcin) hrestin

theorem mergeNext_ne (merged : List Centroid × UInt64) (c : Centroid) :
    (mergeNext scale totalW merged c).1 ≠ [] := by
  obtain ⟨cs, cum⟩ := merged
  cases cs with
  | nil => exact List.cons_ne_nil _ _
  | cons last rest =>
    unfold mergeNext
    simp only
    split
    · exact List.cons_ne_nil _ _
    · exact List.cons_ne_nil _ _

theorem foldl_mergeNext_ne (hmerged : merged.1 ≠ [] ∨ cs ≠ []) :
    (cs.foldl (mergeNext scale totalW) merged).1 ≠ [] := by
  induction cs generalizing merged with
  | nil => exact hmerged.resolve_right fun hne => hne rfl
  | cons c cs ih => exact ih (.inl (mergeNext_ne merged c))

theorem compress_inside (h : Sound d n μ) (hn : n < 2 ^ 64)
    (hin : Inside vs (d.centroids ++ d.buffer)) :
    Inside vs ((d.compress scale sorting).centroids ++ (d.compress scale sorting).buffer) := by
  unfold compress
  split
  · exact hin
  · simp only [compress_all]
    split
    · simpa using hin
    · have hperm := sorting.perm Centroid.mean (d.centroids ++ d.buffer)
      have hloop := foldl_mergeNext_inside scale d.totalWeight.toNat merging_nil
        (fun c hc => h.positive c (hperm.mem_iff.mp hc))
        (sorting.sorted Centroid.mean (d.centroids ++ d.buffer))
        (by rw [List.nil_append, weight_perm hperm, h.weight]; exact hn)
        (fun c hc => absurd hc List.not_mem_nil) (fun c hc => hin c (hperm.mem_iff.mp hc))
      intro c hc
      rw [List.append_nil, List.mem_reverse] at hc
      exact hloop c hc

theorem compress_ne (hne : d.centroids ++ d.buffer ≠ []) :
    (d.compress scale sorting).centroids ≠ [] := by
  unfold compress
  split
  · rename_i hempty
    rwa [List.isEmpty_iff.mp hempty, List.append_nil] at hne
  · simp only [compress_all]
    split
    · exact hne
    · have hperm := sorting.perm Centroid.mean (d.centroids ++ d.buffer)
      have hsome : sorting.apply Centroid.mean (d.centroids ++ d.buffer) ≠ [] := fun hnil =>
        hne (List.nil_perm.mp (hnil ▸ hperm))
      exact List.reverse_eq_nil_iff.not.mpr (foldl_mergeNext_ne (.inr hsome))

theorem compressIfFull_inside (h : Sound d n μ) (hn : n < 2 ^ 64)
    (hin : Inside vs (d.centroids ++ d.buffer)) :
    Inside vs ((compressIfFull scale sorting compression d).centroids ++
      (compressIfFull scale sorting compression d).buffer) := by
  unfold compressIfFull
  split
  · exact compress_inside h hn hin
  · exact hin

theorem History.inside (h : History scale sorting compression d vs k n) (hn : n < 2 ^ 64) :
    Inside vs (d.centroids ++ d.buffer) := by
  induction h with
  | create => exact fun c hc => absurd hc List.not_mem_nil
  | @add d vs k n value weight hw h ih =>
    obtain ⟨μ, hμ⟩ := h.reached
    have hpushed := pushed_sound (hμ.sound (by omega)) value hw hn
    rw [TDigest.add, if_neg hw]
    refine compressIfFull_inside hpushed hn ?_
    intro c hc
    rw [← List.append_assoc] at hc
    rcases List.mem_append.mp hc with hold | hnew
    · exact (ih (by omega) c hold).append_left _
    · have hself : Between [value] value := ⟨⟨value, by simp⟩, value, by simp⟩
      rw [List.mem_singleton.mp hnew]
      exact hself.append_right vs
  | ignored value _ ih => exact ih hn
  | @merge d other vs ws k j n m h ho ihd iho =>
    obtain ⟨μ, hμ⟩ := h.reached
    obtain ⟨ν, hν⟩ := ho.reached
    refine compressIfFull_inside
      (gathered_sound (hμ.sound (by omega)) (hν.sound (by omega)) hn) hn ?_
    intro c hc
    rw [gathered_eq d other] at hc
    rcases List.mem_append.mp hc with hmine | hother
    · exact (ihd (by omega) c hmine).append_left _
    · exact (iho (by omega) c hother).append_right _

/-- Until a compression has run the entries are all in the buffer. -/
theorem History.entries (h : History scale sorting compression d vs k n) :
    (d.centroids = [] ∧ d.buffer.length = k ∧ k ≤ (compression * 2).toNat) ∨
      (d.centroids ≠ [] ∧ (compression * 2).toNat < k) := by
  have hfull : ∀ {d : TDigest} {k : Nat}, d.centroids = [] → d.buffer.length = k →
      let d' := compressIfFull scale sorting compression d
      (d'.centroids = [] ∧ d'.buffer.length = k ∧ k ≤ (compression * 2).toNat) ∨
        (d'.centroids ≠ [] ∧ (compression * 2).toNat < k) := by
    intro d k hnone hlen
    unfold compressIfFull
    split
    · rename_i hlt
      rw [hlen] at hlt
      refine .inr ⟨compress_ne ?_, hlt⟩
      rw [hnone, List.nil_append, ← List.length_pos_iff, hlen]
      omega
    · rename_i hge
      exact .inl ⟨hnone, hlen, by omega⟩
  have hkept : ∀ {d : TDigest}, d.centroids ≠ [] →
      (compressIfFull scale sorting compression d).centroids ≠ [] := by
    intro d hne
    unfold compressIfFull
    split
    · exact compress_ne fun hnil => hne (List.append_eq_nil_iff.mp hnil).1
    · exact hne
  induction h with
  | create => exact .inl ⟨rfl, rfl, Nat.zero_le _⟩
  | add value hw _ ih =>
    rw [TDigest.add, if_neg hw]
    rcases ih with ⟨hnone, hlen, -⟩ | ⟨hne, hlt⟩
    · exact hfull hnone (by simp [hlen])
    · exact .inr ⟨hkept hne, by omega⟩
  | ignored value _ ih => exact ih
  | merge _ _ ihd _ =>
    rcases ihd with ⟨hnone, hlen, -⟩ | ⟨hne, hlt⟩
    · exact hfull hnone (by simp [hlen])
    · exact .inr ⟨hkept hne, by omega⟩

/-- The piece behind a centroid goes up from its mean, as far as the greatest. -/
theorem interpolate_spec (hsorted : (last :: cs).Pairwise fun a b => a.mean ≤ b.mean)
    (hpos : ∀ c ∈ cs, 0 < c.count.toNat) (hlt : cum.toNat + weight cs < 2 ^ 64)
    (h₁ : (cum.toNat : ℚ) ≤ target₁) (h₂ : target₁ ≤ target₂) :
    last.mean ≤ interpolate target₁ cum last cs ∧
      interpolate target₁ cum last cs ≤ interpolate target₂ cum last cs ∧
      ∃ c ∈ last :: cs, interpolate target₂ cum last cs ≤ c.mean := by
  induction cs generalizing cum last target₁ with
  | nil => exact ⟨le_rfl, le_rfl, last, List.mem_cons_self, le_rfl⟩
  | cons c cs ih =>
    obtain ⟨hfirst, hrest⟩ := List.pairwise_cons.mp hsorted
    obtain ⟨hc, hcs⟩ := List.forall_mem_cons.mp hpos
    have hle := hfirst c List.mem_cons_self
    rw [weight_cons] at hlt
    have hadd : (cum + c.count).toNat = cum.toNat + c.count.toNat := toNat_add_of_lt (by omega)
    have hback : (cum + c.count - c.count).toNat = cum.toNat := by
      rw [UInt64.toNat_sub_of_le _ _ (by rw [UInt64.le_iff_toNat_le]; omega)]
      omega
    have hcount : (0 : ℚ) < c.count.toNat := Nat.cast_pos.mpr hc
    have hin : ∀ {t : ℚ}, t ≤ ((cum + c.count).toNat : ℚ) →
        interpolate t cum last (c :: cs) =
          Weighted.blend last.mean c.mean ((t - cum.toNat) / c.count.toNat) := by
      intro t ht
      rw [interpolate, if_pos ht]
      simp only [hback]
      rfl
    have hout : ∀ {t : ℚ}, ¬ t ≤ ((cum + c.count).toNat : ℚ) →
        interpolate t cum last (c :: cs) = interpolate t (cum + c.count) c cs := by
      intro t ht
      rw [interpolate, if_neg ht]
    have hone : ∀ {t : ℚ}, t ≤ ((cum + c.count).toNat : ℚ) →
        (t - cum.toNat) / c.count.toNat ≤ 1 := by
      intro t ht
      rw [hadd, Nat.cast_add] at ht
      rw [div_le_one hcount]
      exact sub_le_iff_le_add'.mpr ht
    have hzero : 0 ≤ (target₁ - cum.toNat) / c.count.toNat :=
      div_nonneg (sub_nonneg.mpr h₁) hcount.le
    have hnext : (cum + c.count).toNat + weight cs < 2 ^ 64 := by omega
    by_cases ht₁ : target₁ ≤ ((cum + c.count).toNat : ℚ)
    · by_cases ht₂ : target₂ ≤ ((cum + c.count).toNat : ℚ)
      · rw [hin ht₁, hin ht₂]
        refine ⟨Weighted.le_blend hle hzero, Weighted.blend_mono hle ?_, c, by simp,
          Weighted.blend_le hle (hone ht₂)⟩
        exact div_le_div_of_nonneg_right (sub_le_sub_right h₂ _) hcount.le
      · obtain ⟨hlow, -, b, hb, hhigh⟩ := ih hrest hcs hnext (not_le.mp ht₂).le le_rfl
        rw [hin ht₁, hout ht₂]
        exact ⟨Weighted.le_blend hle hzero, (Weighted.blend_le hle (hone ht₁)).trans hlow, b,
          List.mem_cons_of_mem _ hb, hhigh⟩
    · obtain ⟨hlow, hmono, b, hb, hhigh⟩ := ih hrest hcs hnext (not_le.mp ht₁).le h₂
      rw [hout ht₁, hout fun ht₂ => ht₁ (h₂.trans ht₂)]
      exact ⟨hle.trans hlow, hmono, b, List.mem_cons_of_mem _ hb, hhigh⟩

/-- The quantiles of a digest with centroids. -/
theorem quantile_spec (h : Sound d n μ) (hn : n < 2 ^ 64) (hne : d.centroids ≠ []) {q₁ q₂ : ℚ}
    (hq : q₁ ≤ q₂) :
    (∃ c ∈ d.centroids, c.mean ≤ d.quantile q₁) ∧ d.quantile q₁ ≤ d.quantile q₂ ∧
      ∃ c ∈ d.centroids, d.quantile q₂ ≤ c.mean := by
  have hweight := h.weight
  rw [weight_append] at hweight
  have hpositive : ∀ c ∈ d.centroids, 0 < c.count.toNat :=
    fun c hc => h.positive c (List.mem_append_left _ hc)
  have hsorted := h.sorted
  unfold quantile
  generalize d.centroids = cs at hne hweight hpositive hsorted
  match cs, hne with
  | [c], _ =>
    exact ⟨⟨c, List.mem_singleton_self c, le_rfl⟩, le_rfl, c, List.mem_singleton_self c, le_rfl⟩
  | c :: c' :: rest, _ =>
    obtain ⟨hc, hrest⟩ := List.forall_mem_cons.mp hpositive
    rw [weight_cons] at hweight
    have htotal : d.totalWeight ≠ 0 := by
      intro hzero
      have hcount := h.total
      rw [hzero, UInt64.toNat_zero] at hcount
      omega
    simp only [if_neg htotal]
    have htargets : max 0 (min q₁ 1) * (d.totalWeight.toNat : ℚ) ≤
        max 0 (min q₂ 1) * d.totalWeight.toNat :=
      mul_le_mul_of_nonneg_right (max_le_max_left 0 (min_le_min_right 1 hq)) (Nat.cast_nonneg _)
    generalize max 0 (min q₁ 1) * (d.totalWeight.toNat : ℚ) = target₁ at htargets
    generalize max 0 (min q₂ 1) * (d.totalWeight.toNat : ℚ) = target₂ at htargets
    have hfits : c.count.toNat + TDigest.weight (c' :: rest) < 2 ^ 64 := by omega
    by_cases h₁ : target₁ ≤ c.count.toNat
    · rw [if_pos h₁]
      by_cases h₂ : target₂ ≤ c.count.toNat
      · rw [if_pos h₂]
        exact ⟨⟨c, List.mem_cons_self, le_rfl⟩, le_rfl, c, List.mem_cons_self, le_rfl⟩
      · obtain ⟨hlow, -, hhigh⟩ := interpolate_spec hsorted hrest hfits (not_le.mp h₂).le le_rfl
        rw [if_neg h₂]
        exact ⟨⟨c, List.mem_cons_self, le_rfl⟩, hlow, hhigh⟩
    · obtain ⟨hlow, hmono, hhigh⟩ :=
        interpolate_spec hsorted hrest hfits (not_le.mp h₁).le htargets
      rw [if_neg h₁, if_neg fun h₂ => h₁ (htargets.trans h₂)]
      exact ⟨⟨c, List.mem_cons_self, hlow⟩, hmono, hhigh⟩

/-- Quantiles go up, between the smallest value and the largest. -/
def Ordered (d : TDigest) (vs : List ℚ) : Prop :=
  ∀ q₁ q₂, 0 ≤ q₁ → q₁ ≤ q₂ → q₂ ≤ 1 →
    d.quantile q₁ ≤ d.quantile q₂ ∧ Between vs (d.quantile q₁) ∧ Between vs (d.quantile q₂)

/-- As long as all entries wait in the buffer the quantiles are 0. -/
theorem quantile_ordered_iff (h : History scale sorting compression d vs k n)
    (hn : n < 2 ^ 64) : Ordered d vs ↔ (compression * 2).toNat < k ∨ Between vs 0 := by
  obtain ⟨μ, hreached⟩ := h.reached
  have hsound := hreached.sound hn
  rcases h.entries with ⟨hnone, -, hle⟩ | ⟨hne, hlt⟩
  · have hzero : ∀ q, d.quantile q = 0 := by
      intro q
      rw [quantile, hnone]
    constructor
    · intro hordered
      have hbetween := (hordered 0 0 le_rfl le_rfl zero_le_one).2.1
      rw [hzero] at hbetween
      exact .inr hbetween
    · intro hcond q₁ q₂ _ _ _
      have hbetween := hcond.resolve_left (Nat.not_lt.mpr hle)
      rw [hzero, hzero]
      exact ⟨le_rfl, hbetween, hbetween⟩
  · refine iff_of_true ?_ (.inl hlt)
    intro q₁ q₂ _ hq _
    have hin : ∀ c ∈ d.centroids, Between vs c.mean :=
      fun c hc => h.inside hn c (List.mem_append_left _ hc)
    obtain ⟨⟨a, ha, hlow⟩, hmono, b, hb, hhigh⟩ := quantile_spec hsound hn hne hq
    exact ⟨hmono, (hin a ha).of_le (hin b hb) hlow (hmono.trans hhigh),
      (hin a ha).of_le (hin b hb) (hlow.trans hmono) hhigh⟩

/-- Five values, with which the buffer is full. -/
def filled : TDigest :=
  [1, 2, 3, 4, 5].foldl (fun d v => d.add steep (KeySort.insertion _ _) 2 v 1) create

theorem quantile_ordered_filled :
    Ordered filled [1, 2, 3, 4, 5] ↔
      ((2 : UInt64) * 2).toNat < 5 ∨ Between [1, 2, 3, 4, 5] 0 := by
  have hone : (1 : UInt64) ≠ 0 := by decide
  have hhistory : History steep (KeySort.insertion _ _) 2 filled [1, 2, 3, 4, 5] 5 5 :=
    .add 5 hone (.add 4 hone (.add 3 hone (.add 2 hone (.add 1 hone .create))))
  exact quantile_ordered_iff hhistory (by decide)

/-- A value in the buffer alone. -/
theorem quantile_of_one_value :
    ¬ ∀ (d : TDigest) (vs : List ℚ) (k n : Nat),
      History steep (KeySort.insertion _ _) 100 d vs k n → n < 2 ^ 64 → vs ≠ [] →
        Ordered d vs := by
  intro hall
  have hone : (1 : UInt64) ≠ 0 := by decide
  have hordered := hall _ _ _ _ (.add 5 hone .create) (by decide) (List.cons_ne_nil _ _)
  obtain ⟨⟨v, hv, hle⟩, -⟩ := (hordered 0 0 le_rfl le_rfl zero_le_one).2.1
  have hzero : (create.add steep (KeySort.insertion _ _) 100 5 1).quantile 0 = 0 := rfl
  rw [hzero, List.mem_singleton.mp hv] at hle
  exact absurd hle (by decide)

end Histories

end Cppforge.Probabilistic.TDigest
