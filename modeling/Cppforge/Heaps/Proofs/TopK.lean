import Cppforge.Heaps.PriorityQueues
import Mathlib.Data.Int.Order.Basic
import Mathlib.Algebra.Group.Int.Defs

namespace Cppforge.Heaps.TopK

variable {q : PriorityQueue Int fun n => -n} {t : TopK q} {heap : q.Heap}

theorem toInt32_eq {n : Nat} (h : n < 2 ^ 31) : toInt32 n = n := by
  unfold toInt32
  rw [Int.bmod_eq_of_le] <;> omega

section Adding
variable {k : Nat} {V : Multiset Int}

/-- The heap has a limit that numbers in memory can reach, or has none and is below it. -/
def Limited (t : TopK q) (k : Nat) : Prop :=
  k < 2 ^ 31 ∧ (t.maxCapacity = k ∧ 0 < k ∨ t.maxCapacity = 0 ∧ q.size t.minHeap < k)

theorem add_spec (hlimit : Limited t k)
    (h : Smallest (fun n : Int => -n) k (q.entries t.minHeap) V) (num : Int) :
    ∃ t', t.add num = some t' ∧ t'.maxCapacity = t.maxCapacity ∧
      Smallest (fun n : Int => -n) k (q.entries t'.minHeap) (num ::ₘ V) := by
  obtain ⟨hk, hcapacity⟩ := hlimit
  have hcard := q.card_entries t.minHeap
  have hle : q.size t.minHeap ≤ k := by
    obtain ⟨_, _, hmin, _⟩ := h
    rw [hcard] at hmin
    omega
  rw [add, toInt32_eq (by omega)]
  split
  · rename_i hfull
    have hsize : q.size t.minHeap = k := by omega
    obtain ⟨m, htop⟩ := q.top_some (h := t.minHeap) (by omega)
    have hpop := q.entries_pop m t.minHeap htop
    have hmax := q.top_max m t.minHeap htop
    simp only [htop, Option.bind_eq_bind, Option.bind_some]
    split
    · rename_i hless
      refine ⟨_, rfl, rfl, ?_⟩
      rw [q.entries_push]
      rw [hpop] at h hcard hmax
      refine h.replace (by omega) ?_ (by omega)
      exact fun y hy => hmax y (Multiset.mem_cons_of_mem hy)
    · rename_i hless
      refine ⟨t, rfl, rfl, ?_⟩
      refine h.keep (W := {num}) (by omega) ?_
      intro x hx y hy
      rw [Multiset.mem_singleton] at hy
      subst hy
      have := hmax x hx
      omega
  · rename_i hfull
    refine ⟨_, rfl, rfl, ?_⟩
    rw [q.entries_push]
    apply h.push
    omega

theorem addAll_spec (nums : List Int) (hk : k < 2 ^ 31)
    (hlimit : t.maxCapacity = k ∧ 0 < k ∨ t.maxCapacity = 0 ∧ V.card + nums.length ≤ k)
    (h : Smallest (fun n : Int => -n) k (q.entries t.minHeap) V) :
    ∃ t', nums.foldlM add t = some t' ∧ t'.maxCapacity = t.maxCapacity ∧
      Smallest (fun n : Int => -n) k (q.entries t'.minHeap) (nums + V) := by
  induction nums generalizing t V with
  | nil =>
    refine ⟨t, rfl, rfl, ?_⟩
    rwa [Multiset.coe_nil, zero_add]
  | cons num nums ih =>
    have hone : Limited t k := by
      refine ⟨hk, hlimit.imp_right fun ⟨hnone, hroom⟩ => ⟨hnone, ?_⟩⟩
      have hle := Multiset.card_le_card h.le
      rw [q.card_entries] at hle
      rw [List.length_cons] at hroom
      omega
    obtain ⟨t₁, hadd, hsame, h₁⟩ := add_spec hone h num
    have hrest : t₁.maxCapacity = k ∧ 0 < k ∨
        t₁.maxCapacity = 0 ∧ (num ::ₘ V).card + nums.length ≤ k := by
      rw [hsame, Multiset.card_cons]
      refine hlimit.imp_right fun ⟨hnone, hroom⟩ => ⟨hnone, ?_⟩
      rw [List.length_cons] at hroom
      omega
    obtain ⟨t', hrun, hsame', h'⟩ := ih hrest h₁
    refine ⟨t', ?_, hsame'.trans hsame, ?_⟩
    · rw [List.foldlM_cons, hadd]
      exact hrun
    · rwa [← Multiset.cons_coe, Multiset.cons_add, ← Multiset.add_cons]

end Adding

section Reading

theorem size_pop {n : Nat} (h : q.size heap = n + 1) : q.size (q.pop heap) = n := by
  obtain ⟨e, htop⟩ := q.top_some (h := heap) (by omega)
  have hcard := q.card_entries heap
  rw [q.entries_pop e heap htop, Multiset.card_cons, q.card_entries] at hcard
  omega

theorem extract_eq {n : Nat} (h : q.size heap = n) : extract heap n = some (q.drain n heap) := by
  induction n generalizing heap with
  | zero => rfl
  | succ n ih =>
    obtain ⟨e, htop⟩ := q.top_some (h := heap) (by omega)
    rw [extract, PriorityQueue.drain, htop, ih (size_pop h)]
    rfl

theorem extract_discard {n m : Nat} (h : q.size heap = n) (hm : m ≤ n) :
    q.size (discard heap m) = n - m ∧
      extract (discard heap m) (n - m) = some ((q.drain n heap).drop m) := by
  induction m generalizing heap n with
  | zero => exact ⟨h, extract_eq h⟩
  | succ m ih =>
    obtain ⟨n, rfl⟩ : ∃ n', n = n' + 1 := ⟨n - 1, by omega⟩
    obtain ⟨e, htop⟩ := q.top_some (h := heap) (by omega)
    rw [discard, Nat.add_sub_add_right, PriorityQueue.drain, htop, List.drop_succ_cons]
    exact ih (size_pop h) (by omega)

/-- The `n` largest of the numbers, the largest first. -/
def largest (n : Nat) (nums : List Int) : List Int := (nums.insertionSort (· ≥ ·)).take n

/-- What comes out of a heap with the `k` largest numbers, the smallest first. -/
theorem drain_eq {k : Nat} {nums : List Int}
    (h : Smallest (fun n : Int => -n) k (q.entries heap) nums) :
    (q.drain (q.size heap) heap).reverse = largest k nums := by
  have hsorted : (q.drain (q.size heap) heap).reverse.Pairwise fun a b : Int => -a ≤ -b := by
    rw [List.pairwise_reverse]
    exact q.drain_sorted _ rfl
  have hentries : Smallest (fun n : Int => -n) k
      (((q.drain (q.size heap) heap).reverse : List Int) : Multiset Int) nums := by
    rwa [Multiset.coe_reverse, q.drain_entries _ rfl]
  have hkeys := hentries.map_key hsorted
  have hsort : (nums.map fun n : Int => -n).insertionSort (· ≤ ·) =
      (nums.insertionSort (· ≥ ·)).map fun n => -n := by
    symm
    apply List.map_insertionSort
    intro a _ b _
    exact Int.neg_le_neg_iff.symm
  rw [hsort, ← List.map_take] at hkeys
  exact List.map_injective_iff.mpr (fun _ _ => Int.neg_inj.mp) hkeys

/-- How many numbers are kept. -/
def kept (maxCapacity : Int) (nums : List Int) : Nat :=
  if maxCapacity = 0 then nums.length else maxCapacity.toNat

/-- The largest of all numbers added, as many of them as are asked for and kept. -/
def expected (maxCapacity : Int) (nums : List Int) (count : Int) (ascending : Bool) :
    Except String (List Int) :=
  if count < 0 then
    .error ("TopK::getTopK: count must be non-negative, got " ++ toString count)
  else
    let kept := kept maxCapacity nums
    let result := largest (if count = 0 then kept else min count.toNat kept) nums
    .ok (if ascending then result.reverse else result)

theorem getTopK_eq {nums : List Int} (hmax : q.size t.minHeap < 2 ^ 31)
    (h : Smallest (fun n : Int => -n) (kept t.maxCapacity nums) (q.entries t.minHeap) nums)
    (count : Int) (ascending : Bool) :
    t.getTopK count ascending = some (expected t.maxCapacity nums count ascending) := by
  have hdrain := drain_eq h
  have hcard : q.size t.minHeap = min (kept t.maxCapacity nums) nums.length := by
    obtain ⟨_, _, hmin, _⟩ := h
    rwa [q.card_entries] at hmin
  rw [getTopK, expected, toInt32_eq hmax]
  split
  · rfl
  rename_i hcount
  obtain ⟨shown, hshown, hle⟩ : ∃ shown : Nat, (if count ≤ 0 ∨ (q.size t.minHeap : Int) < count then
      (q.size t.minHeap : Int) else count) = shown ∧ shown ≤ q.size t.minHeap := by
    split
    · exact ⟨_, rfl, Nat.le_refl _⟩
    · exact ⟨count.toNat, by omega, by omega⟩
  have hn : (q.size t.minHeap - shown : Int).toNat = q.size t.minHeap - shown := by omega
  obtain ⟨hsize, hextract⟩ := extract_discard (m := q.size t.minHeap - shown)
    (rfl : q.size t.minHeap = _) (Nat.sub_le _ _)
  have hresult : ((q.drain (q.size t.minHeap) t.minHeap).drop (q.size t.minHeap - shown)) =
      (largest (if count = 0 then kept t.maxCapacity nums
        else min count.toNat (kept t.maxCapacity nums)) nums).reverse := by
    have hlen : (q.drain (q.size t.minHeap) t.minHeap).length = q.size t.minHeap := by
      rw [← Multiset.coe_card, q.drain_entries _ rfl, q.card_entries]
    rw [← List.reverse_inj, List.reverse_reverse, List.reverse_drop, hlen, hdrain, largest,
      List.take_take, largest, List.take_eq_take_iff, List.length_insertionSort]
    split at hshown <;> split <;> omega
  simp only [hshown, hn, hsize, hextract]
  rw [if_neg (by omega)]
  simp only [Option.bind_eq_bind, Option.bind_some, hresult, List.reverse_reverse]
  cases ascending <;> rfl

/-- Whatever numbers were added, in whatever order; without a capacity there are fewer of them
than an `int32_t` can count. -/
theorem topK_exact (q : PriorityQueue Int fun n => -n) (maxCapacity : Int) (nums : List Int)
    (hcapacity : 0 ≤ maxCapacity) (hint : maxCapacity < 2 ^ 31)
    (hfew : maxCapacity = 0 → nums.length < 2 ^ 31) (count : Int) (ascending : Bool) :
    ∃ t t', create q maxCapacity = .ok t ∧ nums.foldlM add t = some t' ∧
      t'.size = min (kept maxCapacity nums) nums.length ∧
      t'.getTopK count ascending = some (expected maxCapacity nums count ascending) := by
  have hkept : kept maxCapacity nums < 2 ^ 31 ∧
      (maxCapacity = kept maxCapacity nums ∧ 0 < kept maxCapacity nums ∨
        maxCapacity = 0 ∧ (0 : Multiset Int).card + nums.length ≤ kept maxCapacity nums) := by
    unfold kept
    split
    · rename_i hnone
      exact ⟨hfew hnone, .inr ⟨hnone, by rw [Multiset.card_zero, Nat.zero_add]⟩⟩
    · omega
  have hstart : Smallest (fun n : Int => -n) (kept maxCapacity nums)
      (q.entries (⟨maxCapacity, q.empty⟩ : TopK q).minHeap) 0 := by
    rw [q.entries_empty]
    exact Smallest.zero
  obtain ⟨t', hrun, hsame, h⟩ := addAll_spec nums hkept.1 hkept.2 hstart
  rw [add_zero] at h
  have hsize : t'.size = min (kept maxCapacity nums) nums.length := by
    obtain ⟨_, _, hmin, _⟩ := h
    rwa [q.card_entries] at hmin
  refine ⟨_, t', by rw [create, if_neg (by omega)], hrun, hsize, ?_⟩
  change t'.maxCapacity = maxCapacity at hsame
  subst hsame
  refine getTopK_eq ?_ h count ascending
  have hmin := Nat.min_le_left (kept t'.maxCapacity nums) nums.length
  rw [← hsize] at hmin
  exact Nat.lt_of_le_of_lt hmin hkept.1

theorem topK_exact_three :
    ∃ t t', create (PriorityQueue.sortedList fun n => -n) 3 = .ok t ∧
      [10, 5, 20, 1, 15].foldlM add t = some t' ∧ t'.size = min (kept 3 [10, 5, 20, 1, 15]) 5 ∧
      t'.getTopK 2 true = some (expected 3 [10, 5, 20, 1, 15] 2 true) :=
  topK_exact _ 3 [10, 5, 20, 1, 15] (by omega) (by omega) (by omega) 2 true

end Reading

end Cppforge.Heaps.TopK
