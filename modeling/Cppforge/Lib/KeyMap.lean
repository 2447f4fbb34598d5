import Mathlib.Data.List.AList
import Mathlib.Data.List.Perm.Basic
import Mathlib.Algebra.Group.Nat.Defs

/-! Finite maps: the number of keys, and insertion where a key is absent. -/

namespace FiniteMap
open AList

variable {α : Type} {β : α → Type} [DecidableEq α] {m : AList β} {a : α}

theorem mem_of_lookup {b : β a} (h : m.lookup a = some b) : a ∈ m.keys :=
  mem_keys.mp (lookup_isSome.mp (by simp [h]))

theorem not_mem_of_lookup (h : m.lookup a = none) : a ∉ m.keys :=
  mem_keys.not.mp (lookup_eq_none.mp h)

theorem length_insert_new (b : β a) (h : m.lookup a = none) :
    (m.insert a b).keys.length = m.keys.length + 1 := by
  rw [keys_insert, List.length_cons, List.erase_of_not_mem (not_mem_of_lookup h)]

theorem length_insert_again {b : β a} (b' : β a) (h : m.lookup a = some b) :
    (m.insert a b').keys.length = m.keys.length := by
  have hpos := List.length_pos_of_mem (mem_of_lookup h)
  rw [keys_insert, List.length_cons, List.length_erase_of_mem (mem_of_lookup h)]
  omega

theorem length_erase {b : β a} (h : m.lookup a = some b) :
    (m.erase a).keys.length = m.keys.length - 1 := by
  rw [keys_erase, List.length_erase_of_mem (mem_of_lookup h)]

theorem erase_absent (h : m.lookup a = none) : m.erase a = m := by
  refine ext ?_
  exact List.kerase_of_notMem_keys (not_mem_of_lookup h)

section TryEmplace

/-- A value for a key that has none yet. -/
def tryEmplace (m : AList β) (a : α) (b : β a) : AList β := if a ∈ m then m else m.insert a b

theorem mem_tryEmplace (m : AList β) (a : α) (b : β a) {a' : α} :
    a' ∈ tryEmplace m a b ↔ a' = a ∨ a' ∈ m := by
  rw [tryEmplace]
  split
  · rename_i ha
    exact ⟨.inr, fun h => h.elim (fun heq => heq ▸ ha) id⟩
  · exact mem_insert m

theorem lookup_tryEmplace (m : AList β) (a : α) (b : β a) :
    (tryEmplace m a b).lookup a = some ((m.lookup a).getD b) := by
  rw [tryEmplace]
  split
  · rename_i ha
    obtain ⟨b', hb'⟩ := Option.isSome_iff_exists.mp (lookup_isSome.mpr ha)
    rw [hb', Option.getD_some]
  · rename_i ha
    rw [lookup_insert, lookup_eq_none.mpr ha, Option.getD_none]

theorem lookup_tryEmplace_ne {a' : α} (b : β a) (h : a' ≠ a) :
    (tryEmplace m a b).lookup a' = m.lookup a' := by
  rw [tryEmplace]
  split
  · rfl
  · exact lookup_insert_ne h

end TryEmplace

end FiniteMap

namespace KeyMap

/-- A hash function consistent with an equality of keys. -/
structure Hashing (K : Type) where
  hash : K → UInt64
  keyEqual : K → K → Bool
  refl : ∀ a, keyEqual a a = true
  symm : ∀ a b, keyEqual a b = true → keyEqual b a = true
  trans : ∀ a b c, keyEqual a b = true → keyEqual b c = true → keyEqual a c = true
  consistent : ∀ a b, keyEqual a b = true → hash a = hash b

/-- Equality itself. -/
def Hashing.ofEq {K : Type} [DecidableEq K] (hash : K → UInt64) : Hashing K :=
  ⟨hash, fun a b => decide (a = b), by simp, by simp [eq_comm], by simp_all, by simp_all⟩

variable {K V : Type} (h : Hashing K) {xs ys : List (K × V)} {k : K} {v : V} {p q : K × V}

section Operations

/-- A finite map as its pairs. -/
def lookup (xs : List (K × V)) (k : K) : Option (K × V) := xs.find? (fun p => h.keyEqual p.1 k)

def insert (xs : List (K × V)) (k : K) (v : V) : List (K × V) × Bool :=
  match lookup h xs k with
  | some _ => (xs, false)
  | none => ((k, v) :: xs, true)

/-- The key stored first stays. -/
def assign (xs : List (K × V)) (k : K) (v : V) : List (K × V) × Bool :=
  match lookup h xs k with
  | some _ => (xs.map (fun p => if h.keyEqual p.1 k then (p.1, v) else p), false)
  | none => ((k, v) :: xs, true)

def erase (xs : List (K × V)) (k : K) : List (K × V) × Bool :=
  (xs.filter (fun p => !h.keyEqual p.1 k), (lookup h xs k).isSome)

/-- No two pairs have equal keys. -/
def Distinct (xs : List (K × V)) : Prop := xs.Pairwise (fun p q => h.keyEqual p.1 q.1 = false)

end Operations

variable {h}

theorem Hashing.comm (h : Hashing K) (a b : K) : h.keyEqual a b = h.keyEqual b a := by
  rw [Bool.eq_iff_iff]
  exact ⟨h.symm a b, h.symm b a⟩

/-- Equal keys are equal to the same keys. -/
theorem Hashing.congr (h : Hashing K) {a b : K} (hab : h.keyEqual a b = true) (c : K) :
    h.keyEqual a c = h.keyEqual b c := by
  rw [Bool.eq_iff_iff]
  exact ⟨h.trans b a c (h.symm a b hab), h.trans a b c hab⟩

theorem Distinct.perm (hx : Distinct h xs) (hp : xs.Perm ys) : Distinct h ys :=
  (hp.pairwise_iff (fun {a b} hab => by rw [h.comm]; exact hab)).mp hx

theorem Distinct.eq (hx : Distinct h xs) (hp : p ∈ xs) (hq : q ∈ xs)
    (he : h.keyEqual p.1 q.1 = true) : p = q := by
  induction xs with
  | nil => cases hp
  | cons a xs ih =>
    obtain ⟨ha, hx⟩ := List.pairwise_cons.mp hx
    rcases List.mem_cons.mp hp with rfl | hp'
    · rcases List.mem_cons.mp hq with rfl | hq'
      · rfl
      · rw [ha q hq'] at he
        cases he
    · rcases List.mem_cons.mp hq with rfl | hq'
      · rw [h.comm, ha p hp'] at he
        cases he
      · exact ih hx hp' hq'

theorem lookup_none : lookup h xs k = none ↔ ∀ p ∈ xs, h.keyEqual p.1 k = false := by
  simp [lookup]

theorem lookup_some (hx : Distinct h xs) :
    lookup h xs k = some p ↔ p ∈ xs ∧ h.keyEqual p.1 k = true := by
  constructor
  · intro hl
    exact ⟨List.mem_of_find?_eq_some hl, by simpa using List.find?_some hl⟩
  · intro ⟨hp, he⟩
    cases hl : lookup h xs k with
    | none =>
      rw [lookup_none.mp hl p hp] at he
      cases he
    | some q =>
      have hq : q ∈ xs := List.mem_of_find?_eq_some hl
      have hqe : h.keyEqual q.1 k = true := by simpa using List.find?_some hl
      exact congrArg some (hx.eq hq hp (h.trans _ _ _ hqe (h.symm _ _ he)))

/-- The order of the pairs does not matter to a lookup. -/
theorem lookup_perm (hx : Distinct h xs) (hp : xs.Perm ys) : lookup h ys k = lookup h xs k := by
  cases hl : lookup h xs k with
  | none =>
    rw [lookup_none] at hl ⊢
    intro p hp'
    exact hl p (hp.mem_iff.mpr hp')
  | some p =>
    rw [lookup_some hx] at hl
    rw [lookup_some (hx.perm hp)]
    exact ⟨hp.mem_iff.mp hl.1, hl.2⟩

theorem distinct_cons (hk : lookup h xs k = none) (hx : Distinct h xs) (v : V) :
    Distinct h ((k, v) :: xs) := by
  refine List.pairwise_cons.mpr ⟨?_, hx⟩
  intro p hp
  rw [h.comm]
  exact lookup_none.mp hk p hp

theorem distinct_erase (hx : Distinct h xs) (k : K) : Distinct h (erase h xs k).1 := hx.filter _

/-- Erasing a key takes out its pair. -/
theorem erase_perm (hx : Distinct h xs) (hp : xs.Perm (p :: ys)) (he : h.keyEqual p.1 k = true) :
    ys.Perm (erase h xs k).1 := by
  have hd := hx.perm hp
  obtain ⟨hfirst, _⟩ := List.pairwise_cons.mp hd
  have hfilter : (p :: ys).filter (fun q => !h.keyEqual q.1 k) = ys := by
    rw [List.filter_cons_of_neg (by simp [he]), List.filter_eq_self]
    intro q hq
    have hpq := hfirst q hq
    rw [h.congr he, h.comm] at hpq
    simp [hpq]
  rw [← hfilter]
  exact (hp.filter _).symm

theorem erase_absent (hk : lookup h xs k = none) : (erase h xs k).1 = xs :=
  List.filter_eq_self.mpr (fun p hp => by simp [lookup_none.mp hk p hp])

/-- Assigning to a stored key changes the value of its pair. -/
theorem assign_perm (hx : Distinct h xs) (hp : xs.Perm (p :: ys)) (he : h.keyEqual p.1 k = true)
    (v : V) : ((p.1, v) :: ys).Perm (assign h xs k v).1 := by
  have hd := hx.perm hp
  obtain ⟨hfirst, _⟩ := List.pairwise_cons.mp hd
  have hstored : lookup h xs k = some p :=
    (lookup_some hx).mpr ⟨hp.mem_iff.mpr List.mem_cons_self, he⟩
  have hmap : (p :: ys).map (fun q => if h.keyEqual q.1 k then (q.1, v) else q) =
      (p.1, v) :: ys := by
    rw [List.map_cons, if_pos he]
    congr 1
    conv_rhs => rw [← List.map_id ys]
    refine List.map_congr_left ?_
    intro q hq
    have hpq := hfirst q hq
    rw [h.congr he, h.comm] at hpq
    simp [hpq]
  rw [assign, hstored, ← hmap]
  exact (hp.map _).symm

/-- Exchanging a pair for one with another value assigns to its key. -/
theorem assign_of_swap {rest zs : List (K × V)} (hx : Distinct h xs) (hzs : zs.Perm xs)
    (hout : (p :: rest).Perm zs) (hin : (p :: ys).Perm ((p.1, v) :: zs))
    (he : h.keyEqual p.1 k = true) : ys.Perm (assign h xs k v).1 := by
  have hswap : (p :: ys).Perm (p :: (p.1, v) :: rest) :=
    (hin.trans (hout.symm.cons _)).trans (.swap _ _ _)
  have hys : ys.Perm ((p.1, v) :: rest) := (List.perm_cons p).mp hswap
  exact hys.trans (assign_perm hx (hzs.symm.trans hout.symm) he v)

theorem distinct_assign (hx : Distinct h xs) (k : K) (v : V) : Distinct h (assign h xs k v).1 := by
  cases hl : lookup h xs k with
  | none =>
    rw [assign, hl]
    exact distinct_cons hl hx v
  | some p =>
    rw [assign, hl]
    refine List.Pairwise.map _ ?_ hx
    intro a b hab
    split <;> split <;> exact hab

section Parts
variable {rest piece piece' : List (K × V)}

/-- An operation at one key that neither sees nor changes the pairs of other keys, and to which
the order of the pairs does not matter. -/
structure Local (h : Hashing K) (k : K) (f : List (K × V) → List (K × V) × Bool) : Prop where
  distinct : ∀ xs, Distinct h xs → Distinct h (f xs).1
  perm : ∀ xs ys, Distinct h xs → xs.Perm ys → (f xs).1.Perm (f ys).1 ∧ (f xs).2 = (f ys).2
  append : ∀ xs rest, lookup h rest k = none → f (xs ++ rest) = ((f xs).1 ++ rest, (f xs).2)
  keys : ∀ xs, ∀ p ∈ (f xs).1, p.1 = k ∨ ∃ q ∈ xs, q.1 = p.1

theorem lookup_append (hrest : lookup h rest k = none) :
    lookup h (xs ++ rest) k = lookup h xs k := by
  change rest.find? _ = none at hrest
  simp [lookup, List.find?_append, hrest]

theorem local_insert (h : Hashing K) (k : K) (v : V) : Local h k (fun xs => insert h xs k v) where
  distinct xs hx := by
    cases hl : lookup h xs k with
    | none => simpa [insert, hl] using distinct_cons hl hx v
    | some p => simpa [insert, hl] using hx
  perm xs ys hx hp := by
    simp only [insert, lookup_perm hx hp]
    cases lookup h xs k with
    | none => exact ⟨hp.cons _, rfl⟩
    | some p => exact ⟨hp, rfl⟩
  append xs rest hrest := by
    simp only [insert, lookup_append hrest]
    cases lookup h xs k with
    | none => rfl
    | some p => rfl
  keys xs p hp := by
    cases hl : lookup h xs k with
    | none =>
      simp only [insert, hl, List.mem_cons] at hp
      rcases hp with rfl | hp
      · exact .inl rfl
      · exact .inr ⟨p, hp, rfl⟩
    | some q => exact .inr ⟨p, by simpa [insert, hl] using hp, rfl⟩

theorem local_assign (h : Hashing K) (k : K) (v : V) : Local h k (fun xs => assign h xs k v) where
  distinct xs hx := distinct_assign hx k v
  perm xs ys hx hp := by
    simp only [assign, lookup_perm hx hp]
    cases lookup h xs k with
    | none => exact ⟨hp.cons _, rfl⟩
    | some p => exact ⟨hp.map _, rfl⟩
  append xs rest hrest := by
    have hsame : rest.map (fun p => if h.keyEqual p.1 k then (p.1, v) else p) = rest := by
      conv_rhs => rw [← List.map_id rest]
      exact List.map_congr_left (fun p hp => by simp [lookup_none.mp hrest p hp])
    simp only [assign, lookup_append hrest]
    cases lookup h xs k with
    | none => rfl
    | some p => simp only [List.map_append, hsame]
  keys xs p hp := by
    cases hl : lookup h xs k with
    | none =>
      simp only [assign, hl, List.mem_cons] at hp
      rcases hp with rfl | hp
      · exact .inl rfl
      · exact .inr ⟨p, hp, rfl⟩
    | some q =>
      simp only [assign, hl, List.mem_map] at hp
      obtain ⟨r, hr, rfl⟩ := hp
      exact .inr ⟨r, hr, by split <;> rfl⟩

theorem local_erase (h : Hashing K) (k : K) : Local (V := V) h k (fun xs => erase h xs k) where
  distinct xs hx := distinct_erase hx k
  perm xs ys hx hp := ⟨hp.filter _, by simp only [erase, lookup_perm hx hp]⟩
  append xs rest hrest := by
    have hsame : rest.filter (fun p => !h.keyEqual p.1 k) = rest := erase_absent hrest
    simp only [erase, lookup_append hrest, List.filter_append, hsame]
  keys xs p hp := .inr ⟨p, (List.mem_filter.mp hp).1, rfl⟩

/-- Doing it on a part that has all pairs of the key does it on the whole. -/
theorem Local.part {f : List (K × V) → List (K × V) × Bool} (hf : Local h k f)
    (hx : Distinct h xs) (hxs : xs.Perm (piece ++ rest)) (hrest : lookup h rest k = none)
    (hpiece : piece'.Perm (f piece).1) :
    (piece' ++ rest).Perm (f xs).1 ∧ (f piece).2 = (f xs).2 := by
  obtain ⟨hperm, hres⟩ := hf.perm xs (piece ++ rest) hx hxs
  simp only [hf.append piece rest hrest] at hperm hres
  exact ⟨(hpiece.append_right rest).trans hperm.symm, hres.symm⟩

end Parts

section Capacity

/-- The least power of two that is no smaller, for numbers of 64 bits. -/
def roundUp (n : Nat) : Nat :=
  if n ≤ 1 then 1
  else
    let n := n - 1
    let n := n ||| (n >>> 1)
    let n := n ||| (n >>> 2)
    let n := n ||| (n >>> 4)
    let n := n ||| (n >>> 8)
    let n := n ||| (n >>> 16)
    let n := n ||| (n >>> 32)
    n + 1

theorem or_shift_ones (k j : Nat) : (2 ^ k - 1) ||| ((2 ^ k - 1) >>> j) = 2 ^ k - 1 := by
  refine Nat.eq_of_testBit_eq (fun i => ?_)
  rw [Nat.testBit_or, Nat.testBit_shiftRight, Nat.testBit_two_pow_sub_one,
    Nat.testBit_two_pow_sub_one]
  by_cases hi : i < k
  · simp [hi]
  · simp [hi]
    omega

theorem roundUp_pow (k : Nat) : roundUp (2 ^ k) = 2 ^ k := by
  have hpos := Nat.two_pow_pos k
  rw [roundUp]
  split
  · omega
  · simp only [or_shift_ones]
    omega

/-- A bit of `x` is set where one of the `w` bits of `n` from there up is. -/
def Spread (n w x : Nat) : Prop := ∀ i, x.testBit i = true ↔ ∃ j, j < w ∧ n.testBit (i + j) = true

theorem spread_one (n : Nat) : Spread n 1 n := by
  intro i
  constructor
  · intro hi
    exact ⟨0, Nat.one_pos, hi⟩
  · intro hi
    obtain ⟨j, hj, hbit⟩ := hi
    obtain rfl : j = 0 := by omega
    exact hbit

theorem Spread.double {n w x : Nat} (hs : Spread n w x) : Spread n (2 * w) (x ||| (x >>> w)) := by
  intro i
  rw [Nat.testBit_or, Nat.testBit_shiftRight, Bool.or_eq_true, hs i, hs (w + i)]
  constructor
  · intro hi
    rcases hi with ⟨j, hj, hbit⟩ | ⟨j, hj, hbit⟩
    · exact ⟨j, by omega, hbit⟩
    · exact ⟨w + j, by omega, by rwa [← Nat.add_assoc, Nat.add_comm i w]⟩
  · intro hi
    obtain ⟨j, hj, hbit⟩ := hi
    by_cases hlow : j < w
    · exact .inl ⟨j, hlow, hbit⟩
    · have hsum : w + i + (j - w) = i + j := by omega
      exact .inr ⟨j - w, by omega, by rwa [hsum]⟩

/-- Spread as far as its own bits go, a number is all ones. -/
theorem Spread.ones {n x : Nat} (hn : n ≠ 0) (hlt : n < 2 ^ 64) (hs : Spread n 64 x) :
    x = 2 ^ (n.log2 + 1) - 1 := by
  refine Nat.eq_of_testBit_eq (fun i => ?_)
  rw [Nat.testBit_two_pow_sub_one, Bool.eq_iff_iff, hs i, decide_eq_true_eq]
  have htop : n.log2 < 64 := (Nat.log2_lt hn).mpr hlt
  constructor
  · intro hi
    obtain ⟨j, _, hbit⟩ := hi
    have hle := (Nat.le_log2 hn).mpr (Nat.ge_two_pow_of_testBit hbit)
    omega
  · intro hi
    refine ⟨n.log2 - i, by omega, ?_⟩
    rw [Nat.add_sub_cancel' (by omega)]
    exact Nat.testBit_log2 hn

/-- It is a power of two indeed, and the least. -/
theorem roundUp_spec {n : Nat} (hn : n ≤ 2 ^ 64) :
    ∃ k, k ≤ 64 ∧ roundUp n = 2 ^ k ∧ n ≤ 2 ^ k ∧ ∀ j, n ≤ 2 ^ j → k ≤ j := by
  unfold roundUp
  by_cases hone : n ≤ 1
  · rw [if_pos hone]
    exact ⟨0, Nat.zero_le _, rfl, hone, fun j _ => Nat.zero_le j⟩
  · rw [if_neg hone]
    have hpred : n - 1 ≠ 0 := by omega
    have hlt : n - 1 < 2 ^ 64 := by omega
    have hspread := ((((((spread_one (n - 1)).double).double).double).double).double).double
    have hones := hspread.ones hpred hlt
    refine ⟨(n - 1).log2 + 1, (Nat.log2_lt hpred).mpr hlt, ?_, ?_, ?_⟩
    · have hpos := Nat.two_pow_pos ((n - 1).log2 + 1)
      simp only [Nat.mul_one, Nat.reduceMul] at hones
      simp only [hones]
      omega
    · have hbelow := Nat.lt_log2_self (n := n - 1)
      omega
    · intro j hj
      have hpos := Nat.two_pow_pos j
      exact (Nat.log2_lt hpred).mpr (by omega)

end Capacity

end KeyMap
