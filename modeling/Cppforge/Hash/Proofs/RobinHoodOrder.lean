import Cppforge.Hash.RobinHoodHashMap
import Cppforge.Lib.Splice
import Mathlib.Data.Nat.ModEq

namespace Cppforge.Hash.RobinHoodHashMap
open KeyMap

variable {K V : Type} {h : Hashing K} {S S' : List (Slot K V)} {s q e : Slot K V}
  {mask i j idx d n fuel : Nat} {key : K}

section Invariant

/-- The number of slots is a power of two, and the mask fits it. -/
def Sized (mask : Nat) (S : List (Slot K V)) : Prop :=
  ∃ k, S.length = 2 ^ k ∧ mask = 2 ^ k - 1

theorem Sized.and_eq (hs : Sized mask S) (x : Nat) : x &&& mask = x % S.length := by
  obtain ⟨k, hlen, hmask⟩ := hs
  rw [hlen, hmask, Nat.and_two_pow_sub_one_eq_mod]

theorem Sized.pos (hs : Sized mask S) : 0 < S.length := by
  obtain ⟨k, hlen, _⟩ := hs
  rw [hlen]
  exact Nat.two_pow_pos k

/-- Every entry is as far from its ideal slot as it says, and no entry behind another one is
farther than by one. -/
structure RobinHood (h : Hashing K) (S : List (Slot K V)) : Prop where
  place : ∀ i s, S[i]? = some s → s.state = .occupied →
    ((h.hash s.key).toNat + s.psr) % S.length = i
  order : ∀ i s q, S[i]? = some q → S[(i + 1) % S.length]? = some s → s.state = .occupied →
    0 < s.psr → q.state = .occupied ∧ s.psr ≤ q.psr + 1
  states : ∀ s ∈ S, s.state = .occupied ∨ s.state = .empty

/-- Going round the slots, each one comes up. -/
theorem exists_reach {n i j : Nat} (hi : i < n) (hj : j < n) : ∃ t, t < n ∧ (i + t) % n = j := by
  by_cases hij : i ≤ j
  · exact ⟨j - i, by omega, by rw [Nat.add_sub_cancel' hij, Nat.mod_eq_of_lt hj]⟩
  · refine ⟨j + n - i, by omega, ?_⟩
    rw [Nat.add_sub_cancel' (by omega), Nat.add_mod_right, Nat.mod_eq_of_lt hj]

theorem exists_slot (hpos : 0 < S.length) (x : Nat) : ∃ s, S[x % S.length]? = some s :=
  ⟨_, List.getElem?_eq_getElem (Nat.mod_lt x hpos)⟩

/-- The slots on the way to an entry are taken, by entries that are no nearer to home. -/
theorem RobinHood.path (hr : RobinHood h S) (hpos : 0 < S.length) (hi : S[i]? = some s)
    (ho : s.state = .occupied) (hd : d ≤ s.psr) :
    ∃ q, S[((h.hash s.key).toNat + d) % S.length]? = some q ∧ q.state = .occupied ∧ d ≤ q.psr := by
  induction hk : s.psr - d generalizing d with
  | zero =>
    have hds : d = s.psr := by omega
    rw [hds, hr.place i s hi ho]
    exact ⟨s, hi, ho, Nat.le_refl _⟩
  | succ k ih =>
    obtain ⟨t, ht, hto, hle⟩ := ih (d := d + 1) (by omega) (by omega)
    obtain ⟨q, hq⟩ := exists_slot hpos ((h.hash s.key).toNat + d)
    have hnext : (((h.hash s.key).toNat + d) % S.length + 1) % S.length =
        ((h.hash s.key).toNat + (d + 1)) % S.length := by
      rw [Nat.mod_add_mod, Nat.add_assoc]
    have hord := hr.order _ t q hq (hnext ▸ ht) hto (by omega)
    exact ⟨q, hq, hord.1, by omega⟩

def Slot.pair (s : Slot K V) : K × V := (s.key, s.value)

/-- The pair that iterators meet at a slot. -/
def Slot.held (s : Slot K V) : Option (K × V) := if s.state = .occupied then some s.pair else none

theorem Slot.held_eq_some {p : K × V} : s.held = some p ↔ s.state = .occupied ∧ s.pair = p := by
  simp [Slot.held]

theorem iterate_eq (S : List (Slot K V)) : iterate S = S.filterMap Slot.held := by
  induction S with
  | nil => rfl
  | cons s S ih =>
    rw [iterate, ih]
    split <;> simp_all [Slot.held, Slot.pair]

theorem iterate_cons (s : Slot K V) (S : List (Slot K V)) :
    iterate (s :: S) = iterate [s] ++ iterate S := by
  simp only [iterate_eq, ← List.filterMap_append, List.singleton_append]

theorem mem_iterate {p : K × V} :
    p ∈ iterate S ↔
      ∃ (i : Nat) (s : Slot K V), S[i]? = some s ∧ s.state = .occupied ∧ s.pair = p := by
  rw [iterate_eq, List.mem_filterMap]
  constructor
  · intro ⟨s, hs, hp⟩
    obtain ⟨i, hi⟩ := List.mem_iff_getElem?.mp hs
    exact ⟨i, s, hi, Slot.held_eq_some.mp hp⟩
  · intro ⟨i, s, hi, hp⟩
    exact ⟨s, List.mem_of_getElem? hi, Slot.held_eq_some.mpr hp⟩

theorem iterate_occupied (ho : s.state = .occupied) : iterate [s] = [s.pair] := by
  simp [iterate, ho, Slot.pair]

theorem iterate_unoccupied (ho : s.state ≠ .occupied) : iterate [s] = [] := by
  simp [iterate, ho]

/-- What a slot loses and gains is what the table loses and gains. -/
theorem iterate_set (hi : S[i]? = some s) (q : Slot K V) :
    (iterate [s] ++ iterate (S.set i q)).Perm (iterate [q] ++ iterate S) := by
  have hone : ∀ r : Slot K V, iterate [r] = r.held.toList := by
    intro r
    cases hr : r.held <;> simp [iterate_eq, hr]
  simpa only [hone, iterate_eq] using Splice.filterMap_set Slot.held hi q

/-- Two slots with equal keys are one slot. -/
theorem same_slot (hd : Distinct h (iterate S)) (hi : S[i]? = some s) (hj : S[j]? = some q)
    (hso : s.state = .occupied) (hqo : q.state = .occupied)
    (he : h.keyEqual s.key q.key = true) : i = j := by
  by_contra hne
  -- without the first slot, the second one still holds its pair
  have hperm := iterate_set hi { s with state := .empty }
  rw [iterate_occupied hso, iterate_unoccupied (by simp)] at hperm
  have hmem : q.pair ∈ iterate (S.set i { s with state := .empty }) :=
    mem_iterate.mpr ⟨j, q, by rw [List.getElem?_set_ne hne, hj], hqo, rfl⟩
  have hfirst := (List.pairwise_cons.mp (hd.perm hperm.symm)).1 q.pair hmem
  rw [Slot.pair, Slot.pair, he] at hfirst
  cases hfirst

end Invariant

section Moves

/-- A slot is overwritten by an entry that fits between its neighbours. -/
theorem RobinHood.set (hr : RobinHood h S) (hidx : idx < S.length) {e : Slot K V}
    (hplace : e.state = .occupied → ((h.hash e.key).toNat + e.psr) % S.length = idx)
    (hbehind : ∀ (i : Nat) (q : Slot K V), S[i]? = some q → (i + 1) % S.length = idx →
      e.state = .occupied → 0 < e.psr → q.state = .occupied ∧ e.psr ≤ q.psr + 1)
    (hahead : ∀ s, S[(idx + 1) % S.length]? = some s → s.state = .occupied → 0 < s.psr →
      e.state = .occupied ∧ s.psr ≤ e.psr + 1)
    (hstate : e.state = .occupied ∨ e.state = .empty) : RobinHood h (S.set idx e) := by
  refine ⟨?_, ?_, ?_⟩
  · intro i s hi ho
    rw [List.length_set]
    by_cases hidx' : idx = i
    · subst hidx'
      rw [List.getElem?_set_self hidx] at hi
      obtain rfl := Option.some.inj hi
      exact hplace ho
    · rw [List.getElem?_set_ne hidx'] at hi
      exact hr.place i s hi ho
  · intro i s q hq hs ho hp
    rw [List.length_set] at hs
    by_cases hi : idx = i <;> by_cases hn : idx = (i + 1) % S.length
    · rw [← hi, List.getElem?_set_self hidx] at hq
      rw [← hn, List.getElem?_set_self hidx] at hs
      obtain rfl := Option.some.inj hq
      obtain rfl := Option.some.inj hs
      exact ⟨ho, Nat.le_succ _⟩
    · subst hi
      rw [List.getElem?_set_self hidx] at hq
      rw [List.getElem?_set_ne hn] at hs
      obtain rfl := Option.some.inj hq
      exact hahead s hs ho hp
    · rw [List.getElem?_set_ne hi] at hq
      rw [← hn, List.getElem?_set_self hidx] at hs
      obtain rfl := Option.some.inj hs
      exact hbehind i q hq hn.symm ho hp
    · rw [List.getElem?_set_ne hi] at hq
      rw [List.getElem?_set_ne hn] at hs
      exact hr.order i s q hq hs ho hp
  · intro s hs
    rcases List.mem_or_eq_of_mem_set hs with hmem | rfl
    · exact hr.states s hmem
    · exact hstate

end Moves

section Search

theorem Sized.set (hs : Sized mask S) (i : Nat) (s : Slot K V) : Sized mask (S.set i s) := by
  simpa [Sized] using hs

/-- On the way to a stored key every slot sends the search on, up to the slot of the key. -/
theorem RobinHood.toward (hr : RobinHood h S) (hpos : 0 < S.length) (hd : Distinct h (iterate S))
    (hi : S[i]? = some s) (ho : s.state = .occupied) (he : h.keyEqual s.key key = true)
    (hdist : d ≤ s.psr) :
    ∃ q, S[((h.hash key).toNat + d) % S.length]? = some q ∧ q.state = .occupied ∧ d ≤ q.psr ∧
      (h.keyEqual q.key key = true → ((h.hash key).toNat + d) % S.length = i) ∧
      (h.keyEqual q.key key ≠ true → d + 1 ≤ s.psr) := by
  rw [← h.consistent _ _ he]
  obtain ⟨q, hq, hqo, hle⟩ := hr.path hpos hi ho hdist
  refine ⟨q, hq, hqo, hle, ?_, ?_⟩
  · intro hqe
    exact same_slot hd hq hi hqo ho (h.trans _ _ _ hqe (h.symm _ _ he))
  · intro hqe
    by_contra hlast
    have hds : d = s.psr := by omega
    rw [hds, hr.place i s hi ho, hi] at hq
    exact hqe (Option.some.inj hq ▸ he)

/-- A stored key is found in its slot. -/
theorem findLoop_hit (hr : RobinHood h S) (hs : Sized mask S) (hd : Distinct h (iterate S))
    (hi : S[i]? = some s) (ho : s.state = .occupied) (he : h.keyEqual s.key key = true)
    (hdist : d ≤ s.psr) (hf : s.psr - d < fuel) :
    findLoop h mask S key fuel (((h.hash key).toNat + d) % S.length) d = some (some i) := by
  induction fuel generalizing d with
  | zero => omega
  | succ fuel ih =>
    obtain ⟨q, hq, hqo, hle, hhit, hon⟩ := hr.toward hs.pos hd hi ho he hdist
    rw [findLoop, hq]
    simp only [Option.bind_eq_bind, Option.bind_some]
    rw [if_neg (by simp [hqo, hle])]
    by_cases hqe : h.keyEqual q.key key = true
    · rw [if_pos ⟨hqo, hqe⟩, hhit hqe]
    · have hon := hon hqe
      rw [if_neg (by simp [hqe]), hs.and_eq, Nat.mod_add_mod, Nat.add_assoc]
      exact ih hon (by omega)

/-- The slot `t` places ahead is free. -/
def FreeAhead (S : List (Slot K V)) (idx t : Nat) : Prop :=
  ∃ q, S[(idx + t) % S.length]? = some q ∧ q.state ≠ .occupied

theorem FreeAhead.next {t : Nat} (hf : FreeAhead S idx t) (hi : S[idx]? = some s)
    (ho : s.state = .occupied) : ∃ u, t = u + 1 ∧ FreeAhead S ((idx + 1) % S.length) u := by
  obtain ⟨q, hq, hfree⟩ := hf
  cases t with
  | zero =>
    rw [Nat.add_zero, Nat.mod_eq_of_lt (List.getElem?_eq_some_iff.mp hi).1, hi] at hq
    exact absurd (Option.some.inj hq ▸ ho) hfree
  | succ u =>
    refine ⟨u, rfl, q, ?_, hfree⟩
    rw [Nat.mod_add_mod, Nat.add_assoc, Nat.add_comm 1, hq]

/-- Overwriting a taken slot leaves the free one. -/
theorem FreeAhead.set {t : Nat} (hf : FreeAhead S j t) (hi : S[idx]? = some s)
    (ho : s.state = .occupied) (e : Slot K V) : FreeAhead (S.set idx e) j t := by
  obtain ⟨q, hq, hfree⟩ := hf
  refine ⟨q, ?_, hfree⟩
  rw [List.length_set, List.getElem?_set_ne, hq]
  rintro rfl
  rw [hi] at hq
  exact hfree (Option.some.inj hq ▸ ho)

/-- An absent key is not found, if some slot is free. -/
theorem findLoop_miss (hr : RobinHood h S) (hs : Sized mask S)
    (ha : lookup h (iterate S) key = none) {t : Nat} (hidx : idx < S.length)
    (ht : FreeAhead S idx t) (hf : t < fuel) (d : Nat) :
    findLoop h mask S key fuel idx d = some none := by
  induction fuel generalizing idx t d with
  | zero => omega
  | succ fuel ih =>
    obtain ⟨s, hi⟩ : ∃ s, S[idx]? = some s := ⟨_, List.getElem?_eq_getElem hidx⟩
    rw [findLoop, hi]
    simp only [Option.bind_eq_bind, Option.bind_some]
    split
    · rfl
    · rename_i hstop
      have ho : s.state = .occupied :=
        (hr.states s (List.mem_of_getElem? hi)).resolve_right (fun hem => hstop (.inl hem))
      have hne := lookup_none.mp ha s.pair (mem_iterate.mpr ⟨idx, s, hi, ho, rfl⟩)
      obtain ⟨u, rfl, hu⟩ := ht.next hi ho
      rw [if_neg (by simpa [Slot.pair] using fun _ => hne), hs.and_eq]
      exact ih (Nat.mod_lt _ hs.pos) hu (by omega) (d + 1)

end Search

section Insertion

/-- An entry on its way has reached a slot, and the slots behind it were no nearer to home. -/
structure Carried (h : Hashing K) (S : List (Slot K V)) (e : Slot K V) (idx p : Nat) : Prop where
  here : ((h.hash e.key).toNat + p) % S.length = idx
  behind : ∀ (i : Nat) (q : Slot K V), S[i]? = some q → (i + 1) % S.length = idx → 0 < p →
    q.state = .occupied ∧ p ≤ q.psr + 1

theorem succ_mod_inj {n i j : Nat} (hi : i < n) (hj : j < n) (he : (i + 1) % n = (j + 1) % n) :
    i = j := by
  have hmod : Nat.ModEq n i j := Nat.ModEq.add_right_cancel' 1 he
  rwa [Nat.ModEq, Nat.mod_eq_of_lt hi, Nat.mod_eq_of_lt hj] at hmod

theorem add_mod_ne {n i t : Nat} (hi : i < n) (ht : 0 < t) (hn : t < n) : (i + t) % n ≠ i := by
  by_cases hwrap : i + t < n
  · rw [Nat.mod_eq_of_lt hwrap]
    omega
  · rw [Nat.mod_eq_sub_mod (by omega), Nat.mod_eq_of_lt (by omega)]
    omega

variable {p : Nat}

theorem Carried.start (e : Slot K V) :
    Carried h S e ((h.hash e.key).toNat % S.length) 0 :=
  ⟨rfl, fun _ _ _ _ hp => absurd hp (Nat.lt_irrefl 0)⟩

/-- The carried entry takes a slot that is free or whose entry is nearer to home. -/
theorem RobinHood.put (hr : RobinHood h S) (hc : Carried h S e idx p) (hi : S[idx]? = some s)
    (hle : s.state = .occupied → s.psr ≤ p) :
    RobinHood h (S.set idx { e with state := .occupied, psr := p }) := by
  refine hr.set (List.getElem?_eq_some_iff.mp hi).1 (fun _ => hc.here) ?_ ?_ (.inl rfl)
  · intro i q hq hn _ hp
    exact hc.behind i q hq hn hp
  · intro q hq ho hp
    have hord := hr.order idx q s hi hq ho hp
    have := hle hord.1
    exact ⟨rfl, by simp only; omega⟩

/-- The entry moves on. -/
theorem Carried.pass (hc : Carried h S e idx p) (hi : S[idx]? = some s)
    (ho : s.state = .occupied) (hle : p ≤ s.psr) :
    Carried h S e ((idx + 1) % S.length) (p + 1) := by
  refine ⟨?_, ?_⟩
  · rw [← hc.here, Nat.mod_add_mod, Nat.add_assoc]
  · intro i q hq hn _
    have hlen := (List.getElem?_eq_some_iff.mp hq).1
    obtain rfl := succ_mod_inj hlen (List.getElem?_eq_some_iff.mp hi).1 hn
    rw [hi] at hq
    obtain rfl := Option.some.inj hq
    exact ⟨ho, by omega⟩

/-- The entry that stood in the slot moves on. -/
theorem Carried.swap (hr : RobinHood h S) (hi : S[idx]? = some s)
    (ho : s.state = .occupied) (hle : s.psr ≤ p) :
    Carried h (S.set idx { e with state := .occupied, psr := p }) s ((idx + 1) % S.length)
      (s.psr + 1) := by
  have hidx := (List.getElem?_eq_some_iff.mp hi).1
  refine ⟨?_, ?_⟩
  · rw [List.length_set, ← Nat.add_assoc, ← Nat.mod_add_mod, hr.place idx s hi ho]
  · intro i q hq hn _
    have hlen := (List.getElem?_eq_some_iff.mp hq).1
    rw [List.length_set] at hlen hn
    obtain rfl := succ_mod_inj hlen hidx hn
    rw [List.getElem?_set_self hidx] at hq
    obtain rfl := Option.some.inj hq
    exact ⟨rfl, by simp only; omega⟩

/-- What an insertion leaves: the order, and one entry more. -/
structure Inserted (h : Hashing K) (S S' : List (Slot K V)) (e : Slot K V) : Prop where
  length : S'.length = S.length
  order : RobinHood h S'
  pairs : (iterate S').Perm (e.pair :: iterate S)

theorem insertNoResizeLoop_spec (hr : RobinHood h S) (hs : Sized mask S)
    (hc : Carried h S e idx p) (he : e.state = .occupied) {t : Nat} (ht : FreeAhead S idx t)
    (hf : t < fuel) :
    ∃ S', insertNoResizeLoop mask fuel S e idx p = some S' ∧ Inserted h S S' e := by
  induction fuel generalizing S e idx p t with
  | zero => omega
  | succ fuel ih =>
    have hidx : idx < S.length := hc.here ▸ Nat.mod_lt _ hs.pos
    obtain ⟨s, hi⟩ : ∃ s, S[idx]? = some s := ⟨_, List.getElem?_eq_getElem hidx⟩
    have hnew : { e with psr := p } = { e with state := .occupied, psr := p } := by rw [← he]
    have hset := iterate_set hi { e with state := .occupied, psr := p }
    rw [iterate_occupied (s := { e with state := .occupied, psr := p }) rfl] at hset
    rw [insertNoResizeLoop, hi]
    simp only [Option.bind_eq_bind, Option.bind_some]
    rw [hnew]
    by_cases ho : s.state = .occupied
    · obtain ⟨u, rfl, hu⟩ := ht.next hi ho
      rw [if_neg (by simpa using ho), hs.and_eq]
      split
      · rename_i hlt
        obtain ⟨S', hrun, hins⟩ := ih (t := u) (hr.put hc hi (fun _ => by omega)) (hs.set _ _)
          (Carried.swap hr hi ho (by omega)) ho (hu.set hi ho _) (by omega)
        refine ⟨S', hrun, hins.length.trans (by simp), hins.order, hins.pairs.trans ?_⟩
        rwa [iterate_occupied ho] at hset
      · obtain ⟨S', hrun, hins⟩ := ih hr hs (hc.pass hi ho (by omega)) he hu (by omega)
        exact ⟨S', hrun, hins⟩
    · rw [if_pos ho]
      refine ⟨_, rfl, by simp, hr.put hc hi (fun hocc => absurd hocc ho), ?_⟩
      rwa [iterate_unoccupied ho] at hset

/-- No slot ahead, up to a free one, has the key. -/
def Missing (h : Hashing K) (S : List (Slot K V)) (key : K) (idx t : Nat) : Prop :=
  ∀ u, u < t → ∀ q, S[(idx + u) % S.length]? = some q → q.state = .occupied →
    h.keyEqual q.key key = false

theorem Missing.here {t : Nat} (ha : Missing h S key idx (t + 1)) (hi : S[idx]? = some s)
    (ho : s.state = .occupied) : h.keyEqual s.key key = false :=
  ha 0 (Nat.succ_pos t) s
    (by rwa [Nat.add_zero, Nat.mod_eq_of_lt (List.getElem?_eq_some_iff.mp hi).1]) ho

theorem Missing.next {t : Nat} (ha : Missing h S key idx (t + 1)) :
    Missing h S key ((idx + 1) % S.length) t := by
  intro u hu q hq
  rw [Nat.mod_add_mod, Nat.add_assoc, Nat.add_comm 1] at hq
  exact ha (u + 1) (Nat.succ_lt_succ hu) q hq

/-- The slot that is overwritten is not one of those ahead. -/
theorem Missing.next_set {t : Nat} (ha : Missing h S key idx (t + 1)) (hidx : idx < S.length)
    (hlt : t + 1 < S.length) (e : Slot K V) :
    Missing h (S.set idx e) key ((idx + 1) % S.length) t := by
  intro u hu q hq
  rw [List.length_set] at hq
  refine ha.next u hu q ?_
  rwa [List.getElem?_set_ne] at hq
  rw [Nat.mod_add_mod, Nat.add_assoc]
  exact (add_mod_ne hidx (by omega) (by omega)).symm

/-- A round of `insert_entry` at a slot with another key or none. -/
theorem insertEntryLoop_free (hi : S[idx]? = some s) (hfree : s.state ≠ .occupied) :
    insertEntryLoop h mask (fuel + 1) S e key idx p =
      some (S.set idx { e with state := .occupied, psr := p }, idx, true) := by
  simp [insertEntryLoop, hi, hfree]

theorem insertEntryLoop_swap (hs : Sized mask S) (hi : S[idx]? = some s)
    (ho : s.state = .occupied) (hne : h.keyEqual s.key key = false) (hlt : s.psr < p) :
    insertEntryLoop h mask (fuel + 1) S e key idx p =
      insertEntryLoop h mask fuel (S.set idx { e with state := .occupied, psr := p }) s key
        ((idx + 1) % S.length) (s.psr + 1) := by
  simp [insertEntryLoop, hi, ho, hne, hlt, hs.and_eq]

theorem insertEntryLoop_pass (hs : Sized mask S) (hi : S[idx]? = some s)
    (ho : s.state = .occupied) (hne : h.keyEqual s.key key = false) (hle : p ≤ s.psr) :
    insertEntryLoop h mask (fuel + 1) S e key idx p =
      insertEntryLoop h mask fuel S e key ((idx + 1) % S.length) (p + 1) := by
  simp [insertEntryLoop, hi, ho, hne, Nat.not_lt.mpr hle, hs.and_eq]

/-- While no slot ahead has the key, `insert_entry` does what `insert_no_resize` does. -/
theorem insertEntryLoop_new (hs : Sized mask S) {t : Nat} (hidx : idx < S.length)
    (ht : FreeAhead S idx t) (hlt : t < S.length) (ha : Missing h S key idx t) :
    ∃ i, insertEntryLoop h mask fuel S e key idx p =
      (insertNoResizeLoop mask fuel S { e with state := .occupied } idx p).map
        (fun S' => (S', i, true)) := by
  induction fuel generalizing S e idx p t with
  | zero => exact ⟨0, rfl⟩
  | succ fuel ih =>
    obtain ⟨s, hi⟩ : ∃ s, S[idx]? = some s := ⟨_, List.getElem?_eq_getElem hidx⟩
    rw [insertNoResizeLoop, hi]
    simp only [Option.bind_eq_bind, Option.bind_some]
    by_cases ho : s.state = .occupied
    · obtain ⟨u, rfl, hu⟩ := ht.next hi ho
      have hne := ha.here hi ho
      rw [if_neg (not_not.mpr ho), hs.and_eq]
      split
      · rename_i hnearer
        obtain ⟨i, hrun⟩ := ih (e := s) (p := s.psr + 1)
          (hs.set idx { e with state := .occupied, psr := p }) (by simpa using Nat.mod_lt _ hs.pos)
          (hu.set hi ho _) (by rw [List.length_set]; omega) (ha.next_set hidx hlt _)
        refine ⟨i, (insertEntryLoop_swap hs hi ho hne hnearer).trans (hrun.trans ?_)⟩
        rw [← ho]
      · rename_i hle
        rw [insertEntryLoop_pass hs hi ho hne (Nat.not_lt.mp hle)]
        exact ih hs (Nat.mod_lt _ hs.pos) hu (by omega) ha.next
    · rw [insertEntryLoop_free hi ho, if_pos ho]
      exact ⟨idx, rfl⟩

/-- A stored key stops `insert_entry` in its slot, with nothing changed. -/
theorem insertEntryLoop_stored (hr : RobinHood h S) (hs : Sized mask S)
    (hd : Distinct h (iterate S)) (hi : S[i]? = some s) (ho : s.state = .occupied)
    (he : h.keyEqual s.key key = true) (hdist : d ≤ s.psr) (hf : s.psr - d < fuel)
    (e : Slot K V) :
    insertEntryLoop h mask fuel S e key (((h.hash key).toNat + d) % S.length) d =
      some (S, i, false) := by
  induction fuel generalizing d with
  | zero => omega
  | succ fuel ih =>
    obtain ⟨q, hq, hqo, hle, hhit, hon⟩ := hr.toward hs.pos hd hi ho he hdist
    rw [insertEntryLoop, hq]
    simp only [Option.bind_eq_bind, Option.bind_some]
    by_cases hqe : h.keyEqual q.key key = true
    · rw [if_pos ⟨hqo, hqe⟩, hhit hqe]
    · have hon := hon hqe
      rw [if_neg (by simp [hqe]), if_neg (by simpa using hqo), if_neg (by omega), hs.and_eq,
        Nat.mod_add_mod, Nat.add_assoc]
      exact ih hon (by omega)

end Insertion

section Deletion

/-- A slot is cleared when nothing behind it would move. -/
theorem RobinHood.clear_slot (hr : RobinHood h S) (hi : S[idx]? = some s)
    (hn : ∀ q, S[(idx + 1) % S.length]? = some q → q.state = .occupied → q.psr = 0) :
    RobinHood h (S.set idx { s with state := .empty, psr := 0 }) := by
  refine hr.set (List.getElem?_eq_some_iff.mp hi).1 (fun ho => nomatch ho)
    (fun i q _ _ ho => nomatch ho) ?_ (.inr rfl)
  intro q hq ho hp
  have := hn q hq ho
  omega

/-- An entry moves one slot back. -/
theorem RobinHood.shift (hr : RobinHood h S) (hi : S[idx]? = some s)
    (hn : S[(idx + 1) % S.length]? = some q) (ho : q.state = .occupied) (hp : 0 < q.psr) :
    RobinHood h (S.set idx { q with psr := q.psr - 1 }) := by
  have hidx := (List.getElem?_eq_some_iff.mp hi).1
  have hord := hr.order idx q s hi hn ho hp
  refine hr.set hidx ?_ ?_ ?_ (.inl ho)
  · intro _
    have hplace := hr.place _ q hn ho
    refine succ_mod_inj (Nat.mod_lt _ (by omega)) hidx ?_
    rw [Nat.mod_add_mod, ← hplace]
    congr 1
    simp only
    omega
  · intro j r hj hjn _ hpos
    simp only at hpos ⊢
    have hback := hr.order j s r hj (hjn ▸ hi) hord.1 (by omega)
    exact ⟨hback.1, by omega⟩
  · intro r hr' hro hrp
    rw [hn] at hr'
    obtain rfl := Option.some.inj hr'
    exact ⟨ho, by simp only; omega⟩

theorem eraseLoop_spec (hr : RobinHood h S) (hs : Sized mask S) (hi : S[idx]? = some s)
    (ho : s.state = .occupied) {t : Nat} (ht : FreeAhead S idx t) (hf : t ≤ fuel) :
    ∃ S', eraseLoop mask fuel S idx = some S' ∧ S'.length = S.length ∧ RobinHood h S' ∧
      (iterate S).Perm (s.pair :: iterate S') := by
  induction fuel generalizing S s idx t with
  | zero =>
    obtain ⟨u, rfl, _⟩ := ht.next hi ho
    omega
  | succ fuel ih =>
    obtain ⟨u, rfl, hu⟩ := ht.next hi ho
    obtain ⟨q, hq⟩ := exists_slot hs.pos (idx + 1)
    rw [eraseLoop, hs.and_eq]
    simp only [hq, hi, Option.bind_eq_bind, Option.bind_some]
    split
    · rename_i hstop
      refine ⟨_, rfl, by simp, hr.clear_slot hi ?_, ?_⟩
      · intro r hr' hro
        rw [hq] at hr'
        obtain rfl := Option.some.inj hr'
        exact Nat.le_zero.mp (hstop.resolve_left (fun hno => hno hro))
      · have hset := iterate_set hi { s with state := .empty, psr := 0 }
        rw [iterate_occupied ho, iterate_unoccupied (by simp)] at hset
        exact hset.symm
    · rename_i hmove
      obtain ⟨hqo, hqp⟩ : q.state = .occupied ∧ 0 < q.psr := by
        simpa [not_or, Nat.pos_iff_ne_zero] using hmove
      have hne : idx ≠ (idx + 1) % S.length := by
        intro heq
        obtain ⟨r, hr, hfree⟩ := hu
        by_cases hone : S.length = 1
        · rw [hone, Nat.mod_one] at hr heq
          rw [← heq, hi] at hr
          exact hfree (Option.some.inj hr ▸ ho)
        · have := (List.getElem?_eq_some_iff.mp hi).1
          exact add_mod_ne this Nat.one_pos (by omega) heq.symm
      have hq' : (S.set idx { q with psr := q.psr - 1 })[(idx + 1) % S.length]? = some q := by
        rw [List.getElem?_set_ne hne, hq]
      obtain ⟨S', hrun, hlen, hr', hpairs⟩ := ih (hr.shift hi hq hqo hqp) (hs.set _ _) hq' hqo
        (hu.set hi ho _) (by omega)
      refine ⟨S', hrun, hlen.trans (by simp), hr', ?_⟩
      have hset := iterate_set hi { q with psr := q.psr - 1 }
      rw [iterate_occupied ho, iterate_occupied (s := { q with psr := q.psr - 1 }) hqo] at hset
      -- what the slot holds after the move is taken out of the slot it came from
      refine ((List.perm_cons q.pair).mp ?_)
      calc (q.pair :: iterate S).Perm (s.pair :: iterate (S.set idx { q with psr := q.psr - 1 })) :=
            hset.symm
        List.Perm _ (s.pair :: q.pair :: iterate S') := hpairs.cons _
        List.Perm _ (q.pair :: s.pair :: iterate S') := .swap _ _ _

end Deletion

end Cppforge.Hash.RobinHoodHashMap
