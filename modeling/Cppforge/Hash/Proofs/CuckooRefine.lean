import Cppforge.Hash.Proofs.CuckooContents

namespace Cppforge.Hash.CuckooHashMap
open KeyMap

variable {K V : Type} {h : Hashing K} {m m' : CuckooHashMap K V} {s q : Slot K V}
  {pos : Pos} {key : K} {p : K × V} {xs : List (K × V)}

section Iteration

/-- The pairs after a position. -/
def after (m : CuckooHashMap K V) : Pos → List (K × V)
  | .t1 i => (m.table1.drop (i + 1)).filterMap Slot.held ++
      (m.table2.filterMap Slot.held ++ m.stash.filterMap Slot.held)
  | .t2 i => (m.table2.drop (i + 1)).filterMap Slot.held ++ m.stash.filterMap Slot.held
  | .stash i => (m.stash.drop (i + 1)).filterMap Slot.held

/-- An iterator has these pairs before it. -/
def Starts (m : CuckooHashMap K V) (it : Option Pos) (ps : List (K × V)) : Prop :=
  match it with
  | none => ps = []
  | some pos => ∃ s, m.slotAt pos = some s ∧ ps = s.pair :: m.after pos

theorem filterMap_found {L : List (Slot K V)} {j : Nat}
    (hfind : L.findIdx? (fun s => s.state = .occupied) = some j) :
    ∃ s, L[j]? = some s ∧
      L.filterMap Slot.held = s.pair :: (L.drop (j + 1)).filterMap Slot.held := by
  induction L generalizing j with
  | nil => cases hfind
  | cons s L ih =>
    rw [List.findIdx?_cons] at hfind
    split at hfind
    · rename_i ho
      obtain rfl := Option.some.inj hfind
      exact ⟨s, rfl, List.filterMap_cons_some (held_occupied (by simpa using ho))⟩
    · rename_i ho
      obtain ⟨i, hi, rfl⟩ := Option.map_eq_some_iff.mp hfind
      obtain ⟨q, hq, hrest⟩ := ih hi
      refine ⟨q, hq, ?_⟩
      rw [List.filterMap_cons_none (by simpa [Slot.held] using ho), hrest]
      rfl

/-- A region is scanned before the next one. -/
theorem starts_region (S : List (Slot K V)) (mk : Nat → Pos) {next : Option Pos}
    {ps : List (K × V)} (hslot : ∀ i, m.slotAt (mk i) = S[i]?)
    (hafter : ∀ i, m.after (mk i) = (S.drop (i + 1)).filterMap Slot.held ++ ps)
    (hnext : Starts m next ps) (i : Nat) :
    Starts m (((scan S i).map mk).or next) ((S.drop i).filterMap Slot.held ++ ps) := by
  cases hscan : (S.drop i).findIdx? (fun s => s.state = .occupied) with
  | none =>
    have hnil : (S.drop i).filterMap Slot.held = [] := by
      rw [List.filterMap_eq_nil_iff]
      intro s hs
      simpa [Slot.held] using List.findIdx?_eq_none_iff.mp hscan s hs
    simpa [scan, hscan, hnil] using hnext
  | some j =>
    obtain ⟨s, hs, hrest⟩ := filterMap_found hscan
    simp only [scan, hscan, Option.map_some, Option.some_or, Starts]
    refine ⟨s, ?_, ?_⟩
    · rw [hslot, ← List.getElem?_drop, hs]
    · rw [hafter, hrest, List.drop_drop, Nat.add_assoc]
      rfl

theorem stash_starts (m : CuckooHashMap K V) (i : Nat) :
    Starts m ((scan m.stash i).map .stash) ((m.stash.drop i).filterMap Slot.held) := by
  have := starts_region (m := m) m.stash .stash (fun _ => rfl) (fun _ => (List.append_nil _).symm)
    (show Starts m none [] from rfl) i
  simpa using this

theorem table2_starts (m : CuckooHashMap K V) (i : Nat) :
    Starts m (((scan m.table2 i).map .t2).or ((scan m.stash 0).map .stash))
      ((m.table2.drop i).filterMap Slot.held ++ m.stash.filterMap Slot.held) :=
  starts_region m.table2 .t2 (fun _ => rfl) (fun _ => rfl) (m.stash_starts 0) i

theorem table1_starts (m : CuckooHashMap K V) (i : Nat) :
    Starts m (((scan m.table1 i).map .t1).or
        (((scan m.table2 0).map .t2).or ((scan m.stash 0).map .stash)))
      ((m.table1.drop i).filterMap Slot.held ++
        (m.table2.filterMap Slot.held ++ m.stash.filterMap Slot.held)) :=
  starts_region m.table1 .t1 (fun _ => rfl) (fun _ => rfl) (m.table2_starts 0) i

theorem findNextOccupied_starts (m : CuckooHashMap K V) (pos : Pos) :
    Starts m (m.findNextOccupied pos) (m.after pos) := by
  cases pos with
  | t1 i => exact m.table1_starts (i + 1)
  | t2 i => exact m.table2_starts (i + 1)
  | stash i => exact m.stash_starts (i + 1)

theorem iterate_starts {it : Option Pos} {ps : List (K × V)} {fuel : Nat} (hit : Starts m it ps)
    (hf : ps.length ≤ fuel) : m.iterate fuel it = some ps := by
  induction fuel generalizing it ps with
  | zero =>
    cases it with
    | none => exact congrArg some hit.symm
    | some pos =>
      obtain ⟨s, _, rfl⟩ := hit
      simp at hf
  | succ fuel ih =>
    cases it with
    | none => exact congrArg some hit.symm
    | some pos =>
      obtain ⟨s, hs, rfl⟩ := hit
      have hrest := ih (m.findNextOccupied_starts pos) (by simpa using hf)
      simp [iterate, hs, hrest, Slot.pair]

/-- An iteration meets every entry, region by region. -/
theorem toList_eq (hm : Homed h m) : m.toList = some m.pairs := by
  have hne : m.table1.isEmpty = false := by
    have := hm.len1
    cases ht : m.table1 <;> simp_all
  refine iterate_starts ?_ ?_
  · have := m.table1_starts 0
    simpa [first, hne, pairs, slots] using this
  · have := List.length_filterMap_le Slot.held m.slots
    simpa [pairs, slots, bucketCount, Nat.add_assoc] using this

end Iteration

section Lookup

/-- What holds of a map between two calls. -/
structure Inv (h : Hashing K) (m : CuckooHashMap K V) : Prop where
  counted : Counted h m
  distinct : Distinct h m.pairs

/-- The map holds the pairs of `xs`. -/
def Holds (h : Hashing K) (m : CuckooHashMap K V) (xs : List (K × V)) : Prop :=
  Inv h m ∧ m.pairs.Perm xs

theorem Holds.distinct (hm : Holds h m xs) : Distinct h xs := hm.1.distinct.perm hm.2

theorem Holds.lookup_eq (hm : Holds h m xs) (key : K) :
    lookup h m.pairs key = lookup h xs key :=
  (lookup_perm hm.1.distinct hm.2).symm

theorem holds_iff : s.holds h key = true ↔ s.state = .occupied ∧ h.keyEqual s.key key = true := by
  simp [Slot.holds]

/-- The search looks at every slot where the key may be. -/
theorem findSlot_cases (hm : Homed h m) (key : K) :
    (∃ pos s, m.findSlot h key = some (some pos) ∧ m.slotAt pos = some s ∧
      s.holds h key = true) ∨
    (m.findSlot h key = some none ∧
      ∀ pos s, m.Candidate h key pos → m.slotAt pos = some s → s.holds h key = false) := by
  have hne : m.table1.isEmpty = false := by
    have hlen := hm.len1
    cases ht : m.table1 <;> simp_all
  obtain ⟨s1, hs1⟩ : ∃ s, m.table1[m.h1 h key]? = some s := hm.slot1 key
  obtain ⟨s2, hs2⟩ : ∃ s, m.table2[m.h2 h key]? = some s := hm.slot2 key
  simp only [findSlot, hne, hs1, hs2, Option.bind_eq_bind, Option.bind_some]
  by_cases hh1 : s1.holds h key = true
  · exact .inl ⟨.t1 _, s1, by simp [hh1], hs1, hh1⟩
  by_cases hh2 : s2.holds h key = true
  · exact .inl ⟨.t2 _, s2, by simp [hh1, hh2], hs2, hh2⟩
  cases hfind : m.stash.findIdx? (fun s => s.holds h key) with
  | some i =>
    obtain ⟨hi, hs, _⟩ := List.findIdx?_eq_some_iff_getElem.mp hfind
    exact .inl ⟨.stash i, _, by simp [hh1, hh2], List.getElem?_eq_getElem hi, hs⟩
  | none =>
    refine .inr ⟨by simp [hh1, hh2], ?_⟩
    intro pos s hc hs
    cases pos with
    | t1 i =>
      rw [hc, slotAt, hs1] at hs
      exact Option.some.inj hs ▸ Bool.eq_false_iff.mpr hh1
    | t2 i =>
      rw [hc, slotAt, hs2] at hs
      exact Option.some.inj hs ▸ Bool.eq_false_iff.mpr hh2
    | stash i => exact List.findIdx?_eq_none_iff.mp hfind s (List.mem_of_getElem? hs)

theorem findSlot_absent (hm : Inv h m) (ha : lookup h m.pairs key = none) :
    m.findSlot h key = some none := by
  obtain ⟨pos, s, _, hs, hh⟩ | ⟨hfind, _⟩ := findSlot_cases hm.counted.homed key
  · obtain ⟨ho, he⟩ := holds_iff.mp hh
    have hne := lookup_none.mp ha s.pair (mem_pairs.mpr ⟨pos, s, hs, ho, rfl⟩)
    rw [Slot.pair, he] at hne
    cases hne
  · exact hfind

theorem candidate_congr {a b : K} (hab : h.keyEqual a b = true) :
    m.Candidate h a pos ↔ m.Candidate h b pos := by
  cases pos <;> simp [Candidate, h1, h2, h.consistent a b hab]

theorem findSlot_stored (hm : Inv h m) (hp : lookup h m.pairs key = some p) :
    ∃ pos s, m.findSlot h key = some (some pos) ∧ m.slotAt pos = some s ∧
      s.state = .occupied ∧ s.pair = p ∧ h.keyEqual s.key key = true := by
  obtain ⟨hmem, hpe⟩ := (lookup_some hm.distinct).mp hp
  obtain ⟨pos, s, hfind, hs, hh⟩ | ⟨_, hnone⟩ := findSlot_cases hm.counted.homed key
  · obtain ⟨ho, he⟩ := holds_iff.mp hh
    have hsp : s.pair ∈ m.pairs := mem_pairs.mpr ⟨pos, s, hs, ho, rfl⟩
    have hsame := hm.distinct.eq hsp hmem (h.trans _ _ _ he (h.symm _ _ hpe))
    exact ⟨pos, s, hfind, hs, ho, hsame, he⟩
  · obtain ⟨pos, s, hs, ho, rfl⟩ := mem_pairs.mp hmem
    have hc := (candidate_congr hpe).mp (hm.counted.homed.home pos s hs ho)
    have hno := hnone pos s hc hs
    rw [holds_iff.mpr ⟨ho, hpe⟩] at hno
    cases hno

theorem contains_eq (hm : Holds h m xs) (key : K) :
    m.contains h key = some (lookup h xs key).isSome := by
  rw [← hm.lookup_eq, contains]
  cases hl : lookup h m.pairs key with
  | none => simp [findSlot_absent hm.1 hl]
  | some p =>
    obtain ⟨pos, s, hfind, _⟩ := findSlot_stored hm.1 hl
    simp [hfind]

theorem valueAt_eq (hm : Holds h m xs) (key : K) :
    m.valueAt h key = some ((lookup h xs key).map Prod.snd) := by
  rw [← hm.lookup_eq, valueAt]
  cases hl : lookup h m.pairs key with
  | none => simp [findSlot_absent hm.1 hl]
  | some p =>
    obtain ⟨pos, s, hfind, hs, _, rfl, _⟩ := findSlot_stored hm.1 hl
    simp [hfind, hs, Slot.pair]

end Lookup

section Calls

theorem Counted.release (hm : Counted h m) (hs : m.slotAt pos = some s)
    (ho : s.state = .occupied) : Counted h (m.release pos s) := by
  have hout := pairs_setAt hs { s with state := .empty }
  rw [held_occupied ho, held_empty rfl] at hout
  have hlen := hout.length_eq
  have hsize := hm.size
  have hhome : Homed h (m.setAt pos { s with state := .empty }) :=
    hm.homed.setAt hs (fun ho => nomatch ho)
  refine ⟨hhome.resize _, ?_⟩
  change m.size - 1 = (m.setAt pos { s with state := .empty }).pairs.length
  simp only [Option.toList_some, Option.toList_none, List.singleton_append, List.nil_append,
    List.length_cons] at hlen
  omega

/-- A value is overwritten, of an entry or not. -/
theorem Counted.rewrite (hm : Counted h m) (hs : m.slotAt pos = some s) (value : V) :
    Counted h (m.setAt pos { s with value := value }) := by
  have hin := (pairs_setAt hs { s with value := value }).length_eq
  have hheld : s.held.toList.length = ({ s with value := value } : Slot K V).held.toList.length := by
    cases hst : s.state <;> simp [Slot.held, hst]
  rw [List.length_append, List.length_append, hheld] at hin
  refine ⟨hm.homed.setAt hs (fun ho => hm.homed.home pos s hs ho), ?_⟩
  rw [setAt_size, hm.size]
  exact (Nat.add_left_cancel hin).symm

theorem clear_empty (m : CuckooHashMap K V) : ∀ s ∈ m.clear.slots, s.state = .empty := by
  intro s hs
  simp only [clear, slots, List.mem_append, List.mem_map] at hs
  obtain (⟨r, _, rfl⟩ | ⟨r, _, rfl⟩) | ⟨r, _, rfl⟩ := hs <;> rfl

theorem Counted.clear (hm : Counted h m) : Counted h m.clear := by
  have hlen1 := hm.homed.len1
  have hlen2 := hm.homed.len2
  refine blank_counted m.clear_empty ?_ ?_ rfl
  · simpa [CuckooHashMap.clear] using hlen1
  · simpa [CuckooHashMap.clear] using hlen2

/-- The slot of a stored key is emptied. -/
theorem release_spec (hm : Holds h m xs) (hs : m.slotAt pos = some s) (ho : s.state = .occupied)
    (he : h.keyEqual s.key key = true) :
    Holds h (m.release pos s) (KeyMap.erase h xs key).1 := by
  have hout := pairs_setAt hs { s with state := .empty }
  rw [held_occupied ho, held_empty rfl] at hout
  have hperm := erase_perm hm.distinct (hm.2.symm.trans hout.symm) he
  exact ⟨⟨hm.1.counted.release hs ho, (distinct_erase hm.distinct key).perm hperm.symm⟩, hperm⟩

/-- The value of a stored key is overwritten. -/
theorem assign_spec (hm : Holds h m xs) (hs : m.slotAt pos = some s) (ho : s.state = .occupied)
    (he : h.keyEqual s.key key = true) (value : V) :
    Holds h (m.setAt pos { s with value := value }) (KeyMap.assign h xs key value).1 := by
  have hout := pairs_setAt hs { s with state := .empty }
  have hin := pairs_setAt hs { s with value := value }
  rw [held_occupied ho, held_empty rfl] at hout
  rw [held_occupied ho, held_occupied (s := { s with value := value }) ho] at hin
  have hpairs := assign_of_swap hm.distinct hm.2 hout hin he
  have hdistinct := (distinct_assign hm.distinct key value).perm hpairs.symm
  exact ⟨⟨hm.1.counted.rewrite hs value, hdistinct⟩, hpairs⟩

theorem erase_spec (hm : Holds h m xs) (key : K) :
    ∃ m', m.erase h key = some (m', (KeyMap.erase h xs key).2) ∧
      Holds h m' (KeyMap.erase h xs key).1 := by
  have hlook := hm.lookup_eq key
  cases hl : lookup h m.pairs key with
  | none =>
    rw [hl] at hlook
    refine ⟨m, ?_, ?_⟩
    · simp [erase, findSlot_absent hm.1 hl, KeyMap.erase, ← hlook]
    · rwa [erase_absent hlook.symm]
  | some p =>
    rw [hl] at hlook
    obtain ⟨pos, s, hfind, hs, ho, rfl, he⟩ := findSlot_stored hm.1 hl
    refine ⟨m.release pos s, ?_, release_spec hm hs ho he⟩
    simp [erase, hfind, hs, KeyMap.erase, ← hlook]

theorem clear_spec (hm : Holds h m xs) : Holds h m.clear [] := by
  refine ⟨⟨hm.1.counted.clear, ?_⟩, ?_⟩
  · simp [pairs_blank m.clear_empty, Distinct]
  · simp [pairs_blank m.clear_empty]

theorem eraseAt_spec {it next : Option Pos} (hm : Holds h m xs)
    (hrun : m.eraseAt it = some (m', next)) : Holds h m' (applyMap h m xs (.eraseAt it)).1 := by
  cases it with
  | none =>
    obtain ⟨rfl, _⟩ := Prod.mk.inj (Option.some.inj hrun)
    exact hm
  | some pos =>
    simp only [eraseAt, Option.bind_eq_bind, Option.bind_eq_some_iff] at hrun
    obtain ⟨s, hs, hrun⟩ := hrun
    split at hrun
    · rename_i ho
      obtain ⟨rfl, _⟩ := Prod.mk.inj (Option.some.inj hrun)
      simpa [applyMap, keyAt, hs, ho] using hm
    · rename_i ho
      obtain ⟨rfl, _⟩ := Prod.mk.inj (Option.some.inj hrun)
      have ho : s.state = .occupied := not_not.mp ho
      simpa [applyMap, keyAt, hs, ho] using release_spec hm hs ho (h.refl s.key)

variable [Inhabited K] [Inhabited V] {fuel : Nat}

theorem rehashImpl_spec {cap : Nat} (hm : Holds h m xs)
    (hrun : m.rehashImpl h fuel cap = some m') : Holds h m' xs := by
  obtain ⟨hm', hpairs⟩ := rehashImpl_counted hrun
  exact ⟨⟨hm', hm.1.distinct.perm hpairs.symm⟩, hpairs.trans hm.2⟩

theorem rehash_spec {cap : Nat} (hm : Holds h m xs) (hrun : m.rehash h fuel cap = some m') :
    Holds h m' xs := by
  simp only [rehash] at hrun
  split at hrun
  · exact Option.some.inj hrun ▸ hm
  · exact rehashImpl_spec hm hrun

theorem ensureCapacity_spec (hm : Holds h m xs) (hrun : m.ensureCapacity h fuel = some m') :
    Holds h m' xs := by
  rw [ensureCapacity] at hrun
  split at hrun
  · exact rehashImpl_spec hm hrun
  · exact Option.some.inj hrun ▸ hm

theorem insertNewEntry_spec {value : V} (hm : Holds h m xs) (hk : lookup h xs key = none)
    (hrun : m.insertNewEntry h fuel ⟨.occupied, key, value⟩ = some (m', pos)) :
    Holds h m' ((key, value) :: xs) := by
  obtain ⟨hm', hpairs⟩ := insertNewEntry_added hm.1.counted rfl hrun
  have hperm := hpairs.trans (hm.2.cons _)
  exact ⟨⟨hm', (distinct_cons hk hm.distinct value).perm hperm.symm⟩, hperm⟩

theorem insert_spec {value : V} {it : Pos} {r : Bool} (hm : Holds h m xs)
    (hrun : m.insert h fuel key value = some (m', it, r)) :
    Holds h m' (KeyMap.insert h xs key value).1 ∧ r = (KeyMap.insert h xs key value).2 := by
  have hlook := hm.lookup_eq key
  cases hl : lookup h m.pairs key with
  | none =>
    rw [hl] at hlook
    simp only [insert, findSlot_absent hm.1 hl, Option.bind_eq_bind, Option.bind_some,
      Option.bind_eq_some_iff] at hrun
    obtain ⟨m₁, hcap, ⟨m₂, pos⟩, hnew, hret⟩ := hrun
    obtain ⟨rfl, hr⟩ := Prod.mk.inj (Option.some.inj hret)
    rw [KeyMap.insert, ← hlook]
    exact ⟨insertNewEntry_spec (ensureCapacity_spec hm hcap) hlook.symm hnew,
      (Prod.mk.inj hr).2.symm⟩
  | some p =>
    rw [hl] at hlook
    obtain ⟨pos, s, hfind, _⟩ := findSlot_stored hm.1 hl
    simp only [insert, hfind, Option.bind_eq_bind, Option.bind_some] at hrun
    obtain ⟨rfl, hr⟩ := Prod.mk.inj (Option.some.inj hrun)
    rw [KeyMap.insert, ← hlook]
    exact ⟨hm, (Prod.mk.inj hr).2.symm⟩

theorem insertOrAssign_spec {value : V} {it : Pos} {r : Bool} (hm : Holds h m xs)
    (hrun : m.insertOrAssign h fuel key value = some (m', it, r)) :
    Holds h m' (KeyMap.assign h xs key value).1 ∧ r = (KeyMap.assign h xs key value).2 := by
  have hlook := hm.lookup_eq key
  cases hl : lookup h m.pairs key with
  | none =>
    rw [hl] at hlook
    have hsame : m.insertOrAssign h fuel key value = m.insert h fuel key value := by
      simp [insertOrAssign, insert, findSlot_absent hm.1 hl]
    have hmap : KeyMap.assign h xs key value = KeyMap.insert h xs key value := by
      rw [KeyMap.assign, KeyMap.insert, ← hlook]
    rw [hmap]
    exact insert_spec hm (hsame ▸ hrun)
  | some p =>
    rw [hl] at hlook
    obtain ⟨pos, s, hfind, hs, ho, rfl, he⟩ := findSlot_stored hm.1 hl
    simp only [insertOrAssign, hfind, hs, Option.bind_eq_bind, Option.bind_some] at hrun
    obtain ⟨rfl, hr⟩ := Prod.mk.inj (Option.some.inj hrun)
    refine ⟨assign_spec hm hs ho he value, ?_⟩
    rw [KeyMap.assign, ← hlook]
    exact (Prod.mk.inj hr).2.symm

theorem apply_spec {op : Op K V} {r : Bool} (hm : Holds h m xs)
    (hrun : m.apply h fuel op = some (m', r)) :
    Holds h m' (applyMap h m xs op).1 ∧ r = (applyMap h m xs op).2 := by
  cases op with
  | insert key value =>
    obtain ⟨⟨m₁, it, b⟩, hcall, hret⟩ := Option.map_eq_some_iff.mp hrun
    obtain ⟨rfl, rfl⟩ := Prod.mk.inj hret
    exact insert_spec hm hcall
  | insertOrAssign key value =>
    obtain ⟨⟨m₁, it, b⟩, hcall, hret⟩ := Option.map_eq_some_iff.mp hrun
    obtain ⟨rfl, rfl⟩ := Prod.mk.inj hret
    exact insertOrAssign_spec hm hcall
  | erase key =>
    obtain ⟨m₁, hcall, hm₁⟩ := erase_spec hm key
    obtain ⟨rfl, rfl⟩ := Prod.mk.inj (Option.some.inj (hcall.symm.trans hrun))
    exact ⟨hm₁, rfl⟩
  | eraseAt it =>
    obtain ⟨⟨m₁, next⟩, hcall, hret⟩ := Option.map_eq_some_iff.mp hrun
    obtain ⟨rfl, rfl⟩ := Prod.mk.inj hret
    refine ⟨eraseAt_spec hm hcall, ?_⟩
    simp only [applyMap]
    split <;> rfl
  | clear =>
    obtain ⟨rfl, rfl⟩ := Prod.mk.inj (Option.some.inj hrun)
    exact ⟨clear_spec hm, rfl⟩
  | rehash cap =>
    obtain ⟨m₁, hcall, hret⟩ := Option.map_eq_some_iff.mp hrun
    obtain ⟨rfl, rfl⟩ := Prod.mk.inj hret
    exact ⟨rehash_spec hm hcall, rfl⟩
  | reserve count =>
    obtain ⟨m₁, hcall, hret⟩ := Option.map_eq_some_iff.mp hrun
    obtain ⟨rfl, rfl⟩ := Prod.mk.inj hret
    exact ⟨rehash_spec hm hcall, rfl⟩

theorem allocTables_spec {cap : Nat} (hcap : 0 < cap) :
    Holds h (allocTables cap : CuckooHashMap K V) [] := by
  have hempty : ∀ s ∈ (allocTables cap : CuckooHashMap K V).slots, s.state = .empty := by
    intro s hs
    simp only [allocTables, slots, List.mem_append] at hs
    obtain (hs | hs) | hs := hs <;> exact mem_blankTable hs
  refine ⟨⟨blank_counted hempty ?_ ?_ rfl, ?_⟩, ?_⟩
  · simp only [allocTables, blankTable, List.length_replicate]
    omega
  · simp only [allocTables, blankTable, List.length_replicate]
    omega
  · simp [pairs_blank hempty, Distinct]
  · simp [pairs_blank hempty]

theorem run_spec (hrun : Run h m xs) : Holds h m xs := by
  induction hrun with
  | create => exact allocTables_spec (by decide)
  | withCapacity capacity =>
    exact allocTables_spec (Nat.lt_of_lt_of_le (by decide) (Nat.le_max_left _ _))
  | call hrun fuel op r hcall ih => exact (apply_spec ih hcall).1

end Calls

end Cppforge.Hash.CuckooHashMap
