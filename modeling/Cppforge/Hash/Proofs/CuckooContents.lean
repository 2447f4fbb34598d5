import Cppforge.Hash.CuckooHashMap
import Cppforge.Lib.Splice

namespace Cppforge.Hash.CuckooHashMap
open KeyMap

variable {K V : Type} {h : Hashing K} {m m' : CuckooHashMap K V} {s q e : Slot K V}
  {pos pos' : Pos} {key : K} {p : K × V} {xs : List (K × V)}

section Contents

def Slot.pair (s : Slot K V) : K × V := (s.key, s.value)

/-- The pair that iterators meet at a slot. -/
def Slot.held (s : Slot K V) : Option (K × V) := if s.state = .occupied then some s.pair else none

theorem Slot.held_eq_some : s.held = some p ↔ s.state = .occupied ∧ s.pair = p := by
  simp [Slot.held]

@[simp] theorem held_occupied (ho : s.state = .occupied) : s.held = some s.pair := by
  simp [Slot.held, ho]

@[simp] theorem held_empty (ho : s.state = .empty) : s.held = none := by
  simp [Slot.held, ho]

theorem occupied_of_ne (hne : s.state ≠ .empty) : s.state = .occupied := by
  cases hst : s.state with
  | empty => exact absurd hst hne
  | occupied => rfl

/-- The three regions in the order of iteration. -/
def slots (m : CuckooHashMap K V) : List (Slot K V) := m.table1 ++ m.table2 ++ m.stash

def pairs (m : CuckooHashMap K V) : List (K × V) := m.slots.filterMap Slot.held

/-- The place of a position in that order. -/
def offset (m : CuckooHashMap K V) : Pos → Nat
  | .t1 i => i
  | .t2 i => m.table1.length + i
  | .stash i => m.table1.length + m.table2.length + i

theorem slots_offset (hs : m.slotAt pos = some s) : m.slots[m.offset pos]? = some s := by
  cases pos with
  | t1 i =>
    have hi := (List.getElem?_eq_some_iff.mp hs).1
    rw [slots, offset, List.append_assoc, List.getElem?_append_left hi]
    exact hs
  | t2 i =>
    have hi := (List.getElem?_eq_some_iff.mp hs).1
    rw [slots, offset, List.append_assoc, List.getElem?_append_right (by omega),
      Nat.add_sub_cancel_left, List.getElem?_append_left hi]
    exact hs
  | stash i =>
    rw [slots, offset, List.getElem?_append_right (by simp), List.length_append,
      Nat.add_sub_cancel_left]
    exact hs

theorem slots_setAt (hs : m.slotAt pos = some s) (q : Slot K V) :
    (m.setAt pos q).slots = m.slots.set (m.offset pos) q := by
  cases pos with
  | t1 i =>
    have hi := (List.getElem?_eq_some_iff.mp hs).1
    simp only [setAt, slots, offset, List.append_assoc]
    rw [List.set_append_left _ _ hi]
  | t2 i =>
    have hi := (List.getElem?_eq_some_iff.mp hs).1
    simp only [setAt, slots, offset, List.append_assoc]
    rw [List.set_append_right _ _ (by omega), Nat.add_sub_cancel_left, List.set_append_left _ _ hi]
  | stash i =>
    simp only [setAt, slots, offset]
    rw [List.set_append_right _ _ (by simp), List.length_append, Nat.add_sub_cancel_left]

/-- What a slot loses and gains is what the map loses and gains. -/
theorem pairs_setAt (hs : m.slotAt pos = some s) (q : Slot K V) :
    (s.held.toList ++ (m.setAt pos q).pairs).Perm (q.held.toList ++ m.pairs) := by
  rw [pairs, pairs, slots_setAt hs]
  exact Splice.filterMap_set Slot.held (slots_offset hs) q

theorem exists_pos {i : Nat} (hi : m.slots[i]? = some s) : ∃ pos, m.slotAt pos = some s := by
  rw [slots, List.append_assoc] at hi
  by_cases h1 : i < m.table1.length
  · rw [List.getElem?_append_left h1] at hi
    exact ⟨.t1 i, hi⟩
  · rw [List.getElem?_append_right (by omega)] at hi
    by_cases h2 : i - m.table1.length < m.table2.length
    · rw [List.getElem?_append_left h2] at hi
      exact ⟨.t2 _, hi⟩
    · rw [List.getElem?_append_right (by omega)] at hi
      exact ⟨.stash _, hi⟩

theorem mem_pairs :
    p ∈ m.pairs ↔ ∃ pos s, m.slotAt pos = some s ∧ s.state = .occupied ∧ s.pair = p := by
  rw [pairs, List.mem_filterMap]
  constructor
  · intro ⟨s, hs, hp⟩
    obtain ⟨i, hi⟩ := List.mem_iff_getElem?.mp hs
    obtain ⟨pos, hpos⟩ := exists_pos hi
    exact ⟨pos, s, hpos, Slot.held_eq_some.mp hp⟩
  · intro ⟨pos, s, hs, hp⟩
    exact ⟨s, List.mem_of_getElem? (slots_offset hs), Slot.held_eq_some.mpr hp⟩

theorem slotAt_setAt_self (hs : m.slotAt pos = some s) (q : Slot K V) :
    (m.setAt pos q).slotAt pos = some q := by
  cases pos <;> exact List.getElem?_set_self (List.getElem?_eq_some_iff.mp hs).1

theorem slotAt_setAt_ne (hne : pos ≠ pos') (q : Slot K V) :
    (m.setAt pos q).slotAt pos' = m.slotAt pos' := by
  cases pos <;> cases pos' <;> simp_all [setAt, slotAt, List.getElem?_set_ne]

end Contents

section Homes

/-- The slots where a key may be. -/
def Candidate (h : Hashing K) (m : CuckooHashMap K V) (key : K) : Pos → Prop
  | .t1 i => i = m.h1 h key
  | .t2 i => i = m.h2 h key
  | .stash _ => True

/-- Every entry is in a slot where its key may be. -/
structure Homed (h : Hashing K) (m : CuckooHashMap K V) : Prop where
  len1 : m.table1.length = m.mask1 + 1
  len2 : m.table2.length = m.mask2 + 1
  home : ∀ pos s, m.slotAt pos = some s → s.state = .occupied → m.Candidate h s.key pos

theorem candidate_setAt (q : Slot K V) : (m.setAt pos q).Candidate h key pos' ↔
    m.Candidate h key pos' := by
  cases pos <;> cases pos' <;> rfl

theorem Homed.setAt (hm : Homed h m) (hs : m.slotAt pos = some s)
    (hq : q.state = .occupied → m.Candidate h q.key pos) : Homed h (m.setAt pos q) := by
  refine ⟨?_, ?_, ?_⟩
  · cases pos <;> simpa [CuckooHashMap.setAt] using hm.len1
  · cases pos <;> simpa [CuckooHashMap.setAt] using hm.len2
  · intro pos' r hr hro
    rw [candidate_setAt]
    by_cases hpos : pos = pos'
    · subst hpos
      rw [slotAt_setAt_self hs] at hr
      obtain rfl := Option.some.inj hr
      exact hq hro
    · rw [slotAt_setAt_ne hpos] at hr
      exact hm.home pos' r hr hro

@[simp] theorem setAt_size (q : Slot K V) : (m.setAt pos q).size = m.size := by
  cases pos <;> rfl

theorem Homed.slot1 (hm : Homed h m) (key : K) : ∃ s, m.slotAt (.t1 (m.h1 h key)) = some s := by
  have hle := Nat.and_le_right (n := (hashMix (h.hash key) m.seed).toNat) (m := m.mask1)
  have hlen := hm.len1
  have hlt : m.h1 h key < m.table1.length := by
    rw [h1]
    omega
  exact ⟨_, List.getElem?_eq_getElem hlt⟩

theorem Homed.slot2 (hm : Homed h m) (key : K) : ∃ s, m.slotAt (.t2 (m.h2 h key)) = some s := by
  have hle := Nat.and_le_right (n := (hashMix (h.hash key + goldenRatio) m.seed).toNat)
    (m := m.mask2)
  have hlen := hm.len2
  have hlt : m.h2 h key < m.table2.length := by
    rw [h2]
    omega
  exact ⟨_, List.getElem?_eq_getElem hlt⟩

/-- Another size changes nothing of this. -/
theorem Homed.resize (hm : Homed h m) (n : Nat) : Homed h { m with size := n } :=
  ⟨hm.len1, hm.len2, fun pos s hs => hm.home pos s (by cases pos <;> exact hs)⟩

end Homes

section Insertion

/-- What becomes of an entry, as far as the contents show. -/
def Outcome (h : Hashing K) (m : CuckooHashMap K V) (e : Slot K V) : Placed K V → Prop
  | .placed m' _ => Homed h m' ∧ m'.pairs.Perm (e.pair :: m.pairs) ∧ m'.size = m.size + 1
  | .full m' e' => Homed h m' ∧ (e'.pair :: m'.pairs).Perm (e.pair :: m.pairs) ∧
      e'.state = .occupied ∧ m'.size = m.size

theorem store_outcome (hm : Homed h m) (hs : m.slotAt pos = some s) (hfree : s.state = .empty)
    (hc : m.Candidate h e.key pos) : Outcome h m e (.placed (m.store pos e) pos) := by
  have hperm := pairs_setAt hs { e with state := .occupied }
  rw [held_empty hfree, held_occupied (s := { e with state := .occupied }) rfl] at hperm
  have hput : Homed h (m.setAt pos { e with state := .occupied }) := hm.setAt hs (fun _ => hc)
  exact ⟨hput.resize _, hperm, rfl⟩

/-- The kicks exchange the entry in hand for the one that stood there. -/
theorem swap_outcome (hm : Homed h m) (hs : m.slotAt pos = some s) (hso : s.state = .occupied)
    (heo : e.state = .occupied) (hc : m.Candidate h e.key pos) :
    Outcome h m e (.full (m.setAt pos e) s) := by
  have hperm := pairs_setAt hs e
  rw [held_occupied hso, held_occupied heo] at hperm
  exact ⟨hm.setAt hs (fun _ => hc), hperm, hso, by simp⟩

theorem Outcome.trans {r : Placed K V} (ho : Outcome h m e (.full m' q)) (hr : Outcome h m' q r) :
    Outcome h m e r := by
  obtain ⟨_, hpairs, _, hsize⟩ := ho
  cases r with
  | placed m'' pos =>
    obtain ⟨hm, hp, hn⟩ := hr
    exact ⟨hm, hp.trans hpairs, by omega⟩
  | full m'' e' =>
    obtain ⟨hm, hp, hocc, hn⟩ := hr
    exact ⟨hm, hp.trans hpairs, hocc, by omega⟩

/-- What one turn of the kick loop can do. -/
theorem kickLoop_cases {kicks : Nat} {r : Placed K V}
    (hrun : m.kickLoop h e (kicks + 1) = some r) :
    ∃ s1, m.slotAt (.t1 (m.h1 h e.key)) = some s1 ∧
      (s1.state = .empty ∧ r = .placed (m.store (.t1 (m.h1 h e.key)) e) (.t1 (m.h1 h e.key)) ∨
        s1.state = .occupied ∧ ∃ m₁ s2, m₁ = m.setAt (.t1 (m.h1 h e.key)) e ∧
          m₁.slotAt (.t2 (m₁.h2 h s1.key)) = some s2 ∧
          (s2.state = .empty ∧
              r = .placed (m₁.store (.t2 (m₁.h2 h s1.key)) s1) (.t2 (m₁.h2 h s1.key)) ∨
            s2.state = .occupied ∧
              (m₁.setAt (.t2 (m₁.h2 h s1.key)) s1).kickLoop h s2 kicks = some r)) := by
  simp only [kickLoop, Option.bind_eq_bind, Option.bind_eq_some_iff] at hrun
  obtain ⟨s1, hs1, hrun⟩ := hrun
  refine ⟨s1, hs1, ?_⟩
  split at hrun
  · rename_i hfree
    exact .inl ⟨hfree, (Option.some.inj hrun).symm⟩
  · rename_i hne1
    simp only [Option.bind_eq_some_iff] at hrun
    obtain ⟨s2, hs2, hrun⟩ := hrun
    refine .inr ⟨occupied_of_ne hne1, _, s2, rfl, hs2, ?_⟩
    split at hrun
    · rename_i hfree
      exact .inl ⟨hfree, (Option.some.inj hrun).symm⟩
    · rename_i hne2
      exact .inr ⟨occupied_of_ne hne2, hrun⟩

theorem kickLoop_outcome {kicks : Nat} {r : Placed K V} (hm : Homed h m)
    (he : e.state = .occupied) (hrun : m.kickLoop h e kicks = some r) : Outcome h m e r := by
  induction kicks generalizing m e with
  | zero =>
    obtain rfl := Option.some.inj hrun
    exact ⟨hm, .refl _, he, rfl⟩
  | succ kicks ih =>
    obtain ⟨s1, hs1, ⟨hfree, rfl⟩ | ⟨ho1, m₁, s2, rfl, hs2, hrun⟩⟩ := kickLoop_cases hrun
    · exact store_outcome hm hs1 hfree rfl
    · have hswap1 := swap_outcome hm hs1 ho1 he rfl
      refine hswap1.trans ?_
      rcases hrun with ⟨hfree, rfl⟩ | ⟨ho2, hrun⟩
      · exact store_outcome hswap1.1 hs2 hfree rfl
      · have hswap2 := swap_outcome hswap1.1 hs2 ho2 ho1 rfl
        exact hswap2.trans (ih hswap2.1 ho2 hrun)

/-- What the stash does with the entry that the kicks leave in hand. -/
theorem place_cases {r : Placed K V} (hrun : m.place h e = some r) :
    ∃ r₁, m.kickLoop h e m.maxKicks = some r₁ ∧
      ((∃ m₁ pos, r₁ = .placed m₁ pos ∧ r = .placed m₁ pos) ∨
        ∃ m₁ e₁, r₁ = .full m₁ e₁ ∧
          ((∃ i s, m₁.slotAt (.stash i) = some s ∧ s ∈ m₁.stash ∧ s.state = .empty ∧
              r = .placed (m₁.store (.stash i) e₁) (.stash i)) ∨
            (∀ s ∈ m₁.stash, s.state ≠ .empty) ∧ r = .full m₁ e₁)) := by
  simp only [place, Option.bind_eq_bind, Option.bind_eq_some_iff] at hrun
  obtain ⟨r₁, hkick, hrun⟩ := hrun
  refine ⟨r₁, hkick, ?_⟩
  cases r₁ with
  | placed m₁ pos => exact .inl ⟨m₁, pos, rfl, (Option.some.inj hrun).symm⟩
  | full m₁ e₁ =>
    refine .inr ⟨m₁, e₁, rfl, ?_⟩
    simp only at hrun
    split at hrun
    · rename_i i hfind
      obtain ⟨hi, hfree, _⟩ := List.findIdx?_eq_some_iff_getElem.mp hfind
      exact .inl ⟨i, m₁.stash[i], List.getElem?_eq_getElem hi, List.getElem_mem hi,
        by simpa using hfree, (Option.some.inj hrun).symm⟩
    · rename_i hfind
      refine .inr ⟨?_, (Option.some.inj hrun).symm⟩
      intro s hmem
      simpa using List.findIdx?_eq_none_iff.mp hfind s hmem

theorem place_outcome {r : Placed K V} (hm : Homed h m) (he : e.state = .occupied)
    (hrun : m.place h e = some r) : Outcome h m e r := by
  obtain ⟨r₁, hkick, ⟨m₁, pos, rfl, rfl⟩ | ⟨m₁, e₁, rfl, hstash⟩⟩ := place_cases hrun
  · exact kickLoop_outcome hm he hkick
  · have hone := kickLoop_outcome hm he hkick
    refine hone.trans ?_
    rcases hstash with ⟨i, s, hs, _, hfree, rfl⟩ | ⟨_, rfl⟩
    · exact store_outcome hone.1 hs hfree trivial
    · exact ⟨hone.1, .refl _, hone.2.2.1, rfl⟩

end Insertion

section Rehash

/-- What holds between two insertions. -/
structure Counted (h : Hashing K) (m : CuckooHashMap K V) : Prop where
  homed : Homed h m
  size : m.size = m.pairs.length

/-- `m'` holds one entry more than `m`. -/
def Added (h : Hashing K) (m : CuckooHashMap K V) (e : Slot K V) (m' : CuckooHashMap K V) : Prop :=
  Counted h m' ∧ m'.pairs.Perm (e.pair :: m.pairs)

theorem placed_added (hm : Counted h m) (ho : Outcome h m e (.placed m' pos)) : Added h m e m' := by
  obtain ⟨hhome, hpairs, hsize⟩ := ho
  refine ⟨⟨hhome, ?_⟩, hpairs⟩
  have hlen := hpairs.length_eq
  have := hm.size
  simp only [List.length_cons] at hlen
  omega

variable {ins : CuckooHashMap K V → Slot K V → Option (CuckooHashMap K V)}

theorem reinsert_counted
    (hins : ∀ m e m', Counted h m → e.state = .occupied → ins m e = some m' → Added h m e m')
    (hm : Counted h m) {L : List (Slot K V)} (hrun : reinsert ins m L = some m') :
    Counted h m' ∧ m'.pairs.Perm (m.pairs ++ L.filterMap Slot.held) := by
  induction L generalizing m with
  | nil =>
    obtain rfl := Option.some.inj hrun
    exact ⟨hm, by simp⟩
  | cons s L ih =>
    rw [reinsert] at hrun
    split at hrun
    · rename_i ho
      simp only [Option.bind_eq_bind, Option.bind_eq_some_iff] at hrun
      obtain ⟨m₁, hone, hrest⟩ := hrun
      obtain ⟨hm₁, hpairs₁⟩ := hins m s m₁ hm ho hone
      obtain ⟨hm', hpairs⟩ := ih hm₁ hrest
      refine ⟨hm', ?_⟩
      rw [List.filterMap_cons_some (held_occupied ho)]
      calc m'.pairs.Perm (m₁.pairs ++ L.filterMap Slot.held) := hpairs
        List.Perm _ (s.pair :: m.pairs ++ L.filterMap Slot.held) := hpairs₁.append_right _
        List.Perm _ (m.pairs ++ s.pair :: L.filterMap Slot.held) := List.perm_middle.symm
    · rename_i ho
      have hnone : s.held = none := by simp [Slot.held, ho]
      rw [List.filterMap_cons_none hnone]
      exact ih hm hrun

theorem pairs_blank (hall : ∀ s ∈ m.slots, s.state = .empty) : m.pairs = [] := by
  rw [pairs, List.filterMap_eq_nil_iff]
  intro s hs
  exact held_empty (hall s hs)

/-- Tables without entries. -/
theorem blank_counted (hall : ∀ s ∈ m.slots, s.state = .empty) (h1 : m.table1.length = m.mask1 + 1)
    (h2 : m.table2.length = m.mask2 + 1) (hsize : m.size = 0) : Counted h m := by
  refine ⟨⟨h1, h2, ?_⟩, by simp [hsize, pairs_blank hall]⟩
  intro pos s hs ho
  have := hall s (List.mem_of_getElem? (slots_offset hs))
  simp [this] at ho

variable [Inhabited K] [Inhabited V]

theorem mem_blankTable {cap : Nat} (hs : s ∈ blankTable cap) : s.state = .empty := by
  rw [List.eq_of_mem_replicate hs]

theorem blank_empty (cap : Nat) : ∀ s ∈ (m.blank cap).slots, s.state = .empty := by
  intro s hs
  simp only [blank, slots, List.mem_append, List.mem_map] at hs
  obtain (hs | hs) | ⟨r, _, rfl⟩ := hs
  · exact mem_blankTable hs
  · exact mem_blankTable hs
  · rfl

theorem blank_start (cap : Nat) : Counted h (m.blank cap) := by
  have hcap : 0 < max initialCapacity (nextPowerOfTwo cap) :=
    Nat.lt_of_lt_of_le (by decide) (Nat.le_max_left _ _)
  refine blank_counted (blank_empty cap) ?_ ?_ rfl <;>
    simp only [blank, blankTable, List.length_replicate] <;> omega

theorem rehashWith_counted {cap : Nat}
    (hins : ∀ m e m', Counted h m → e.state = .occupied → ins m e = some m' → Added h m e m')
    (hrun : rehashWith ins m cap = some m') : Counted h m' ∧ m'.pairs.Perm m.pairs := by
  obtain ⟨hm', hpairs⟩ := reinsert_counted hins (blank_start cap) hrun
  rw [pairs_blank (blank_empty cap), List.nil_append] at hpairs
  exact ⟨hm', hpairs⟩

/-- The entry in hand survives the rehashes that its insertion starts. -/
theorem insertNoResize_added {fuel : Nat} (hm : Counted h m) (he : e.state = .occupied)
    (hrun : insertNoResize h fuel m e = some m') : Added h m e m' := by
  induction fuel generalizing m e m' with
  | zero => cases hrun
  | succ fuel ih =>
    simp only [insertNoResize, Option.bind_eq_bind, Option.bind_eq_some_iff] at hrun
    obtain ⟨r, hplace, hrun⟩ := hrun
    have ho := place_outcome hm.homed he hplace
    cases r with
    | placed m₁ pos =>
      obtain rfl := Option.some.inj hrun
      exact placed_added hm ho
    | full m₁ e₁ =>
      simp only [Option.bind_eq_some_iff] at hrun
      obtain ⟨m₂, hrehash, hretry⟩ := hrun
      obtain ⟨hm₂, hpairs₂⟩ := rehashWith_counted (fun _ _ _ hm he hrun => ih hm he hrun) hrehash
      obtain ⟨hm', hpairs⟩ := ih hm₂ ho.2.2.1 hretry
      exact ⟨hm', hpairs.trans ((hpairs₂.cons _).trans ho.2.1)⟩

theorem rehashImpl_counted {fuel cap : Nat} (hrun : m.rehashImpl h fuel cap = some m') :
    Counted h m' ∧ m'.pairs.Perm m.pairs :=
  rehashWith_counted (fun _ _ _ hm he hrun => insertNoResize_added hm he hrun) hrun

/-- The two insertions differ in what they return only. -/
theorem insertNewEntry_fst (fuel : Nat) (m : CuckooHashMap K V) (e : Slot K V) :
    (insertNewEntry h fuel m e).map Prod.fst = insertNoResize h fuel m e := by
  induction fuel generalizing m e with
  | zero => rfl
  | succ fuel ih =>
    simp only [insertNewEntry, insertNoResize, rehashImpl, Option.bind_eq_bind, Option.map_bind]
    refine congrArg _ (funext fun r => ?_)
    cases r with
    | placed m₁ pos => rfl
    | full m₁ e₁ =>
      simp only [Function.comp_apply, Option.map_bind]
      exact congrArg _ (funext fun m₂ => ih m₂ e₁)

theorem insertNewEntry_added {fuel : Nat} (hm : Counted h m) (he : e.state = .occupied)
    (hrun : insertNewEntry h fuel m e = some (m', pos)) : Added h m e m' := by
  have hsame := insertNewEntry_fst (h := h) fuel m e
  rw [hrun] at hsame
  exact insertNoResize_added hm he hsame.symm

end Rehash

end Cppforge.Hash.CuckooHashMap
