import Cppforge.Hash.Proofs.CuckooMoves

namespace Cppforge.Hash.CuckooHashMap
open KeyMap

variable {K V : Type} {h : Hashing K} {m m₁ m₂ m' : CuckooHashMap K V} {s q q₁ q₂ e : Slot K V}
  {pos : Pos} {key : K} {i j : Nat}

section Evictions

/-- Where an entry in hand goes to: its slots in the two tables by turns. -/
def turn (h : Hashing K) (m : CuckooHashMap K V) (i : Nat) (key : K) : Pos :=
  if i % 2 = 0 then .t1 (m.h1 h key) else .t2 (m.h2 h key)

/-- After `i` evictions from `m` with `e` in hand the tables are `m'` and `q` is in hand. -/
inductive Evicts (h : Hashing K) (m : CuckooHashMap K V) (e : Slot K V) :
    Nat → CuckooHashMap K V → Slot K V → Prop
  | start : Evicts h m e 0 m e
  | next {i : Nat} {m' : CuckooHashMap K V} {q s : Slot K V} (hbefore : Evicts h m e i m' q)
      (hslot : m'.slotAt (m'.turn h i q.key) = some s) (hocc : s.state = .occupied) :
      Evicts h m e (i + 1) (m'.setAt (m'.turn h i q.key) q) s

theorem Evicts.unique (h₁ : Evicts h m e i m₁ q₁) (h₂ : Evicts h m e i m₂ q₂) :
    m₁ = m₂ ∧ q₁ = q₂ := by
  induction h₁ generalizing m₂ q₂ with
  | start =>
    cases h₂ with
    | start => exact ⟨rfl, rfl⟩
  | next _ hslot _ ih =>
    cases h₂ with
    | next hbefore hslot₂ _ =>
      obtain ⟨rfl, rfl⟩ := ih hbefore
      obtain rfl := Option.some.inj (hslot.symm.trans hslot₂)
      exact ⟨rfl, rfl⟩

/-- Where evictions go on, the slot was occupied. -/
theorem Evicts.occupied (hj : Evicts h m e j m₁ q₁) (hlt : i < j) (hi : Evicts h m e i m₂ q₂) :
    ∃ s, m₂.slotAt (m₂.turn h i q₂.key) = some s ∧ s.state = .occupied := by
  induction hj with
  | start => exact absurd hlt (Nat.not_lt_zero i)
  | next hbefore hslot hocc ih =>
    rcases Nat.lt_succ_iff_lt_or_eq.mp hlt with hlt | rfl
    · exact ih hlt
    · obtain ⟨rfl, rfl⟩ := hbefore.unique hi
      exact ⟨_, hslot, hocc⟩

/-- How a round of kicks ends: at a free slot, or with the last entry driven out in hand. -/
def Ended (h : Hashing K) (m : CuckooHashMap K V) (e : Slot K V) (n : Nat) : Placed K V → Prop
  | .placed m' pos => ∃ i m₁ q s, Evicts h m e i m₁ q ∧ i < n ∧ pos = m₁.turn h i q.key ∧
      m₁.slotAt pos = some s ∧ s.state = .empty ∧ m' = m₁.store pos q
  | .full m' q => Evicts h m e n m' q

theorem kickLoop_ended {kicks : Nat} {r : Placed K V} (hev : Evicts h m e (2 * j) m₁ q)
    (hrun : m₁.kickLoop h q kicks = some r) : Ended h m e (2 * (j + kicks)) r := by
  induction kicks generalizing j m₁ q with
  | zero =>
    obtain rfl := Option.some.inj hrun
    exact hev
  | succ kicks ih =>
    have hturn1 : m₁.turn h (2 * j) q.key = .t1 (m₁.h1 h q.key) := if_pos (by omega)
    obtain ⟨s1, hs1, hrun⟩ := kickLoop_cases hrun
    rw [← hturn1] at hs1 hrun
    rcases hrun with ⟨hfree, rfl⟩ | ⟨ho1, m₂, s2, rfl, hs2, hrun⟩
    · exact ⟨2 * j, m₁, q, s1, hev, by omega, rfl, hs1, hfree, rfl⟩
    · have hev1 := hev.next hs1 ho1
      have hturn2 : (m₁.setAt (m₁.turn h (2 * j) q.key) q).turn h (2 * j + 1) s1.key =
          .t2 ((m₁.setAt (m₁.turn h (2 * j) q.key) q).h2 h s1.key) := if_neg (by omega)
      rw [← hturn2] at hs2 hrun
      rcases hrun with ⟨hfree, rfl⟩ | ⟨ho2, hrun⟩
      · exact ⟨2 * j + 1, _, s1, s2, hev1, by omega, rfl, hs2, hfree, rfl⟩
      · have hrest := ih (j := j + 1) (hev1.next hs2 ho2) hrun
        rwa [show j + 1 + kicks = j + (kicks + 1) by omega] at hrest

end Evictions

section Fuel
variable {ins ins' : CuckooHashMap K V → Slot K V → Option (CuckooHashMap K V)}

theorem reinsert_mono (hins : ∀ m e m', ins m e = some m' → ins' m e = some m')
    {L : List (Slot K V)} (hrun : reinsert ins m L = some m') : reinsert ins' m L = some m' := by
  induction L generalizing m with
  | nil => exact hrun
  | cons s L ih =>
    rw [reinsert] at hrun ⊢
    split at hrun
    · rename_i ho
      simp only [Option.bind_eq_bind, Option.bind_eq_some_iff] at hrun
      obtain ⟨m₁, hone, hrest⟩ := hrun
      simp only [ho, if_true, Option.bind_eq_bind, hins m s m₁ hone, Option.bind_some, ih hrest]
    · rename_i ho
      rw [if_neg ho]
      exact ih hrun

variable [Inhabited K] [Inhabited V] {fuel fuel' : Nat}

/-- More depth than enough changes nothing. -/
theorem insertNoResize_mono (hle : fuel ≤ fuel') (hrun : insertNoResize h fuel m e = some m') :
    insertNoResize h fuel' m e = some m' := by
  induction fuel generalizing fuel' m e m' with
  | zero => cases hrun
  | succ fuel ih =>
    obtain ⟨fuel', rfl⟩ : ∃ n, fuel' = n + 1 := ⟨fuel' - 1, by omega⟩
    have hle : fuel ≤ fuel' := by omega
    simp only [insertNoResize, Option.bind_eq_bind, Option.bind_eq_some_iff] at hrun ⊢
    obtain ⟨r, hplace, hrun⟩ := hrun
    refine ⟨r, hplace, ?_⟩
    cases r with
    | placed m₁ pos => exact hrun
    | full m₁ e₁ =>
      simp only [Option.bind_eq_some_iff] at hrun ⊢
      obtain ⟨m₂, hrehash, hretry⟩ := hrun
      exact ⟨m₂, reinsert_mono (fun _ _ _ hone => ih hle hone) hrehash, ih hle hretry⟩

theorem rehashImpl_mono {cap : Nat} (hle : fuel ≤ fuel') (hrun : m.rehashImpl h fuel cap = some m') :
    m.rehashImpl h fuel' cap = some m' :=
  reinsert_mono (fun _ _ _ hone => insertNoResize_mono hle hone) hrun

theorem insertNewEntry_mono (hle : fuel ≤ fuel')
    (hrun : insertNewEntry h fuel m e = some (m', pos)) :
    insertNewEntry h fuel' m e = some (m', pos) := by
  induction fuel generalizing fuel' m e with
  | zero => cases hrun
  | succ fuel ih =>
    obtain ⟨fuel', rfl⟩ : ∃ n, fuel' = n + 1 := ⟨fuel' - 1, by omega⟩
    have hle : fuel ≤ fuel' := by omega
    simp only [insertNewEntry, Option.bind_eq_bind, Option.bind_eq_some_iff] at hrun ⊢
    obtain ⟨r, hplace, hrun⟩ := hrun
    refine ⟨r, hplace, ?_⟩
    cases r with
    | placed m₁ pos₁ => exact hrun
    | full m₁ e₁ =>
      simp only [Option.bind_eq_some_iff] at hrun ⊢
      obtain ⟨m₂, hrehash, hretry⟩ := hrun
      exact ⟨m₂, rehashImpl_mono hle hrehash, ih hle hretry⟩

theorem rehashImpl_unique {cap : Nat} (h₁ : m.rehashImpl h fuel cap = some m₁)
    (h₂ : m.rehashImpl h fuel' cap = some m₂) : m₁ = m₂ := by
  have hone := rehashImpl_mono (Nat.le_max_left fuel fuel') h₁
  have htwo := rehashImpl_mono (Nat.le_max_right fuel fuel') h₂
  exact Option.some.inj (hone.symm.trans htwo)

end Fuel

section Rest

theorem slotAt_store (hs : m.slotAt pos = some s) (q : Slot K V) :
    (m.store pos q).slotAt pos = some { q with state := .occupied } := by
  have hset := slotAt_setAt_self hs { q with state := .occupied }
  cases pos <;> exact hset

variable [Inhabited K] [Inhabited V] {fuel : Nat}

/-- The evictions that start with `e` in hand come to rest with `q`: it finds a free slot, or it
is in hand after the last kick and the stash has a free slot, or, the stash being full, the same
is so after the rehash. -/
inductive Rests (h : Hashing K) : CuckooHashMap K V → Slot K V → Slot K V → Prop
  | slot {m m' : CuckooHashMap K V} {e q s : Slot K V} {i : Nat} (hev : Evicts h m e i m' q)
      (hlt : i < 2 * m.maxKicks) (hslot : m'.slotAt (m'.turn h i q.key) = some s)
      (hfree : s.state = .empty) : Rests h m e q
  | stash {m m' : CuckooHashMap K V} {e q : Slot K V} (hev : Evicts h m e (2 * m.maxKicks) m' q)
      (hfree : ∃ s ∈ m'.stash, s.state = .empty) : Rests h m e q
  | rehash {m m' m'' : CuckooHashMap K V} {e q r : Slot K V} {fuel : Nat}
      (hev : Evicts h m e (2 * m.maxKicks) m' q) (hfull : ∀ s ∈ m'.stash, s.state ≠ .empty)
      (hrehash : m'.rehashImpl h fuel (m'.table1.length * 2) = some m'')
      (hrest : Rests h m'' q r) : Rests h m e r

/-- A chain of evictions comes to rest with one entry only. -/
theorem Rests.unique (h₁ : Rests h m e q₁) (h₂ : Rests h m e q₂) : q₁ = q₂ := by
  have hfree_ne : ∀ {s : Slot K V}, s.state = .empty → ¬ s.state = .occupied := by
    intro s hs ho
    rw [hs] at ho
    cases ho
  induction h₁ with
  | @slot _ _ _ _ _ i hev hlt hslot hfree =>
    cases h₂ with
    | @slot _ _ _ _ _ j hev' hlt' hslot' hfree' =>
      rcases Nat.lt_trichotomy i j with hij | rfl | hij
      · obtain ⟨s, hs, ho⟩ := hev'.occupied hij hev
        exact absurd ho (hfree_ne (Option.some.inj (hs.symm.trans hslot) ▸ hfree))
      · exact (hev.unique hev').2
      · obtain ⟨s, hs, ho⟩ := hev.occupied hij hev'
        exact absurd ho (hfree_ne (Option.some.inj (hs.symm.trans hslot') ▸ hfree'))
    | stash hev' _ =>
      obtain ⟨s, hs, ho⟩ := hev'.occupied hlt hev
      exact absurd ho (hfree_ne (Option.some.inj (hs.symm.trans hslot) ▸ hfree))
    | rehash hev' _ _ _ =>
      obtain ⟨s, hs, ho⟩ := hev'.occupied hlt hev
      exact absurd ho (hfree_ne (Option.some.inj (hs.symm.trans hslot) ▸ hfree))
  | stash hev hfree =>
    cases h₂ with
    | slot hev' hlt hslot hfree' =>
      obtain ⟨s, hs, ho⟩ := hev.occupied hlt hev'
      exact absurd ho (hfree_ne (Option.some.inj (hs.symm.trans hslot) ▸ hfree'))
    | stash hev' _ => exact (hev.unique hev').2
    | rehash hev' hfull _ _ =>
      obtain ⟨rfl, rfl⟩ := hev.unique hev'
      obtain ⟨s, hmem, hs⟩ := hfree
      exact absurd hs (hfull s hmem)
  | rehash hev hfull hrehash hrest ih =>
    cases h₂ with
    | slot hev' hlt hslot hfree' =>
      obtain ⟨s, hs, ho⟩ := hev.occupied hlt hev'
      exact absurd ho (hfree_ne (Option.some.inj (hs.symm.trans hslot) ▸ hfree'))
    | stash hev' hfree =>
      obtain ⟨rfl, rfl⟩ := hev.unique hev'
      obtain ⟨s, hmem, hs⟩ := hfree
      exact absurd hs (hfull s hmem)
    | rehash hev' _ hrehash' hrest' =>
      obtain ⟨rfl, rfl⟩ := hev.unique hev'
      obtain rfl := rehashImpl_unique hrehash hrehash'
      exact ih hrest'

/-- The kicks and the stash either bring the evictions to rest or leave an entry in hand. -/
theorem place_rests {r : Placed K V} (hrun : m.place h e = some r) :
    (∃ m' pos q, r = .placed m' pos ∧ Rests h m e q ∧
      m'.slotAt pos = some { q with state := .occupied }) ∨
    ∃ m' q, r = .full m' q ∧ Evicts h m e (2 * m.maxKicks) m' q ∧ ∀ s ∈ m'.stash, s.state ≠ .empty := by
  obtain ⟨r₁, hkick, hcases⟩ := place_cases hrun
  have hended := kickLoop_ended (j := 0) Evicts.start hkick
  rw [Nat.zero_add] at hended
  rcases hcases with ⟨m₁, pos, rfl, rfl⟩ | ⟨m₁, e₁, rfl, hstash⟩
  · obtain ⟨i, m₂, q, s, hev, hlt, rfl, hslot, hfree, rfl⟩ := hended
    exact .inl ⟨_, _, q, rfl, .slot hev hlt hslot hfree, slotAt_store hslot q⟩
  · rcases hstash with ⟨i, s, hslot, hmem, hfree, rfl⟩ | ⟨hfull, rfl⟩
    · exact .inl ⟨_, _, e₁, rfl, .stash hended ⟨s, hmem, hfree⟩, slotAt_store hslot e₁⟩
    · exact .inr ⟨m₁, e₁, rfl, hended, hfull⟩

/-- Evictions that come to rest are those of an insertion that returns. -/
theorem Rests.returns (hrest : Rests h m e q) (hm : Counted h m) (he : e.state = .occupied) :
    ∃ fuel m' pos, insertNewEntry h fuel m e = some (m', pos) := by
  induction hrest with
  | slot hev hlt hslot hfree =>
    obtain ⟨r, hplace⟩ := place_some hm.homed he
    obtain ⟨m₁, pos, _, rfl, _⟩ | ⟨m₁, q₁, rfl, hev', _⟩ := place_rests hplace
    · exact ⟨1, m₁, pos, by simp [insertNewEntry, hplace]⟩
    · obtain ⟨s, hs, ho⟩ := hev'.occupied hlt hev
      rw [Option.some.inj (hs.symm.trans hslot), hfree] at ho
      cases ho
  | stash hev hfree =>
    obtain ⟨r, hplace⟩ := place_some hm.homed he
    obtain ⟨m₁, pos, _, rfl, _⟩ | ⟨m₁, q₁, rfl, hev', hfull⟩ := place_rests hplace
    · exact ⟨1, m₁, pos, by simp [insertNewEntry, hplace]⟩
    · obtain ⟨rfl, rfl⟩ := hev.unique hev'
      obtain ⟨s, hmem, hs⟩ := hfree
      exact absurd hs (hfull s hmem)
  | rehash hev hfull hrehash hrest ih =>
    rename_i fuel
    obtain ⟨r, hplace⟩ := place_some hm.homed he
    have ho := place_outcome hm.homed he hplace
    obtain ⟨m₁, pos, _, rfl, _⟩ | ⟨m₁, q₁, rfl, hev', _⟩ := place_rests hplace
    · exact ⟨1, m₁, pos, by simp [insertNewEntry, hplace]⟩
    · obtain ⟨rfl, rfl⟩ := hev.unique hev'
      obtain ⟨fuel', m₂, pos, hretry⟩ := ih (rehashImpl_counted hrehash).1 ho.2.2.1
      have hone := rehashImpl_mono (Nat.le_max_left fuel fuel') hrehash
      have htwo := insertNewEntry_mono (Nat.le_max_right fuel fuel') hretry
      exact ⟨max fuel fuel' + 1, m₂, pos, by simp [insertNewEntry, hplace, hone, htwo]⟩

end Rest

section Iterators
variable [Inhabited K] [Inhabited V] {fuel : Nat} {value : V}

end Iterators

end Cppforge.Hash.CuckooHashMap
