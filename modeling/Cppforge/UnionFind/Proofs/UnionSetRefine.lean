import Cppforge.Lib.Run
import Cppforge.UnionFind.UnionSet

namespace Cppforge.UnionFind.UnionSet
open Function Forest

variable {T : Type} [DecidableEq T] {s s' : UnionSet T} {x y cur root r : T} {l : List T}
  {m : AList fun _ : T => T} {turns : Nat} {R : T → T → Prop}

/-- The parent of an element; one that is not registered is its own. -/
def upOf (m : AList fun _ : T => T) (x : T) : T := (m.lookup x).getD x

def rankOf (m : AList fun _ : T => Nat) (x : T) : Nat := (m.lookup x).getD 0

theorem upOf_insert (m : AList fun _ : T => T) (x r : T) :
    upOf (m.insert x r) = update (upOf m) x r := by
  funext y
  by_cases hy : y = x
  · subst hy
    simp [upOf]
  · simp [upOf, hy]

theorem rankOf_insert (m : AList fun _ : T => Nat) (x : T) (k : Nat) :
    rankOf (m.insert x k) = update (rankOf m) x k := by
  funext y
  by_cases hy : y = x
  · subst hy
    simp [rankOf]
  · simp [rankOf, hy]

theorem lookup_upOf (h : x ∈ m) : m.lookup x = some (upOf m x) := by
  obtain ⟨p, hp⟩ := Option.isSome_iff_exists.mp (AList.lookup_isSome.mpr h)
  rw [upOf, hp, Option.getD_some]

theorem lookup_rankOf {m : AList fun _ : T => Nat} (h : x ∈ m) : m.lookup x = some (rankOf m x) := by
  obtain ⟨k, hk⟩ := Option.isSome_iff_exists.mp (AList.lookup_isSome.mpr h)
  rw [rankOf, hk, Option.getD_some]

/-- The links are a forest over the registered elements, with ranks that increase along it,
and its classes are those of what was united. -/
structure Valid (s : UnionSet T) (R : T → T → Prop) : Prop where
  forest : Represents (upOf s.parent) R
  closed : ∀ x ∈ s.parent, upOf s.parent x ∈ s.parent
  ranked : ∀ x ∈ s.parent, x ∈ s.rank
  rank_lt : ∀ x, upOf s.parent x ≠ x → rankOf s.rank x < rankOf s.rank (upOf s.parent x)

theorem valid_create : Valid (create : UnionSet T) (fun _ _ => False) := by
  have hid : upOf (create : UnionSet T).parent = id := rfl
  refine ⟨hid ▸ represents_id, ?_, ?_, ?_⟩
  · intro x hx
    exact absurd hx (AList.notMem_empty x)
  · intro x hx
    exact absurd hx (AList.notMem_empty x)
  · intro x hx
    exact absurd rfl hx

section Finding

theorem upOf_ensure : upOf (s.ensureRegistered x).parent = upOf s.parent := by
  funext y
  by_cases hy : y = x
  · subst hy
    simp [upOf, ensureRegistered, FiniteMap.lookup_tryEmplace]
  · simp [upOf, ensureRegistered, FiniteMap.lookup_tryEmplace_ne _ hy]

theorem rankOf_ensure : rankOf (s.ensureRegistered x).rank = rankOf s.rank := by
  funext y
  by_cases hy : y = x
  · subst hy
    simp [rankOf, ensureRegistered, FiniteMap.lookup_tryEmplace]
  · simp [rankOf, ensureRegistered, FiniteMap.lookup_tryEmplace_ne _ hy]

theorem mem_ensure : y ∈ (s.ensureRegistered x).parent ↔ y = x ∨ y ∈ s.parent :=
  FiniteMap.mem_tryEmplace s.parent x x

theorem mem_ensure_rank : y ∈ (s.ensureRegistered x).rank ↔ y = x ∨ y ∈ s.rank :=
  FiniteMap.mem_tryEmplace s.rank x 0

theorem Valid.ensure (h : Valid s R) (x : T) : Valid (s.ensureRegistered x) R := by
  refine ⟨?_, ?_, ?_, ?_⟩
  · rw [upOf_ensure]
    exact h.forest
  · intro y hy
    rw [upOf_ensure, mem_ensure]
    rcases mem_ensure.mp hy with rfl | hy
    · by_cases hmem : y ∈ s.parent
      · exact .inr (h.closed y hmem)
      · exact .inl (by rw [upOf, AList.lookup_eq_none.mpr hmem, Option.getD_none])
    · exact .inr (h.closed y hy)
  · intro y hy
    exact mem_ensure_rank.mpr ((mem_ensure.mp hy).imp id (h.ranked y))
  · rw [upOf_ensure, rankOf_ensure]
    exact h.rank_lt

/-- Compression ends. It registers nothing and moves no element to another root; a link it
changes leads to the root from then on. -/
theorem compress_spec (hp : Path (upOf m) cur l root) (hmem : ∀ y ∈ root :: l, y ∈ m)
    (hturns : l.length < turns) :
    ∃ m', compress root turns cur m = some m' ∧ (∀ y, y ∈ m' ↔ y ∈ m) ∧
      (∀ y r, Root (upOf m) y r → Root (upOf m') y r) ∧
      ∀ y, upOf m' y = upOf m y ∨ (upOf m' y = root ∧ y ∈ l) := by
  induction l generalizing cur m turns with
  | nil =>
    obtain ⟨turns, rfl⟩ := Nat.exists_eq_add_one_of_ne_zero (Nat.ne_zero_of_lt hturns)
    cases hp with
    | root hr =>
      refine ⟨m, ?_, by simp, by simp, by simp⟩
      simp [compress, lookup_upOf (hmem root (by simp)), hr]
  | cons c l ih =>
    obtain ⟨turns, rfl⟩ := Nat.exists_eq_add_one_of_ne_zero (Nat.ne_zero_of_lt hturns)
    have hnodup := List.nodup_cons.mp hp.nodup
    have hroot := hp.is_root
    cases hp with
    | step hcur tail =>
      have hlookup := lookup_upOf (hmem c (by simp))
      by_cases hnext : upOf m c = root
      · exact ⟨m, by simp [compress, hlookup, hnext], by simp, by simp, by simp⟩
      · have hne : c ≠ root := by
          rintro rfl
          exact hcur hroot
        have hup := upOf_insert m c root
        have htail : Path (upOf (m.insert c root)) (upOf m c) l root := by
          rw [hup]
          exact tail.frame hnodup.1 hne
        have hmem' : ∀ y ∈ root :: l, y ∈ m.insert c root := by
          intro y hy
          refine (AList.mem_insert m).mpr (.inr (hmem y ?_))
          rcases List.mem_cons.mp hy with rfl | hy
          · exact List.mem_cons_self
          · exact List.mem_cons_of_mem _ (List.mem_cons_of_mem _ hy)
        obtain ⟨m', hrun, hkeys, hroots, hlinks⟩ := ih htail hmem' (Nat.lt_of_succ_lt_succ hturns)
        refine ⟨m', by simp [compress, hlookup, hnext, hrun], ?_, ?_, ?_⟩
        · intro y
          rw [hkeys, AList.mem_insert]
          exact ⟨fun h => h.elim (fun heq => heq ▸ hmem c (by simp)) id, .inr⟩
        · intro y r hr
          refine hroots y r ?_
          rw [hup]
          exact Root.compress hcur ⟨_, .step hcur tail⟩ hr
        · intro y
          rcases hlinks y with hy | ⟨hy, hl⟩
          · rw [hup] at hy
            by_cases hyc : y = c
            · subst hyc
              exact .inr ⟨by rw [hy, update_self], List.mem_cons_self⟩
            · exact .inl (by rw [hy, update_of_ne hyc])
          · exact .inr ⟨hy, List.mem_cons_of_mem c hl⟩

/-- `find` ends at the root, registers the element and moves no element to another root. -/
theorem Valid.find (h : Valid s R) (x : T) :
    ∃ r s', s.find x = some (r, s') ∧ Root (upOf s.parent) x r ∧ r ∈ s'.parent ∧ Valid s' R ∧
      (∀ y ∈ s.parent, y ∈ s'.parent) ∧
      ∀ y t, Root (upOf s.parent) y t → Root (upOf s'.parent) y t := by
  have hs := h.ensure x
  have hup : upOf (s.ensureRegistered x).parent = upOf s.parent := upOf_ensure
  have hx : x ∈ (s.ensureRegistered x).parent := mem_ensure.mpr (.inl rfl)
  obtain ⟨r, l, hp⟩ := hs.forest.rooted x
  have hmem := hp.closed hs.closed hx
  have hlen : l.length < (s.ensureRegistered x).parent.keys.length := by
    have hlt := hp.length_lt (S := (s.ensureRegistered x).parent.keys.toFinset)
      (fun y hy => List.mem_toFinset.mpr (hs.closed y (List.mem_toFinset.mp hy)))
      (List.mem_toFinset.mpr hx)
    rwa [List.toFinset_card_of_nodup (AList.keys_nodup _)] at hlt
  have hclimb : climb (fun cur => (s.ensureRegistered x).parent.lookup cur)
      (s.ensureRegistered x).parent.keys.length x = some r :=
    hp.climb (fun y hy => lookup_upOf (hmem y hy)) hlen
  obtain ⟨m', hrun, hkeys, hroots, hlinks⟩ := compress_spec hp hmem hlen
  refine ⟨r, ⟨m', (s.ensureRegistered x).rank⟩, by simp [UnionSet.find, hclimb, hrun],
    ⟨l, hup ▸ hp⟩, (hkeys r).mpr (hmem r List.mem_cons_self), ⟨?_, ?_, ?_, ?_⟩, ?_, ?_⟩
  · exact hs.forest.same_roots hroots
  · intro y hy
    rw [hkeys] at hy ⊢
    rcases hlinks y with hlink | ⟨hlink, _⟩
    · exact hlink ▸ hs.closed y hy
    · exact hlink ▸ hmem r List.mem_cons_self
  · intro y hy
    exact hs.ranked y ((hkeys y).mp hy)
  · intro y hy
    rcases hlinks y with hlink | ⟨hlink, hyl⟩
    · change upOf m' y ≠ y at hy
      change _ < rankOf _ (upOf m' y)
      rw [hlink] at hy ⊢
      exact hs.rank_lt y hy
    · change _ < rankOf _ (upOf m' y)
      rw [hlink]
      exact hp.rank_lt hs.rank_lt y hyl
  · intro y hy
    exact (hkeys y).mpr (mem_ensure.mpr (.inr hy))
  · intro y t hy
    exact hroots y t (hup.symm ▸ hy)

/-- Two searches, the second after the compression of the first. -/
theorem Valid.find_both (h : Valid s R) (x y : T) :
    ∃ rx s₁ ry s₂, s.find x = some (rx, s₁) ∧ s₁.find y = some (ry, s₂) ∧ Valid s₂ R ∧
      rx ∈ s₂.parent ∧ ry ∈ s₂.parent ∧ Root (upOf s₂.parent) x rx ∧ Root (upOf s₂.parent) y ry := by
  obtain ⟨rx, s₁, hx, hrx, hmx, h₁, _, hroots⟩ := h.find x
  obtain ⟨ry, s₂, hy, hry, hmy, h₂, hkept, hroots'⟩ := h₁.find y
  exact ⟨rx, s₁, ry, s₂, hx, hy, h₂, hkept rx hmx, hmy, hroots' x rx (hroots x rx hrx),
    hroots' y ry hry⟩

end Finding

section Uniting

theorem Valid.connected (h : Valid s R) (x y : T) :
    ∃ s' b, s.connected x y = some (s', b) ∧ Valid s' R ∧ (b = true ↔ Relation.EqvGen R x y) := by
  obtain ⟨rx, s₁, ry, s₂, hx, hy, h₂, _, _, hrx, hry⟩ := h.find_both x y
  refine ⟨s₂, rx == ry, by simp [UnionSet.connected, hx, hy], h₂, ?_⟩
  rw [beq_iff_eq, ← h₂.forest.linked, linked_iff hrx hry]

/-- A root put under another, whose rank is higher in the end. -/
theorem Valid.attach {R' : T → T → Prop} {child root : T} {rank : AList fun _ : T => Nat}
    (h : Valid s R) (hroot : upOf s.parent root = root) (hmem : root ∈ s.parent)
    (hchild : child ∈ s.parent) (hne : child ≠ root)
    (hforest : Represents (update (upOf s.parent) child root) R') (hkeys : ∀ x ∈ s.rank, x ∈ rank)
    (hsame : ∀ x, x ≠ root → rankOf rank x = rankOf s.rank x)
    (hgrow : rankOf s.rank root ≤ rankOf rank root) (hless : rankOf s.rank child < rankOf rank root) :
    Valid ⟨s.parent.insert child root, rank⟩ R' := by
  have hin : ∀ x ∈ s.parent.insert child root, x ∈ s.parent := by
    intro x hx
    rcases (AList.mem_insert _).mp hx with rfl | hx
    · exact hchild
    · exact hx
  refine ⟨?_, ?_, ?_, ?_⟩
  · rw [upOf_insert]
    exact hforest
  · intro x hx
    rw [upOf_insert, AList.mem_insert]
    by_cases hxc : x = child
    · rw [hxc, update_self]
      exact .inr hmem
    · rw [update_of_ne hxc]
      exact .inr (h.closed x (hin x hx))
  · intro x hx
    exact hkeys x (h.ranked x (hin x hx))
  · intro x hx
    rw [upOf_insert] at hx ⊢
    by_cases hxc : x = child
    · rw [hxc, update_self, hsame child hne]
      exact hless
    · rw [update_of_ne hxc] at hx ⊢
      have hxr : x ≠ root := by
        rintro rfl
        exact hx hroot
      rw [hsame x hxr]
      refine (h.rank_lt x hx).trans_le ?_
      by_cases hup : upOf s.parent x = root
      · rw [hup]
        exact hgrow
      · exact (hsame _ hup).ge

theorem Valid.unionSets (h : Valid s R) (x y : T) :
    ∃ s' b, s.unionSets x y = some (s', b) ∧ Valid s' (fun u v => R u v ∨ u = x ∧ v = y) := by
  obtain ⟨rx, s₁, ry, s₂, hx, hy, h₂, hmx, hmy, hrx, hry⟩ := h.find_both x y
  by_cases hsame : rx = ry
  · subst hsame
    exact ⟨s₂, false, by simp [UnionSet.unionSets, hx, hy], h₂.forest.again ⟨rx, hrx, hry⟩,
      h₂.closed, h₂.ranked, h₂.rank_lt⟩
  · have hkx := lookup_rankOf (h₂.ranked rx hmx)
    have hky := lookup_rankOf (h₂.ranked ry hmy)
    have hunder := h₂.forest.link hrx hry hsame
    have hover := h₂.forest.link_back hrx hry hsame
    by_cases hless : rankOf s₂.rank rx < rankOf s₂.rank ry
    · refine ⟨⟨s₂.parent.insert rx ry, s₂.rank⟩, true,
        by simp [UnionSet.unionSets, hx, hy, hsame, hkx, hky, hless], ?_⟩
      exact h₂.attach hry.is_root hmy hmx hsame hunder (fun _ => id) (fun _ _ => rfl) le_rfl hless
    · by_cases hmore : rankOf s₂.rank ry < rankOf s₂.rank rx
      · refine ⟨⟨s₂.parent.insert ry rx, s₂.rank⟩, true,
          by simp [UnionSet.unionSets, hx, hy, hsame, hkx, hky, hless, hmore], ?_⟩
        exact h₂.attach hrx.is_root hmx hmy (Ne.symm hsame) hover (fun _ => id) (fun _ _ => rfl)
          le_rfl hmore
      · refine ⟨⟨s₂.parent.insert ry rx, s₂.rank.insert rx (rankOf s₂.rank rx + 1)⟩, true,
          by simp [UnionSet.unionSets, hx, hy, hsame, hkx, hky, hless, hmore], ?_⟩
        refine h₂.attach hrx.is_root hmx hmy (Ne.symm hsame) hover
          (fun z hz => (AList.mem_insert _).mpr (.inr hz)) ?_ ?_ ?_
        · intro z hz
          rw [rankOf_insert, update_of_ne hz]
        · rw [rankOf_insert, update_self]
          exact Nat.le_succ _
        · rw [rankOf_insert, update_self]
          omega

end Uniting

/-- The pairs that were united. -/
def effect (pairs : List (T × T)) : Op T → List (T × T)
  | .find _ => pairs
  | .connected _ _ => pairs
  | .unionSets x y => pairs ++ [(x, y)]

def United (pairs : List (T × T)) (x y : T) : Prop := (x, y) ∈ pairs

/-- The forest is that of the unions performed. -/
def Follows (s : UnionSet T) (pairs : List (T × T)) : Prop := Valid s (United pairs)

variable {pairs : List (T × T)}

theorem Follows.step (h : Follows s pairs) (op : Op T) :
    ∃ s', s.step op = some s' ∧ Follows s' (effect pairs op) := by
  cases op with
  | find x =>
    obtain ⟨r, s', hfind, _, _, hs', _⟩ := Valid.find h x
    exact ⟨s', by simp [UnionSet.step, hfind], hs'⟩
  | connected x y =>
    obtain ⟨s', b, hconn, hs', _⟩ := Valid.connected h x y
    exact ⟨s', by simp [UnionSet.step, hconn], hs'⟩
  | unionSets x y =>
    obtain ⟨s', b, hunion, hs'⟩ := Valid.unionSets h x y
    refine ⟨s', by simp [UnionSet.step, hunion],
      hs'.forest.congr ?_, hs'.closed, hs'.ranked, hs'.rank_lt⟩
    intro u v
    simp [United, effect]

/-- After any searches and unions the links are a forest with increasing ranks. A search ends
and moves no element to another root, and two elements have one root exactly when the unions
link them. -/
theorem run_unions (ops : List (Op T)) :
    ∃ s : UnionSet T, ops.foldlM UnionSet.step create = some s ∧
      (∀ x, ∃ r s', s.find x = some (r, s') ∧
        ∀ y t, Root (upOf s'.parent) y t ↔ Root (upOf s.parent) y t) ∧
      (∀ x y, ∃ rx s₁ ry s₂, s.find x = some (rx, s₁) ∧ s₁.find y = some (ry, s₂) ∧
        (rx = ry ↔ Relation.EqvGen (United (ops.foldl effect [])) x y)) ∧
      (∀ x y, ∃ s' b, s.connected x y = some (s', b) ∧
        (b = true ↔ Relation.EqvGen (United (ops.foldl effect [])) x y)) ∧
      (∀ x, ∃ r, Root (upOf s.parent) x r) ∧
      ∀ x p, s.parent.lookup x = some p → p ≠ x → ∃ k k', s.rank.lookup x = some k ∧
        s.rank.lookup p = some k' ∧ k < k' := by
  have hcreate : Follows (create : UnionSet T) [] :=
    ⟨valid_create.forest.congr (by simp [United]), valid_create.closed, valid_create.ranked,
      valid_create.rank_lt⟩
  have hfollows : ∀ (s : UnionSet T) pairs op, Follows s pairs →
      ∃ s', s.step op = some s' ∧ Follows s' (effect pairs op) := fun s pairs op hs => hs.step op
  obtain ⟨s, hrun, hs⟩ := Run.follows hfollows ops hcreate
  have h : Valid s (United (ops.foldl effect [])) := hs
  refine ⟨s, hrun, ?_, ?_, ?_, h.forest.rooted, ?_⟩
  · intro x
    obtain ⟨r, s', hfind, _, _, hs', _, hroots⟩ := h.find x
    refine ⟨r, s', hfind, fun y t => ⟨?_, hroots y t⟩⟩
    intro hy
    obtain ⟨t', ht'⟩ := h.forest.rooted y
    rwa [hy.unique (hroots y t' ht')]
  · intro x y
    obtain ⟨rx, s₁, ry, s₂, hx, hy, h₂, _, _, hrx, hry⟩ := h.find_both x y
    refine ⟨rx, s₁, ry, s₂, hx, hy, ?_⟩
    rw [← h₂.forest.linked, linked_iff hrx hry]
  · intro x y
    obtain ⟨s', b, hconn, _, hb⟩ := h.connected x y
    exact ⟨s', b, hconn, hb⟩
  · intro x p hp hne
    have hup : upOf s.parent x = p := by rw [upOf, hp, Option.getD_some]
    have hx : x ∈ s.parent := AList.lookup_isSome.mp (by simp [hp])
    have hmem := h.closed x hx
    have hlt := h.rank_lt x (hup ▸ hne)
    rw [hup] at hmem hlt
    exact ⟨_, _, lookup_rankOf (h.ranked x hx), lookup_rankOf (h.ranked p hmem), hlt⟩

end Cppforge.UnionFind.UnionSet
