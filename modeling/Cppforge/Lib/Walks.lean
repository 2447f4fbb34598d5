import Mathlib.Data.Fintype.BigOperators
import Mathlib.Algebra.Order.BigOperators.Group.Finset
import Mathlib.Algebra.Order.Group.Int
import Mathlib.Algebra.Ring.Int.Defs
import Mathlib.Logic.Function.Basic

/-! Walks along the edges of a weighted directed multigraph. -/

namespace Walks

variable {α : Type} {E E' : α → α → Int → Prop} {u v x y : α} {p q : List α} {w c w' : Int}

/-- The nodes of a walk, both ends included, and what its edges weigh. -/
inductive Walk (E : α → α → Int → Prop) : α → List α → α → Int → Prop
  | nil (u : α) : Walk E u [u] u 0
  | snoc {u v x : α} {p : List α} {w c : Int} (h : Walk E u p v w) (he : E v x c) :
      Walk E u (p ++ [x]) x (w + c)

namespace Walk

theorem edge (he : E u v c) : Walk E u [u, v] v c := by
  simpa using (Walk.nil u).snoc he

theorem cons (he : E u v c) (h : Walk E v p x w) : Walk E u (u :: p) x (c + w) := by
  induction h with
  | nil => simpa using edge he
  | snoc _ hd ih => simpa [Int.add_assoc] using ih.snoc hd

/-- Walks are put together by leaving out the node where they meet. -/
theorem append (h : Walk E u p v w) (h' : Walk E v q x w') :
    ∃ r, Walk E u r x (w + w') := by
  induction h' with
  | nil => exact ⟨p, by simpa using h⟩
  | snoc _ hd ih =>
    obtain ⟨r, hr⟩ := ih
    exact ⟨r ++ [_], by simpa [Int.add_assoc] using hr.snoc hd⟩

theorem mono (h : Walk E u p v w) (hE : ∀ u v c, E u v c → E' u v c) : Walk E' u p v w := by
  induction h with
  | nil => exact .nil u
  | snoc _ he ih => exact ih.snoc (hE _ _ _ he)

theorem nonneg (h : Walk E u p v w) (hE : ∀ u v c, E u v c → 0 ≤ c) : 0 ≤ w := by
  induction h with
  | nil => exact Int.le_refl 0
  | snoc _ he ih => exact Int.add_nonneg ih (hE _ _ _ he)

theorem upTo (h : Walk E u p v w) (hE : ∀ u v c, E u v c → 0 ≤ c) (hx : x ∈ p) :
    ∃ q w', Walk E u q x w' ∧ q <+: p ∧ w' ≤ w := by
  induction h with
  | nil =>
    obtain rfl := List.mem_singleton.mp hx
    exact ⟨[x], 0, .nil x, List.prefix_rfl, Int.le_refl 0⟩
  | @snoc v y p w c h he ih =>
    rcases List.mem_append.mp hx with hx | hx
    · obtain ⟨q, w', hq, hprefix, hle⟩ := ih hx
      have hc := hE v y c he
      exact ⟨q, w', hq, hprefix.trans (List.prefix_append p [y]), by omega⟩
    · obtain rfl := List.mem_singleton.mp hx
      exact ⟨p ++ [x], w + c, h.snoc he, List.prefix_rfl, Int.le_refl _⟩

/-- Without negative edges a walk needs no node twice. -/
theorem simple (h : Walk E u p v w) (hE : ∀ u v c, E u v c → 0 ≤ c) :
    ∃ q w', Walk E u q v w' ∧ q.Nodup ∧ w' ≤ w := by
  induction h with
  | nil => exact ⟨[u], 0, .nil u, List.pairwise_singleton _ u, Int.le_refl 0⟩
  | @snoc v y p w c h he ih =>
    obtain ⟨q, w', hq, hnodup, hle⟩ := ih
    have hc := hE v y c he
    by_cases hy : y ∈ q
    · obtain ⟨q', w'', hq', hprefix, hle'⟩ := hq.upTo hE hy
      exact ⟨q', w'', hq', hnodup.sublist hprefix.sublist, by omega⟩
    · refine ⟨q ++ [y], w' + c, hq.snoc he, ?_, by omega⟩
      exact List.nodup_append'.mpr ⟨hnodup, List.pairwise_singleton _ y, by simpa using hy⟩

/-- The nodes follow each other along edges. -/
theorem chain (h : Walk E u p v w) : p.IsChain (fun x y => ∃ c, E x y c) ∧ p.getLast? = some v := by
  induction h with
  | nil => exact ⟨List.isChain_singleton u, rfl⟩
  | snoc _ he ih =>
    refine ⟨List.isChain_append.mpr ⟨ih.1, List.isChain_singleton _, ?_⟩, by simp⟩
    intro x hx y hy
    rw [ih.2, Option.mem_some_iff] at hx
    obtain rfl := Option.some.inj hy
    exact ⟨_, hx ▸ he⟩

theorem le_spent {out : α → Int} (hout : ∀ u v c, E u v c → c ≤ out u) (h : Walk E u p v w) :
    w + out v ≤ (p.map out).sum := by
  induction h with
  | nil => simp
  | snoc _ he ih =>
    have hc := hout _ _ _ he
    rw [List.map_append, List.sum_append, List.map_singleton, List.sum_singleton]
    omega

end Walk

/-- Different nodes spend no more than all of them. -/
theorem sum_le_total [Fintype α] {out : α → Int} (hpos : ∀ u, 0 ≤ out u) (hp : p.Nodup) :
    (p.map out).sum ≤ ∑ x, out x := by
  classical
  rw [← List.sum_toFinset out hp]
  exact Finset.sum_le_univ_sum_of_nonneg hpos

/-- A node is reached by some walk. -/
def Reaches (E : α → α → Int → Prop) (u v : α) : Prop := ∃ p w, Walk E u p v w

theorem Reaches.refl (u : α) : Reaches E u u := ⟨[u], 0, .nil u⟩

/-- What is reached is reached by a walk that weighs no more than all nodes can spend. -/
theorem Reaches.le_total [Fintype α] {out : α → Int} (h : Reaches E u v)
    (hE : ∀ u v c, E u v c → 0 ≤ c) (hpos : ∀ u, 0 ≤ out u)
    (hout : ∀ u v c, E u v c → c ≤ out u) : ∃ p w, Walk E u p v w ∧ w ≤ ∑ x, out x := by
  obtain ⟨p, w, hp⟩ := h
  obtain ⟨q, w', hq, hnodup, _⟩ := hp.simple hE
  have hspent := hq.le_spent hout
  have htotal := sum_le_total hpos hnodup
  have hv := hpos v
  exact ⟨q, w', hq, by omega⟩

/-- What is reached is reached without a node twice. -/
theorem Reaches.simple (h : Reaches E u v) : ∃ p w, Walk E u p v w ∧ p.Nodup := by
  -- with all weights 0 nothing is lost by leaving cycles out
  have hback : ∀ {p x w}, Walk (fun u v c => (∃ c', E u v c') ∧ c = 0) u p x w →
      ∃ w', Walk E u p x w' := by
    intro p x w hp
    induction hp with
    | nil => exact ⟨0, .nil u⟩
    | snoc _ he ih =>
      obtain ⟨w', hw'⟩ := ih
      obtain ⟨⟨c', hc'⟩, _⟩ := he
      exact ⟨w' + c', hw'.snoc hc'⟩
  obtain ⟨p, w, hp⟩ := h
  have hzero : ∃ w', Walk (fun u v c => (∃ c', E u v c') ∧ c = 0) u p v w' := by
    induction hp with
    | nil => exact ⟨0, .nil u⟩
    | snoc _ he ih =>
      obtain ⟨w', hw'⟩ := ih
      exact ⟨w' + 0, hw'.snoc ⟨⟨_, he⟩, rfl⟩⟩
  obtain ⟨w', hw'⟩ := hzero
  obtain ⟨q, _, hq, hnodup, _⟩ := hw'.simple fun _ _ _ he => he.2.symm.le
  obtain ⟨w'', hw''⟩ := hback hq
  exact ⟨q, w'', hw'', hnodup⟩

/-- A weight of a walk, and no walk weighs less. -/
def Lightest (E : α → α → Int → Prop) (u v : α) (w : Int) : Prop :=
  (∃ p, Walk E u p v w) ∧ ∀ p w', Walk E u p v w' → w ≤ w'

/-- The distance of a node is the least weight of a walk to it, or a bound if there is none. -/
structure Distance (E : α → α → Int → Prop) (s : α) (bound : Int) (v : α) (d : Int) : Prop where
  least : ∀ p w, Walk E s p v w → d ≤ w
  walk : d ≠ bound → ∃ p, Walk E s p v d
  reached : Reaches E s v → d ≠ bound

theorem Distance.unique {s : α} {bound d d' : Int} (h : Distance E s bound v d)
    (h' : Distance E s bound v d') : d = d' := by
  by_cases hr : Reaches E s v
  · obtain ⟨p, hp⟩ := h.walk (h.reached hr)
    obtain ⟨p', hp'⟩ := h'.walk (h'.reached hr)
    exact Int.le_antisymm (h.least p' d' hp') (h'.least p d hp)
  · have hd : ∀ {d}, Distance E s bound v d → d = bound := by
      intro d hd
      by_contra hne
      obtain ⟨p, hp⟩ := hd.walk hne
      exact hr ⟨p, d, hp⟩
    rw [hd h, hd h']

section Potentials
variable {h : α → Int}

/-- Edges that cost what they climb less. -/
def Reweighted (h : α → Int) (E : α → α → Int → Prop) (u v : α) (c : Int) : Prop :=
  E u v (c - h u + h v)

theorem Walk.reweighted (hw : Walk E u p v w) : Walk (Reweighted h E) u p v (w + h u - h v) := by
  induction hw with
  | nil =>
    rw [Int.zero_add, Int.sub_self]
    exact .nil u
  | @snoc v x p w c _ he ih =>
    have hedge : Reweighted h E v x (c + h v - h x) := by
      have hc : c + h v - h x - h v + h x = c := by omega
      rwa [Reweighted, hc]
    have hweight : w + c + h u - h x = w + h u - h v + (c + h v - h x) := by omega
    rw [hweight]
    exact ih.snoc hedge

theorem Walk.of_reweighted (hw : Walk (Reweighted h E) u p v w) : Walk E u p v (w - h u + h v) := by
  induction hw with
  | nil =>
    have hzero : 0 - h u + h u = 0 := by omega
    rw [hzero]
    exact .nil u
  | @snoc v x p w c _ he ih =>
    have hweight : w + c - h u + h x = w - h u + h v + (c - h v + h x) := by omega
    rw [hweight]
    exact ih.snoc he

end Potentials

section Jumps
variable {cost : Int} {j : Nat}

/-- A walk on which jumps from any node to any other are made at a cost, and their number. -/
inductive Jumping (E : α → α → Int → Prop) (cost : Int) : Nat → α → List α → α → Int → Prop
  | nil (u : α) : Jumping E cost 0 u [u] u 0
  | snoc {j : Nat} {u v x : α} {p : List α} {w c : Int} (h : Jumping E cost j u p v w)
      (he : E v x c) : Jumping E cost j u (p ++ [x]) x (w + c)
  | jump {j : Nat} {u v : α} {p : List α} {w : Int} (h : Jumping E cost j u p v w) (x : α) :
      Jumping E cost (j + 1) u (p ++ [x]) x (w + cost)

theorem Walk.jumping (hE : ∀ u v c, E' u v c → E u v c ∨ c = cost) (h : Walk E' u p v w) :
    ∃ j, Jumping E cost j u p v w := by
  induction h with
  | nil => exact ⟨0, .nil u⟩
  | @snoc v x p w c _ he ih =>
    obtain ⟨j, hj⟩ := ih
    rcases hE v x c he with he | rfl
    · exact ⟨j, hj.snoc he⟩
    · exact ⟨j + 1, hj.jump x⟩

theorem Jumping.walk (h : Jumping E cost 0 u p v w) : Walk E u p v w := by
  generalize hj : 0 = j at h
  induction h with
  | nil => exact .nil _
  | snoc _ he ih => exact (ih hj).snoc he
  | jump => cases hj

/-- With one jump it is a walk in front of the jump and one behind it. -/
theorem Jumping.once (h : Jumping E cost 1 u p v w) : ∃ x y q r w₁ w₂, Walk E u q x w₁ ∧
    Walk E y r v w₂ ∧ w = w₁ + cost + w₂ := by
  generalize hj : 1 = j at h
  induction h with
  | nil => cases hj
  | @snoc j u v x p w c _ he ih =>
    obtain ⟨y, z, q, r, w₁, w₂, hq, hr, hw⟩ := ih hj
    exact ⟨y, z, q, r ++ [x], w₁, w₂ + c, hq, hr.snoc he, by omega⟩
  | jump h x =>
    obtain rfl := Nat.succ.inj hj
    exact ⟨_, x, _, [x], _, 0, h.walk, .nil x, by omega⟩

/-- What the jumps cost is saved only by what the nodes can save. -/
theorem Jumping.le_saved {out : α → Int} (hpos : ∀ u, 0 ≤ out u)
    (hout : ∀ u v c, E u v c → -c ≤ out u) (h : Jumping E cost j u p v w) :
    j * cost - w + out v ≤ (p.map out).sum := by
  induction h with
  | nil => simp
  | snoc _ he ih =>
    have hc := hout _ _ _ he
    rw [List.map_append, List.sum_append, List.map_singleton, List.sum_singleton]
    omega
  | @jump j u v p w _ x ih =>
    have hv := hpos v
    rw [List.map_append, List.sum_append, List.map_singleton, List.sum_singleton, Nat.cast_succ,
      Int.add_mul, Int.one_mul]
    omega

end Jumps

end Walks

/-! Labels that are lowered along edges, in any order. A label is kept with the walk that gave
it, from the node back to the source, with the label of each node at that time. -/

namespace Relaxation
open Walks Function

variable {α : Type} {E : α → α → Int → Prop} {s u v x : α} {c l m : Int} {t t' : List (α × Int)}
  {T T' : α → List (α × Int)}

/-- A walk back to the source, each node with its label. -/
inductive Trail (E : α → α → Int → Prop) (s : α) : List (α × Int) → Prop
  | source : Trail E s [(s, 0)]
  | step {u v : α} {l c : Int} {t : List (α × Int)} (h : Trail E s ((u, l) :: t)) (he : E u v c) :
      Trail E s ((v, l + c) :: (u, l) :: t)

theorem Trail.edge (h : Trail E s ((v, l) :: (u, m) :: t)) : E u v (l - m) := by
  cases h with
  | step h he =>
    rwa [Int.add_comm, Int.add_sub_cancel]

theorem Trail.walk (h : Trail E s ((v, l) :: t)) :
    Walk E s (((v, l) :: t).map Prod.fst).reverse v l := by
  generalize hq : (v, l) :: t = q at h
  induction h generalizing v l t with
  | source =>
    cases hq
    exact .nil s
  | step h he ih =>
    cases hq
    have hwalk := (ih rfl).snoc he
    simpa using hwalk

/-- Without negative edges labels fall towards the source. -/
theorem Trail.le_head (hE : ∀ u v c, E u v c → 0 ≤ c) (h : Trail E s ((v, l) :: t)) :
    ∀ p ∈ (v, l) :: t, p.2 ≤ l := by
  generalize hq : (v, l) :: t = q at h
  induction h generalizing v l t with
  | source =>
    cases hq
    simp
  | step h he ih =>
    cases hq
    have hc := hE _ _ _ he
    intro p hp
    rcases List.mem_cons.mp hp with rfl | hp
    · exact Int.le_refl _
    · exact (ih rfl p hp).trans (by omega)

theorem Trail.source_mem (h : Trail E s t) : (s, 0) ∈ t := by
  induction h with
  | source => exact List.mem_singleton_self _
  | step _ _ ih => exact List.mem_cons_of_mem _ ih

/-- A label is at most what the nodes behind it can spend. -/
theorem Trail.le_spent {out : α → Int} (hout : ∀ u v c, E u v c → c ≤ out u)
    (h : Trail E s ((v, l) :: t)) : l ≤ (t.map fun p => out p.1).sum := by
  generalize hq : (v, l) :: t = q at h
  induction h generalizing v l t with
  | source =>
    cases hq
    simp
  | step h he ih =>
    cases hq
    have hc := hout _ _ _ he
    have hl := ih rfl
    simp only [List.map_cons, List.sum_cons]
    omega

/-- A node has a label, no greater than a bound. -/
def AtMost (T : α → List (α × Int)) (v : α) (b : Int) : Prop := ∃ l t, T v = (v, l) :: t ∧ l ≤ b

theorem AtMost.of_eq (h : T v = (v, l) :: t) : AtMost T v l := ⟨l, t, h, Int.le_refl l⟩

theorem AtMost.mono {b b' : Int} (h : AtMost T v b) (hb : b ≤ b') : AtMost T v b' := by
  obtain ⟨l, t, hv, hl⟩ := h
  exact ⟨l, t, hv, hl.trans hb⟩

theorem AtMost.le {b : Int} (h : AtMost T v b) (hv : T v = (v, l) :: t) : l ≤ b := by
  obtain ⟨l', t', hv', hl⟩ := h
  rw [hv, List.cons.injEq, Prod.mk.injEq] at hv'
  exact hv'.1.2 ▸ hl

/-- The labels that relaxations give; an empty trail is none. -/
structure Labels (E : α → α → Int → Prop) (s : α) (T : α → List (α × Int)) : Prop where
  source : T s = [(s, 0)]
  own : ∀ v p t, T v = p :: t → p.1 = v
  trail : ∀ v, T v ≠ [] → Trail E s (T v)
  nodup : ∀ v, ((T v).map Prod.fst).Nodup
  above : ∀ v x m, (x, m) ∈ T v → AtMost T x m
  fresh : ∀ v x u m t, T v = x :: (u, m) :: t → T u = (u, m) :: t ∨ AtMost T u (m - 1)

theorem Labels.trail_of (h : Labels E s T) (hv : T v = (v, l) :: t) : Trail E s ((v, l) :: t) := by
  have htrail := h.trail v (by simp [hv])
  rwa [hv] at htrail

/-- A node whose label would be lowered is not on the trail that lowers it. -/
theorem Labels.not_mem (h : Labels E s T) (hE : ∀ u v c, E u v c → 0 ≤ c) (hu : T u = (u, l) :: t)
    (he : E u v c) (hlow : ¬ AtMost T v (l + c)) (m : Int) : (v, m) ∉ T u := by
  intro hm
  have hle := h.above u v m hm
  rw [hu] at hm
  have hhead := (h.trail_of hu).le_head hE _ hm
  have hc := hE u v c he
  exact hlow (hle.mono (by simp only at hhead; omega))

section Steps
variable [DecidableEq α]

/-- The labels in front of the first relaxation. -/
def initial (s : α) : α → List (α × Int) := update (fun _ => []) s [(s, 0)]

theorem labels_initial (s : α) : Labels E s (initial s) := by
  have hsource : initial s s = [(s, 0)] := update_self ..
  have hother : ∀ v, v ≠ s → initial s v = [] := fun v hv => update_of_ne hv ..
  have heq : ∀ v p t, initial s v = p :: t → v = s ∧ p = (s, 0) ∧ t = [] := by
    intro v p t hv
    by_cases hvs : v = s
    · subst hvs
      rw [hsource] at hv
      cases hv
      exact ⟨rfl, rfl, rfl⟩
    · rw [hother v hvs] at hv
      cases hv
  refine ⟨hsource, ?_, ?_, ?_, ?_, ?_⟩
  · intro v p t hv
    obtain ⟨rfl, rfl, rfl⟩ := heq v p t hv
    rfl
  · intro v hv
    obtain ⟨p, t, hpt⟩ := List.exists_cons_of_ne_nil hv
    obtain ⟨rfl, rfl, rfl⟩ := heq v p t hpt
    rw [hpt]
    exact .source
  · intro v
    cases hv : initial s v with
    | nil => exact List.nodup_nil
    | cons p t =>
      obtain ⟨rfl, rfl, rfl⟩ := heq v p t hv
      exact List.nodup_singleton _
  · intro v x m hx
    obtain ⟨p, t, hpt⟩ := List.exists_cons_of_ne_nil (List.ne_nil_of_mem hx)
    obtain ⟨rfl, rfl, rfl⟩ := heq v p t hpt
    rw [hpt] at hx
    cases List.mem_singleton.mp hx
    exact .of_eq hpt
  · intro v x u m t hv
    cases (heq v x _ hv).2.2

/-- A relaxation lowers a label and no other. -/
theorem atMost_update {b : Int} (hlow : ¬ AtMost T v l) (h : AtMost T x b) :
    AtMost (update T v ((v, l) :: t)) x b := by
  by_cases hxv : x = v
  · subst hxv
    refine ⟨l, t, update_self .., ?_⟩
    by_contra hlt
    exact hlow (h.mono (by omega))
  · rwa [AtMost, update_of_ne hxv]

theorem Labels.lower (h : Labels E s T) (hE : ∀ u v c, E u v c → 0 ≤ c) (hu : T u = (u, l) :: t)
    (he : E u v c) (hlow : ¬ AtMost T v (l + c)) :
    Labels E s (update T v ((v, l + c) :: T u)) := by
  have hout := h.not_mem hE hu he hlow
  have htrail := h.trail_of hu
  have huv : u ≠ v := by
    rintro rfl
    exact hout l (by simp [hu])
  have hvs : v ≠ s := by
    rintro rfl
    exact hout 0 (hu ▸ htrail.source_mem)
  have hnew : update T v ((v, l + c) :: T u) v = (v, l + c) :: T u := update_self ..
  have hold : ∀ x, x ≠ v → update T v ((v, l + c) :: T u) x = T x := fun x hx => update_of_ne hx ..
  refine ⟨(hold s hvs.symm).trans h.source, ?_, ?_, ?_, ?_, ?_⟩
  · intro x p t' hx
    by_cases hxv : x = v
    · subst hxv
      rw [hnew] at hx
      cases hx
      rfl
    · rw [hold x hxv] at hx
      exact h.own x p t' hx
  · intro x hx
    by_cases hxv : x = v
    · subst hxv
      rw [hnew, hu]
      exact htrail.step he
    · rw [hold x hxv] at hx ⊢
      exact h.trail x hx
  · intro x
    by_cases hxv : x = v
    · subst hxv
      rw [hnew, List.map_cons, List.nodup_cons]
      refine ⟨?_, h.nodup u⟩
      intro hmem
      obtain ⟨⟨y, m⟩, hp, rfl⟩ := List.mem_map.mp hmem
      exact hout m hp
    · rw [hold x hxv]
      exact h.nodup x
  · intro x y m hy
    by_cases hxv : x = v
    · subst hxv
      rw [hnew] at hy
      rcases List.mem_cons.mp hy with hy | hy
      · cases hy
        exact .of_eq hnew
      · exact atMost_update hlow (h.above u y m hy)
    · rw [hold x hxv] at hy
      exact atMost_update hlow (h.above x y m hy)
  · intro x p y m t' hx
    by_cases hxv : x = v
    · subst hxv
      rw [hnew, hu] at hx
      cases hx
      exact .inl ((hold u huv).trans hu)
    · rw [hold x hxv] at hx
      rcases h.fresh x p y m t' hx with hy | hy
      · by_cases hyv : y = v
        · subst hyv
          refine .inr ⟨l + c, T u, hnew, ?_⟩
          by_contra hlt
          exact hlow ((AtMost.of_eq hy).mono (by omega))
        · exact .inl ((hold y hyv).trans hy)
      · exact .inr (atMost_update hlow hy)

end Steps

section Ends

/-- No label can be lowered. -/
def Closed (E : α → α → Int → Prop) (T : α → List (α × Int)) : Prop :=
  ∀ u v c l t, E u v c → T u = (u, l) :: t → AtMost T v (l + c)

theorem Closed.least {p : List α} {w : Int} (hc : Closed E T) (h : Labels E s T)
    (hw : Walk E s p v w) : AtMost T v w := by
  induction hw with
  | nil => exact .of_eq h.source
  | snoc _ he ih =>
    obtain ⟨l, t, hv, hl⟩ := ih
    exact (hc _ _ _ l t he hv).mono (by omega)

/-- The trail of the node behind is what is left of the trail. -/
theorem Closed.behind (hc : Closed E T) (h : Labels E s T) (hv : T v = (v, l) :: (u, m) :: t) :
    T u = (u, m) :: t := by
  rcases h.fresh v _ u m t hv with hu | ⟨l', t', hu, hl⟩
  · exact hu
  · have hle := (hc u v _ l' t' (h.trail_of hv).edge hu).le hv
    omega

/-- Labels as numbers, with a bound for none. -/
def Reads (T : α → List (α × Int)) (bound : Int) (d : α → Int) : Prop :=
  ∀ v, (T v = [] ∧ d v = bound) ∨ ∃ t, T v = (v, d v) :: t ∧ d v < bound

theorem Closed.distance {bound : Int} {d : α → Int} (hc : Closed E T) (h : Labels E s T)
    (hd : Reads T bound d) (v : α) : Distance E s bound v (d v) := by
  have hatMost : ∀ w, AtMost T v w → d v < bound ∧ d v ≤ w := by
    intro w hw
    rcases hd v with ⟨hv, _⟩ | ⟨t, hv, hlt⟩
    · obtain ⟨l, t, hvl, _⟩ := hw
      rw [hv] at hvl
      cases hvl
    · exact ⟨hlt, hw.le hv⟩
  refine ⟨fun p w hw => (hatMost w (hc.least h hw)).2, ?_, ?_⟩
  · intro hne
    rcases hd v with ⟨_, hv⟩ | ⟨t, hv, _⟩
    · exact absurd hv hne
    · exact ⟨_, (h.trail_of hv).walk⟩
  · rintro ⟨p, w, hw⟩
    exact (hatMost w (hc.least h hw)).1.ne

/-- A label and one more edge cost no more than all nodes together can spend. -/
theorem Labels.le_total [Fintype α] {out : α → Int} (h : Labels E s T) (hpos : ∀ u, 0 ≤ out u)
    (hout : ∀ u v c, E u v c → c ≤ out u) (hu : T u = (u, l) :: t) (he : E u v c) :
    l + c ≤ ∑ x, out x := by
  have hspent := (h.trail_of hu).le_spent hout
  have hedge := hout u v c he
  have hall := sum_le_total hpos (h.nodup u)
  rw [hu, List.map_cons, List.map_cons, List.sum_cons, List.map_map] at hall
  simp only [Function.comp_def] at hall
  omega

end Ends

end Relaxation
