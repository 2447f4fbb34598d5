import Mathlib.Data.List.Basic
import Mathlib.Data.Finset.Card
import Mathlib.Data.Finset.Dedup
import Mathlib.Data.Fintype.Defs
import Mathlib.Logic.Function.Basic
import Mathlib.Logic.Relation

/-! Partitions kept as a forest of parent links, and the equivalence closure of what was
united. -/

namespace Forest
open Function

variable {α : Type} {up : α → α} {a b x y r s : α} {l l' : List α}

/-- The nodes passed on the way to a root, which is its own parent. -/
inductive Path (up : α → α) : α → List α → α → Prop
  | root {r : α} (hr : up r = r) : Path up r [] r
  | step {x r : α} {l : List α} (hx : up x ≠ x) (tail : Path up (up x) l r) : Path up x (x :: l) r

theorem Path.unique (h : Path up x l r) (h' : Path up x l' s) : l = l' ∧ r = s := by
  induction h generalizing l' with
  | root hr =>
    cases h' with
    | root _ => exact ⟨rfl, rfl⟩
    | step hx _ => exact absurd hr hx
  | step hx _ ih =>
    cases h' with
    | root hr => exact absurd hr hx
    | step _ tail =>
      obtain ⟨rfl, rfl⟩ := ih tail
      exact ⟨rfl, rfl⟩

theorem Path.is_root (h : Path up x l r) : up r = r := by
  induction h with
  | root hr => exact hr
  | step _ _ ih => exact ih

theorem Path.not_root (h : Path up x l r) : ∀ y ∈ l, up y ≠ y := by
  induction h with
  | root _ => simp
  | step hx _ ih => simpa using ⟨hx, ih⟩

theorem Path.suffix (h : Path up x l r) (hy : y ∈ l) : ∃ l', Path up y l' r ∧ l' <:+ l := by
  induction h with
  | root _ => cases hy
  | @step x r l hx tail ih =>
    rcases List.mem_cons.mp hy with rfl | hy
    · exact ⟨y :: l, .step hx tail, List.suffix_refl _⟩
    · obtain ⟨l', hp, hl⟩ := ih hy
      exact ⟨l', hp, hl.trans (List.suffix_cons _ _)⟩

theorem Path.nodup (h : Path up x l r) : l.Nodup := by
  induction h with
  | root _ => exact List.nodup_nil
  | @step x r l hx tail ih =>
    refine List.nodup_cons.mpr ⟨?_, ih⟩
    intro hmem
    obtain ⟨l', hp, hl⟩ := tail.suffix hmem
    obtain ⟨rfl, _⟩ := (Path.step hx tail).unique hp
    have hlen := hl.length_le
    simp only [List.length_cons] at hlen
    omega

theorem Path.closed {P : α → Prop} (h : Path up x l r) (hP : ∀ y, P y → P (up y)) (hx : P x) :
    ∀ y ∈ r :: l, P y := by
  induction h with
  | root _ => simpa using hx
  | @step x r l _ _ ih =>
    have htail := ih (hP x hx)
    intro y hy
    rcases List.mem_cons.mp hy with rfl | hy
    · exact htail y List.mem_cons_self
    · rcases List.mem_cons.mp hy with rfl | hy
      · exact hx
      · exact htail y (List.mem_cons_of_mem r hy)

/-- In a finite set that is closed under the links, a path has fewer nodes than the set. -/
theorem Path.length_lt {S : Finset α} (h : Path up x l r) (hS : ∀ y ∈ S, up y ∈ S) (hx : x ∈ S) :
    l.length < S.card := by
  classical
  have hr : r ∉ l := fun hmem => h.not_root r hmem h.is_root
  have hsub : (r :: l).toFinset ⊆ S := fun y hy => h.closed hS hx y (List.mem_toFinset.mp hy)
  have hcard := Finset.card_le_card hsub
  rw [List.toFinset_card_of_nodup (List.nodup_cons.mpr ⟨hr, h.nodup⟩)] at hcard
  exact hcard

/-- Links elsewhere may change. -/
theorem Path.frame [DecidableEq α] (h : Path up x l r) (ha : a ∉ l) (hr : a ≠ r) :
    Path (update up a b) x l r := by
  induction h with
  | root hroot => exact .root (by rwa [update_of_ne hr.symm])
  | @step x r l hx tail ih =>
    obtain ⟨hax, hal⟩ := not_or.mp (List.mem_cons.not.mp ha)
    have hsame : update up a b x = up x := update_of_ne (Ne.symm hax) b up
    refine .step (hsame ▸ hx) ?_
    rw [hsame]
    exact ih hal hr

/-- The root that a node leads to. -/
def Root (up : α → α) (x r : α) : Prop := ∃ l, Path up x l r

theorem Root.unique (h : Root up x r) (h' : Root up x s) : r = s := by
  obtain ⟨l, hp⟩ := h
  obtain ⟨l', hp'⟩ := h'
  exact (hp.unique hp').2

theorem Root.of_root (hr : up r = r) : Root up r r := ⟨[], .root hr⟩

theorem Root.is_root (h : Root up x r) : up r = r := by
  obtain ⟨l, hp⟩ := h
  exact hp.is_root

theorem Root.of_step (h : Root up (up x) r) : Root up x r := by
  obtain ⟨l, hp⟩ := h
  by_cases hx : up x = x
  · rw [hx] at hp
    exact ⟨l, hp⟩
  · exact ⟨x :: l, .step hx hp⟩

def Linked (up : α → α) (x y : α) : Prop := ∃ r, Root up x r ∧ Root up y r

/-- Every node leads to a root. -/
def Rooted (up : α → α) : Prop := ∀ x, ∃ r, Root up x r

theorem linked_iff (hx : Root up x r) (hy : Root up y s) : Linked up x y ↔ r = s := by
  constructor
  · rintro ⟨t, hxt, hyt⟩
    rw [hx.unique hxt, hy.unique hyt]
  · rintro rfl
    exact ⟨r, hx, hy⟩

section Updates
variable [DecidableEq α]

/-- Pointing a node to its root changes no root. -/
theorem Root.compress (hx : up x ≠ x) (hr : Root up x r) (h : Root up y s) :
    Root (update up x r) y s := by
  obtain ⟨l, hp⟩ := h
  induction hp with
  | @root s hs =>
    refine .of_root ?_
    rw [update_of_ne ?_, hs]
    rintro rfl
    exact hx hs
  | @step y s l hy tail ih =>
    refine .of_step ?_
    by_cases hxy : y = x
    · subst hxy
      have hsr : s = r := Root.unique ⟨_, .step hy tail⟩ hr
      subst hsr
      rw [update_self]
      refine .of_root ?_
      rw [update_of_ne ?_, tail.is_root]
      rintro rfl
      exact hx tail.is_root
    · rw [update_of_ne hxy]
      exact ih

/-- Two roots linked: what led to the first leads to the second. -/
theorem Root.link (ha : up a = a) (hb : up b = b) (hab : a ≠ b) (h : Root up x r) :
    Root (update up a b) x (if r = a then b else r) := by
  obtain ⟨l, hp⟩ := h
  induction hp with
  | @root r hr =>
    split
    · rename_i hra
      subst hra
      refine .of_step ?_
      rw [update_self]
      exact .of_root (by rw [update_of_ne hab.symm, hb])
    · rename_i hra
      exact .of_root (by rw [update_of_ne hra, hr])
  | @step x r l hx tail ih =>
    refine .of_step ?_
    rw [update_of_ne ?_]
    · exact ih
    · rintro rfl
      exact hx ha

end Updates

section Closure
variable {R R' : α → α → Prop}

/-- One more pair joins two classes. -/
theorem eqvGen_insert {u v : α} :
    Relation.EqvGen (fun u v => R u v ∨ u = x ∧ v = y) u v ↔ Relation.EqvGen R u v ∨
      (Relation.EqvGen R u x ∧ Relation.EqvGen R y v) ∨
      (Relation.EqvGen R u y ∧ Relation.EqvGen R x v) := by
  constructor
  · intro h
    induction h with
    | rel u v h =>
      rcases h with h | ⟨rfl, rfl⟩
      · exact .inl (.rel u v h)
      · exact .inr (.inl ⟨.refl u, .refl v⟩)
    | refl u => exact .inl (.refl u)
    | symm u v _ ih =>
      rcases ih with h | ⟨h, h'⟩ | ⟨h, h'⟩
      · exact .inl (.symm _ _ h)
      · exact .inr (.inr ⟨.symm _ _ h', .symm _ _ h⟩)
      · exact .inr (.inl ⟨.symm _ _ h', .symm _ _ h⟩)
    | trans u v w _ _ ih ih' =>
      rcases ih with h | ⟨h, h'⟩ | ⟨h, h'⟩
      · rcases ih' with g | ⟨g, g'⟩ | ⟨g, g'⟩
        · exact .inl (.trans _ _ _ h g)
        · exact .inr (.inl ⟨.trans _ _ _ h g, g'⟩)
        · exact .inr (.inr ⟨.trans _ _ _ h g, g'⟩)
      · rcases ih' with g | ⟨g, g'⟩ | ⟨g, g'⟩
        · exact .inr (.inl ⟨h, .trans _ _ _ h' g⟩)
        · exact .inr (.inl ⟨h, g'⟩)
        · exact .inl (.trans _ _ _ h g')
      · rcases ih' with g | ⟨g, g'⟩ | ⟨g, g'⟩
        · exact .inr (.inr ⟨h, .trans _ _ _ h' g⟩)
        · exact .inl (.trans _ _ _ h g')
        · exact .inr (.inr ⟨h, g'⟩)
  · have hmono : ∀ {u v}, Relation.EqvGen R u v →
        Relation.EqvGen (fun u v => R u v ∨ u = x ∧ v = y) u v :=
      fun h => h.mono fun _ _ => .inl
    have hxy : Relation.EqvGen (fun u v => R u v ∨ u = x ∧ v = y) x y := .rel x y (.inr ⟨rfl, rfl⟩)
    rintro (h | ⟨h, h'⟩ | ⟨h, h'⟩)
    · exact hmono h
    · exact .trans _ _ _ (hmono h) (.trans _ _ _ hxy (hmono h'))
    · exact .trans _ _ _ (hmono h) (.trans _ _ _ (.symm _ _ hxy) (hmono h'))

/-- The forest shows the classes of what was united. -/
structure Represents (up : α → α) (R : α → α → Prop) : Prop where
  rooted : Rooted up
  linked (x y : α) : Linked up x y ↔ Relation.EqvGen R x y

theorem Represents.congr (h : Represents up R) (hR : ∀ u v, R u v ↔ R' u v) : Represents up R' := by
  have heq : R = R' := funext fun u => funext fun v => propext (hR u v)
  exact heq ▸ h

theorem eqvGen_empty {u v : α} : Relation.EqvGen (fun _ _ : α => False) u v ↔ u = v := by
  constructor
  · intro h
    induction h with
    | rel _ _ h => exact h.elim
    | refl _ => rfl
    | symm _ _ _ ih => exact ih.symm
    | trans _ _ _ _ _ ih ih' => exact ih.trans ih'
  · rintro rfl
    exact .refl u

theorem represents_id : Represents (id : α → α) (fun _ _ => False) := by
  refine ⟨fun x => ⟨x, .of_root rfl⟩, fun x y => ?_⟩
  rw [eqvGen_empty]
  exact linked_iff (.of_root rfl) (.of_root rfl)

/-- Uniting what is linked changes nothing. -/
theorem Represents.again (h : Represents up R) (hxy : Linked up x y) :
    Represents up (fun u v => R u v ∨ u = x ∧ v = y) := by
  refine ⟨h.rooted, fun u v => ?_⟩
  have hE := (h.linked x y).mp hxy
  rw [h.linked, eqvGen_insert]
  constructor
  · exact .inl
  · rintro (g | ⟨g, g'⟩ | ⟨g, g'⟩)
    · exact g
    · exact .trans _ _ _ g (.trans _ _ _ hE g')
    · exact .trans _ _ _ g (.trans _ _ _ (.symm _ _ hE) g')

/-- Roots that do not change leave the classes. -/
theorem Represents.same_roots {up' : α → α} (h : Represents up R)
    (hup : ∀ x r, Root up x r → Root up' x r) : Represents up' R := by
  constructor
  · intro x
    obtain ⟨r, hr⟩ := h.rooted x
    exact ⟨r, hup x r hr⟩
  · intro x y
    obtain ⟨r, hr⟩ := h.rooted x
    obtain ⟨s, hs⟩ := h.rooted y
    rw [← h.linked, linked_iff hr hs, linked_iff (hup x r hr) (hup y s hs)]

/-- Linking the roots of two nodes unites their classes. -/
theorem Represents.link [DecidableEq α] (h : Represents up R) (hx : Root up x a)
    (hy : Root up y b) (hab : a ≠ b) :
    Represents (update up a b) (fun u v => R u v ∨ u = x ∧ v = y) := by
  have hlink : ∀ {u r}, Root up u r → Root (update up a b) u (if r = a then b else r) :=
    fun hu => hu.link hx.is_root hy.is_root hab
  refine ⟨fun u => ?_, fun u v => ?_⟩
  · obtain ⟨r, hr⟩ := h.rooted u
    exact ⟨_, hlink hr⟩
  · obtain ⟨r, hr⟩ := h.rooted u
    obtain ⟨s, hs⟩ := h.rooted v
    rw [eqvGen_insert, ← h.linked, ← h.linked, ← h.linked, ← h.linked, ← h.linked,
      linked_iff (hlink hr) (hlink hs), linked_iff hr hs, linked_iff hr hx, linked_iff hy hs,
      linked_iff hr hy, linked_iff hx hs]
    by_cases hra : r = a <;> by_cases hsa : s = a <;> grind

theorem Represents.link_back [DecidableEq α] (h : Represents up R) (hx : Root up x a)
    (hy : Root up y b) (hab : a ≠ b) :
    Represents (update up b a) (fun u v => R u v ∨ u = x ∧ v = y) := by
  have hlink := h.link hy hx hab.symm
  refine ⟨hlink.rooted, fun u v => ?_⟩
  rw [hlink.linked, eqvGen_insert, eqvGen_insert]
  exact or_congr_right or_comm

/-- A linked root is one root less. -/
theorem card_roots_link [DecidableEq α] [Fintype α] (ha : up a = a) (hab : a ≠ b) :
    (Finset.univ.filter fun x => update up a b x = x).card =
      (Finset.univ.filter fun x => up x = x).card - 1 := by
  have heq : (Finset.univ.filter fun x => update up a b x = x) =
      (Finset.univ.filter fun x => up x = x).erase a := by
    ext x
    by_cases hx : x = a
    · subst hx
      simp [hab.symm]
    · simp [hx]
  rw [heq, Finset.card_erase_of_mem (by simp [ha])]

end Closure

section Climbing
variable [DecidableEq α] {get : α → Option α} {turns : Nat}

/-- A loop that follows links until a node is its own parent. -/
def climb (get : α → Option α) : Nat → α → Option α
  | 0, _ => none
  | turns + 1, x => do
    let p ← get x
    if p = x then return x else climb get turns p

/-- One turn more than the path is long is enough. -/
theorem Path.climb (h : Path up x l r) (hget : ∀ y ∈ r :: l, get y = some (up y))
    (hl : l.length < turns) : climb get turns x = some r := by
  induction h generalizing turns with
  | @root r hr =>
    obtain ⟨turns, rfl⟩ := Nat.exists_eq_add_one_of_ne_zero (Nat.ne_zero_of_lt hl)
    simp [Forest.climb, hget r (by simp), hr]
  | @step x r l hx tail ih =>
    obtain ⟨turns, rfl⟩ := Nat.exists_eq_add_one_of_ne_zero (Nat.ne_zero_of_lt hl)
    have htail : ∀ y ∈ r :: l, get y = some (up y) := by
      intro y hy
      rcases List.mem_cons.mp hy with rfl | hy
      · exact hget y List.mem_cons_self
      · exact hget y (List.mem_cons_of_mem _ (List.mem_cons_of_mem _ hy))
    have hrest := ih htail (Nat.lt_of_succ_lt_succ hl)
    simp [Forest.climb, hget x (by simp), hx, hrest]

end Climbing

section Ranks
variable {rank : α → Nat}

/-- Ranks that increase along the links increase along a path. -/
theorem Path.rank_lt (h : Path up x l r) (hrank : ∀ y, up y ≠ y → rank y < rank (up y)) :
    ∀ y ∈ l, rank y < rank r := by
  induction h with
  | root _ => simp
  | @step x r l hx tail ih =>
    refine List.forall_mem_cons.mpr ⟨?_, ih⟩
    cases tail with
    | root hr => exact hrank x hx
    | step hx' tail' => exact (hrank x hx).trans (ih _ List.mem_cons_self)

end Ranks

end Forest
