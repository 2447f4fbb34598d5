import Cppforge.Lib.Forest
import Mathlib.Data.Finset.Max
import Mathlib.Data.List.Sort
import Mathlib.Algebra.BigOperators.Group.List.Basic
import Mathlib.Algebra.Order.Group.Int
import Mathlib.Algebra.Ring.Int.Defs

/-! Forests in an undirected multigraph, whose edges are of any type and have two ends and a
weight. What they weigh is compared by counting their light edges. -/

namespace SpanningForest
open Relation Forest

variable {ε α : Type} {ends : ε → α × α} {P Q : ε → Prop} {u v a b : α} {e : ε}
  {A B F G : List ε}

section Joining

/-- Edges with a property connect two nodes. -/
def Joined (ends : ε → α × α) (P : ε → Prop) : α → α → Prop :=
  EqvGen (fun u v => ∃ e, P e ∧ ends e = (u, v))

theorem Joined.edge (he : P e) : Joined ends P (ends e).1 (ends e).2 :=
  .rel _ _ ⟨e, he, rfl⟩

/-- What each edge joins, all of them join. -/
theorem Joined.bind (h : Joined ends P u v)
    (hstep : ∀ e, P e → Joined ends Q (ends e).1 (ends e).2) : Joined ends Q u v := by
  induction h with
  | rel u v h =>
    obtain ⟨e, he, hends⟩ := h
    simpa [hends] using hstep e he
  | refl u => exact .refl u
  | symm u v _ ih => exact .symm _ _ ih
  | trans u v w _ _ ih ih' => exact .trans _ _ _ ih ih'

theorem Joined.mono (h : Joined ends P u v) (hPQ : ∀ e, P e → Q e) : Joined ends Q u v :=
  h.bind fun e he => .edge (hPQ e he)

theorem joined_congr (hPQ : ∀ e, P e ↔ Q e) : Joined ends P u v ↔ Joined ends Q u v :=
  ⟨fun h => h.mono fun e => (hPQ e).mp, fun h => h.mono fun e => (hPQ e).mpr⟩

/-- One more edge joins the classes of its ends. -/
theorem joined_insert : Joined ends (fun f => P f ∨ f = e) u v ↔ Joined ends P u v ∨
    (Joined ends P u (ends e).1 ∧ Joined ends P (ends e).2 v) ∨
    (Joined ends P u (ends e).2 ∧ Joined ends P (ends e).1 v) := by
  have hlinks : (fun u v => ∃ f, (P f ∨ f = e) ∧ ends f = (u, v)) =
      fun u v => (∃ f, P f ∧ ends f = (u, v)) ∨ u = (ends e).1 ∧ v = (ends e).2 := by
    funext u v
    simp only [or_and_right, exists_or, exists_eq_left, eq_iff_iff]
    refine or_congr_right ?_
    rw [Prod.ext_iff]
    exact and_congr eq_comm eq_comm
  rw [Joined, hlinks]
  exact eqvGen_insert

theorem joined_cons : Joined ends (· ∈ e :: F) u v ↔ Joined ends (· ∈ F) u v ∨
    (Joined ends (· ∈ F) u (ends e).1 ∧ Joined ends (· ∈ F) (ends e).2 v) ∨
    (Joined ends (· ∈ F) u (ends e).2 ∧ Joined ends (· ∈ F) (ends e).1 v) := by
  rw [← joined_insert]
  exact joined_congr fun f => by rw [List.mem_cons, or_comm]

theorem joined_nil : Joined ends (· ∈ []) u v ↔ u = v := by
  rw [← eqvGen_empty]
  simp [Joined]

end Joining

section Forests

/-- No edge joins what the others join. -/
def IsForest (ends : ε → α × α) (F : List ε) : Prop :=
  ∀ A e B, F = A ++ e :: B → ¬ Joined ends (· ∈ A ++ B) (ends e).1 (ends e).2

theorem isForest_nil : IsForest ends ([] : List ε) := by
  intro A e B h
  simp at h

theorem isForest_cons : IsForest ends (e :: F) ↔
    ¬ Joined ends (· ∈ F) (ends e).1 (ends e).2 ∧ IsForest ends F := by
  constructor
  · intro h
    refine ⟨h [] e F rfl, ?_⟩
    rintro A f B rfl hjoined
    exact h (e :: A) f B rfl (hjoined.mono fun g hg => List.mem_cons_of_mem e hg)
  · intro ⟨he, hF⟩ A f B h hjoined
    cases A with
    | nil =>
      obtain ⟨rfl, rfl⟩ := List.cons.inj h
      exact he hjoined
    | cons g A =>
      obtain ⟨rfl, rfl⟩ := List.cons.inj h
      have hall : ∀ {x y}, Joined ends (· ∈ A ++ B) x y → Joined ends (· ∈ A ++ f :: B) x y :=
        fun hxy => hxy.mono fun g hg => by
          simp only [List.mem_append, List.mem_cons] at hg ⊢
          tauto
      have hf : Joined ends (· ∈ A ++ f :: B) (ends f).1 (ends f).2 := .edge (by simp)
      rcases joined_cons.mp hjoined with h | ⟨h, h'⟩ | ⟨h, h'⟩
      · exact hF A f B rfl h
      · exact he (.trans _ _ _ (.symm _ _ (hall h)) (.trans _ _ _ hf (.symm _ _ (hall h'))))
      · exact he (.trans _ _ _ (hall h') (.trans _ _ _ (.symm _ _ hf) (hall h)))

theorem IsForest.perm (h : IsForest ends F) (hperm : F.Perm G) : IsForest ends G := by
  induction hperm with
  | nil => exact h
  | cons e hp ih =>
    obtain ⟨he, hF⟩ := isForest_cons.mp h
    refine isForest_cons.mpr ⟨?_, ih hF⟩
    exact fun hj => he ((joined_congr fun f => hp.mem_iff).mpr hj)
  | swap e f F =>
    rintro A g B hG hjoined
    obtain ⟨hf, hrest⟩ := isForest_cons.mp h
    obtain ⟨he, hF⟩ := isForest_cons.mp hrest
    have hswap : IsForest ends (e :: f :: F) := by
      refine isForest_cons.mpr ⟨?_, isForest_cons.mpr ⟨?_, hF⟩⟩
      · intro hj
        rcases joined_cons.mp hj with h | ⟨h, h'⟩ | ⟨h, h'⟩
        · exact he h
        · exact hf (joined_cons.mpr (.inr (.inl ⟨.symm _ _ h, .symm _ _ h'⟩)))
        · exact hf (joined_cons.mpr (.inr (.inr ⟨h', h⟩)))
      · exact fun hj => hf (hj.mono fun g hg => List.mem_cons_of_mem e hg)
    exact hswap A g B hG hjoined
  | trans _ _ ih ih' => exact ih' (ih h)

theorem isForest_snoc : IsForest ends (F ++ [e]) ↔
    ¬ Joined ends (· ∈ F) (ends e).1 (ends e).2 ∧ IsForest ends F := by
  rw [← isForest_cons]
  exact ⟨fun h => h.perm (List.perm_append_singleton e F),
    fun h => h.perm (List.perm_append_singleton e F).symm⟩

theorem IsForest.filter (h : IsForest ends F) (p : ε → Bool) : IsForest ends (F.filter p) := by
  induction F with
  | nil => exact h
  | cons e F ih =>
    obtain ⟨he, hF⟩ := isForest_cons.mp h
    rw [List.filter_cons]
    split
    · refine isForest_cons.mpr ⟨?_, ih hF⟩
      exact fun hj => he (hj.mono fun f hf => (List.mem_filter.mp hf).1)
    · exact ih hF

end Forests

section Counting
variable [LinearOrder α] {S : Finset α}

open Classical in
/-- The least node of each class. -/
noncomputable def leaders (ends : ε → α × α) (S : Finset α) (P : ε → Prop) : Finset α :=
  S.filter fun v => ∀ u ∈ S, Joined ends P u v → v ≤ u

theorem mem_leaders :
    v ∈ leaders ends S P ↔ v ∈ S ∧ ∀ u ∈ S, Joined ends P u v → v ≤ u := by
  simp [leaders]

theorem leader_unique (hu : u ∈ leaders ends S P) (hv : v ∈ leaders ends S P)
    (huv : Joined ends P u v) : u = v := by
  rw [mem_leaders] at hu hv
  exact le_antisymm (hu.2 v hv.1 (.symm _ _ huv)) (hv.2 u hu.1 huv)

theorem exists_leader (ends : ε → α × α) (P : ε → Prop) (ha : a ∈ S) :
    ∃ r ∈ leaders ends S P, Joined ends P r a := by
  classical
  obtain ⟨r, hr, hleast⟩ := (S.filter fun u => Joined ends P u a).exists_min_image id
    ⟨a, Finset.mem_filter.mpr ⟨ha, .refl a⟩⟩
  obtain ⟨hrS, hra⟩ := Finset.mem_filter.mp hr
  refine ⟨r, mem_leaders.mpr ⟨hrS, ?_⟩, hra⟩
  intro u hu hur
  exact hleast u (Finset.mem_filter.mpr ⟨hu, .trans _ _ _ hur hra⟩)

theorem leaders_anti (h : ∀ u v, Joined ends P u v → Joined ends Q u v) :
    leaders ends S Q ⊆ leaders ends S P := by
  intro v hv
  rw [mem_leaders] at hv ⊢
  exact ⟨hv.1, fun u hu huv => hv.2 u hu (h u v huv)⟩

/-- An edge between two classes takes the greater of their leaders away. -/
theorem card_leaders_cons (hends : (ends e).1 ∈ S ∧ (ends e).2 ∈ S)
    (he : ¬ Joined ends (· ∈ F) (ends e).1 (ends e).2) :
    (leaders ends S (· ∈ e :: F)).card + 1 = (leaders ends S (· ∈ F)).card := by
  obtain ⟨r, hr, hra⟩ := exists_leader ends (· ∈ F) hends.1
  obtain ⟨s, hs, hsb⟩ := exists_leader ends (· ∈ F) hends.2
  have hrs : ¬ Joined ends (· ∈ F) r s := fun h =>
    he (.trans _ _ _ (.symm _ _ hra) (.trans _ _ _ h hsb))
  have hjoin : Joined ends (· ∈ e :: F) r s := joined_cons.mpr (.inr (.inl ⟨hra, .symm _ _ hsb⟩))
  have hkeep : ∀ v ∈ leaders ends S (· ∈ e :: F), v ∈ leaders ends S (· ∈ F) := fun v hv =>
    leaders_anti (fun u w huw => huw.mono fun f hf => List.mem_cons_of_mem e hf) hv
  have hlost : ∀ v ∈ leaders ends S (· ∈ F), v ≠ max r s → v ∈ leaders ends S (· ∈ e :: F) := by
    intro v hv hne
    have hv' := mem_leaders.mp hv
    have hr' := mem_leaders.mp hr
    have hs' := mem_leaders.mp hs
    refine mem_leaders.mpr ⟨hv'.1, ?_⟩
    intro u hu huv
    rcases joined_cons.mp huv with h | ⟨h, h'⟩ | ⟨h, h'⟩
    · exact hv'.2 u hu h
    · have hvs := leader_unique hv hs (.trans _ _ _ (.symm _ _ h') (.symm _ _ hsb))
      have hru := hr'.2 u hu (.trans _ _ _ h (.symm _ _ hra))
      grind
    · have hvr := leader_unique hv hr (.trans _ _ _ (.symm _ _ h') (.symm _ _ hra))
      have hsu := hs'.2 u hu (.trans _ _ _ h (.symm _ _ hsb))
      grind
  have hmax : max r s ∈ leaders ends S (· ∈ F) := by
    rcases max_choice r s with h | h <;> rw [h] <;> assumption
  have hgone : max r s ∉ leaders ends S (· ∈ e :: F) := by
    intro hin
    have hne : r ≠ s := fun h => hrs (h ▸ .refl r)
    rcases le_total r s with h | h
    · rw [max_eq_right h, mem_leaders] at hin
      exact hne (le_antisymm h (hin.2 r (mem_leaders.mp hr).1 hjoin))
    · rw [max_eq_left h, mem_leaders] at hin
      exact hne (le_antisymm (hin.2 s (mem_leaders.mp hs).1 (.symm _ _ hjoin)) h)
  have heq : leaders ends S (· ∈ e :: F) = (leaders ends S (· ∈ F)).erase (max r s) := by
    ext v
    rw [Finset.mem_erase]
    exact ⟨fun hv => ⟨fun h => hgone (h ▸ hv), hkeep v hv⟩, fun hv => hlost v hv.2 hv.1⟩
  rw [heq]
  exact Finset.card_erase_add_one hmax

/-- Every edge of a forest leaves one class less. -/
theorem IsForest.card (h : IsForest ends F) (hS : ∀ e ∈ F, (ends e).1 ∈ S ∧ (ends e).2 ∈ S) :
    (leaders ends S (· ∈ F)).card + F.length = S.card := by
  induction F with
  | nil =>
    have hall : leaders ends S (· ∈ ([] : List ε)) = S := by
      ext v
      refine ⟨fun hv => (mem_leaders.mp hv).1, fun hv => mem_leaders.mpr ⟨hv, ?_⟩⟩
      intro u _ huv
      exact (joined_nil.mp huv).ge
    rw [hall, List.length_nil, Nat.add_zero]
  | cons e F ih =>
    obtain ⟨he, hF⟩ := isForest_cons.mp h
    obtain ⟨hends, hrest⟩ := List.forall_mem_cons.mp hS
    have hcard := card_leaders_cons hends he
    have hsum := ih hF hrest
    rw [List.length_cons]
    omega

/-- A forest within the classes of another has no more edges. -/
theorem IsForest.length_le (hF : IsForest ends F) (hG : IsForest ends G)
    (hFS : ∀ e ∈ F, (ends e).1 ∈ S ∧ (ends e).2 ∈ S)
    (hGS : ∀ e ∈ G, (ends e).1 ∈ S ∧ (ends e).2 ∈ S)
    (hjoin : ∀ u v, Joined ends (· ∈ G) u v → Joined ends (· ∈ F) u v) :
    G.length ≤ F.length := by
  have hcard := Finset.card_le_card (leaders_anti (S := S) hjoin)
  have hf := hF.card hFS
  have hg := hG.card hGS
  omega

/-- With as many edges, its classes are the same. -/
theorem IsForest.joined_of_length (hF : IsForest ends F) (hG : IsForest ends G)
    (hFS : ∀ e ∈ F, (ends e).1 ∈ S ∧ (ends e).2 ∈ S)
    (hGS : ∀ e ∈ G, (ends e).1 ∈ S ∧ (ends e).2 ∈ S)
    (hjoin : ∀ u v, Joined ends (· ∈ G) u v → Joined ends (· ∈ F) u v)
    (hlen : F.length ≤ G.length) (hu : u ∈ S) (hv : v ∈ S) (huv : Joined ends (· ∈ F) u v) :
    Joined ends (· ∈ G) u v := by
  have hsub := leaders_anti (S := S) hjoin
  have hf := hF.card hFS
  have hg := hG.card hGS
  have hsame := Finset.eq_of_subset_of_card_le hsub (by omega)
  obtain ⟨r, hr, hru⟩ := exists_leader ends (· ∈ G) hu
  obtain ⟨s, hs, hsv⟩ := exists_leader ends (· ∈ G) hv
  have hrs : r = s := by
    rw [← hsame] at hr hs
    exact leader_unique hr hs (.trans _ _ _ (hjoin _ _ hru)
      (.trans _ _ _ huv (.symm _ _ (hjoin _ _ hsv))))
  subst hrs
  exact .trans _ _ _ (.symm _ _ hru) hsv

end Counting

section Weights
variable {weight : ε → Int} [LinearOrder α] {S : Finset α}

/-- Of two lists of the same length, that with more small numbers below every bound has the
smaller sum. -/
theorem sum_le_of_counts {s t : List Int} (hs : s.Pairwise (· ≥ ·)) (ht : t.Pairwise (· ≥ ·))
    (hlen : s.length = t.length) (hcount : ∀ w, t.countP (· ≤ w) ≤ s.countP (· ≤ w)) :
    s.sum ≤ t.sum := by
  induction s generalizing t with
  | nil =>
    rw [List.eq_nil_of_length_eq_zero hlen.symm]
  | cons x s ih =>
    obtain ⟨y, t, rfl⟩ := List.exists_cons_of_length_eq_add_one hlen.symm
    obtain ⟨hx, hs⟩ := List.pairwise_cons.mp hs
    obtain ⟨hy, ht⟩ := List.pairwise_cons.mp ht
    have hlen' : s.length = t.length := by simpa using hlen
    have hall : ∀ {z w : Int} {l : List Int}, (∀ y ∈ l, z ≥ y) → z ≤ w →
        l.countP (· ≤ w) = l.length := by
      intro z w l hl hzw
      exact List.countP_eq_length.mpr fun y hy => by simpa using (hl y hy).trans hzw
    have hxy : x ≤ y := by
      by_contra hlt
      have hle := hcount y
      have htop := hall hy (le_refl y)
      have hpart := s.countP_le_length (p := (· ≤ y))
      simp [htop, hlt] at hle
      omega
    have hrest := ih hs ht hlen' (fun w => by
      have hle := hcount w
      by_cases hyw : y ≤ w
      · simpa [hyw, hxy.trans hyw] using hle
      · by_cases hxw : x ≤ w
        · rw [hall hx hxw, hlen']
          exact t.countP_le_length
        · simpa [hyw, hxw] using hle)
    simp only [List.sum_cons]
    omega

theorem sum_le_of_lighter (hlen : F.length = G.length)
    (hcount : ∀ w, G.countP (weight · ≤ w) ≤ F.countP (weight · ≤ w)) :
    (F.map weight).sum ≤ (G.map weight).sum := by
  have hF := (F.map weight).perm_insertionSort (· ≥ ·)
  have hG := (G.map weight).perm_insertionSort (· ≥ ·)
  rw [← hF.sum_eq, ← hG.sum_eq]
  apply sum_le_of_counts
  · exact List.pairwise_insertionSort (· ≥ ·) _
  · exact List.pairwise_insertionSort (· ≥ ·) _
  · rw [hF.length_eq, hG.length_eq, List.length_map, List.length_map, hlen]
  · intro w
    rw [hF.countP_eq, hG.countP_eq, List.countP_map, List.countP_map]
    exact hcount w

/-- The edges of a forest join, for every bound, all that the edges within the bound join. -/
def Light (ends : ε → α × α) (weight : ε → Int) (F : List ε) (P : ε → Prop) : Prop :=
  ∀ w u v, Joined ends (fun e => P e ∧ weight e ≤ w) u v →
    Joined ends (fun e => e ∈ F ∧ weight e ≤ w) u v

/-- Such a forest is no heavier than any other with as many edges. -/
theorem Light.sum_le (h : Light ends weight F P) (hF : IsForest ends F) (hG : IsForest ends G)
    (hFS : ∀ e ∈ F, (ends e).1 ∈ S ∧ (ends e).2 ∈ S)
    (hGS : ∀ e ∈ G, (ends e).1 ∈ S ∧ (ends e).2 ∈ S) (hG' : ∀ e ∈ G, P e)
    (hlen : F.length = G.length) : (F.map weight).sum ≤ (G.map weight).sum := by
  refine sum_le_of_lighter hlen ?_
  intro w
  rw [List.countP_eq_length_filter, List.countP_eq_length_filter]
  refine (hF.filter _).length_le (hG.filter _) (fun e he => hFS e (List.mem_filter.mp he).1)
    (fun e he => hGS e (List.mem_filter.mp he).1) ?_
  intro u v huv
  refine (h w u v (huv.mono ?_)).mono ?_
  · intro e he
    simp only [List.mem_filter, decide_eq_true_eq] at he
    exact ⟨hG' e he.1, he.2⟩
  · intro e he
    simpa using he

end Weights

section Greedy
variable {weight : ε → Int}

/-- Edges are taken in an order, each one unless those taken before join its ends. -/
inductive Greedy (ends : ε → α × α) : List ε → List ε → Prop
  | nil : Greedy ends [] []
  | take {A F : List ε} {e : ε} (h : Greedy ends A F)
      (he : ¬ Joined ends (· ∈ F) (ends e).1 (ends e).2) :
      Greedy ends (A ++ [e]) (F ++ [e])
  | skip {A F : List ε} {e : ε} (h : Greedy ends A F)
      (he : Joined ends (· ∈ F) (ends e).1 (ends e).2) :
      Greedy ends (A ++ [e]) F

theorem Greedy.isForest (h : Greedy ends A F) : IsForest ends F := by
  induction h with
  | nil => exact isForest_nil
  | take _ he ih => exact isForest_snoc.mpr ⟨he, ih⟩
  | skip _ _ ih => exact ih

theorem Greedy.subset (h : Greedy ends A F) : ∀ e ∈ F, e ∈ A := by
  induction h with
  | nil => exact fun e he => he
  | take _ _ ih => grind
  | skip _ _ ih => grind

theorem exists_greedy (ends : ε → α × α) (A : List ε) : ∃ F, Greedy ends A F := by
  induction A using List.reverseRecOn with
  | nil => exact ⟨[], .nil⟩
  | append_singleton A e ih =>
    obtain ⟨F, hF⟩ := ih
    by_cases he : Joined ends (· ∈ F) (ends e).1 (ends e).2
    · exact ⟨F, hF.skip he⟩
    · exact ⟨F ++ [e], hF.take he⟩

theorem Greedy.length_le (h : Greedy ends A F) : F.length ≤ A.length := by
  induction h with
  | nil => exact le_rfl
  | take _ _ ih => simpa using ih
  | skip _ _ ih => exact ih.trans (by simp)

/-- Of as many edges as there are all are taken. -/
theorem Greedy.eq_of_length (h : Greedy ends A F) (hlen : F.length = A.length) : F = A := by
  induction h with
  | nil => rfl
  | take _ _ ih => rw [ih (by simpa using hlen)]
  | skip h _ _ =>
    have hle := h.length_le
    rw [List.length_append, List.length_singleton] at hlen
    omega

/-- In an order of weights, what is taken is light. -/
theorem Greedy.light (h : Greedy ends A F) (hsorted : A.Pairwise (fun e f => weight e ≤ weight f)) :
    Light ends weight F (· ∈ A) := by
  have hbound : ∀ {A : List ε} {e : ε}, (A ++ [e]).Pairwise (fun e f => weight e ≤ weight f) →
      ∀ f ∈ A, weight f ≤ weight e := fun hA f hf =>
    (List.pairwise_append.mp hA).2.2 f hf _ (List.mem_singleton_self _)
  induction h with
  | nil => exact fun w u v h => h
  | @take A F e h he ih =>
    intro w u v huv
    have hA := ih (List.pairwise_append.mp hsorted).1
    by_cases hw : weight e ≤ w
    · refine huv.bind ?_
      intro f hf
      rcases List.mem_append.mp hf.1 with hfA | hfe
      · exact (hA w _ _ (.edge ⟨hfA, hf.2⟩)).mono fun g hg => ⟨List.mem_append_left _ hg.1, hg.2⟩
      · exact .edge ⟨List.mem_append_right _ hfe, hf.2⟩
    · refine (hA w u v (huv.mono ?_)).mono fun g hg => ⟨List.mem_append_left _ hg.1, hg.2⟩
      rintro f ⟨hf, hfw⟩
      rcases List.mem_append.mp hf with hf | hf
      · exact ⟨hf, hfw⟩
      · rw [List.mem_singleton.mp hf] at hfw
        exact absurd hfw hw
  | @skip A F e h he ih =>
    intro w u v huv
    have hA := ih (List.pairwise_append.mp hsorted).1
    refine huv.bind ?_
    rintro f ⟨hf, hfw⟩
    rcases List.mem_append.mp hf with hf | hf
    · exact hA w _ _ (.edge ⟨hf, hfw⟩)
    · -- the edge is within the bound, and so is all that was taken before it
      obtain rfl := List.mem_singleton.mp hf
      exact he.mono fun g hg => ⟨hg, (hbound hsorted g (h.subset g hg)).trans hfw⟩

/-- What is taken joins all that was offered. -/
theorem Greedy.joined (h : Greedy ends A F) (huv : Joined ends (· ∈ A) u v) :
    Joined ends (· ∈ F) u v := by
  induction h generalizing u v with
  | nil => exact huv
  | @take A F e h he ih =>
    refine huv.bind fun f hf => ?_
    rcases List.mem_append.mp hf with hf | hf
    · exact (ih (.edge hf)).mono fun g hg => List.mem_append_left _ hg
    · exact .edge (List.mem_append_right _ hf)
  | @skip A F e h he ih =>
    refine huv.bind fun f hf => ?_
    rcases List.mem_append.mp hf with hf | hf
    · exact ih (.edge hf)
    · obtain rfl := List.mem_singleton.mp hf
      exact he

end Greedy

section Growing
variable {weight : ε → Int} {S : α → Prop}

/-- What joins nodes inside and outside has an edge that does. -/
theorem Joined.crossing (h : Joined ends P u v) (huv : ¬ (S u ↔ S v)) :
    ∃ e, P e ∧ ¬ (S (ends e).1 ↔ S (ends e).2) := by
  induction h with
  | rel u v h =>
    obtain ⟨e, he, hends⟩ := h
    exact ⟨e, he, by simpa [hends] using huv⟩
  | refl u => exact absurd Iff.rfl huv
  | symm u v _ ih => exact ih fun h => huv h.symm
  | trans u v w _ _ ih ih' =>
    by_cases hv : S u ↔ S v
    · exact ih' fun h => huv (hv.trans h)
    · exact ih hv

/-- A tree on some of the nodes that is light there. -/
structure Tree (ends : ε → α × α) (weight : ε → Int) (P : ε → Prop) (S : α → Prop)
    (F : List ε) : Prop where
  edges : ∀ e ∈ F, P e
  inside : ∀ e ∈ F, S (ends e).1 ∧ S (ends e).2
  forest : IsForest ends F
  connected : ∀ u v, S u → S v → Joined ends (· ∈ F) u v
  light : ∀ w u v, S u → S v → Joined ends (fun e => P e ∧ weight e ≤ w) u v →
    Joined ends (fun e => e ∈ F ∧ weight e ≤ w) u v

theorem Tree.single (ends : ε → α × α) (weight : ε → Int) (P : ε → Prop) (a : α) :
    Tree ends weight P (· = a) [] := by
  refine ⟨by simp, by simp, isForest_nil, ?_, ?_⟩
  · rintro u v rfl rfl
    exact .refl _
  · rintro w u v rfl rfl _
    exact .refl _

/-- The tree grows by a lightest edge that leaves it. -/
theorem Tree.grow (h : Tree ends weight P S F) (he : P e) (hin : S (ends e).1)
    (hout : ¬ S (ends e).2)
    (hmin : ∀ f, P f → ¬ (S (ends f).1 ↔ S (ends f).2) → weight e ≤ weight f) :
    Tree ends weight P (fun v => S v ∨ v = (ends e).2) (F ++ [e]) := by
  have hold : ∀ {Q Q' : ε → Prop} {u v}, (∀ f, Q f → Q' f) →
      Joined ends (fun f => f ∈ F ∧ Q f) u v → Joined ends (fun f => f ∈ F ++ [e] ∧ Q' f) u v := fun hQ huv =>
    huv.mono fun f hf => ⟨List.mem_append_left _ hf.1, hQ f hf.2⟩
  -- a way from inside to the new node within a bound leaves by an edge within the bound
  have hnew : ∀ w u, S u → Joined ends (fun f => P f ∧ weight f ≤ w) u (ends e).2 →
      Joined ends (fun f => f ∈ F ++ [e] ∧ weight f ≤ w) u (ends e).2 := by
    intro w u hu huv
    obtain ⟨f, ⟨hf, hfw⟩, hcross⟩ := huv.crossing (S := S) (fun h => hout (h.mp hu))
    have hew : weight e ≤ w := (hmin f hf hcross).trans hfw
    have hback : Joined ends (fun f => P f ∧ weight f ≤ w) u (ends e).1 :=
      .trans _ _ _ huv (.symm _ _ (Joined.edge ⟨he, hew⟩))
    have hstep : Joined ends (fun f => f ∈ F ++ [e] ∧ weight f ≤ w) (ends e).1 (ends e).2 :=
      Joined.edge ⟨by simp, hew⟩
    exact .trans _ _ _ (hold (fun _ => id) (h.light w u _ hu hin hback)) hstep
  have hreach : ∀ u, S u → Joined ends (· ∈ F ++ [e]) u (ends e).2 := fun u hu =>
    .trans _ _ _ ((h.connected u _ hu hin).mono fun f hf => List.mem_append_left _ hf)
      (Joined.edge (by simp))
  refine ⟨?_, ?_, ?_, ?_, ?_⟩
  · intro f hf
    rcases List.mem_append.mp hf with hf | hf
    · exact h.edges f hf
    · exact List.mem_singleton.mp hf ▸ he
  · intro f hf
    rcases List.mem_append.mp hf with hf | hf
    · exact ⟨.inl (h.inside f hf).1, .inl (h.inside f hf).2⟩
    · rw [List.mem_singleton.mp hf]
      exact ⟨.inl hin, .inr rfl⟩
  · refine isForest_snoc.mpr ⟨?_, h.forest⟩
    intro hj
    obtain ⟨f, hf, hcross⟩ := hj.crossing (S := S) (fun h => hout (h.mp hin))
    exact hcross (iff_of_true (h.inside f hf).1 (h.inside f hf).2)
  · intro u v hu hv
    rcases hu with hu | hu <;> rcases hv with hv | hv
    · exact (h.connected u v hu hv).mono fun f hf => List.mem_append_left _ hf
    · exact hv ▸ hreach u hu
    · exact hu ▸ .symm _ _ (hreach v hv)
    · exact hu ▸ hv ▸ .refl _
  · intro w u v hu hv huv
    rcases hu with hu | hu <;> rcases hv with hv | hv
    · exact hold (fun _ => id) (h.light w u v hu hv huv)
    · subst hv
      exact hnew w u hu huv
    · subst hu
      exact .symm _ _ (hnew w v hv (.symm _ _ huv))
    · exact hu ▸ hv ▸ .refl _

end Growing

end SpanningForest
