import Cppforge.Lib.SpanningForest
import Mathlib.SetTheory.Cardinal.NatCard
import Mathlib.Data.List.Chain
import Mathlib.Data.Sym.Sym2
import Mathlib.Logic.Relation

/-! Nodes and edges that hold an undirected graph together, as a depth-first search finds them. -/

namespace Cuts
open Relation

variable {α β : Type} {E r : α → α → Prop} {N S : α → Prop} {a b c u v x y z : α}
  {path rest : List α}

section Joining

/-- What no edge leaves nothing joins with the rest. -/
theorem mem_iff_of_joined (hS : ∀ a b, r a b → (S a ↔ S b)) (h : EqvGen r a b) : S a ↔ S b := by
  induction h with
  | rel a b h => exact hS a b h
  | refl => exact Iff.rfl
  | symm _ _ _ ih => exact ih.symm
  | trans _ _ _ _ _ ih ih' => exact ih.trans ih'

/-- What each edge joins, all of them join. -/
theorem joined_bind {r' : α → α → Prop} (h : EqvGen r a b) (hr : ∀ a b, r a b → EqvGen r' a b) :
    EqvGen r' a b := by
  induction h with
  | rel a b h => exact hr a b h
  | refl a => exact .refl a
  | symm a b _ ih => exact .symm a b ih
  | trans a b c _ _ ih ih' => exact .trans a b c ih ih'

theorem chain_joined (h : path.IsChain r) (ha : a ∈ path) (hb : b ∈ path) : EqvGen r a b := by
  suffices hhead : ∀ {l : List α} {x y}, (x :: l).IsChain r → y ∈ x :: l → EqvGen r x y by
    cases path with
    | nil => cases ha
    | cons x l => exact .trans _ _ _ (.symm _ _ (hhead h ha)) (hhead h hb)
  intro l x y h hy
  induction l generalizing x with
  | nil =>
    obtain rfl := List.mem_singleton.mp hy
    exact .refl y
  | cons z l ih =>
    obtain ⟨hxz, hrest⟩ := List.isChain_cons_cons.mp h
    rcases List.mem_cons.mp hy with rfl | hy
    · exact .refl y
    · exact .trans _ _ _ (.rel x z hxz) (ih hrest hy)

/-- The edges that a node is not on. -/
def Without (E : α → α → Prop) (u : α) (a b : α) : Prop := a ≠ u ∧ b ≠ u ∧ E a b

/-- The edges but those between two nodes. -/
def Apart (E : α → α → Prop) (u v : α) (a b : α) : Prop := E a b ∧ s(a, b) ≠ s(u, v)

/-- A node without which nodes are joined no longer. -/
def CutNode (E : α → α → Prop) (u : α) : Prop :=
  ∃ a b, a ≠ u ∧ b ≠ u ∧ EqvGen E a b ∧ ¬ EqvGen (Without E u) a b

/-- Nodes that only the edges between them join. -/
def CutPair (E : α → α → Prop) (u v : α) : Prop := E u v ∧ ¬ EqvGen (Apart E u v) u v

theorem joined_or (u : α) (h : EqvGen E a b) : EqvGen E a u ∨ EqvGen (Without E u) a b := by
  induction h with
  | rel a b h =>
    by_cases ha : a = u
    · exact .inl (ha ▸ .refl a)
    · by_cases hb : b = u
      · exact .inl (hb ▸ .rel a b h)
      · exact .inr (.rel a b ⟨ha, hb, h⟩)
  | refl a => exact .inr (.refl a)
  | symm a b h ih =>
    rcases ih with ih | ih
    · exact .inl (.trans _ _ _ (.symm _ _ h) ih)
    · exact .inr (.symm _ _ ih)
  | trans a b c h _ ih ih' =>
    rcases ih with ih | ih
    · exact .inl ih
    · rcases ih' with ih' | ih'
      · exact .inl (.trans _ _ _ h ih')
      · exact .inr (.trans _ _ _ ih ih')

theorem ne_of_without (h : EqvGen (Without E u) a b) (ha : a ≠ u) : b ≠ u :=
  (mem_iff_of_joined (S := (· ≠ u)) (fun _ _ hab => iff_of_true hab.1 hab.2.1) h).mp ha

/-- What is joined with a node is joined with a neighbour of it in another way. -/
theorem exists_neighbor (hE : ∀ a b, E a b → E b a) (h : EqvGen E a u) (ha : a ≠ u) :
    ∃ y, E u y ∧ y ≠ u ∧ EqvGen (Without E u) a y := by
  by_contra hnone
  push Not at hnone
  have hstep : ∀ x y, E x y → EqvGen (Without E u) a x → EqvGen (Without E u) a y := by
    intro x y hxy hx
    have hxu := ne_of_without hx ha
    by_cases hyu : y = u
    · exact absurd hx (hnone x (hE _ _ (hyu ▸ hxy)) hxu)
    · exact .trans _ _ _ hx (.rel _ _ ⟨hxu, hyu, hxy⟩)
  have hstays := mem_iff_of_joined (fun x y hxy => ⟨hstep x y hxy, hstep y x (hE _ _ hxy)⟩) h
  exact ne_of_without (hstays.mp (.refl a)) ha rfl

theorem cutNode_iff (hE : ∀ a b, E a b → E b a) : CutNode E u ↔
    ∃ a b, E u a ∧ E u b ∧ a ≠ u ∧ b ≠ u ∧ ¬ EqvGen (Without E u) a b := by
  constructor
  · intro hgiven
    obtain ⟨a, b, ha, hb, hab, hcut⟩ := hgiven
    have hau := (joined_or u hab).resolve_right hcut
    have hbu := (joined_or u (.symm _ _ hab)).resolve_right fun h => hcut (.symm _ _ h)
    obtain ⟨x, hx, hxu, hax⟩ := exists_neighbor hE hau ha
    obtain ⟨y, hy, hyu, hby⟩ := exists_neighbor hE hbu hb
    exact ⟨x, y, hx, hy, hxu, hyu, fun hxy =>
      hcut (.trans _ _ _ hax (.trans _ _ _ hxy (.symm _ _ hby)))⟩
  · intro hgiven
    obtain ⟨a, b, ha, hb, hau, hbu, hcut⟩ := hgiven
    exact ⟨a, b, hau, hbu, .trans _ _ _ (.symm _ _ (.rel _ _ ha)) (.rel _ _ hb), hcut⟩

end Joining

section Counting

/-- The number of connected components. -/
noncomputable def components (r : α → α → Prop) : Nat := Nat.card (Quot r)

/-- A part of a graph has more components than the whole exactly when it joins less. -/
theorem components_lt_iff [Finite α] [Finite β] {s : β → β → Prop} (f : α → β)
    (h : ∀ a b, r a b → s (f a) (f b))
    (hf : ∀ a b, EqvGen s (f a) (f b) → ¬ EqvGen r a b → ∀ y, ∃ x, EqvGen s (f x) y) :
    components s < components r ↔ ∃ a b, EqvGen s (f a) (f b) ∧ ¬ EqvGen r a b := by
  let merge : Quot r → Quot s := Quot.map f h
  constructor
  · intro hlt
    by_contra hnone
    push Not at hnone
    have hinj : Function.Injective merge := by
      rintro ⟨a⟩ ⟨b⟩ hab
      exact Quot.eqvGen_sound (hnone a b (Quot.eqvGen_exact hab))
    exact absurd (Nat.card_le_card_of_injective merge hinj) (not_le.mpr hlt)
  · intro hgiven
    obtain ⟨a, b, hab, hapart⟩ := hgiven
    have hsurj : Function.Surjective merge := by
      intro hgiven
      obtain ⟨y⟩ := hgiven
      obtain ⟨x, hx⟩ := hf a b hab hapart y
      exact ⟨Quot.mk r x, Quot.eqvGen_sound hx⟩
    refine lt_of_le_of_ne (Nat.card_le_card_of_surjective merge hsurj) fun heq => hapart ?_
    have hbij := (Nat.bijective_iff_surjective_and_card merge).mpr ⟨hsurj, heq.symm⟩
    have hsame : merge (Quot.mk r a) = merge (Quot.mk r b) := Quot.eqvGen_sound hab
    exact Quot.eqvGen_exact (hbij.1 hsame)

theorem components_mono_lt_iff [Finite α] {s : α → α → Prop} (h : ∀ a b, r a b → s a b) :
    components s < components r ↔ ∃ a b, EqvGen s a b ∧ ¬ EqvGen r a b :=
  components_lt_iff id h fun _ _ _ _ y => ⟨y, .refl y⟩

/-- Edges of the nodes that are left. -/
def Rest (E : α → α → Prop) (u : α) (a b : {x // x ≠ u}) : Prop := E a b

theorem joined_rest {a b : {x // x ≠ u}} :
    EqvGen (Rest E u) a b ↔ EqvGen (Without E u) a.1 b.1 := by
  constructor
  · intro h
    induction h with
    | rel a b h => exact .rel _ _ ⟨a.2, b.2, h⟩
    | refl a => exact .refl _
    | symm _ _ _ ih => exact .symm _ _ ih
    | trans _ _ _ _ _ ih ih' => exact .trans _ _ _ ih ih'
  · intro h
    have hall : ∀ {x y}, EqvGen (Without E u) x y → ∀ (hx : x ≠ u) (hy : y ≠ u),
        EqvGen (Rest E u) ⟨x, hx⟩ ⟨y, hy⟩ := by
      intro x y h
      induction h with
      | rel x y h => exact fun hx hy => .rel _ _ h.2.2
      | refl x => exact fun hx _ => .refl _
      | symm x y _ ih => exact fun hx hy => .symm _ _ (ih hy hx)
      | trans x y z h _ ih ih' =>
        exact fun hx hz => .trans _ _ _ (ih hx (ne_of_without h hx)) (ih' (ne_of_without h hx) hz)
    exact hall h a.2 b.2

theorem components_rest_lt_iff [Finite α] (u : α) :
    components E < components (Rest E u) ↔ CutNode E u := by
  rw [components_lt_iff (r := Rest E u) Subtype.val fun _ _ h => h]
  · constructor
    · intro hgiven
      obtain ⟨a, b, hab, hcut⟩ := hgiven
      exact ⟨a, b, a.2, b.2, hab, fun h => hcut (joined_rest.mpr h)⟩
    · intro hgiven
      obtain ⟨a, b, ha, hb, hab, hcut⟩ := hgiven
      exact ⟨⟨a, ha⟩, ⟨b, hb⟩, hab, fun h => hcut (joined_rest.mp h)⟩
  · intro a b hab hcut y
    by_cases hy : y = u
    · subst hy
      exact ⟨a, (joined_or y hab).resolve_right fun h => hcut (joined_rest.mpr h)⟩
    · exact ⟨⟨y, hy⟩, .refl y⟩

end Counting

section Branches

/-- The nodes that are visited from `v`, which is entered from the first node of `path`. -/
structure Branch (E : α → α → Prop) (path : List α) (v : α) (N : α → Prop) : Prop where
  root : N v
  joined : ∀ x, N x → EqvGen (fun a b => N a ∧ N b ∧ E a b) v x
  out : ∀ x y, N x → E x y → N y ∨ y ∈ path
  fresh : ∀ z ∈ path, ¬ N z

/-- Edges of a branch lead out to one node only. -/
def Closed (E : α → α → Prop) (N : α → Prop) (u : α) : Prop := ∀ x y, N x → E x y → N y ∨ y = u

/-- Without the node it hangs on a closed branch is joined with nothing else. -/
theorem Closed.stays (h : Closed E N u) (hE : ∀ a b, E a b → E b a)
    (hab : EqvGen (Without E u) a b) : N a ↔ N b := by
  refine mem_iff_of_joined (fun x y hxy => ?_) hab
  obtain ⟨hx, hy, hxy⟩ := hxy
  exact ⟨fun hN => (h x y hN hxy).resolve_right hy,
    fun hN => (h y x hN (hE _ _ hxy)).resolve_right hx⟩

namespace Branch

theorem joined_without (h : Branch E path v N) (hu : u ∈ path) (hx : N x) (hy : N y) :
    EqvGen (Without E u) x y := by
  have hne : ∀ z, N z → z ≠ u := fun z hz heq => h.fresh u hu (heq ▸ hz)
  have hroot : ∀ z, N z → EqvGen (Without E u) v z := fun z hz =>
    (h.joined z hz).mono fun a b hab => ⟨hne a hab.1, hne b hab.2.1, hab.2.2⟩
  exact .trans _ _ _ (.symm _ _ (hroot x hx)) (hroot y hy)

theorem joined_above (h : Branch E (u :: path) v N) (hopen : ¬ Closed E N u)
    (hpath : path.IsChain E) (hu : u ∉ path) (hx : N x) (hz : z ∈ path) :
    EqvGen (Without E u) x z := by
  rw [Closed] at hopen
  push Not at hopen
  obtain ⟨a, b, ha, hab, hb, hbu⟩ := hopen
  have hbpath : b ∈ path :=
    (List.mem_cons.mp ((h.out a b ha hab).resolve_left hb)).resolve_left hbu
  have hau : a ≠ u := fun heq => h.fresh u List.mem_cons_self (heq ▸ ha)
  have hne : ∀ y ∈ path, y ≠ u := fun y hy heq => hu (heq ▸ hy)
  have hup := chain_joined (hpath.imp_of_mem_imp fun x y hx hy hxy =>
    (⟨hne x hx, hne y hy, hxy⟩ : Without E u x y)) hbpath hz
  exact .trans _ _ _ (h.joined_without List.mem_cons_self hx ha)
    (.trans _ _ _ (.rel _ _ ⟨hau, hbu, hab⟩) hup)

/-- The edges along which a branch is entered are all that join it when no other edge leads
out. -/
theorem cutPair_iff (h : Branch E (u :: path) v N) (hE : ∀ a b, E a b → E b a)
    (hpath : (u :: path).IsChain E) (huv : E u v) :
    CutPair E u v ↔ ∀ x y, N x → E x y → N y ∨ x = v ∧ y = u := by
  have hu : ¬ N u := h.fresh u List.mem_cons_self
  constructor
  · intro hgiven x y hx hxy
    obtain ⟨_, hcut⟩ := hgiven
    by_contra hother
    rw [not_or] at hother
    have hy := (h.out x y hx hxy).resolve_left hother.1
    have hinside : EqvGen (Apart E u v) v x := (h.joined x hx).mono fun a b hab =>
      ⟨hab.2.2, fun heq => by
        rcases Sym2.eq_iff.mp heq with ⟨rfl, _⟩ | ⟨_, rfl⟩
        · exact hu hab.1
        · exact hu hab.2.1⟩
    have hstep : Apart E u v x y := by
      refine ⟨hxy, fun heq => ?_⟩
      rcases Sym2.eq_iff.mp heq with ⟨rfl, _⟩ | hback
      · exact hu hx
      · exact hother.2 hback
    have hup := chain_joined (hpath.imp_of_mem_imp fun a b ha hb hab =>
      (⟨hab, fun heq => by
        have hfresh := h.fresh
        rcases Sym2.eq_iff.mp heq with ⟨_, rfl⟩ | ⟨rfl, _⟩
        · exact hfresh b hb h.root
        · exact hfresh a ha h.root⟩ : Apart E u v a b)) hy List.mem_cons_self
    exact hcut (.symm _ _ (.trans _ _ _ hinside (.trans _ _ _ (.rel _ _ hstep) hup)))
  · intro hall
    refine ⟨huv, fun hjoin => hu ?_⟩
    have hstay : ∀ a b, E a b → s(a, b) ≠ s(u, v) → N a → N b := fun a b hab hne ha =>
      (hall a b ha hab).resolve_right fun heq => hne (by rw [heq.1, heq.2, Sym2.eq_swap])
    refine (mem_iff_of_joined (fun a b hab => ?_) hjoin).mpr h.root
    exact ⟨hstay a b hab.1 hab.2, hstay b a (hE _ _ hab.1) (Sym2.eq_swap ▸ hab.2)⟩

/-- Another edge into the branch is no bridge. -/
theorem not_cutPair (h : Branch E (u :: path) v N) (huv : E u v) (hx : N x) (hxv : x ≠ v) :
    ¬ CutPair E u x := by
  have hu : ¬ N u := h.fresh u List.mem_cons_self
  intro hgiven
  obtain ⟨_, hcut⟩ := hgiven
  have hstep : Apart E u x u v := ⟨huv, fun heq => by
    rcases Sym2.eq_iff.mp heq with ⟨_, rfl⟩ | ⟨rfl, _⟩
    · exact hxv rfl
    · exact hu hx⟩
  have hinside : EqvGen (Apart E u x) v x := (h.joined x hx).mono fun a b hab =>
    ⟨hab.2.2, fun heq => by
      rcases Sym2.eq_iff.mp heq with ⟨rfl, _⟩ | ⟨_, rfl⟩
      · exact hu hab.1
      · exact hu hab.2.1⟩
  exact hcut (.trans _ _ _ (.rel _ _ hstep) hinside)

end Branch

/-- The branches of a node and the node itself are a branch in turn. -/
theorem branch_of_branches {bs : List (α × (α → Prop))}
    (hN : ∀ x, N x ↔ x = u ∨ ∃ b ∈ bs, b.2 x)
    (hbranch : ∀ b ∈ bs, Branch E (u :: path) b.1 b.2) (hchild : ∀ b ∈ bs, E u b.1)
    (hout : ∀ y, E u y → N y ∨ y ∈ path) (hfresh : ∀ z ∈ path, ¬ N z) : Branch E path u N := by
  have hin : ∀ b ∈ bs, ∀ x, b.2 x → N x := fun b hb x hx => (hN x).mpr (.inr ⟨b, hb, hx⟩)
  have hroot := (hN u).mpr (.inl rfl)
  refine ⟨hroot, ?_, ?_, hfresh⟩
  · intro x hx
    rcases (hN x).mp hx with rfl | ⟨b, hb, hbx⟩
    · exact .refl x
    · exact .trans _ _ _ (.rel _ _ ⟨hroot, hin b hb _ (hbranch b hb).root, hchild b hb⟩)
        (((hbranch b hb).joined x hbx).mono fun c d hcd =>
          ⟨hin b hb c hcd.1, hin b hb d hcd.2.1, hcd.2.2⟩)
  · intro x y hx hxy
    rcases (hN x).mp hx with rfl | ⟨b, hb, hbx⟩
    · exact hout y hxy
    · rcases (hbranch b hb).out x y hbx hxy with hby | hy
      · exact .inl (hin b hb y hby)
      · rcases List.mem_cons.mp hy with rfl | hy
        · exact .inl hroot
        · exact .inr hy

/-- An edge back to a node further up goes around. -/
theorem not_cutPair_back {p : α} (hpath : (u :: p :: path).IsChain E) (hu : u ∉ p :: path)
    (hv : v ∈ p :: path) (hvp : v ≠ p) : ¬ CutPair E u v := by
  intro hcut
  obtain ⟨hup, hrest⟩ := List.isChain_cons_cons.mp hpath
  have hne : ∀ z ∈ p :: path, z ≠ u := fun z hz heq => hu (heq ▸ hz)
  have hstep : Apart E u v u p := by
    refine ⟨hup, fun heq => ?_⟩
    rcases Sym2.eq_iff.mp heq with ⟨_, heq⟩ | ⟨_, heq⟩
    · exact hvp heq.symm
    · exact hne p List.mem_cons_self heq
  have hback := chain_joined (hrest.imp_of_mem_imp fun a b ha hb hab =>
    (⟨hab, fun heq => by
      rcases Sym2.eq_iff.mp heq with ⟨heq, _⟩ | ⟨_, heq⟩
      · exact hne a ha heq
      · exact hne b hb heq⟩ : Apart E u v a b)) List.mem_cons_self hv
  exact hcut.2 (.trans _ _ _ (.rel _ _ hstep) hback)

end Branches

section Gains

theorem CutPair.symm (hE : ∀ a b, E a b → E b a) (h : CutPair E u v) : CutPair E v u := by
  refine ⟨hE _ _ h.1, fun hjoin => h.2 (.symm _ _ (hjoin.mono fun a b hab => ?_))⟩
  exact ⟨hab.1, Sym2.eq_swap (a := u) ▸ hab.2⟩

open Classical in
/-- Whether a pair among some nodes is one that only the edges between the two join. -/
noncomputable def pairsIn (E : α → α → Prop) (N : α → Prop) (a b : α) : Nat :=
  if N a ∧ N b ∧ CutPair E a b then 1 else 0

variable {M : α → Prop}

/-- Between what was visited and a new branch there is at most the pair that the branch hangs on. -/
theorem cutPair_across (h : Branch E (u :: path) v N) (hE : ∀ a b, E a b → E b a) (huv : E u v)
    (hapart : ∀ x, M x → ¬ N x) (hpath : ∀ z ∈ path, ¬ M z) (ha : M a) (hb : N b) :
    CutPair E a b ↔ (a = u ∧ b = v) ∧ CutPair E u v := by
  constructor
  · intro hcut
    have hau : a = u := by
      have hout := (h.out b a hb (hE _ _ hcut.1)).resolve_left (hapart a ha)
      exact (List.mem_cons.mp hout).resolve_right fun hin => hpath a hin ha
    subst hau
    obtain rfl : b = v := by
      by_contra hbv
      exact h.not_cutPair huv hb hbv hcut
    exact ⟨⟨rfl, rfl⟩, hcut⟩
  · intro hgiven
    obtain ⟨⟨rfl, rfl⟩, hcut⟩ := hgiven
    exact hcut

open Classical in
theorem pairsIn_grow (h : Branch E (u :: path) v N) (hE : ∀ a b, E a b → E b a) (huv : E u v)
    (hu : M u) (hapart : ∀ x, M x → ¬ N x) (hpath : ∀ z ∈ path, ¬ M z) (a b : α) :
    pairsIn E (fun x => M x ∨ N x) a b = pairsIn E M a b + pairsIn E N a b +
      if (a = u ∧ b = v ∨ a = v ∧ b = u) ∧ CutPair E u v then 1 else 0 := by
  have hother : ∀ x, N x → ¬ M x := fun x hN hM => hapart x hM hN
  have hroot := h.root
  rw [pairsIn, pairsIn, pairsIn]
  by_cases ha : M a
  · by_cases hb : M b
    · have hpair : ¬ ((a = u ∧ b = v ∨ a = v ∧ b = u) ∧ CutPair E u v) := by
        rintro ⟨⟨_, rfl⟩ | ⟨rfl, _⟩, _⟩
        · exact hapart b hb hroot
        · exact hapart a ha hroot
      simp [ha, hb, hapart a ha, if_neg hpair]
    · by_cases hb' : N b
      · have hcross := cutPair_across h hE huv hapart hpath ha hb'
        have hback : ¬ (a = v ∧ b = u) := fun heq => hb (heq.2 ▸ hu)
        simp [ha, hb, hb', hapart a ha, hcross, hback]
      · have hpair : ¬ ((a = u ∧ b = v ∨ a = v ∧ b = u) ∧ CutPair E u v) := by
          rintro ⟨⟨_, rfl⟩ | ⟨_, rfl⟩, _⟩
          · exact hb' hroot
          · exact hb hu
        simp [hb, hb', if_neg hpair]
  · by_cases ha' : N a
    · by_cases hb : M b
      · have hcross := cutPair_across h hE huv hapart hpath hb ha'
        have hswap : CutPair E a b ↔ CutPair E b a := ⟨.symm hE, .symm hE⟩
        have hback : ¬ (a = u ∧ b = v) := fun heq => ha (heq.1 ▸ hu)
        simp [ha, ha', hb, hapart b hb, hswap, hcross, hback, and_comm]
      · have hpair : ¬ ((a = u ∧ b = v ∨ a = v ∧ b = u) ∧ CutPair E u v) := by
          rintro ⟨⟨rfl, _⟩ | ⟨_, rfl⟩, _⟩
          · exact ha hu
          · exact hb hu
        simp [ha, ha', hb, if_neg hpair]
    · have hpair : ¬ ((a = u ∧ b = v ∨ a = v ∧ b = u) ∧ CutPair E u v) := by
        rintro ⟨⟨rfl, _⟩ | ⟨rfl, _⟩, _⟩
        · exact ha hu
        · exact ha' hroot
      simp [ha, ha', if_neg hpair]

open Classical in
theorem pairsIn_union (hE : ∀ a b, E a b → E b a) (hapart : ∀ x, M x → ¬ N x)
    (hnone : ∀ a b, M a → N b → ¬ E a b) (a b : α) :
    pairsIn E (fun x => M x ∨ N x) a b = pairsIn E M a b + pairsIn E N a b := by
  rw [pairsIn, pairsIn, pairsIn]
  by_cases hcut : CutPair E a b
  · have hab : M a → ¬ N b := fun ha hb => hnone a b ha hb hcut.1
    have hba : M b → ¬ N a := fun hb ha => hnone b a hb ha (hE _ _ hcut.1)
    by_cases ha : M a
    · simp [hcut, ha, hab ha, hapart a ha]
    · by_cases hb : M b
      · simp [hcut, ha, hb, hba hb]
      · simp [hcut, ha, hb]
  · simp [hcut]

end Gains

section Forks
variable {p : α} {bs : List (α × (α → Prop))}

theorem eq_of_length_le {γ : Type} {l : List γ} {a b : γ} (hl : l.length ≤ 1) (ha : a ∈ l)
    (hb : b ∈ l) : a = b := by
  match l, hl, ha, hb with
  | [c], _, ha, hb => exact (List.mem_singleton.mp ha).trans (List.mem_singleton.mp hb).symm

theorem exists_two {γ : Type} {l : List γ} (hl : ¬ l.length ≤ 1) :
    ∃ a b rest, l = a :: b :: rest := by
  match l, hl with
  | [], hl => simp at hl
  | [_], hl => simp at hl
  | a :: b :: rest, _ => exact ⟨a, b, rest, rfl⟩

/-- A node that was searched through, the nodes on the way to it, and its branches. -/
structure Fork (E : α → α → Prop) (path : List α) (u : α) (bs : List (α × (α → Prop))) :
    Prop where
  chain : (u :: path).IsChain E
  fresh : u ∉ path
  branch : ∀ b ∈ bs, Branch E (u :: path) b.1 b.2
  child : ∀ b ∈ bs, E u b.1
  apart : bs.Pairwise fun b c => ∀ x, b.2 x → ¬ c.2 x
  cover : ∀ y, E u y → y = u ∨ y ∈ path ∨ ∃ b ∈ bs, b.2 y

/-- No three nodes fall apart without a node that joined them. -/
def InTwo (E : α → α → Prop) (u : α) : Prop :=
  ∀ a b c, a ≠ u → b ≠ u → c ≠ u → EqvGen E a u → EqvGen E b u → EqvGen E c u →
    EqvGen (Without E u) a b ∨ EqvGen (Without E u) b c ∨ EqvGen (Without E u) a c

open Classical in
/-- How often a node is noted: once for each closed branch, and a root for having several. -/
noncomputable def notes (E : α → α → Prop) (u : α) (bs : List (α × (α → Prop))) : List α → Nat
  | [] => if 1 < bs.length then 1 else 0
  | _ :: _ => bs.countP fun b => Closed E b.2 u

namespace Fork

theorem child_ne (h : Fork E path u bs) {b : α × (α → Prop)} (hb : b ∈ bs) : b.1 ≠ u :=
  fun heq => (h.branch b hb).fresh u List.mem_cons_self (heq ▸ (h.branch b hb).root)

theorem closed_of_root (h : Fork E [] u bs) {b : α × (α → Prop)} (hb : b ∈ bs) :
    Closed E b.2 u :=
  fun x y hx hxy => ((h.branch b hb).out x y hx hxy).imp_right List.mem_singleton.mp

/-- Different closed branches fall apart. -/
theorem closed_apart (h : Fork E path u bs) (hE : ∀ a b, E a b → E b a)
    {b c : α × (α → Prop)} {rest : List (α × (α → Prop))} (hsub : (b :: c :: rest).Sublist bs)
    (hclosed : Closed E b.2 u) : ¬ EqvGen (Without E u) b.1 c.1 := by
  intro hjoin
  have hbc := List.rel_of_pairwise_cons (h.apart.sublist hsub) List.mem_cons_self
  have hb := (h.branch b (hsub.subset List.mem_cons_self)).root
  have hc := (h.branch c (hsub.subset (List.mem_cons_of_mem b List.mem_cons_self))).root
  exact hbc _ ((hclosed.stays hE hjoin).mp hb) hc

theorem cutNode_root (h : Fork E [] u bs) (hE : ∀ a b, E a b → E b a) :
    CutNode E u ↔ 1 < bs.length := by
  rw [cutNode_iff hE]
  constructor
  · intro hgiven
    obtain ⟨a, b, ha, hb, hau, hbu, hcut⟩ := hgiven
    by_contra hone
    obtain ⟨c, hc, hca⟩ := ((h.cover a ha).resolve_left hau).resolve_left List.not_mem_nil
    obtain ⟨d, hd, hdb⟩ := ((h.cover b hb).resolve_left hbu).resolve_left List.not_mem_nil
    obtain rfl := eq_of_length_le (not_lt.mp hone) hc hd
    exact hcut ((h.branch c hc).joined_without List.mem_cons_self hca hdb)
  · intro htwo
    obtain ⟨b, c, rest, rfl⟩ := exists_two (not_le.mpr htwo)
    have hb : b ∈ b :: c :: rest := List.mem_cons_self
    have hc : c ∈ b :: c :: rest := List.mem_cons_of_mem b List.mem_cons_self
    exact ⟨b.1, c.1, h.child b hb, h.child c hc, h.child_ne hb, h.child_ne hc,
      h.closed_apart hE (List.Sublist.refl _) (h.closed_of_root hb)⟩

section Inner
variable (h : Fork E (p :: path) u bs) (hE : ∀ a b, E a b → E b a)
include h

theorem parent_edge : E u p := (List.isChain_cons_cons.mp h.chain).1

theorem parent_ne : p ≠ u := fun heq => h.fresh (heq ▸ List.mem_cons_self)

/-- A neighbour is joined with the parent or lies in a closed branch. -/
theorem place (hy : E u y) (hyu : y ≠ u) :
    EqvGen (Without E u) y p ∨ ∃ b ∈ bs, Closed E b.2 u ∧ EqvGen (Without E u) y b.1 := by
  have hpath : (p :: path).IsChain E := h.chain.tail
  rcases (h.cover y hy).resolve_left hyu with hin | ⟨b, hb, hby⟩
  · have hne : ∀ z ∈ p :: path, z ≠ u := fun z hz heq => h.fresh (heq ▸ hz)
    exact .inl (chain_joined (hpath.imp_of_mem_imp fun a b ha hb hab =>
      (⟨hne a ha, hne b hb, hab⟩ : Without E u a b)) hin List.mem_cons_self)
  · have hbranch := h.branch b hb
    by_cases hclosed : Closed E b.2 u
    · exact .inr ⟨b, hb, hclosed, hbranch.joined_without List.mem_cons_self hby hbranch.root⟩
    · exact .inl (hbranch.joined_above hclosed hpath h.fresh hby List.mem_cons_self)

include hE

theorem closed_parent {b : α × (α → Prop)} (hb : b ∈ bs) (hclosed : Closed E b.2 u) :
    ¬ EqvGen (Without E u) b.1 p := fun hjoin =>
  (h.branch b hb).fresh p (List.mem_cons_of_mem u List.mem_cons_self)
    ((hclosed.stays hE hjoin).mp (h.branch b hb).root)

theorem cutNode_inner : CutNode E u ↔ ∃ b ∈ bs, Closed E b.2 u := by
  rw [cutNode_iff hE]
  constructor
  · intro hgiven
    obtain ⟨a, b, ha, hb, hau, hbu, hcut⟩ := hgiven
    rcases h.place ha hau with hap | ⟨c, hc, hclosed, _⟩
    · rcases h.place hb hbu with hbp | ⟨c, hc, hclosed, _⟩
      · exact absurd (.trans _ _ _ hap (.symm _ _ hbp)) hcut
      · exact ⟨c, hc, hclosed⟩
    · exact ⟨c, hc, hclosed⟩
  · intro hgiven
    obtain ⟨b, hb, hclosed⟩ := hgiven
    exact ⟨b.1, p, h.child b hb, h.parent_edge, h.child_ne hb, h.parent_ne,
      h.closed_parent hE hb hclosed⟩

theorem notes_le_one : notes E u bs (p :: path) ≤ 1 ↔ InTwo E u := by
  classical
  rw [notes, List.countP_eq_length_filter]
  constructor
  · intro hone a b c hau hbu hcu ha hb hc
    have hside : ∀ x, x ≠ u → EqvGen E x u → EqvGen (Without E u) x p ∨
        ∃ d ∈ bs, Closed E d.2 u ∧ EqvGen (Without E u) x d.1 := by
      intro x hx hxu
      obtain ⟨y, hy, hyu, hxy⟩ := exists_neighbor hE hxu hx
      rcases h.place hy hyu with hyp | ⟨d, hd, hclosed, hyd⟩
      · exact .inl (.trans _ _ _ hxy hyp)
      · exact .inr ⟨d, hd, hclosed, .trans _ _ _ hxy hyd⟩
    have honly : ∀ d ∈ bs, Closed E d.2 u → ∀ e ∈ bs, Closed E e.2 u → d = e := by
      intro d hd hdu e he heu
      exact eq_of_length_le hone (List.mem_filter.mpr ⟨hd, decide_eq_true hdu⟩)
        (List.mem_filter.mpr ⟨he, decide_eq_true heu⟩)
    have hjoin : ∀ {x y z}, EqvGen (Without E u) x z → EqvGen (Without E u) y z →
        EqvGen (Without E u) x y := fun hx hy => .trans _ _ _ hx (.symm _ _ hy)
    -- two of the three are on the same side
    rcases hside a hau ha with ha | ⟨d, hd, hdu, ha⟩
    · rcases hside b hbu hb with hb | ⟨e, he, heu, hb⟩
      · exact .inl (hjoin ha hb)
      · rcases hside c hcu hc with hc | ⟨f, hf, hfu, hc⟩
        · exact .inr (.inr (hjoin ha hc))
        · exact .inr (.inl (hjoin hb (honly f hf hfu e he heu ▸ hc)))
    · rcases hside b hbu hb with hb | ⟨e, he, heu, hb⟩
      · rcases hside c hcu hc with hc | ⟨f, hf, hfu, hc⟩
        · exact .inr (.inl (hjoin hb hc))
        · exact .inr (.inr (hjoin ha (honly f hf hfu d hd hdu ▸ hc)))
      · exact .inl (hjoin ha (honly e he heu d hd hdu ▸ hb))
  · intro htwo
    by_contra hmore
    obtain ⟨b, c, rest, hfilter⟩ := exists_two hmore
    have hsub : (b :: c :: rest).Sublist bs := hfilter ▸ List.filter_sublist
    have hclosed : ∀ d ∈ b :: c :: rest, d ∈ bs ∧ Closed E d.2 u := by
      intro d hd
      rw [← hfilter] at hd
      exact ⟨List.mem_of_mem_filter hd, of_decide_eq_true (List.mem_filter.mp hd).2⟩
    obtain ⟨hb, hbu⟩ := hclosed b List.mem_cons_self
    obtain ⟨hc, hcu⟩ := hclosed c (List.mem_cons_of_mem b List.mem_cons_self)
    have hjoined : ∀ d ∈ bs, EqvGen E d.1 u := fun d hd => .symm _ _ (.rel _ _ (h.child d hd))
    rcases htwo b.1 c.1 p (h.child_ne hb) (h.child_ne hc) h.parent_ne (hjoined b hb) (hjoined c hc)
      (.symm _ _ (.rel _ _ h.parent_edge)) with hbc | hcp | hbp
    · exact h.closed_apart hE hsub hbu hbc
    · exact h.closed_parent hE hc hcu hcp
    · exact h.closed_parent hE hb hbu hbp

end Inner

/-- A node is noted at all exactly if it holds the graph together. -/
theorem notes_pos (h : Fork E path u bs) (hE : ∀ a b, E a b → E b a) :
    0 < notes E u bs path ↔ CutNode E u := by
  cases path with
  | nil =>
    rw [h.cutNode_root hE, notes]
    split <;> simp [*]
  | cons p path =>
    rw [h.cutNode_inner hE, notes, List.countP_pos_iff]
    simp

end Fork

end Forks

section Forests
open SpanningForest
variable {ε : Type} {ends : ε → α × α} {A F : List ε}

/-- The nodes of an edge, in either order. -/
def pair (ends : ε → α × α) (e : ε) : Sym2 α := s((ends e).1, (ends e).2)

/-- The nodes that edges of a list join. -/
def Linked (ends : ε → α × α) (F : List ε) (u v : α) : Prop := s(u, v) ∈ F.map (pair ends)

theorem joined_iff_linked : Joined ends (· ∈ F) u v ↔ EqvGen (Linked ends F) u v := by
  constructor
  · intro h
    unfold SpanningForest.Joined at h
    refine joined_bind h fun a b hab => ?_
    obtain ⟨e, he, hends⟩ := hab
    exact .rel _ _ (List.mem_map.mpr ⟨e, he, by rw [pair, hends]⟩)
  · intro h
    have hstep : ∀ a b, Linked ends F a b → Joined ends (· ∈ F) a b := by
      intro a b hab
      obtain ⟨e, he, hends⟩ := List.mem_map.mp hab
      rcases Sym2.eq_iff.mp hends with ⟨rfl, rfl⟩ | ⟨rfl, rfl⟩
      · exact Joined.edge he
      · exact .symm _ _ (Joined.edge he)
    exact joined_bind h hstep

/-- The edges of a forest are single ones, and nothing goes around them. -/
theorem isForest_iff_cutPair [DecidableEq α] : IsForest ends F ↔ ∀ u v, Linked ends F u v →
    CutPair (Linked ends F) u v ∧ (F.map (pair ends)).count s(u, v) = 1 := by
  constructor
  · intro h u v huv
    obtain ⟨e, he, hends⟩ := List.mem_map.mp huv
    obtain ⟨A, B, rfl⟩ := List.append_of_mem he
    have hsame : Joined ends (· ∈ A ++ B) u v → False := by
      intro hjoin
      rcases Sym2.eq_iff.mp hends with ⟨rfl, rfl⟩ | ⟨rfl, rfl⟩
      · exact h A e B rfl hjoin
      · exact h A e B rfl (.symm _ _ hjoin)
    have hother : s(u, v) ∉ (A ++ B).map (pair ends) := fun hin =>
      hsame (joined_iff_linked.mpr (.rel _ _ hin))
    refine ⟨⟨huv, fun hjoin => hsame (joined_iff_linked.mpr (hjoin.mono fun a b hab => ?_))⟩, ?_⟩
    · have hmem := (List.perm_middle.map (pair ends)).subset hab.1
      refine (List.mem_cons.mp hmem).resolve_left fun heq => hab.2 (heq.trans hends)
    · rw [(List.perm_middle.map (pair ends)).count_eq, List.map_cons, hends,
        List.count_cons_self, List.count_eq_zero.mpr hother]
  · rintro h A e B rfl hjoin
    have hlinked : Linked ends (A ++ e :: B) (ends e).1 (ends e).2 :=
      List.mem_map_of_mem (List.mem_append_right A List.mem_cons_self)
    obtain ⟨⟨_, hcut⟩, hone⟩ := h _ _ hlinked
    rw [(List.perm_middle.map (pair ends)).count_eq, List.map_cons, pair, List.count_cons_self,
      Nat.add_eq_right, List.count_eq_zero] at hone
    refine hcut ((joined_iff_linked.mp hjoin).mono fun a b hab => ⟨?_, fun heq => hone (heq ▸ hab)⟩)
    exact (List.perm_middle.map (pair ends)).symm.subset (List.mem_cons_of_mem _ hab)

section Counting
variable [Fintype α] [LinearOrder α]

theorem card_leaders :
    (leaders ends Finset.univ (· ∈ F)).card = components (Linked ends F) := by
  let class' : leaders ends Finset.univ (· ∈ F) → Quot (Linked ends F) := fun v => Quot.mk _ v.1
  have hbij : Function.Bijective class' := by
    constructor
    · intro u v huv
      have hjoined := joined_iff_linked.mpr (Quot.eqvGen_exact huv)
      exact Subtype.ext (leader_unique u.2 v.2 hjoined)
    · intro hgiven
      obtain ⟨a⟩ := hgiven
      obtain ⟨r, hr, hra⟩ := exists_leader ends (· ∈ F) (Finset.mem_univ a)
      exact ⟨⟨r, hr⟩, Quot.eqvGen_sound (joined_iff_linked.mp hra)⟩
  rw [components, ← Nat.card_eq_of_bijective class' hbij, Nat.card_eq_fintype_card,
    Fintype.card_coe]

/-- A forest has as many edges as there are more nodes than components. -/
theorem isForest_iff_length :
    IsForest ends F ↔ F.length + components (Linked ends F) = Fintype.card α := by
  have hcard : ∀ {F : List ε}, IsForest ends F →
      components (Linked ends F) + F.length = Fintype.card α := by
    intro F hF
    rw [← card_leaders]
    exact hF.card fun e _ => ⟨Finset.mem_univ _, Finset.mem_univ _⟩
  constructor
  · intro h
    rw [Nat.add_comm]
    exact hcard h
  · intro hlen
    obtain ⟨G, hG⟩ := exists_greedy ends F
    have hsame : components (Linked ends G) = components (Linked ends F) := by
      rw [← card_leaders, ← card_leaders]
      have hless : ∀ u v, Joined ends (· ∈ G) u v → Joined ends (· ∈ F) u v :=
        fun u v h => h.mono hG.subset
      exact congrArg Finset.card
        (Finset.Subset.antisymm (leaders_anti fun u v h => hG.joined h) (leaders_anti hless))
    have hforest := hcard hG.isForest
    exact hG.eq_of_length (by omega) ▸ hG.isForest

end Counting

end Forests

end Cuts
