import Cppforge.Balanced.RedBlackTree

namespace Cppforge.Balanced.RedBlackTree
open BinaryTree TreeLinks RedBlack

/-- A node of the tree with what it stores. -/
structure Cell (T : Type) where
  id : Nat
  data : T
  color : Color

variable {T : Type} {t : RedBlackTree T} {s : Side} {x y a : Cell T} {A B C u v : BinaryTree (Cell T)}
  {tree : BinaryTree (Cell T)} {P : Path (Cell T)} {p q : Option Nat}

/-- The nodes and their links are those of the tree, up and down. -/
structure Holds (t : RedBlackTree T) (tree : BinaryTree (Cell T)) : Prop where
  rep : Rep Cell.id t.toLinks tree
  nodup : (tree.inorder Cell.id).Nodup
  stored : ∀ c ∈ tree.inorder id,
    t.data c.id = some c.data ∧ t.color c.id = c.color ∧ c.id < t.fresh

/-- The links and the contents of one node. -/
structure At (t : RedBlackTree T) (s : Side) (a : Cell T) (u v : BinaryTree (Cell T))
    (p : Option Nat) : Prop where
  near : t.child s a.id = ptr Cell.id u
  far : t.child s.other a.id = ptr Cell.id v
  parent : t.parent a.id = p
  data : t.data a.id = some a.data
  color : t.color a.id = a.color

theorem mem_plug_join : a ∈ ((join s a u v).plug P).inorder id :=
  (inorder_plug_perm id _ P).mem_iff.mpr
    (List.mem_append_left _ ((inorder_join_perm id s a u v).mem_iff.mpr List.mem_cons_self))

theorem Holds.at (h : Holds t ((join s a u v).plug P)) : At t s a u v (top Cell.id P) := by
  obtain ⟨hlinked, _⟩ := rep_plug.mp h.rep
  obtain ⟨hnear, hfar, hparent, _, _⟩ := linked_join.mp hlinked
  obtain ⟨hdata, hcolor, _⟩ := h.stored a mem_plug_join
  exact ⟨hnear, hfar, hparent, hdata, hcolor⟩

/-- The node above the hole. -/
theorem Holds.at_top {f : Frame (Cell T)} (h : Holds t (u.plug (f :: P))) :
    At t f.side f.key u f.sibling (top Cell.id P) :=
  Holds.at (P := P) h

theorem Holds.nodup_parts (h : Holds t (tree.plug P)) :
    (tree.inorder Cell.id ++ entries Cell.id P).Nodup :=
  (inorder_plug_perm Cell.id tree P).nodup_iff.mp h.nodup

/-- Other links, for a tree of nodes of the first. -/
theorem Holds.relink {m : Links Nat} {tree' : BinaryTree (Cell T)} (h : Holds t tree)
    (hsub : (tree'.inorder id).Sublist (tree.inorder id)) (hrep : Rep Cell.id m tree') :
    Holds { t with toLinks := m } tree' := by
  have hmap (u : BinaryTree (Cell T)) : (u.inorder id).map Cell.id = u.inorder Cell.id :=
    map_inorder Cell.id u
  refine ⟨hrep, ?_, fun c hc => h.stored c (hsub.subset hc)⟩
  have hnodup := h.nodup
  rw [← hmap] at hnodup ⊢
  exact hnodup.sublist (hsub.map Cell.id)

theorem setParentOf_ptr (t : RedBlackTree T) (u : BinaryTree (Cell T)) (q : Option Nat) :
    t.setParentOf (ptr Cell.id u) q =
      some { t with toLinks := reparent Cell.id t.toLinks u q } := by
  unfold setParentOf reparent
  cases ptr Cell.id u <;> rfl

/-- The node hangs below the path: the link that its parent's test picks is the one to it. -/
theorem replaceChild_eq {i : Nat} (hparent : t.parent i = top Cell.id P)
    (hside : ∀ fr rest, P = fr :: rest →
      (t.child .left fr.key.id = some i ↔ fr.side = .left)) (q : Option Nat) :
    t.replaceChild (some i) q = some { t with toLinks := setHole Cell.id t.toLinks P q } := by
  unfold replaceChild
  simp only [getParent, Option.map_some, hparent, Option.bind_eq_bind, Option.bind_some]
  cases P with
  | nil => rfl
  | cons fr P =>
    have hfr := hside fr P rfl
    simp only [top_cons, Option.isNone_some, Bool.false_eq_true, if_false, getLeft, getChild,
      Option.map_some, Option.bind_some]
    obtain ⟨s, c, u⟩ := fr
    cases s with
    | left => simp [setHole, setLeft, setChild, hfr.mpr rfl]
    | right =>
      have hne : some i ≠ t.child .left c.id := fun he => nomatch hfr.mp he.symm
      simp [setHole, setRight, setChild, hne]

theorem Above.left_iff {m : Links Nat} {i : Nat} (h : Above Cell.id m P (some i))
    (hi : i ∉ entries Cell.id P) (fr : Frame (Cell T)) (rest : Path (Cell T))
    (hpath : P = fr :: rest) : m.child .left fr.key.id = some i ↔ fr.side = .left := by
  subst hpath
  obtain ⟨s, c, u⟩ := fr
  obtain ⟨hnear, hfar, _⟩ := h
  cases s with
  | left => exact ⟨fun _ => rfl, fun _ => hnear⟩
  | right =>
    refine ⟨fun hc => absurd ?_ hi, nofun⟩
    rw [show m.child .left c.id = ptr Cell.id u from hfar] at hc
    exact (entries_cons_perm Cell.id _ rest).mem_iff.mpr
      (List.mem_cons_of_mem _ (List.mem_append_left _ (ptr_mem hc)))

/-- A rotation takes the links of one tree to those of the other. -/
theorem rotate_spec (h : Holds t ((join s x A (join s y B C)).plug P)) :
    ∃ m, rotate s t (some x.id) = some { t with toLinks := m } ∧
      Holds { t with toLinks := m } ((join s y (join s x A B) C).plug P) := by
  obtain ⟨hlinked, habove⟩ := rep_plug.mp h.rep
  obtain ⟨hxA, hxy, hxp, hA, hy⟩ := linked_join.mp hlinked
  obtain ⟨hyB, hyC, hyp, hB, hC⟩ := linked_join.mp hy
  have hperm : ((join s x A (join s y B C)).inorder Cell.id).Perm
      (x.id :: (A.inorder Cell.id ++ y.id :: (B.inorder Cell.id ++ C.inorder Cell.id))) :=
    (inorder_join_perm Cell.id s x A _).trans
      (((inorder_join_perm Cell.id s y B C).append_left _).cons _)
  have hd := (hperm.append_right (entries Cell.id P)).nodup_iff.mp h.nodup_parts
  simp only [List.nodup_append, List.nodup_cons, List.mem_append, List.mem_cons, not_or,
    List.cons_append] at hd
  obtain ⟨⟨⟨hxA', hxy', hxB', hxC'⟩, hxE⟩, ⟨_, ⟨⟨hyB', hyC'⟩, hdB, _, hBC⟩, hAyBC⟩, hdE, hE⟩ := hd
  have hyE : y.id ∉ entries Cell.id P := fun hy => hE _ (.inr (.inl rfl)) _ hy rfl
  -- the writes, in the order of the source
  let m₁ := t.toLinks.setChild s.other x.id (ptr Cell.id B)
  let m₂ := reparent Cell.id m₁ B (some x.id)
  let m₃ := m₂.setParent y.id (top Cell.id P)
  let m₄ := setHole Cell.id m₃ P (some y.id)
  let m₅ := m₄.setChild s y.id (some x.id)
  let m₆ := m₅.setParent x.id (some y.id)
  have hout (i : Nat) (hx : i ≠ x.id) (hy : i ≠ y.id) (hB : i ∉ B.inorder Cell.id) :
      Same t.toLinks m₃ i := by
    constructor <;> simp [m₃, m₂, m₁, hx, hy, hB]
  have hin (i : Nat) (hx : i ≠ x.id) (hy : i ≠ y.id) (hi : i ∉ entries Cell.id P) :
      Same m₂ m₆ i := by
    constructor <;> simp [m₆, m₅, m₄, m₃, hx, hy, hi]
  have hskip (i : Nat) (hx : i ≠ x.id) (hy : i ≠ y.id) : Same m₄ m₆ i := by
    constructor <;> simp [m₆, m₅, hx, hy]
  have habove₃ : Above Cell.id m₃ P (some x.id) := by
    rw [ptr_join] at habove
    refine habove.congr (by simp [m₃, m₂, m₁]) ?_
    intro i hi
    refine hout i ?_ ?_ ?_
    · rintro rfl
      exact hxE hi
    · rintro rfl
      exact hyE hi
    · intro hB
      exact hE i (.inr (.inr (.inl hB))) i hi rfl
  refine ⟨m₆, ?_, ?_⟩
  · have hinner : m₁.child s y.id = ptr Cell.id B := by
      rw [← hyB]
      exact child_setChild_ne (Ne.symm hxy')
    have hparent : m₂.parent x.id = top Cell.id P := by
      rw [← hxp]
      exact parent_reparent hxB'
    have hreplace := replaceChild_eq (t := { t with toLinks := m₃ })
      ((parent_setParent_ne hxy').trans hparent) (Above.left_iff habove₃ hxE) (some y.id)
    rw [ptr_join] at hxy
    simp only [rotate, getChild, setChild, setParent, getParent, Option.map_some, hxy, hyB,
      Option.bind_eq_bind, Option.bind_some]
    rw [hinner, setParentOf_ptr, Option.bind_some, hparent, hreplace, Option.bind_some]
  · refine h.relink ?_ (rep_plug.mpr ⟨linked_join.mpr ⟨?_, ?_, ?_, ?_, ?_⟩, ?_⟩)
    · rw [inorder_plug, inorder_plug, inorder_rotate]
    · simp [m₆, m₅]
    · simp [m₆, m₅, m₄, m₃, m₂, m₁, hyE, Ne.symm hxy', hyC]
    · simp [m₆, m₅, m₄, m₃, Ne.symm hxy']
    · refine linked_join.mpr ⟨?_, ?_, ?_, ?_, ?_⟩
      · simp [m₆, m₅, m₄, m₃, m₂, m₁, hxE, hxy', hxA]
      · simp [m₆, m₅, m₄, m₃, m₂, m₁, hxE]
      · simp [m₆]
      · refine hA.congr fun i hi => ?_
        have hx : i ≠ x.id := fun he => hxA' (he ▸ hi)
        have hy : i ≠ y.id := hAyBC i hi y.id (.inl rfl)
        have hB : i ∉ B.inorder Cell.id := fun hB => hAyBC i hi i (.inr (.inl hB)) rfl
        have hE : i ∉ entries Cell.id P := fun hiE => hE i (.inl hi) i hiE rfl
        constructor <;> simp [m₆, m₅, m₄, m₃, m₂, m₁, hx, hy, hB, hE]
      · have hB₂ : Linked Cell.id m₂ (some x.id) B := by
          refine Linked.reparent (hB.congr fun i hi => ?_) hdB
          have hx : i ≠ x.id := fun he => hxB' (he ▸ hi)
          exact ⟨fun _ => child_setChild_ne hx, rfl⟩
        refine hB₂.congr fun i hi => ?_
        have hx : i ≠ x.id := fun he => hxB' (he ▸ hi)
        have hy : i ≠ y.id := fun he => hyB' (he ▸ hi)
        exact hin i hx hy fun hiE => hE i (.inr (.inr (.inl hi))) i hiE rfl
    · refine hC.congr fun i hi => ?_
      have hx : i ≠ x.id := fun he => hxC' (he ▸ hi)
      have hy : i ≠ y.id := fun he => hyC' (he ▸ hi)
      have hB : i ∉ B.inorder Cell.id := fun hB => hBC i hB i hi rfl
      have hE : i ∉ entries Cell.id P := fun hiE => hE i (.inr (.inr (.inr hi))) i hiE rfl
      constructor <;> simp [m₆, m₅, m₄, m₃, m₂, m₁, hx, hy, hB, hE]
    · rw [ptr_join]
      refine (habove₃.setHole hdE).congr rfl fun i hi => hskip i ?_ ?_
      · rintro rfl
        exact hxE hi
      · rintro rfl
        exact hyE hi

theorem setColor_spec (h : Holds t ((join s a u v).plug P)) (c : Color) :
    ∃ color, setColor t (some a.id) c = some { t with color := color } ∧
      Holds { t with color := color } ((join s { a with color := c } u v).plug P) := by
  refine ⟨Function.update t.color a.id c, rfl, ?_, ?_, ?_⟩
  · obtain ⟨hlinked, habove⟩ := rep_plug.mp h.rep
    rw [ptr_join] at habove
    have hnode := linked_join.mp hlinked
    exact rep_plug.mpr ⟨linked_join.mpr hnode, by rwa [ptr_join]⟩
  · have hsame : ((join s { a with color := c } u v).plug P).inorder Cell.id =
        ((join s a u v).plug P).inorder Cell.id := by
      rw [inorder_plug, inorder_plug]
      cases s <;> rfl
    rw [hsame]
    exact h.nodup
  · have hperm (b : Cell T) : (((join s b u v).plug P).inorder id).Perm
        (b :: (u.inorder id ++ v.inorder id ++ entries id P)) :=
      (inorder_plug_perm id _ P).trans ((inorder_join_perm id s b u v).append_right _)
    have hmap : (((join s a u v).plug P).inorder id).map Cell.id =
        ((join s a u v).plug P).inorder Cell.id := map_inorder Cell.id _
    have hnodup := h.nodup
    rw [← hmap, ((hperm a).map Cell.id).nodup_iff, List.map_cons, List.nodup_cons] at hnodup
    intro b hb
    rcases List.mem_cons.mp ((hperm _).mem_iff.mp hb) with rfl | hb
    · obtain ⟨hdata, _, hfresh⟩ := h.stored a mem_plug_join
      exact ⟨hdata, Function.update_self .., hfresh⟩
    · obtain ⟨hdata, hcolor, hfresh⟩ :=
        h.stored b ((hperm a).mem_iff.mpr (List.mem_cons_of_mem _ hb))
      refine ⟨hdata, ?_, hfresh⟩
      rw [← hcolor]
      refine Function.update_of_ne ?_ _ _
      intro he
      exact hnodup.1 (List.mem_map.mpr ⟨b, hb, he⟩)

/-- The links with the tree `u` in the hole. -/
def fill (m : Links Nat) (P : Path (Cell T)) (u : BinaryTree (Cell T)) : Links Nat :=
  reparent Cell.id (setHole Cell.id m P (ptr Cell.id u)) u (top Cell.id P)

/-- A node with one child at most leaves its place to it. -/
theorem fill_spec (h : Holds t ((join s a u .nil).plug P)) :
    Holds { t with toLinks := fill t.toLinks P u } (u.plug P) := by
  obtain ⟨hlinked, habove⟩ := rep_plug.mp h.rep
  obtain ⟨_, _, _, hu, _⟩ := linked_join.mp hlinked
  have hd := (((inorder_join_perm Cell.id s a u .nil)).append_right
    (entries Cell.id P)).nodup_iff.mp h.nodup_parts
  simp only [inorder_nil, List.append_nil, List.cons_append, List.nodup_cons,
    List.nodup_append] at hd
  obtain ⟨_, hdu, hdE, huE⟩ := hd
  refine h.relink ?_ (rep_plug.mpr ⟨?_, ?_⟩)
  · rw [inorder_plug, inorder_plug]
    refine (List.Sublist.append_right ?_ _).append_left _
    cases s with
    | left => exact List.sublist_append_left _ _
    | right => exact List.sublist_cons_self _ _
  · refine Linked.reparent (hu.congr fun i hi => ?_) hdu
    have hE : i ∉ entries Cell.id P := fun hiE => huE i hi i hiE rfl
    constructor <;> simp [hE]
  · refine Above.congr (habove.setHole hdE) root_reparent fun i hi => ?_
    have hiu : i ∉ u.inorder Cell.id := fun hiu => huE i hiu i hi rfl
    constructor <;> simp [fill, hiu]

/-- The replaced node's links and color go to its successor. -/
theorem replaceNode_spec {n y : Cell T} {L R : BinaryTree (Cell T)}
    (hd : (n.id :: y.id :: (L.inorder Cell.id ++ R.inorder Cell.id) ++
      entries Cell.id P).Nodup)
    (habove : Above Cell.id t.toLinks P (some n.id)) (hparent : t.parent n.id = top Cell.id P)
    (hleft : t.child .left n.id = ptr Cell.id L) (hL : Linked Cell.id t.toLinks (some n.id) L)
    (hright : t.child .right y.id = ptr Cell.id R) (hR : Linked Cell.id t.toLinks (some y.id) R) :
    ∃ m, replaceNode t (some n.id) (some y.id) = some { t with
        toLinks := m, color := Function.update t.color y.id (t.color n.id) } ∧
      Rep Cell.id m ((join .left y L R).plug P) := by
  simp only [List.cons_append, List.nodup_cons, List.nodup_append, List.mem_cons,
    List.mem_append, not_or] at hd
  obtain ⟨⟨hny, ⟨hnL, hnR⟩, hnE⟩, ⟨⟨hyL, hyR⟩, hyE⟩, ⟨hdL, _, hLR⟩, hdE, hE⟩ := hd
  let m₁ := t.toLinks.setChild .left y.id (ptr Cell.id L)
  let m₂ := reparent Cell.id m₁ L (some y.id)
  let m₃ := m₂.setParent y.id (top Cell.id P)
  let m₄ := setHole Cell.id m₃ P (some y.id)
  have habove₃ : Above Cell.id m₃ P (some n.id) := by
    refine habove.congr (by simp [m₃, m₂, m₁]) fun i hi => ?_
    have hy : i ≠ y.id := fun he => hyE (he ▸ hi)
    have hL : i ∉ L.inorder Cell.id := fun hL => hE i (.inl hL) i hi rfl
    constructor <;> simp [m₃, m₂, m₁, hy, hL]
  refine ⟨m₄, ?_, rep_plug.mpr ⟨linked_join.mpr ⟨?_, ?_, ?_, ?_, ?_⟩, ?_⟩⟩
  · have hleft₁ : m₁.child .left n.id = ptr Cell.id L := by
      rw [← hleft]
      exact child_setChild_ne hny
    have hparent₂ : m₂.parent n.id = top Cell.id P := by
      rw [← hparent]
      exact parent_reparent hnL
    have hreplace := replaceChild_eq
      (t := { t with toLinks := m₃, color := Function.update t.color y.id (t.color n.id) })
      ((parent_setParent_ne hny).trans hparent₂) (Above.left_iff habove₃ hnE) (some y.id)
    simp only [replaceNode, getLeft, getChild, setLeft, setChild, setParent, setColor, getColor,
      getParent, Option.map_some, hleft, Option.bind_eq_bind, Option.bind_some]
    rw [hleft₁, setParentOf_ptr, Option.bind_some, hparent₂, hreplace]
  · simp [m₄, m₃, m₂, m₁, hyE]
  · simp [m₄, m₃, m₂, m₁, hyE, hright]
  · simp [m₄, m₃]
  · have hL₂ : Linked Cell.id m₂ (some y.id) L := by
      refine Linked.reparent (hL.congr fun i hi => ?_) hdL
      exact ⟨fun _ => child_setChild_ne fun he => hyL (he ▸ hi), rfl⟩
    refine hL₂.congr fun i hi => ?_
    have hy : i ≠ y.id := fun he => hyL (he ▸ hi)
    have hE : i ∉ entries Cell.id P := fun hiE => hE i (.inl hi) i hiE rfl
    constructor <;> simp [m₄, m₃, hy, hE]
  · refine hR.congr fun i hi => ?_
    have hy : i ≠ y.id := fun he => hyR (he ▸ hi)
    have hL : i ∉ L.inorder Cell.id := fun hL => hLR i hL i hi rfl
    have hE : i ∉ entries Cell.id P := fun hiE => hE i (.inr hi) i hiE rfl
    constructor <;> simp [m₄, m₃, m₂, m₁, hy, hL, hE]
  · rw [ptr_join]
    exact habove₃.setHole hdE

end Cppforge.Balanced.RedBlackTree
