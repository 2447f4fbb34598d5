import Cppforge.Balanced.Proofs.RedBlackLinks
import Cppforge.Lib.SearchTree

namespace Cppforge.Balanced.RedBlackTree
open BinaryTree TreeLinks RedBlack

variable {T : Type} {t : RedBlackTree T} {s : Side} {a g : Cell T} {u v w x : BinaryTree (Cell T)}
  {tree : BinaryTree (Cell T)} {fr : Frame (Cell T)} {P rest : Path (Cell T)} {c : Color} {n : Nat}

theorem Holds.lt_fresh (h : Holds t tree) {i : Nat} (hi : i ∈ tree.inorder Cell.id) :
    i < t.fresh := by
  obtain ⟨c, hc, rfl⟩ := exists_mem hi
  exact (h.stored c hc).2.2

/-- There are no more nodes in the tree than were made. -/
theorem Holds.numNodes_le (h : Holds t tree) : tree.numNodes ≤ t.fresh := by
  have hsub : tree.inorder Cell.id ⊆ List.range t.fresh :=
    fun i hi => List.mem_range.mpr (h.lt_fresh hi)
  have hle := (List.subperm_of_subset h.nodup hsub).length_le
  rwa [length_inorder, List.length_range] at hle

/-- A state reached by rotations and recoloring: the values and the nodes made are the same. -/
structure Reaches (t : RedBlackTree T) (tree : BinaryTree (Cell T)) (t' : RedBlackTree T)
    (tree' : BinaryTree (Cell T)) : Prop where
  holds : Holds t' tree'
  data : tree'.inorder Cell.data = tree.inorder Cell.data
  fresh : t'.fresh = t.fresh

theorem Holds.refl (h : Holds t tree) : Reaches t tree t tree := ⟨h, rfl, rfl⟩

theorem Reaches.trans {t' t'' : RedBlackTree T} {tree' tree'' : BinaryTree (Cell T)}
    (h : Reaches t tree t' tree') (h' : Reaches t' tree' t'' tree'') : Reaches t tree t'' tree'' :=
  ⟨h'.holds, h'.data.trans h.data, h'.fresh.trans h.fresh⟩

theorem rotate_reaches {x y : Cell T} {A B C : BinaryTree (Cell T)}
    (h : Holds t ((join s x A (join s y B C)).plug P)) :
    ∃ t', rotate s t (some x.id) = some t' ∧ Reaches t ((join s x A (join s y B C)).plug P) t'
      ((join s y (join s x A B) C).plug P) := by
  obtain ⟨m, hrot, h'⟩ := rotate_spec h
  refine ⟨_, hrot, h', ?_, rfl⟩
  rw [inorder_plug, inorder_plug, inorder_rotate]

theorem setColor_reaches (h : Holds t ((join s a u v).plug P)) (c : Color) :
    ∃ t', setColor t (some a.id) c = some t' ∧ Reaches t ((join s a u v).plug P) t'
      ((join s { a with color := c } u v).plug P) := by
  obtain ⟨color, hset, h'⟩ := setColor_spec h c
  refine ⟨_, hset, h', ?_, rfl⟩
  rw [inorder_plug, inorder_plug]
  cases s <;> rfl

/-- The two sides of a node seen from the other one. -/
theorem plug_other : (join s a u v).plug P = v.plug (⟨s.other, a, u⟩ :: P) := by
  rw [plug_cons, join_other]

/-- A new color for the child on the far side. -/
theorem setColor_far {s' : Side} {b : Cell T}
    (h : Holds t ((join s a u (join s' b v w)).plug P)) (c : Color) :
    ∃ t', setColor t (some b.id) c = some t' ∧
      Reaches t ((join s a u (join s' b v w)).plug P) t'
        ((join s a u (join s' { b with color := c } v w)).plug P) := by
  rw [plug_other (s := s)] at h
  obtain ⟨t', hset, h'⟩ := setColor_reaches (P := ⟨s.other, a, u⟩ :: P) h c
  refine ⟨t', hset, ?_⟩
  rw [plug_other (s := s), plug_other (s := s)]
  exact h'

theorem isBlack_ptr (h : Holds t (u.plug P)) :
    t.isBlack (ptr Cell.id u) = decide (rootColor Cell.color u = .black) := by
  cases u with
  | nil => rfl
  | node a l r =>
    have hat := Holds.at (s := .left) (a := a) (u := l) (v := r) h
    simp only [isBlack, ptr, rootColor, hat.color]
    exact decide_eq_decide.mpr Iff.rfl

/-- Above a node there is another root. -/
theorem root_ne (h : Holds t (u.plug (fr :: P))) {i : Nat} (hi : ptr Cell.id u = some i) :
    some i ≠ t.root := by
  intro hroot
  have hmem := ptr_plug_mem (h.rep.1.symm.trans hroot.symm)
  have hd := h.nodup_parts
  rw [List.nodup_append] at hd
  exact hd.2.2 i (ptr_mem hi) i hmem rfl

/-- The parent of a node that hangs below a path. -/
theorem parent_eq (h : Holds t (u.plug P)) {i : Nat} (hi : ptr Cell.id u = some i) :
    t.parent i = top Cell.id P := by
  cases u with
  | nil => cases hi
  | node b l r =>
    cases hi
    exact (Holds.at (s := .left) h).parent

theorem ptr_ne_sibling (h : Holds t (u.plug (⟨s, a, v⟩ :: P))) {i : Nat}
    (hi : ptr Cell.id u = some i) : some i ≠ ptr Cell.id v := by
  intro hv
  have hd := h.nodup_parts
  rw [List.nodup_append] at hd
  refine hd.2.2 i (ptr_mem hi) i ?_ rfl
  exact (entries_cons_perm Cell.id _ P).mem_iff.mpr
    (List.mem_cons_of_mem _ (List.mem_append_left _ (ptr_mem hv.symm)))

theorem raiseParent_spec (h : Holds t (u.plug (⟨s, a, v⟩ :: ⟨s, g, w⟩ :: rest))) {i : Nat}
    (hi : ptr Cell.id u = some i) :
    ∃ t', raiseParent s t (some i) = some t' ∧
      Reaches t (u.plug (⟨s, a, v⟩ :: ⟨s, g, w⟩ :: rest)) t'
        (u.plug (⟨s, { a with color := .black },
          join s.other { g with color := .red } w v⟩ :: rest)) := by
  have hparent := parent_eq h hi
  obtain ⟨t₁, hset₁, h₁⟩ := setColor_reaches (P := ⟨s, g, w⟩ :: rest) h .black
  have hparent₁ := parent_eq (P := ⟨s, g, w⟩ :: rest) h₁.holds ptr_join
  obtain ⟨t₂, hset₂, h₂⟩ := setColor_reaches (P := rest) h₁.holds .red
  have hjoin : join s { g with color := .red } (join s { a with color := .black } u v) w =
      join s.other { g with color := .red } w (join s.other { a with color := .black } v u) := by
    rw [join_other, join_other]
  have h₂' := h₂
  rw [hjoin] at h₂'
  obtain ⟨t₃, hrot, h₃⟩ := rotate_reaches h₂'.holds
  refine ⟨t₃, ?_, h₁.trans (h₂'.trans ?_)⟩
  · simp only [top_cons] at hparent hparent₁
    simp [raiseParent, getParent, hparent, hset₁, hparent₁, hset₂, hrot]
  · have hlast := join_other s ({ a with color := .black } : Cell T)
      (join s.other { g with color := .red } w v) u
    rw [hlast] at h₃
    exact h₃

/-- The end of the repair: the red node is below a black one. -/
def Closed (u : BinaryTree (Cell T)) (P : Path (Cell T)) : Prop :=
  ∃ fr rest m, P = fr :: rest ∧ fr.key.color = .black ∧
    Balanced Cell.color (u.plug P) .black m

theorem raiseParent_closed (hu : Balanced Cell.color u .red n) (hv : Balanced Cell.color v .black n)
    (hw : Balanced Cell.color w .black n) (hrest : Fits Cell.color rest .black (n + 1)) :
    Closed u (⟨s, { a with color := .black },
      join s.other { g with color := .red } w v⟩ :: rest) := by
  have hred : Balanced Cell.color (join s.other { g with color := .red } w v) .red n :=
    balanced_join_red rfl hw hv
  obtain ⟨m, hm⟩ := Fits.plug (t := join s { a with color := .black } u
    (join s.other { g with color := .red } w v)) hrest (balanced_join_black rfl hu hred)
  exact ⟨_, _, m, rfl, rfl, hm⟩

/-- A pass moves the red node up two levels or ends the repair. -/
theorem fixInsertStep_spec {s' : Side} {p : Cell T}
    (h : Holds t (u.plug (⟨s', p, v⟩ :: ⟨s, g, w⟩ :: rest))) {i : Nat}
    (hi : ptr Cell.id u = some i) (hu : Balanced Cell.color u .red n) (hp : p.color = .red)
    (hv : Balanced Cell.color v .black n) (hw : Balanced Cell.color w c n)
    (hrest : Fits Cell.color rest .black (n + 1)) :
    ∃ t' u' j P', fixInsertStep s t (some i) = some (t', some j) ∧ ptr Cell.id u' = some j ∧
      Reaches t (u.plug (⟨s', p, v⟩ :: ⟨s, g, w⟩ :: rest)) t' (u'.plug P') ∧
      (P' = rest ∧ Balanced Cell.color u' .red (n + 1) ∨ Closed u' P') := by
  have hat := h.at_top
  have hat' := Holds.at_top (u := join s' p u v) h
  have hparent := parent_eq h hi
  have huncle : Holds t (w.plug (⟨s.other, g, join s' p u v⟩ :: rest)) := by
    rw [← plug_other]
    exact h
  have hblack := isBlack_ptr huncle
  rw [hw.rootColor_eq] at hblack
  simp only [top_cons] at hparent hat hat'
  have hread : ∀ {β : Type} (f : Option Nat → Option Nat → Option Nat → Option β),
      (do
        let parent ← t.getParent (some i)
        let grandparent ← t.getParent parent
        let uncle ← getChild s.other t grandparent
        f parent grandparent uncle) = f (some p.id) (some g.id) (ptr Cell.id w) := by
    intro β f
    simp [getParent, getChild, hparent, hat.parent, hat'.far]
  rw [fixInsertStep, hread]
  cases c with
  | red =>
    obtain ⟨b, w₁, w₂, rfl⟩ := exists_join .left (t := w) (by rintro rfl; cases hw)
    obtain ⟨hb, hw₁, hw₂⟩ := hw.of_red
    obtain ⟨t₁, hset₁, h₁⟩ := setColor_reaches (s := s') (a := p) (u := u) (v := v)
      (P := ⟨s, g, join .left b w₁ w₂⟩ :: rest) h .black
    have h₁' : Holds t₁ ((join s g (join s' { p with color := .black } u v)
        (join .left b w₁ w₂)).plug rest) := h₁.holds
    obtain ⟨t₂, hset₂, h₂⟩ := setColor_far h₁' .black
    obtain ⟨t₃, hset₃, h₃⟩ := setColor_reaches h₂.holds .red
    refine ⟨t₃, join s { g with color := .red } (join s' { p with color := .black } u v)
      (join .left { b with color := .black } w₁ w₂), g.id, rest, ?_, ptr_join,
      h₁.trans (h₂.trans h₃), .inl ⟨rfl, ?_⟩⟩
    · rw [ptr_join] at hblack
      simp [hblack, hset₁, hset₂, hset₃]
    · exact balanced_join_red rfl (balanced_join_black rfl hu hv) (balanced_join_black rfl hw₁ hw₂)
  | black =>
    simp only [hblack, decide_true, Bool.not_true, Bool.false_eq_true, if_false]
    by_cases hside : s' = s
    · subst hside
      have hne := ptr_ne_sibling h hi
      obtain ⟨t₁, hraise, h₁⟩ := raiseParent_spec h hi
      refine ⟨t₁, u, i, _, ?_, hi, h₁, .inr (raiseParent_closed hu hv hw hrest)⟩
      simp [getChild, hat.far, hne, hraise]
    · obtain rfl : s' = s.other := by
        cases s <;> cases s' <;> simp_all
      obtain ⟨x, B, C, rfl⟩ := exists_join s (t := u) (by rintro rfl; cases hi)
      obtain ⟨hx, hB, hC⟩ := hu.of_red
      rw [ptr_join, Option.some.injEq] at hi
      subst hi
      have h' := h
      rw [plug_cons, join_other] at h'
      obtain ⟨t₁, hrot, h₁⟩ := rotate_reaches h'
      have h₁' : Holds t₁ ((join s p v B).plug (⟨s, x, C⟩ :: ⟨s, g, w⟩ :: rest)) := h₁.holds
      have hclosed : Closed (join s p v B) _ :=
        raiseParent_closed (s := s) (a := x) (g := g) (balanced_join_red hp hv hB) hC hw hrest
      obtain ⟨t₂, hraise, h₂⟩ := raiseParent_spec h₁' ptr_join
      refine ⟨t₂, join s p v B, p.id, _, ?_, ptr_join, ?_, .inr hclosed⟩
      · have hnear := hat.near
        rw [ptr_join] at hnear
        simp [getChild, hnear, hrot, hraise]
      · rw [plug_cons, join_other]
        exact h₁.trans h₂

theorem insertGuard_root (h : Holds t u) : t.insertGuard (ptr Cell.id u) = some false := by
  rw [insertGuard, if_pos h.rep.1.symm]

theorem insertGuard_below (h : Holds t (u.plug (fr :: P))) {i : Nat}
    (hi : ptr Cell.id u = some i) :
    t.insertGuard (some i) = some (decide (fr.key.color = .red)) := by
  have hparent := parent_eq h hi
  have hat := h.at_top
  rw [insertGuard, if_neg (root_ne h hi)]
  simp [getParent, hparent, getColor, hat.color]

/-- The test for the left child picks the side of the frame. -/
theorem side_eq (h : Holds t (u.plug (⟨s, a, v⟩ :: P)))
    (hne : ptr Cell.id u ≠ ptr Cell.id v) :
    (if ptr Cell.id u = t.child .left a.id then Side.left else .right) = s := by
  have hat := h.at_top
  cases s with
  | left => rw [if_pos hat.near.symm]
  | right =>
    rw [if_neg]
    intro he
    exact hne (he.trans hat.far)

theorem fixInsertLoop_spec {fuel : Nat} (h : Holds t (u.plug P)) {i : Nat}
    (hi : ptr Cell.id u = some i) (hu : Balanced Cell.color u .red n)
    (hpath : Fits Cell.color P .black n) (hfuel : P.length + 1 ≤ fuel) :
    ∃ t' tree', fixInsertLoop fuel t (some i) = some t' ∧ Reaches t (u.plug P) t' tree' ∧
      Halves Cell.color tree' := by
  have hne : u ≠ .nil := by
    rintro rfl
    cases hi
  induction fuel generalizing t u P i n with
  | zero => omega
  | succ fuel ih =>
    cases P with
    | nil =>
      have hguard : t.insertGuard (some i) = some false := by
        rw [← hi]
        exact insertGuard_root h
      exact ⟨t, u, by simp [fixInsertLoop, hguard], h.refl, hu.halves hne⟩
    | cons fr P =>
      have hguard := insertGuard_below h hi
      cases hpath with
      | black hb hv hpath =>
        obtain ⟨m, hm⟩ := Fits.plug (.black hb hv hpath) hu
        refine ⟨t, _, ?_, h.refl, hm.halves (plug_ne_nil hne)⟩
        simp [fixInsertLoop, hguard, hb]
      | red hr hv hpath =>
        obtain ⟨⟨s, g, w⟩, rest, c, rfl, _, hw, hrest⟩ := hpath.of_red
        obtain ⟨s', p, v⟩ := fr
        obtain ⟨t₁, u', j, P', hstep, hj, h₁, hcases⟩ :=
          fixInsertStep_spec h hi hu hr hv hw hrest
        have hparent := parent_eq h hi
        have hat := h.at_top
        have hside := side_eq (s := s) (a := g) (v := w) (P := rest) (u := join s' p u v) h
          (by rw [ptr_join]; exact ptr_ne_sibling (P := rest) h ptr_join)
        have hloop : fixInsertLoop (fuel + 1) t (some i) = fixInsertLoop fuel t₁ (some j) := by
          rw [ptr_join] at hside
          simp only [top_cons] at hparent hat
          have hr : p.color = .red := hr
          simp [fixInsertLoop, hguard, hr, getParent, hparent, getLeft, getChild, hat.parent, hside,
            hstep]
        rw [hloop]
        simp only [List.length_cons] at hfuel
        have hne' : u' ≠ .nil := by
          rintro rfl
          cases hj
        rcases hcases with ⟨rfl, hu'⟩ | ⟨fr', rest', m, rfl, hb, hm⟩
        · obtain ⟨t₂, tree', hrun, h₂, hhalves⟩ := ih h₁.holds hj hu' hrest (by omega) hne'
          exact ⟨t₂, tree', hrun, h₁.trans h₂, hhalves⟩
        · have hguard' := insertGuard_below h₁.holds hj
          refine ⟨t₁, _, ?_, h₁, hm.halves (plug_ne_nil hne')⟩
          cases fuel with
          | zero => omega
          | succ fuel => simp [fixInsertLoop, hguard', hb]

/-- The root becomes black. -/
theorem blacken_spec (h : Holds t tree) (hhalves : Halves Cell.color tree) :
    ∃ t' tree' m, setColor t t.root .black = some t' ∧ Reaches t tree t' tree' ∧
      Balanced Cell.color tree' .black m := by
  obtain ⟨a, l, r, c, c', m, rfl, hl, hr⟩ := hhalves
  obtain ⟨t', hset, h'⟩ := setColor_reaches (s := .left) (a := a) (P := []) h .black
  have hroot : t.root = some a.id := h.rep.1
  exact ⟨t', _, m + 1, by rw [hroot]; exact hset, h', .black rfl hl hr⟩

/-- The repair of a tree with a new red node below `P`. -/
theorem fixInsert_spec (h : Holds t ((join .left a .nil .nil).plug P)) (ha : a.color = .red)
    (hpath : Fits Cell.color P .black 0) :
    ∃ t' tree' m, t.fixInsert (some a.id) = some t' ∧
      Reaches t ((join .left a .nil .nil).plug P) t' tree' ∧
      Balanced Cell.color tree' .black m := by
  have hlen := (length_le_numNodes (join .left a .nil .nil) P).trans h.numNodes_le
  obtain ⟨t₁, tree₁, hloop, h₁, hhalves⟩ :=
    fixInsertLoop_spec h ptr_join (.red ha .nil .nil) hpath hlen
  obtain ⟨t₂, tree₂, m, hset, h₂, hbal⟩ := blacken_spec h₁.holds hhalves
  exact ⟨t₂, tree₂, m, by simp [fixInsert, hloop, hset], h₁.trans h₂, hbal⟩

section NewNode

theorem makeNode_holds (h : Holds t tree) (value : T) : Holds (t.makeNode value) tree := by
  refine ⟨⟨h.rep.1, h.rep.2.congr ?_⟩, h.nodup, ?_⟩
  · intro i hi
    have hne : i ≠ t.fresh := (h.lt_fresh hi).ne
    constructor <;> simp [makeNode, hne]
  · intro c hc
    obtain ⟨hdata, hcolor, hlt⟩ := h.stored c hc
    refine ⟨?_, ?_, Nat.lt_succ_of_lt hlt⟩
    · exact (Function.update_of_ne hlt.ne _ _).trans hdata
    · exact (Function.update_of_ne hlt.ne _ _).trans hcolor

/-- A node without children comes into a place that was null. -/
theorem link_spec (h : Holds t (BinaryTree.nil.plug P)) (hnew : a.id ∉ entries Cell.id P)
    (hdata : t.data a.id = some a.data) (hcolor : t.color a.id = a.color)
    (hfresh : a.id < t.fresh) (hchild : ∀ s, t.child s a.id = none) :
    Holds { t with toLinks := (setHole Cell.id (t.toLinks.setParent a.id (top Cell.id P))
      P (some a.id)) } ((join .left a .nil .nil).plug P) := by
  obtain ⟨_, habove⟩ := rep_plug.mp h.rep
  have hdE := h.nodup_parts
  rw [inorder_nil, List.nil_append] at hdE
  refine ⟨rep_plug.mpr ⟨linked_join.mpr ⟨?_, ?_, ?_, trivial, trivial⟩, ?_⟩, ?_, ?_⟩
  · simp [hnew, hchild]
  · simp [hnew, hchild]
  · simp
  · rw [ptr_join]
    refine Above.setHole (habove.congr rfl fun i hi => ?_) hdE
    have hne : i ≠ a.id := fun he => hnew (he ▸ hi)
    constructor <;> simp [hne]
  · rw [(inorder_plug_perm Cell.id _ P).nodup_iff]
    exact List.nodup_cons.mpr ⟨hnew, hdE⟩
  · intro c hc
    rw [(inorder_plug_perm id _ P).mem_iff, List.mem_append] at hc
    rcases hc with hc | hc
    · rw [List.mem_singleton.mp hc]
      exact ⟨hdata, hcolor, hfresh⟩
    · exact h.stored c ((inorder_plug_perm id _ P).mem_iff.mpr (List.mem_append_right _ hc))

end NewNode

section Insertion
variable [LinearOrder T] {value : T}

/-- The way down ends at a null place between the values that are not greater and the greater
ones. -/
theorem insertLoop_spec (value : T) (fuel : Nat) (h : Holds t (u.plug P))
    (hsort : ((u.plug P).inorder Cell.data).Pairwise (· ≤ ·))
    (hbefore : ∀ k ∈ before Cell.data P, k ≤ value)
    (hafter : ∀ k ∈ after Cell.data P, value < k) (hfuel : u.numNodes ≤ fuel) :
    ∃ P', insertLoop t value fuel (ptr Cell.id u) (top Cell.id P) =
        some (top Cell.id P') ∧ u.plug P = BinaryTree.nil.plug P' ∧
      (∀ k ∈ before Cell.data P', k ≤ value) ∧ (∀ k ∈ after Cell.data P', value < k) := by
  induction u generalizing P fuel with
  | nil => exact ⟨P, by cases fuel <;> rfl, rfl, hbefore, hafter⟩
  | node a l r ihl ihr =>
    have hat := Holds.at (s := .left) (a := a) (u := l) (v := r) h
    have hnode := hsort
    rw [inorder_plug, List.pairwise_append, List.pairwise_append] at hnode
    obtain ⟨_, ⟨hnode, _, _⟩, _⟩ := hnode
    simp only [inorder_node, List.pairwise_append, List.pairwise_cons, List.mem_cons,
      forall_eq_or_imp] at hnode
    obtain ⟨_, ⟨har, _⟩, hla⟩ := hnode
    cases fuel with
    | zero => simp [numNodes] at hfuel
    | succ fuel =>
      simp only [numNodes] at hfuel
      by_cases hlt : value < a.data
      · have hafter' : ∀ k ∈ after Cell.data (⟨.left, a, r⟩ :: P), value < k := by
          intro k hk
          simp only [after, List.mem_cons, List.mem_append] at hk
          rcases hk with rfl | hk | hk
          · exact hlt
          · exact hlt.trans_le (har k hk)
          · exact hafter k hk
        obtain ⟨P', hloop, hplug, hb, ha⟩ :=
          ihl (P := ⟨.left, a, r⟩ :: P) fuel h hsort hbefore hafter' (by omega)
        refine ⟨P', ?_, hplug, hb, ha⟩
        rw [← hloop]
        simp [insertLoop, ptr, getData, hat.data, hlt, getLeft, getChild, hat.near]
      · have hbefore' : ∀ k ∈ before Cell.data (⟨.right, a, l⟩ :: P), k ≤ value := by
          intro k hk
          simp only [before, List.mem_singleton, List.mem_append] at hk
          rcases hk with hk | hk | rfl
          · exact hbefore k hk
          · exact (hla k hk).1.trans (not_lt.mp hlt)
          · exact not_lt.mp hlt
        obtain ⟨P', hloop, hplug, hb, ha⟩ :=
          ihr (P := ⟨.right, a, l⟩ :: P) fuel h hsort hbefore' hafter (by omega)
        refine ⟨P', ?_, hplug, hb, ha⟩
        rw [← hloop]
        have hfar : t.child .right a.id = ptr Cell.id r := hat.far
        simp [insertLoop, ptr, getData, hat.data, hlt, getRight, getChild, hfar]

/-- A red-black tree in order that stores the values `s`. -/
structure Stores (t : RedBlackTree T) (tree : BinaryTree (Cell T)) (s : Multiset T) : Prop where
  holds : Holds t tree
  balanced : ∃ n, Balanced Cell.color tree .black n
  sorted : (tree.inorder Cell.data).Pairwise (· ≤ ·)
  values : (tree.inorder Cell.data : Multiset T) = s

theorem Reaches.stores {t' : RedBlackTree T} {tree' : BinaryTree (Cell T)} {s : Multiset T} {m : Nat}
    (h : Reaches t tree t' tree') (hbal : Balanced Cell.color tree' .black m)
    (hsort : (tree.inorder Cell.data).Pairwise (· ≤ ·))
    (hvalues : (tree.inorder Cell.data : Multiset T) = s) : Stores t' tree' s :=
  ⟨h.holds, ⟨m, hbal⟩, by rw [h.data]; exact hsort, by rw [h.data]; exact hvalues⟩

theorem insert_spec {s : Multiset T} (h : Stores t tree s) (value : T) :
    ∃ t' tree', t.insert value = some t' ∧ Stores t' tree' (value ::ₘ s) := by
  obtain ⟨n, hbal⟩ := h.balanced
  have hmake := makeNode_holds h.holds value
  obtain ⟨P, hloop, rfl, hbefore, hafter⟩ := insertLoop_spec (u := tree) (P := [])
    value _ hmake h.sorted nofun nofun
    (h.holds.numNodes_le.trans (Nat.le_succ _))
  obtain ⟨c, k, hnil, hpath⟩ := Fits.unplug hbal
  cases hnil
  have hnew : t.fresh ∉ entries Cell.id P := by
    intro hi
    refine absurd (h.holds.lt_fresh ((inorder_plug_perm Cell.id _ P).mem_iff.mpr ?_))
      (lt_irrefl t.fresh)
    exact List.mem_append_right _ hi
  have hlink := link_spec (a := ⟨t.fresh, value, .red⟩) hmake hnew
    (by simp [makeNode]) (by simp [makeNode]) (Nat.lt_succ_self _)
    (by intro s; cases s <;> simp [makeNode])
  -- the new value stands between what is not greater and what is greater
  have hkeys := inorder_plug Cell.data (join .left ⟨t.fresh, value, .red⟩ .nil .nil) P
  have hold := inorder_plug Cell.data (.nil : BinaryTree (Cell T)) P
  have hsort : (((join .left ⟨t.fresh, value, .red⟩ .nil .nil).plug P).inorder
      Cell.data).Pairwise (· ≤ ·) := by
    have hsorted := h.sorted
    rw [hold, inorder_nil, List.nil_append, List.pairwise_append] at hsorted
    obtain ⟨hb, ha, hba⟩ := hsorted
    rw [hkeys]
    refine List.pairwise_append.mpr ⟨hb, List.pairwise_cons.mpr ⟨fun k hk => (hafter k hk).le, ha⟩, ?_⟩
    intro k hk j hj
    rcases List.mem_cons.mp hj with rfl | hj
    · exact hbefore k hk
    · exact hba k hk j hj
  have hvalues : (((join .left ⟨t.fresh, value, .red⟩ .nil .nil).plug P).inorder
      Cell.data : Multiset T) = value ::ₘ s := by
    rw [hkeys, ← h.values, hold]
    exact Multiset.coe_eq_coe.mpr List.perm_middle
  cases P with
  | nil =>
    obtain ⟨t', hset, hreach⟩ := setColor_reaches (P := []) hlink .black
    refine ⟨t', _, ?_, hreach.stores (.black rfl .nil .nil) hsort hvalues⟩
    have hroot : t.root = none := h.holds.rep.1
    rw [← hset]
    simp [insert, makeNode, hroot, setHole, Links.setParent]
  | cons fr P =>
    obtain ⟨t', tree', m, hfix, hreach, hbal'⟩ := fixInsert_spec hlink rfl hpath
    refine ⟨t', tree', ?_, hreach.stores hbal' hsort hvalues⟩
    obtain ⟨side, b, v⟩ := fr
    have hdata : (t.makeNode value).data b.id = some b.data := hmake.at_top.data
    have hne : ptr Cell.id (BinaryTree.nil.plug (⟨side, b, v⟩ :: P)) ≠ none :=
      mt ptr_eq_none.mp (plug_ne_nil (p := P) (join_ne_nil side b .nil v))
    have hroot : (t.makeNode value).root =
        ptr Cell.id (BinaryTree.nil.plug (⟨side, b, v⟩ :: P)) := h.holds.rep.1
    have hfresh : (t.makeNode value).fresh = t.fresh + 1 := rfl
    rw [insert, hroot, if_neg (by simpa using hne), hfresh]
    rw [top_nil, top_cons] at hloop
    rw [hloop, ← hfix]
    simp only [Option.bind_eq_bind, Option.bind_some, setParent, Option.map_some, getData, hdata]
    -- the comparison finds the side that the way down took
    cases side with
    | left =>
      have hlt : value < b.data := hafter b.data (by simp [after])
      simp [hlt, setLeft, setChild, setHole]
    | right =>
      have hle : ¬ value < b.data := not_lt.mpr (hbefore b.data (by simp [before]))
      simp [hle, setRight, setChild, setHole]

end Insertion

end Cppforge.Balanced.RedBlackTree
