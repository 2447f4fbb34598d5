import Cppforge.Balanced.Proofs.RedBlackInsert

namespace Cppforge.Balanced.RedBlackTree
open BinaryTree TreeLinks RedBlack

variable {T : Type} {t : RedBlackTree T} {s : Side} {a b d p : Cell T}
  {u v w x y z : BinaryTree (Cell T)} {tree : BinaryTree (Cell T)} {P rest : Path (Cell T)}
  {c c' : Color} {n : Nat}

section Steps

theorem raiseSibling_spec (h : Holds t ((join s p u (join s b v w)).plug P)) :
    ∃ t', raiseSibling s t (some p.id) (some b.id) = some (t', ptr Cell.id v) ∧
      Reaches t ((join s p u (join s b v w)).plug P) t'
        (u.plug (⟨s, { p with color := .red }, v⟩ :: ⟨s, { b with color := .black }, w⟩ :: P)) := by
  obtain ⟨t₁, hset₁, h₁⟩ := setColor_far h .black
  obtain ⟨t₂, hset₂, h₂⟩ := setColor_reaches h₁.holds .red
  obtain ⟨t₃, hrot, h₃⟩ := rotate_reaches h₂.holds
  refine ⟨t₃, ?_, h₁.trans (h₂.trans h₃)⟩
  have hfar : t₃.child s.other p.id = ptr Cell.id v :=
    (Holds.at_top (f := ⟨s, { p with color := .red }, v⟩) (u := u)
      (P := ⟨s, { b with color := .black }, w⟩ :: P) h₃.holds).far
  simp [raiseSibling, hset₁, hset₂, hrot, getChild, hfar]

/-- The near child `d` of the sibling comes up between its two children. -/
theorem turnSibling_spec (h : Holds t ((join s p u (join s b (join s.other d v w) z)).plug P)) :
    ∃ t', turnSibling s t (some p.id) (some b.id) = some (t', some d.id) ∧
      Reaches t ((join s p u (join s b (join s.other d v w) z)).plug P) t'
        ((join s p u (join s { d with color := .black } w
          (join s.other { b with color := .red } z v))).plug P) := by
  have hview (x : BinaryTree (Cell T)) :
      (join s p u x).plug P = x.plug (⟨s.other, p, u⟩ :: P) := plug_other
  rw [hview] at h
  rw [hview, hview]
  have hnear := (Holds.at (P := ⟨s.other, p, u⟩ :: P) h).near
  obtain ⟨t₁, hset₁, h₁⟩ :=
    setColor_reaches (P := ⟨s, b, z⟩ :: ⟨s.other, p, u⟩ :: P) h .black
  obtain ⟨t₂, hset₂, h₂⟩ := setColor_reaches (P := ⟨s.other, p, u⟩ :: P) h₁.holds .red
  have hjoin : join s { b with color := .red } (join s.other { d with color := .black } v w) z =
      join s.other { b with color := .red } z (join s.other { d with color := .black } v w) :=
    (join_other s _ _ _).symm
  rw [hjoin] at h₂
  obtain ⟨t₃, hrot, h₃⟩ := rotate_reaches h₂.holds
  have hlast := join_other s ({ d with color := .black } : Cell T)
    (join s.other { b with color := .red } z v) w
  rw [hlast] at h₃
  refine ⟨t₃, ?_, h₁.trans (h₂.trans h₃)⟩
  have hfar : t₃.child s.other p.id = some d.id :=
    (Holds.at_top h₃.holds).near.trans ptr_join
  rw [ptr_join] at hnear
  simp [turnSibling, getChild, hnear, hset₁, hset₂, hrot, hfar]

theorem closeDelete_spec {s' : Side}
    (h : Holds t ((join s p u (join s b v (join s' d w z))).plug P)) :
    ∃ t', closeDelete s t (some p.id) (some b.id) = some t' ∧
      Reaches t ((join s p u (join s b v (join s' d w z))).plug P) t'
        ((join s { b with color := p.color } (join s { p with color := .black } u v)
          (join s' { d with color := .black } w z)).plug P) := by
  have hcolor := (Holds.at h).color
  obtain ⟨t₁, hset₁, h₁⟩ := setColor_far h p.color
  have hview (x : BinaryTree (Cell T)) :
      (join s p u x).plug P = x.plug (⟨s.other, p, u⟩ :: P) := plug_other
  have h₁' := h₁.holds
  rw [hview] at h₁'
  have hfar := (Holds.at (P := ⟨s.other, p, u⟩ :: P) h₁').far
  obtain ⟨t₂, hset₂, h₂⟩ := setColor_far (P := ⟨s.other, p, u⟩ :: P) h₁' .black
  rw [← hview, ← hview] at h₂
  obtain ⟨t₃, hset₃, h₃⟩ := setColor_reaches h₂.holds .black
  obtain ⟨t₄, hrot, h₄⟩ := rotate_reaches h₃.holds
  refine ⟨t₄, ?_, h₁.trans (h₂.trans (h₃.trans h₄))⟩
  rw [ptr_join] at hfar
  simp [closeDelete, getColor, hcolor, hset₁, getChild, hfar, hset₂, hset₃, hrot]

/-- One black node is missing on the paths through the hole; a red tree there makes up for it
once it is black. -/
def Lacks (u : BinaryTree (Cell T)) (P : Path (Cell T)) : Prop :=
  ∃ n, (Balanced Cell.color u .black n ∨ ∃ a l r c c', u = .node a l r ∧ a.color = .red ∧
    Balanced Cell.color l c n ∧ Balanced Cell.color r c' n) ∧ Fits Cell.color P .black (n + 1)

/-- A red sibling between black children gives the missing node back to the parent. -/
theorem lacks_above (hu : Balanced Cell.color u .black n) (hv : Balanced Cell.color v .red n)
    (hfit : Fits Cell.color (⟨s, p, w⟩ :: P) .black (n + 1)) :
    Lacks (join s p u v) P := by
  cases hfit with
  | red hp _ hpath =>
    refine ⟨n, .inr ?_, hpath.weaken⟩
    cases s with
    | left => exact ⟨p, u, v, _, _, rfl, hp, hu, hv⟩
    | right => exact ⟨p, v, u, _, _, rfl, hp, hv, hu⟩
  | black hp _ hpath => exact ⟨n + 1, .inl (balanced_join_black hp hu hv), hpath⟩

/-- The last rotation puts the missing node in. -/
theorem close_balanced {s' : Side} (hu : Balanced Cell.color u .black n)
    (hv : Balanced Cell.color v c n) (hw : Balanced Cell.color w .black n)
    (hz : Balanced Cell.color z .black n)
    (hfit : Fits Cell.color (⟨s, p, x⟩ :: P) .black (n + 1)) :
    ∃ m, Balanced Cell.color ((join s { b with color := p.color }
      (join s { p with color := .black } u v)
      (join s' { d with color := .black } w z)).plug P) .black m := by
  have hnear : Balanced Cell.color (join s { p with color := .black } u v) .black (n + 1) :=
    balanced_join_black rfl hu hv
  have hfar : Balanced Cell.color (join s' { d with color := .black } w z) .black (n + 1) :=
    balanced_join_black rfl hw hz
  cases hfit with
  | red hp _ hpath => exact hpath.plug (balanced_join_red hp hnear hfar)
  | black hp _ hpath => exact hpath.plug (balanced_join_black hp hnear hfar)

theorem fixDeleteBlack_spec (h : Holds t ((join s p u v).plug P))
    (hu : Balanced Cell.color u .black n) (hv : Balanced Cell.color v .black (n + 1))
    (hfit : Fits Cell.color (⟨s, p, v⟩ :: P) .black (n + 1)) :
    ∃ t' node parent, fixDeleteBlack s t (some p.id) (ptr Cell.id v) = some (t', node, parent) ∧
      ((∃ u', node = ptr Cell.id u' ∧ parent = top Cell.id P ∧
        Reaches t ((join s p u v).plug P) t' (u'.plug P) ∧ Lacks u' P ∧
        rootColor Cell.color u' = p.color) ∨
      ∃ tree' m, node = ptr Cell.id tree' ∧ Reaches t ((join s p u v).plug P) t' tree' ∧
        Balanced Cell.color tree' .black m) := by
  have hview (x : BinaryTree (Cell T)) :
      (join s p u x).plug P = x.plug (⟨s.other, p, u⟩ :: P) := plug_other
  obtain ⟨b, v, w, rfl⟩ := exists_join s (t := v) (by rintro rfl; cases hv)
  obtain ⟨k, c, c', hk, hb, hv₁, hw₁⟩ := hv.of_black
  obtain rfl : n = k := Nat.succ.inj hk
  have hsib := h
  rw [hview] at hsib
  have hat := Holds.at (P := ⟨s.other, p, u⟩ :: P) hsib
  have hnear := isBlack_ptr (u := v) (P := ⟨s, b, w⟩ :: ⟨s.other, p, u⟩ :: P) hsib
  have hfar := isBlack_ptr (u := w) (P := ⟨s.other, b, v⟩ :: ⟨s.other, p, u⟩ :: P)
    (by rw [← plug_other (s := s)]; exact hsib)
  rw [hv₁.rootColor_eq] at hnear
  rw [hw₁.rootColor_eq] at hfar
  rw [ptr_join]
  cases c' with
  | red =>
    obtain ⟨d, w, z, rfl⟩ := exists_join .left (t := w) (by rintro rfl; cases hw₁)
    obtain ⟨_, hw, hz⟩ := hw₁.of_red
    obtain ⟨t₁, hclose, h₁⟩ := closeDelete_spec h
    obtain ⟨m, hm⟩ := close_balanced (b := b) (d := d) hu hv₁ hw hz hfit
    refine ⟨t₁, _, some p.id, ?_, .inr ⟨_, m, h₁.holds.rep.1, h₁, hm⟩⟩
    rw [ptr_join] at hfar
    simp [fixDeleteBlack, hat.far, hfar, hclose]
  | black =>
    cases c with
    | red =>
      obtain ⟨d, v, z, rfl⟩ := exists_join s.other (t := v) (by rintro rfl; cases hv₁)
      obtain ⟨_, hv, hz⟩ := hv₁.of_red
      obtain ⟨t₁, hturn, h₁⟩ := turnSibling_spec h
      obtain ⟨t₂, hclose, h₂⟩ := closeDelete_spec h₁.holds
      obtain ⟨m, hm⟩ := close_balanced (b := { d with color := .black })
        (d := { b with color := .red }) hu hz hw₁ hv hfit
      refine ⟨t₂, _, some p.id, ?_, .inr ⟨_, m, h₂.holds.rep.1, h₁.trans h₂, hm⟩⟩
      rw [ptr_join] at hnear
      simp [fixDeleteBlack, hat.near, hat.far, hnear, hfar, hturn, hclose]
    | black =>
      obtain ⟨t₁, hset, h₁⟩ := setColor_far h .red
      have hparent := parent_eq h₁.holds ptr_join
      refine ⟨t₁, some p.id, _, ?_, .inl ⟨_, ptr_join.symm, rfl, h₁,
        lacks_above hu (balanced_join_red rfl hv₁ hw₁) hfit, ?_⟩⟩
      · simp [fixDeleteBlack, hat.near, hat.far, hnear, hfar, hset, getParent, hparent]
      · cases s <;> rfl

/-- A pass moves the hole up, puts a red tree there, or ends the repair. -/
theorem fixDeleteStep_spec (h : Holds t (u.plug (⟨s, p, v⟩ :: P)))
    (hu : Balanced Cell.color u .black n)
    (hfit : Fits Cell.color (⟨s, p, v⟩ :: P) .black (n + 1)) :
    ∃ t' node parent, fixDeleteStep s t (some p.id) = some (t', node, parent) ∧
      ((∃ u' P', node = ptr Cell.id u' ∧ parent = top Cell.id P' ∧
        Reaches t (u.plug (⟨s, p, v⟩ :: P)) t' (u'.plug P') ∧ Lacks u' P' ∧
        (P' = P ∨ rootColor Cell.color u' = .red)) ∨
      ∃ tree' m, node = ptr Cell.id tree' ∧ Reaches t (u.plug (⟨s, p, v⟩ :: P)) t' tree' ∧
        Balanced Cell.color tree' .black m) := by
  have hfar := h.at_top.far
  have hsib : Holds t (v.plug (⟨s.other, p, u⟩ :: P)) := by
    rw [← plug_other]
    exact h
  have hblack := isBlack_ptr hsib
  have hv : ∃ c, Balanced Cell.color v c (n + 1) := by
    cases hfit with
    | red _ hv _ => exact ⟨_, hv⟩
    | black _ hv _ => exact ⟨_, hv⟩
  obtain ⟨c, hv⟩ := hv
  rw [hv.rootColor_eq] at hblack
  simp only [fixDeleteStep, Option.isSome_some, if_true, getChild, Option.map_some, hfar,
    Option.bind_eq_bind, Option.bind_some]
  cases c with
  | black =>
    obtain ⟨t₁, node, parent, hstep, hcases⟩ := fixDeleteBlack_spec h hu hv hfit
    refine ⟨t₁, node, parent, by simp [hblack, hstep], ?_⟩
    rcases hcases with ⟨u', hnode, hparent, h₁, hlacks, _⟩ | hclosed
    · exact .inl ⟨u', P, hnode, hparent, h₁, hlacks, .inl rfl⟩
    · exact .inr hclosed
  | red =>
    obtain ⟨b, v, w, rfl⟩ := exists_join s (t := v) (by rintro rfl; cases hv)
    obtain ⟨hb, hv₁, hw₁⟩ := hv.of_red
    cases hfit with
    | red _ hblack' _ =>
      have hcolor := hblack'.rootColor_eq.symm.trans hv.rootColor_eq
      cases hcolor
    | black hp _ hpath =>
      have hpath' : Fits Cell.color (⟨s, { b with color := .black }, w⟩ :: P) .red (n + 1) :=
        .black rfl hw₁ hpath
      have hfit' : Fits Cell.color (⟨s, { p with color := .red }, v⟩ ::
          ⟨s, { b with color := .black }, w⟩ :: P) .black (n + 1) := .red rfl hv₁ hpath'
      obtain ⟨t₁, hraise, h₁⟩ := raiseSibling_spec h
      obtain ⟨t₂, node, parent, hstep, hcases⟩ := fixDeleteBlack_spec h₁.holds hu hv₁ hfit'
      refine ⟨t₂, node, parent, ?_, ?_⟩
      · rw [ptr_join] at hblack
        simp [hblack, hraise, hstep]
      · rcases hcases with ⟨u', hnode, hparent, h₂, hlacks, hcolor⟩ | ⟨tree', m, hnode, h₂, hm⟩
        · exact .inl ⟨u', _, hnode, hparent, h₁.trans h₂, hlacks, .inr hcolor⟩
        · exact .inr ⟨tree', m, hnode, h₁.trans h₂, hm⟩

end Steps

section Loop

/-- The tree with a black root. -/
def blackened : BinaryTree (Cell T) → BinaryTree (Cell T)
  | .nil => .nil
  | .node a l r => .node { a with color := .black } l r

theorem balanced_blackened (h : Balanced Cell.color u .black n) :
    Balanced Cell.color (blackened u) .black n := by
  cases h with
  | nil => exact .nil
  | black _ hl hr => exact .black rfl hl hr

theorem Lacks.blackened (h : Lacks u P)
    (hstop : P = [] ∨ rootColor Cell.color u = .red) :
    ∃ m, Balanced Cell.color ((blackened u).plug P) .black m := by
  obtain ⟨n, hu | ⟨a, l, r, c, c', rfl, _, hl, hr⟩, hfit⟩ := h
  · rcases hstop with rfl | hred
    · exact ⟨n, balanced_blackened hu⟩
    · have hcolor := hu.rootColor_eq.symm.trans hred
      cases hcolor
  · exact hfit.plug (.black rfl hl hr)

theorem fixDeleteLoop_stop {fuel : Nat} {node parent : Option Nat}
    (hguard : t.deleteGuard node = false) (hfuel : 1 ≤ fuel) :
    fixDeleteLoop fuel t node parent = some (t, node) := by
  cases fuel with
  | zero => omega
  | succ fuel => simp [fixDeleteLoop, hguard]

theorem deleteGuard_root (h : Holds t u) : t.deleteGuard (ptr Cell.id u) = false := by
  have hroot : t.root = ptr Cell.id u := h.rep.1
  simp [deleteGuard, hroot]

theorem deleteGuard_below {fr : Frame (Cell T)} (h : Holds t (u.plug (fr :: P))) :
    t.deleteGuard (ptr Cell.id u) = decide (rootColor Cell.color u = .black) := by
  have hne : ptr Cell.id u ≠ t.root := by
    cases hu : ptr Cell.id u with
    | some i => exact root_ne h hu
    | none =>
      have hroot : t.root = ptr Cell.id (u.plug (fr :: P)) := h.rep.1
      rw [hroot]
      exact Ne.symm (mt ptr_eq_none.mp (plug_ne_nil (p := P) (join_ne_nil _ _ _ _)))
  rw [deleteGuard, isBlack_ptr h]
  simp [hne]

theorem deleteGuard_red (h : Holds t (u.plug P)) (hred : rootColor Cell.color u = .red) :
    t.deleteGuard (ptr Cell.id u) = false := by
  cases P with
  | nil => exact deleteGuard_root h
  | cons fr P =>
    rw [deleteGuard_below h, hred]
    rfl

/-- Beside a hole with a missing node there is a sibling. -/
theorem ptr_ne_far (h : Holds t (u.plug (⟨s, p, v⟩ :: P)))
    (hfit : Fits Cell.color (⟨s, p, v⟩ :: P) .black (n + 1)) :
    ptr Cell.id u ≠ ptr Cell.id v := by
  cases hu : ptr Cell.id u with
  | some i => exact ptr_ne_sibling h hu
  | none =>
    intro hv
    obtain rfl : v = .nil := ptr_eq_none.mp hv.symm
    cases hfit with
    | red _ hv _ => cases hv
    | black _ hv _ => cases hv

theorem fixDeleteLoop_spec (fuel : Nat) (h : Holds t (u.plug P)) (hlacks : Lacks u P)
    (hfuel : P.length + 1 ≤ fuel) :
    ∃ t' u' P' m, fixDeleteLoop fuel t (ptr Cell.id u) (top Cell.id P) =
        some (t', ptr Cell.id u') ∧ Reaches t (u.plug P) t' (u'.plug P') ∧
      Balanced Cell.color ((blackened u').plug P') .black m := by
  induction fuel generalizing t u P with
  | zero => omega
  | succ fuel ih =>
    cases P with
    | nil =>
      obtain ⟨m, hm⟩ := hlacks.blackened (.inl rfl)
      exact ⟨t, u, [], m, fixDeleteLoop_stop (deleteGuard_root h) (by omega), h.refl, hm⟩
    | cons fr P =>
      have hguard := deleteGuard_below h
      by_cases hred : rootColor Cell.color u = .red
      · obtain ⟨m, hm⟩ := hlacks.blackened (.inr hred)
        exact ⟨t, u, fr :: P, m, fixDeleteLoop_stop (deleteGuard_red h hred) (by omega), h.refl, hm⟩
      · obtain ⟨n, hu | ⟨a, l, r, _, _, rfl, ha, _⟩, hfit⟩ := hlacks
        · obtain ⟨s, p, v⟩ := fr
          obtain ⟨t₁, node, parent, hstep, hcases⟩ := fixDeleteStep_spec h hu hfit
          have hside := side_eq h (ptr_ne_far h hfit)
          rw [hu.rootColor_eq] at hguard
          have hloop : fixDeleteLoop (fuel + 1) t (ptr Cell.id u) (some p.id) =
              fixDeleteLoop fuel t₁ node parent := by
            simp [fixDeleteLoop, hguard, hside, hstep]
          rw [top_cons, hloop]
          rw [List.length_cons] at hfuel
          rcases hcases with ⟨u', P', rfl, rfl, h₁, hlacks, hnext⟩ | ⟨tree', m, rfl, h₁, hm⟩
          · rcases hnext with rfl | hred'
            · obtain ⟨t₂, u₂, path₂, m, hrun, h₂, hm⟩ := ih h₁.holds hlacks (by omega)
              exact ⟨t₂, u₂, path₂, m, hrun, h₁.trans h₂, hm⟩
            · obtain ⟨m, hm⟩ := hlacks.blackened (.inr hred')
              exact ⟨t₁, u', P', m, fixDeleteLoop_stop (deleteGuard_red h₁.holds hred') (by omega),
                h₁, hm⟩
          · exact ⟨t₁, tree', [], m, fixDeleteLoop_stop (deleteGuard_root h₁.holds) (by omega), h₁,
              balanced_blackened hm⟩
        · exact absurd ha hred

/-- The repair of a tree with one black node too few below `P`. -/
theorem fixDelete_spec (h : Holds t (u.plug P)) (hlacks : Lacks u P) :
    ∃ t' tree' m, t.fixDelete (ptr Cell.id u) (top Cell.id P) = some t' ∧
      Reaches t (u.plug P) t' tree' ∧ Balanced Cell.color tree' .black m := by
  have hlen := (length_le_numNodes u P).trans h.numNodes_le
  obtain ⟨t₁, u₁, path₁, m, hloop, h₁, hm⟩ :=
    fixDeleteLoop_spec (t.fresh + 1) h hlacks (by omega)
  cases u₁ with
  | nil => exact ⟨t₁, _, m, by simp [fixDelete, hloop], h₁, hm⟩
  | node a l r =>
    obtain ⟨t₂, hset, h₂⟩ := setColor_reaches (s := .left) (a := a) h₁.holds .black
    rw [show ptr Cell.id (node a l r) = some a.id from rfl] at hloop
    exact ⟨t₂, _, m, by simp [fixDelete, hloop, hset], h₁.trans h₂, hm⟩

end Loop

end Cppforge.Balanced.RedBlackTree
