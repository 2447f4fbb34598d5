import Cppforge.Balanced.Proofs.RedBlackDelete
import Cppforge.Lib.Run

namespace Cppforge.Balanced.RedBlackTree
open BinaryTree TreeLinks RedBlack

variable {T : Type} {t : RedBlackTree T} {s : Side} {a y : Cell T}
  {u v D L R : BinaryTree (Cell T)} {tree : BinaryTree (Cell T)} {P lower : Path (Cell T)}
  {c : Color} {n : Nat}

section Successor

theorem reparent_self {m : Links Nat} {p : Option Nat} (h : Linked Cell.id m p u) :
    reparent Cell.id m u p = m := by
  cases u with
  | nil => rfl
  | node a l r =>
    obtain ⟨_, _, hparent, _⟩ := h
    change m.setParent a.id p = m
    rw [← hparent]
    simp [Links.setParent, Function.update_eq_self]

/-- The end of the left branch. -/
theorem findMinLoop_spec (fuel : Nat) (h : Holds t (u.plug P)) (hu : u ≠ .nil)
    (hfuel : u.numNodes ≤ fuel) :
    ∃ y D lower, t.findMinLoop fuel (ptr Cell.id u) = some (some y.id) ∧
      u = (join .right y D .nil).plug lower ∧ ∀ fr ∈ lower, fr.side = .left := by
  induction u generalizing P fuel with
  | nil => exact absurd rfl hu
  | node a l r ihl _ =>
    have hat := Holds.at (s := .left) (a := a) (u := l) (v := r) h
    cases fuel with
    | zero => simp [numNodes] at hfuel
    | succ fuel =>
      simp only [numNodes] at hfuel
      cases l with
      | nil =>
        refine ⟨a, r, [], ?_, rfl, nofun⟩
        simp [findMinLoop, ptr, getLeft, getChild, hat.near]
      | node b A B =>
        obtain ⟨y, D, lower, hloop, hplug, hleft⟩ :=
          ihl (P := ⟨.left, a, r⟩ :: P) fuel h (by simp) (by omega)
        refine ⟨y, D, lower ++ [⟨.left, a, r⟩], ?_, ?_, ?_⟩
        · rw [← hloop]
          have hnear : t.child .left a.id = some b.id := hat.near
          simp [findMinLoop, ptr, getLeft, getChild, hnear]
        · rw [plug_append, ← hplug]
          rfl
        · intro fr hfr
          rcases List.mem_append.mp hfr with hfr | hfr
          · exact hleft fr hfr
          · rw [List.mem_singleton.mp hfr]

theorem successor_perm {κ : Type} (f : Cell T → κ) :
    (((join .right y D .nil).plug lower).inorder f).Perm (f y :: (D.plug lower).inorder f) := by
  have hjoin := inorder_join_perm f .right y D .nil
  rw [inorder_nil, List.append_nil] at hjoin
  exact (inorder_plug_perm f _ lower).trans
    ((hjoin.append_right _).trans ((inorder_plug_perm f D lower).symm.cons _))

theorem successor_nodup
    (h : Holds t ((join .right y D .nil).plug (lower ++ ⟨.right, a, L⟩ :: P))) :
    (a.id :: y.id :: (L.inorder Cell.id ++ (D.plug lower).inorder Cell.id) ++
      entries Cell.id P).Nodup := by
  rw [plug_append] at h
  have hnode := (inorder_join_perm Cell.id .right a ((join .right y D .nil).plug lower) L)
  have hd := (hnode.append_right (entries Cell.id P)).nodup_iff.mp
    (Holds.nodup_parts (P := P) h)
  have hperm : (((join .right y D .nil).plug lower).inorder Cell.id ++ L.inorder Cell.id).Perm
      (y.id :: (L.inorder Cell.id ++ (D.plug lower).inorder Cell.id)) :=
    ((successor_perm Cell.id).append_right _).trans (List.perm_append_comm.cons _)
  exact ((hperm.cons a.id).append_right _).nodup_iff.mp hd

theorem detachSuccessor_spec
    (h : Holds t ((join .right y D .nil).plug (lower ++ ⟨.right, a, L⟩ :: P)))
    (hleft : ∀ fr ∈ lower, fr.side = .left) :
    ∃ m, detachSuccessor t (some a.id) (some y.id) (ptr Cell.id D) =
        some ({ t with toLinks := m }, top Cell.id (lower ++ ⟨.right, y, L⟩ :: P)) ∧
      Above Cell.id m P (some a.id) ∧ m.parent a.id = top Cell.id P ∧
      m.child .left a.id = ptr Cell.id L ∧ Linked Cell.id m (some a.id) L ∧
      m.child .right y.id = ptr Cell.id (D.plug lower) ∧
      Linked Cell.id m (some y.id) (D.plug lower) := by
  have hd := successor_nodup h
  have hparent := parent_eq h ptr_join
  obtain ⟨hlinked, _⟩ := rep_plug.mp h.rep
  obtain ⟨hyD, _, _, hD, _⟩ := linked_join.mp hlinked
  cases lower with
  | nil =>
    -- the successor is the right child: its links are already there
    have h' : Holds t ((join .right a (join .right y D .nil) L).plug P) := h
    obtain ⟨hnode, habove⟩ := rep_plug.mp h'.rep
    obtain ⟨_, haL, hap, _, hL⟩ := linked_join.mp hnode
    rw [ptr_join] at habove
    refine ⟨t.toLinks, ?_, habove, hap, haL, hL, hyD, hD⟩
    simp only [detachSuccessor, getParent, Option.map_some, hparent, List.nil_append, top_cons,
      Option.bind_eq_bind, Option.bind_some, if_true, setParentOf_ptr]
    rw [reparent_self hD]
    rfl
  | cons fr lower =>
    obtain ⟨side, b, w⟩ := fr
    obtain rfl : side = .left := hleft _ List.mem_cons_self
    simp only [List.cons_append, List.nodup_cons, List.nodup_append, List.mem_cons,
      List.mem_append, not_or] at hd
    obtain ⟨⟨hay, ⟨_, haR'⟩, _⟩, ⟨⟨hyL, hyR⟩, hyE⟩, ⟨_, hdR, hLR⟩, _, hE⟩ := hd
    have hmem {i : Nat} := (inorder_plug_perm Cell.id D (⟨.left, b, w⟩ :: lower)).mem_iff (a := i)
    have hba : b.id ≠ a.id := by
      intro he
      refine haR' (hmem.mpr (List.mem_append_right _ ?_))
      rw [← he]
      exact key_mem_entries Cell.id List.mem_cons_self
    have hyD' : y.id ∉ D.inorder Cell.id :=
      fun hy => hyR (hmem.mpr (List.mem_append_left _ hy))
    have hnear : t.child .left b.id = some y.id := h.at_top.near.trans ptr_join
    -- the successor leaves its place
    let m := fill t.toLinks (⟨.left, b, w⟩ :: (lower ++ ⟨.right, a, L⟩ :: P)) D
    have hfill : Holds { t with toLinks := m }
        ((join .right a (D.plug (⟨.left, b, w⟩ :: lower)) L).plug P) := by
      have hf := fill_spec h
      rwa [plug_append] at hf
    have hpy : m.parent y.id = some b.id := (parent_reparent hyD').trans hparent
    obtain ⟨hnode, habove⟩ := rep_plug.mp hfill.rep
    obtain ⟨haR, haL, hap, hR, hL⟩ := linked_join.mp hnode
    rw [ptr_join] at habove
    -- and takes the right subtree
    let R := D.plug (⟨.left, b, w⟩ :: lower)
    let m' := reparent Cell.id (m.setChild .right y.id (ptr Cell.id R)) R (some y.id)
    have hsame (i : Nat) (hi : i ≠ y.id) (hiR : i ∉ R.inorder Cell.id) : Same m m' i := by
      constructor <;> simp [m', hi, hiR]
    refine ⟨m', ?_, habove.congr ?_ fun i hi => hsame i ?_ ?_, ?_, ?_, hL.congr fun i hi => hsame i ?_ ?_,
      ?_, ?_⟩
    · have hne : some b.id ≠ some a.id := fun he => hba (Option.some.inj he)
      have hright : (m.setChild .right y.id (ptr Cell.id R)).child .right a.id = ptr Cell.id R := by
        rw [child_setChild_ne hay]
        exact haR
      have hfill' : reparent Cell.id (t.toLinks.setChild .left b.id (ptr Cell.id D)) D
          (some b.id) = m := rfl
      simp only [detachSuccessor, getParent, Option.map_some, hparent, hne, if_false, getLeft,
        getChild, hnear, if_true, setLeft, setChild, parent_setChild, setParentOf_ptr, getRight,
        setRight, Option.bind_eq_bind, Option.bind_some, List.cons_append, top_cons, hfill']
      have haR' : m.child .right a.id = ptr Cell.id R := haR
      rw [haR', hright, hpy, setParentOf_ptr]
      rfl
    · simp [m']
    · rintro rfl
      exact hyE hi
    · intro hiR
      exact hE i (.inr hiR) i hi rfl
    · rw [(hsame a.id hay haR').2]
      exact hap
    · rw [(hsame a.id hay haR').1]
      exact haL
    · rintro rfl
      exact hyL hi
    · intro hiR
      exact hLR i hi i hiR rfl
    · simp [m', R]
    · refine Linked.reparent (hR.congr fun i hi => ?_) ?_
      · exact ⟨fun _ => child_setChild_ne fun he => hyR (he ▸ hi), rfl⟩
      · exact hdR

theorem successor_inorder {κ : Type} (f : Cell T → κ) (hleft : ∀ fr ∈ lower, fr.side = .left) :
    ((join .right y D .nil).plug (lower ++ ⟨.right, a, L⟩ :: P)).inorder f =
      (before f P ++ L.inorder f) ++
        f a :: (f y :: (D.plug lower).inorder f ++ after f P) := by
  rw [plug_append, inorder_plug, inorder_plug, before_left f hleft]
  simp [before, after, join, inorder_plug, before_left f hleft]

/-- The successor comes into the place of the node, with its color. -/
theorem successor_spec
    (h : Holds t ((join .right y D .nil).plug (lower ++ ⟨.right, a, L⟩ :: P)))
    (hleft : ∀ fr ∈ lower, fr.side = .left) :
    ∃ t₁ t₂, detachSuccessor t (some a.id) (some y.id) (ptr Cell.id D) =
        some (t₁, top Cell.id (lower ++ ⟨.right, y, L⟩ :: P)) ∧
      replaceNode t₁ (some a.id) (some y.id) = some t₂ ∧
      Holds t₂ (D.plug (lower ++ ⟨.right, { y with color := a.color }, L⟩ :: P)) := by
  obtain ⟨m, hdetach, habove, hparent, hnear, hL, hfar, hR⟩ := detachSuccessor_spec h hleft
  obtain ⟨m', hreplace, hrep⟩ := replaceNode_spec (t := { t with toLinks := m })
    (successor_nodup h) habove hparent hnear hL hfar hR
  have hcolor : t.color a.id = a.color := by
    rw [plug_append] at h
    exact (Holds.at (s := .right) (P := P) h).color
  have hlinks : Holds { t with toLinks := m' } ((join .left y L (D.plug lower)).plug P) := by
    refine h.relink ?_ hrep
    rw [successor_inorder id hleft, inorder_plug]
    simp only [join, inorder_node, List.append_assoc, List.cons_append]
    exact ((List.sublist_cons_self _ _).append_left _).append_left _
  obtain ⟨color, hset, hholds⟩ := setColor_spec hlinks a.color
  refine ⟨_, _, hdetach, hreplace, ?_⟩
  cases hset
  rw [plug_append]
  simp only [hcolor]
  exact hholds

end Successor

section Removal

/-- A tree that takes the place of a node of its height. -/
theorem splice_balanced (h : Balanced Cell.color (join s y D .nil) c n)
    (hfit : Fits Cell.color P c n) :
    (c = .red → ∃ m, Balanced Cell.color (D.plug P) .black m) ∧
      (c = .black → Lacks D P) := by
  cases c with
  | red =>
    obtain ⟨_, hD, _⟩ := h.of_red
    exact ⟨fun _ => hfit.weaken.plug hD, nofun⟩
  | black =>
    obtain ⟨k, c, c', rfl, _, hD, hnil⟩ := h.of_black
    cases hnil
    refine ⟨nofun, fun _ => ⟨0, ?_, hfit⟩⟩
    cases c with
    | black => exact .inl hD
    | red =>
      obtain ⟨a, l, r, rfl⟩ := exists_join .left (t := D) (by rintro rfl; cases hD)
      obtain ⟨ha, hl, hr⟩ := hD.of_red
      exact .inr ⟨a, l, r, _, _, rfl, ha, hl, hr⟩

theorem splice_inorder {κ : Type} (f : Cell T → κ) (s : Side) (a : Cell T)
    (D : BinaryTree (Cell T)) (P : Path (Cell T)) :
    ∃ X Y, ((join s a D .nil).plug P).inorder f = X ++ f a :: Y ∧
      (D.plug P).inorder f = X ++ Y := by
  cases s with
  | left => exact ⟨before f P ++ D.inorder f, after f P, by simp [inorder_plug, join],
      by simp [inorder_plug]⟩
  | right => exact ⟨before f P, D.inorder f ++ after f P, by simp [inorder_plug, join],
      by simp [inorder_plug]⟩

/-- What is done after the removal of a node of the color `c`. -/
theorem settle_spec (h : Holds t (D.plug P))
    (hred : c = .red → ∃ m, Balanced Cell.color (D.plug P) .black m)
    (hblack : c = .black → Lacks D P) :
    ∃ t' tree' m, (if c = .black then t.fixDelete (ptr Cell.id D) (top Cell.id P) else some t) =
        some t' ∧ Reaches t (D.plug P) t' tree' ∧ Balanced Cell.color tree' .black m := by
  cases c with
  | red =>
    obtain ⟨m, hm⟩ := hred rfl
    exact ⟨t, _, m, rfl, h.refl, hm⟩
  | black =>
    obtain ⟨t', tree', m, hfix, h', hm⟩ := fixDelete_spec h (hblack rfl)
    exact ⟨t', tree', m, hfix, h', hm⟩

theorem unlink_eq {side : Side} (hside : ∀ fr rest, P = fr :: rest → side = fr.side)
    (q : Option Nat) :
    t.unlink (top Cell.id P) side q =
      some { t with toLinks := setHole Cell.id t.toLinks P q } := by
  cases P with
  | nil => rfl
  | cons fr P =>
    rw [hside fr P rfl]
    rfl

variable [LinearOrder T] {value : T}

/-- The way down finds the value, if it is there, and the side it took last. -/
theorem findLoop_spec (value : T) (fuel : Nat) (side : Side) (h : Holds t (u.plug P))
    (hsort : (u.inorder Cell.data).Pairwise (· ≤ ·))
    (hside : ∀ fr rest, P = fr :: rest → side = fr.side) (hfuel : u.numNodes ≤ fuel) :
    (value ∉ u.inorder Cell.data → ∃ parent side',
      t.findLoop value fuel (ptr Cell.id u) (top Cell.id P) side = some (none, parent, side')) ∧
    (value ∈ u.inorder Cell.data → ∃ a l r P' side',
      t.findLoop value fuel (ptr Cell.id u) (top Cell.id P) side =
        some (some a.id, top Cell.id P', side') ∧ a.data = value ∧
      u.plug P = (BinaryTree.node a l r).plug P' ∧
      ∀ fr rest, P' = fr :: rest → side' = fr.side) := by
  induction u generalizing P fuel side with
  | nil =>
    refine ⟨fun _ => ⟨top Cell.id P, side, ?_⟩, nofun⟩
    cases fuel <;> rfl
  | node a l r ihl ihr =>
    have hat := Holds.at (s := .left) (a := a) (u := l) (v := r) h
    have hfar : t.child .right a.id = ptr Cell.id r := hat.far
    simp only [inorder_node, List.pairwise_append, List.pairwise_cons, List.mem_cons,
      forall_eq_or_imp] at hsort
    obtain ⟨hl, ⟨har, hr⟩, hla⟩ := hsort
    cases fuel with
    | zero => simp [numNodes] at hfuel
    | succ fuel =>
      simp only [numNodes] at hfuel
      simp only [inorder_node, List.mem_append, List.mem_cons]
      by_cases heq : value = a.data
      · refine ⟨fun hv => absurd (.inr (.inl heq)) hv, fun _ => ⟨a, l, r, P, side, ?_, heq.symm, rfl,
          hside⟩⟩
        simp [findLoop, ptr, getData, hat.data, heq]
      · by_cases hlt : value < a.data
        · have hloop : t.findLoop value (fuel + 1) (ptr Cell.id (.node a l r)) (top Cell.id P) side =
              t.findLoop value fuel (ptr Cell.id l) (top Cell.id (⟨.left, a, r⟩ :: P)) .left := by
            simp [findLoop, ptr, getData, hat.data, heq, hlt, getLeft, getChild, hat.near]
          obtain ⟨hout, hin⟩ := ihl (P := ⟨.left, a, r⟩ :: P) fuel .left h hl
            (fun fr rest he => by cases he; rfl) (by omega)
          rw [hloop]
          refine ⟨fun hv => hout fun hm => hv (.inl hm), fun hv => hin ?_⟩
          rcases hv with hv | hv | hv
          · exact hv
          · exact absurd hv heq
          · exact absurd hlt (not_lt.mpr (har value hv))
        · have hloop : t.findLoop value (fuel + 1) (ptr Cell.id (.node a l r)) (top Cell.id P) side =
              t.findLoop value fuel (ptr Cell.id r) (top Cell.id (⟨.right, a, l⟩ :: P)) .right := by
            simp [findLoop, ptr, getData, hat.data, heq, hlt, getRight, getChild, hfar]
          obtain ⟨hout, hin⟩ := ihr (P := ⟨.right, a, l⟩ :: P) fuel .right h hr
            (fun fr rest he => by cases he; rfl) (by omega)
          rw [hloop]
          refine ⟨fun hv => hout fun hm => hv (.inr (.inr hm)), fun hv => hin ?_⟩
          rcases hv with hv | hv | hv
          · exact absurd (lt_of_le_of_ne (hla value hv).1 heq) hlt
          · exact absurd hv heq
          · exact hv

/-- One value less. -/
theorem Stores.drop {s : Multiset T} {X Y : List T} {t₁ t' : RedBlackTree T}
    {tree₁ tree' : BinaryTree (Cell T)} {m : Nat} (h : Stores t tree s)
    (hold : tree.inorder Cell.data = X ++ value :: Y) (hnew : tree₁.inorder Cell.data = X ++ Y)
    (hreach : Reaches t₁ tree₁ t' tree') (hbal : Balanced Cell.color tree' .black m) :
    Stores t' tree' (s.erase value) := by
  refine hreach.stores hbal ?_ ?_
  · have hsort := h.sorted
    rw [hold] at hsort
    rw [hnew]
    exact hsort.sublist ((List.sublist_cons_self _ _).append_left _)
  · rw [hnew, ← h.values, hold, Multiset.coe_erase]
    refine Multiset.coe_eq_coe.mpr ?_
    have hmiddle : (X ++ value :: Y).Perm (value :: (X ++ Y)) := List.perm_middle
    have hperm := hmiddle.erase value
    rw [List.erase_cons_head] at hperm
    exact hperm.symm

/-- The node has one child at most, which takes its place. -/
theorem removeSplice_spec {values : Multiset T}
    (h : Stores t ((join s a D .nil).plug P) values) :
    ∃ t' tree', (if a.color = .black then
        fixDelete { t with toLinks := fill t.toLinks P D } (ptr Cell.id D) (top Cell.id P)
      else some { t with toLinks := fill t.toLinks P D }) = some t' ∧
      Stores t' tree' (values.erase a.data) := by
  obtain ⟨n, hbal⟩ := h.balanced
  obtain ⟨c, k, hjoin, hfit⟩ := Fits.unplug hbal
  have hcolor : a.color = c := by
    rw [← hjoin.rootColor_eq]
    cases s <;> rfl
  obtain ⟨hred, hblack⟩ := splice_balanced hjoin hfit
  obtain ⟨t', tree', m, hset, hreach, hm⟩ :=
    settle_spec (fill_spec h.holds) (hcolor ▸ hred) (hcolor ▸ hblack)
  obtain ⟨X, Y, hold, hnew⟩ := splice_inorder Cell.data s a D P
  exact ⟨t', tree', hset, h.drop hold hnew hreach hm⟩

/-- The node has two children: its successor takes its place. -/
theorem removeSuccessor_spec {values : Multiset T}
    (h : Stores t ((join .right y D .nil).plug (lower ++ ⟨.right, a, L⟩ :: P)) values)
    (hleft : ∀ fr ∈ lower, fr.side = .left) :
    ∃ t₁ t₂ t' tree', detachSuccessor t (some a.id) (some y.id) (ptr Cell.id D) =
        some (t₁, top Cell.id (lower ++ ⟨.right, y, L⟩ :: P)) ∧
      replaceNode t₁ (some a.id) (some y.id) = some t₂ ∧
      (if y.color = .black then
        t₂.fixDelete (ptr Cell.id D) (top Cell.id (lower ++ ⟨.right, y, L⟩ :: P))
      else some t₂) = some t' ∧ Stores t' tree' (values.erase a.data) := by
  obtain ⟨t₁, t₂, hdetach, hreplace, hholds⟩ := successor_spec h.holds hleft
  obtain ⟨n, hbal⟩ := h.balanced
  obtain ⟨c, k, hjoin, hfit⟩ := Fits.unplug hbal
  have hcolor : y.color = c := hjoin.rootColor_eq
  obtain ⟨hred, hblack⟩ := splice_balanced hjoin (hfit.replace (b := { y with color := a.color }) rfl)
  obtain ⟨t', tree', m, hset, hreach, hm⟩ :=
    settle_spec hholds (hcolor ▸ hred) (hcolor ▸ hblack)
  have htop : top Cell.id (lower ++ ⟨.right, { y with color := a.color }, L⟩ :: P) =
      top Cell.id (lower ++ ⟨.right, y, L⟩ :: P) := by
    cases lower <;> rfl
  rw [htop] at hset
  refine ⟨t₁, t₂, t', tree', hdetach, hreplace, hset,
    h.drop (successor_inorder Cell.data hleft) ?_ hreach hm⟩
  rw [plug_append, inorder_plug]
  simp [before, after]

theorem remove_spec {s : Multiset T} (h : Stores t tree s) (value : T) :
    ∃ t' tree', t.remove value = some t' ∧ Stores t' tree' (s.erase value) := by
  have hroot : t.root = ptr Cell.id tree := h.holds.rep.1
  obtain ⟨hout, hin⟩ := findLoop_spec (P := []) value t.fresh .right h.holds h.sorted (by simp) h.holds.numNodes_le
  by_cases hnull : tree = .nil
  · subst hnull
    have hempty : s = 0 := h.values.symm
    subst hempty
    refine ⟨t, .nil, ?_, h⟩
    rw [remove, hroot]
    rfl
  have hsome : (ptr Cell.id tree).isNone = false := by
    cases tree with
    | nil => exact absurd rfl hnull
    | node a l r => rfl
  by_cases hv : value ∈ tree.inorder Cell.data
  · obtain ⟨a, l, r, P, side, hfind, rfl, rfl, hside⟩ := hin hv
    have hat := Holds.at (s := .left) h.holds
    have hfar : t.child .right a.id = ptr Cell.id r := hat.far
    rw [top_nil] at hfind
    simp only [remove, hroot, hsome, hfind, Bool.false_eq_true, if_false, Option.bind_eq_bind,
      Option.bind_some, Option.isNone_some, getColor, getLeft, getRight, getChild, Option.map_some,
      hat.color, hat.near, hfar]
    cases l with
    | nil =>
      cases r with
      | nil =>
        rw [unlink_eq hside none]
        exact removeSplice_spec (s := .left) (D := .nil) h
      | node b A B =>
        rw [unlink_eq hside (ptr Cell.id (.node b A B))]
        exact removeSplice_spec (s := .right) (D := .node b A B) h
    | node d A B =>
      cases r with
      | nil =>
        rw [unlink_eq hside (ptr Cell.id (.node d A B))]
        exact removeSplice_spec (s := .left) (D := .node d A B) h
      | node b A' B' =>
        have hright : Holds t ((BinaryTree.node b A' B').plug (⟨.right, a, .node d A B⟩ :: P)) :=
          h.holds
        have hlen := (length_le_numNodes _ _).trans hright.numNodes_le
        obtain ⟨y, D, lower, hmin, hplug, hleft⟩ :=
          findMinLoop_spec _ hright (by simp) (le_trans (Nat.le_add_left _ _) hlen)
        have hstores : Stores t ((join .right y D .nil).plug
            (lower ++ ⟨.right, a, .node d A B⟩ :: P)) s := by
          rw [plug_append, ← hplug]
          exact h
        have hy := Holds.at hstores.holds
        obtain ⟨t₁, t₂, t', tree', hdetach, hreplace, hset, hdone⟩ :=
          removeSuccessor_spec hstores hleft
        have hfind : t.findMinNode (ptr Cell.id (.node b A' B')) = some (some y.id) := hmin
        refine ⟨t', tree', ?_, hdone⟩
        simp only [hfind, Option.bind_some, Option.map_some, hy.color, hy.near, hdetach, hreplace,
          hset]
        rfl
  · obtain ⟨parent, side, hfind⟩ := hout hv
    have habsent : s.erase value = s := by
      refine Multiset.erase_of_notMem ?_
      rwa [← h.values]
    refine ⟨t, tree, ?_, habsent.symm ▸ h⟩
    rw [top_nil] at hfind
    simp only [remove, hroot, hsome, hfind, Bool.false_eq_true, if_false, Option.bind_eq_bind,
      Option.bind_some, Option.isNone_none, if_true]

end Removal

section Runs
variable [LinearOrder T]

theorem create_stores : Stores (create : RedBlackTree T) .nil 0 :=
  ⟨⟨⟨rfl, trivial⟩, List.nodup_nil, nofun⟩, ⟨0, .nil⟩, List.Pairwise.nil, rfl⟩

theorem apply_spec (t : RedBlackTree T) (s : Multiset T) (op : Op T) (h : ∃ tree, Stores t tree s) :
    ∃ t', apply t op = some t' ∧ ∃ tree', Stores t' tree' (effect s op) := by
  obtain ⟨tree, h⟩ := h
  cases op with
  | insert value =>
    obtain ⟨t', tree', hins, h'⟩ := insert_spec h value
    exact ⟨t', hins, tree', h'⟩
  | remove value =>
    obtain ⟨t', tree', hrem, h'⟩ := remove_spec h value
    exact ⟨t', hrem, tree', h'⟩

/-- After any run the nodes hang in a tree, linked both ways, that is a red-black tree in order
and stores the values inserted less those removed. -/
theorem run_invariants (ops : List (Op T)) :
    ∃ t tree, run ops = some t ∧ Holds t tree ∧ rootColor Cell.color tree = .black ∧
      NoRedRed Cell.color tree ∧ (∃ n, ∀ k ∈ blackCounts Cell.color tree, k = n) ∧
      (tree.inorder Cell.data).Pairwise (· ≤ ·) ∧
      (tree.inorder Cell.data : Multiset T) = contents ops := by
  obtain ⟨t, hrun, tree, h⟩ := Run.follows apply_spec ops ⟨.nil, create_stores⟩
  obtain ⟨n, hbal⟩ := h.balanced
  exact ⟨t, tree, hrun, h.holds, hbal.rootColor_eq, hbal.noRedRed, ⟨n, hbal.counts⟩, h.sorted,
    h.values⟩

end Runs

end Cppforge.Balanced.RedBlackTree
