import Mathlib.Logic.Function.Basic
import Mathlib.Data.List.Basic
import Mathlib.Data.List.Nodup
import Cppforge.Lib.RedBlack

namespace Links

variable {α : Type} {next next' : α → α} {null a b : α} {l : List α}

/-- The nodes of a null-terminated list, from the one that `a` points to. -/
def Path (next : α → α) (null a : α) : List α → Prop
  | [] => a = null
  | b :: l => a = b ∧ b ≠ null ∧ Path next null (next b) l

theorem Path.congr (h : Path next null a l) (hsame : ∀ b ∈ l, next' b = next b) :
    Path next' null a l := by
  induction l generalizing a with
  | nil => exact h
  | cons b l ih =>
    obtain ⟨hb, hn, hl⟩ := h
    refine ⟨hb, hn, ?_⟩
    rw [hsame b List.mem_cons_self]
    exact ih hl (fun c hc => hsame c (List.mem_cons_of_mem _ hc))

/-- A list that does not start at null has a first node, the one pointed to. -/
theorem Path.first (h : Path next null a l) (ha : a ≠ null) :
    ∃ l', l = a :: l' ∧ Path next null (next a) l' := by
  cases l with
  | nil => exact absurd h ha
  | cons b l =>
    obtain ⟨rfl, _, hl⟩ := h
    exact ⟨l, rfl, hl⟩

/-- The successor of a node of the list is in the list, behind its first node. -/
theorem Path.next_mem (h : Path next null a l) (hb : b ∈ l) (hn : next b ≠ null) :
    next b ∈ l.tail := by
  induction l generalizing a with
  | nil => cases hb
  | cons c l ih =>
    obtain ⟨_, _, hl⟩ := h
    rcases List.mem_cons.mp hb with rfl | hb
    · obtain ⟨l', rfl, _⟩ := hl.first hn
      exact List.mem_cons_self
    · exact List.mem_of_mem_tail (ih hl hb)

variable [DecidableEq α]

/-- Linking a new node behind the node that points to null. -/
theorem Path.link (h : Path next null a l) (hb : b ∈ l) (hn : next b = null) (hd : l.Nodup)
    {c : α} (hc : c ∉ l) (hcn : c ≠ null) (hcnext : next c = null) :
    Path (Function.update next b c) null a (l ++ [c]) := by
  induction l generalizing a with
  | nil => cases hb
  | cons d l ih =>
    obtain ⟨had, hdn, hl⟩ := h
    obtain ⟨hdl, hd⟩ := List.nodup_cons.mp hd
    have hdc : c ≠ d := fun he => hc (he ▸ List.mem_cons_self)
    refine ⟨had, hdn, ?_⟩
    by_cases hbd : b = d
    · subst hbd
      cases l with
      | nil => simp [Path, hcn, Function.update_of_ne hdc, hcnext]
      | cons e l => exact absurd hn (hl.1 ▸ hl.2.1)
    · rw [Function.update_of_ne (Ne.symm hbd)]
      exact ih hl ((List.mem_cons.mp hb).resolve_left hbd) hd
        (fun hm => hc (List.mem_cons_of_mem _ hm))

variable (next null)

/-- The first nodes of a list, at most `fuel` of them. -/
def walk (fuel : Nat) (a : α) : List α :=
  match fuel with
  | 0 => []
  | fuel + 1 => if a = null then [] else a :: walk fuel (next a)

variable {next null}

theorem Path.walk_eq (h : Path next null a l) {fuel : Nat} (hf : l.length ≤ fuel) :
    walk next null fuel a = l := by
  induction l generalizing a fuel with
  | nil =>
    cases fuel with
    | zero => rfl
    | succ fuel => simp [walk, show a = null from h]
  | cons b l ih =>
    obtain ⟨rfl, hn, hl⟩ := h
    cases fuel with
    | zero => simp at hf
    | succ fuel => rw [walk, if_neg hn, ih hl (by simpa using hf)]

end Links

/-! Binary trees stored as nodes with child links and parent links. -/

namespace TreeLinks
open BinaryTree

structure Links (ι : Type) where
  child : Side → ι → Option ι
  parent : ι → Option ι
  root : Option ι

section Writes
variable {ι : Type} [DecidableEq ι] {m : Links ι} {s s' : Side} {i j : ι} {q : Option ι}

def Links.setChild (m : Links ι) (s : Side) (j : ι) (q : Option ι) : Links ι :=
  { m with child := fun s' i => if s' = s ∧ i = j then q else m.child s' i }

def Links.setParent (m : Links ι) (j : ι) (q : Option ι) : Links ι :=
  { m with parent := Function.update m.parent j q }

@[simp] theorem child_setChild_self : (m.setChild s j q).child s j = q := by
  simp [Links.setChild]

@[simp] theorem child_setChild_side (h : s' ≠ s) :
    (m.setChild s j q).child s' i = m.child s' i := by
  simp [Links.setChild, h]

@[simp] theorem child_setChild_ne (h : i ≠ j) :
    (m.setChild s j q).child s' i = m.child s' i := by
  simp [Links.setChild, h]

@[simp] theorem parent_setChild : (m.setChild s j q).parent = m.parent := rfl

@[simp] theorem root_setChild : (m.setChild s j q).root = m.root := rfl

@[simp] theorem child_setParent : (m.setParent j q).child = m.child := rfl

@[simp] theorem parent_setParent_self : (m.setParent j q).parent j = q := by
  simp [Links.setParent]

@[simp] theorem parent_setParent_ne (h : i ≠ j) : (m.setParent j q).parent i = m.parent i := by
  simp [Links.setParent, h]

@[simp] theorem root_setParent : (m.setParent j q).root = m.root := rfl

end Writes

section Trees
variable {α ι : Type} {addr : α → ι} {m m' : Links ι} {s : Side} {a : α} {i : ι}
  {p q : Option ι} {t u : BinaryTree α} {fr : Frame α} {path : Path α}

/-- The pointer to a tree. -/
def ptr (addr : α → ι) : BinaryTree α → Option ι
  | .nil => none
  | .node a _ _ => some (addr a)

@[simp] theorem ptr_nil : ptr addr (.nil : BinaryTree α) = none := rfl

@[simp] theorem ptr_join : ptr addr (join s a t u) = some (addr a) := by cases s <;> rfl

theorem ptr_eq_none : ptr addr t = none ↔ t = .nil := by cases t <;> simp [ptr]

theorem ptr_mem (h : ptr addr t = some i) : i ∈ t.inorder addr := by
  cases t with
  | nil => cases h
  | node a l r =>
    cases h
    simp

/-- The links of the nodes of a tree, whose root's parent is `p`. -/
def Linked (addr : α → ι) (m : Links ι) : Option ι → BinaryTree α → Prop
  | _, .nil => True
  | p, .node a l r => m.child .left (addr a) = ptr addr l ∧ m.child .right (addr a) = ptr addr r ∧
      m.parent (addr a) = p ∧ Linked addr m (some (addr a)) l ∧ Linked addr m (some (addr a)) r

theorem linked_join : Linked addr m p (join s a t u) ↔ m.child s (addr a) = ptr addr t ∧
    m.child s.other (addr a) = ptr addr u ∧ m.parent (addr a) = p ∧
      Linked addr m (some (addr a)) t ∧ Linked addr m (some (addr a)) u := by
  cases s with
  | left => exact Iff.rfl
  | right =>
    simp only [join, Linked, Side.other_right]
    tauto

/-- The node under which the hole is. -/
def top (addr : α → ι) (path : Path α) : Option ι := path.head?.map (addr ·.key)

@[simp] theorem top_nil : top addr ([] : Path α) = none := rfl

@[simp] theorem top_cons : top addr (fr :: path) = some (addr fr.key) := rfl

/-- The links of the nodes around a hole, in which `q` points to the tree. -/
def Above (addr : α → ι) (m : Links ι) : Path α → Option ι → Prop
  | [], q => m.root = q
  | fr :: path, q => m.child fr.side (addr fr.key) = q ∧
      m.child fr.side.other (addr fr.key) = ptr addr fr.sibling ∧
      m.parent (addr fr.key) = top addr path ∧
      Linked addr m (some (addr fr.key)) fr.sibling ∧ Above addr m path (some (addr fr.key))

/-- The links are those of the tree. -/
def Rep (addr : α → ι) (m : Links ι) (t : BinaryTree α) : Prop :=
  m.root = ptr addr t ∧ Linked addr m none t

theorem rep_plug : Rep addr m (t.plug path) ↔
    Linked addr m (top addr path) t ∧ Above addr m path (ptr addr t) := by
  induction path generalizing t with
  | nil => exact and_comm
  | cons fr path ih =>
    rw [plug_cons, ih, linked_join, ptr_join]
    simp only [Above, top_cons]
    tauto

/-- The root of the whole tree is above the hole. -/
theorem ptr_plug_mem (h : ptr addr (t.plug (fr :: path)) = some i) :
    i ∈ entries addr (fr :: path) := by
  induction path generalizing t fr with
  | nil =>
    rw [plug_cons, plug_nil, ptr_join] at h
    cases h
    exact (entries_cons_perm addr fr []).mem_iff.mpr List.mem_cons_self
  | cons fr' path ih =>
    have hi := ih (t := join fr.side fr.key t fr.sibling) h
    exact (entries_cons_perm addr fr _).mem_iff.mpr
      (List.mem_cons_of_mem _ (List.mem_append_right _ hi))

/-- The links of one node are as they were. -/
def Same (m m' : Links ι) (i : ι) : Prop :=
  (∀ s, m'.child s i = m.child s i) ∧ m'.parent i = m.parent i

theorem Linked.congr (h : Linked addr m p t) (hsame : ∀ i ∈ t.inorder addr, Same m m' i) :
    Linked addr m' p t := by
  induction t generalizing p with
  | nil => trivial
  | node a l r ihl ihr =>
    obtain ⟨hleft, hright, hparent, hl, hr⟩ := h
    obtain ⟨hc, hp⟩ := hsame (addr a) (by simp)
    refine ⟨(hc .left).trans hleft, (hc .right).trans hright, hp.trans hparent, ihl hl ?_,
      ihr hr ?_⟩
    · intro i hi
      exact hsame i (by simp [hi])
    · intro i hi
      exact hsame i (by simp [hi])

theorem Above.congr (h : Above addr m path q) (hroot : m'.root = m.root)
    (hsame : ∀ i ∈ entries addr path, Same m m' i) : Above addr m' path q := by
  induction path generalizing q with
  | nil => exact hroot.trans h
  | cons fr path ih =>
    obtain ⟨hnear, hfar, hparent, hsib, habove⟩ := h
    have hmem {i : ι} : i ∈ entries addr (fr :: path) ↔
        i ∈ addr fr.key :: (fr.sibling.inorder addr ++ entries addr path) :=
      (entries_cons_perm addr fr path).mem_iff
    obtain ⟨hc, hp⟩ := hsame (addr fr.key) (hmem.mpr (by simp))
    refine ⟨(hc _).trans hnear, (hc _).trans hfar, hp.trans hparent, hsib.congr ?_, ih habove ?_⟩
    · intro i hi
      exact hsame i (hmem.mpr (by simp [hi]))
    · intro i hi
      exact hsame i (hmem.mpr (by simp [hi]))

section Updates
variable [DecidableEq ι]

/-- `q` is the new parent of the tree's root, if it has one. -/
def reparent (addr : α → ι) (m : Links ι) (t : BinaryTree α) (q : Option ι) : Links ι :=
  match ptr addr t with
  | none => m
  | some i => m.setParent i q

@[simp] theorem child_reparent : (reparent addr m t q).child = m.child := by
  unfold reparent
  split <;> rfl

@[simp] theorem root_reparent : (reparent addr m t q).root = m.root := by
  unfold reparent
  split <;> rfl

@[simp] theorem parent_reparent (h : i ∉ t.inorder addr) :
    (reparent addr m t q).parent i = m.parent i := by
  unfold reparent
  split
  · rfl
  · rename_i j hj
    refine parent_setParent_ne ?_
    rintro rfl
    exact h (ptr_mem hj)

theorem Linked.reparent (h : Linked addr m p t) (hd : (t.inorder addr).Nodup) :
    Linked addr (reparent addr m t q) q t := by
  cases t with
  | nil => trivial
  | node a l r =>
    obtain ⟨hleft, hright, _, hl, hr⟩ := h
    have hd' := (inorder_join_perm addr .left a l r).nodup_iff.mp hd
    obtain ⟨ha, _⟩ := List.nodup_cons.mp hd'
    rw [List.mem_append, not_or] at ha
    refine ⟨hleft, hright, parent_setParent_self, hl.congr ?_, hr.congr ?_⟩
    · intro i hi
      exact ⟨fun _ => rfl, parent_setParent_ne (fun he => ha.1 (he ▸ hi))⟩
    · intro i hi
      exact ⟨fun _ => rfl, parent_setParent_ne (fun he => ha.2 (he ▸ hi))⟩

/-- `q` is what the hole's place points to. -/
def setHole (addr : α → ι) (m : Links ι) (path : Path α) (q : Option ι) : Links ι :=
  match path with
  | [] => { m with root := q }
  | fr :: _ => m.setChild fr.side (addr fr.key) q

@[simp] theorem parent_setHole : (setHole addr m path q).parent = m.parent := by
  cases path <;> rfl

@[simp] theorem child_setHole (h : i ∉ entries addr path) :
    (setHole addr m path q).child s i = m.child s i := by
  cases path with
  | nil => rfl
  | cons fr path =>
    refine child_setChild_ne ?_
    rintro rfl
    exact h ((entries_cons_perm addr fr path).mem_iff.mpr List.mem_cons_self)

theorem Above.setHole (h : Above addr m path p) (hd : (entries addr path).Nodup) :
    Above addr (setHole addr m path q) path q := by
  cases path with
  | nil => rfl
  | cons fr path =>
    obtain ⟨_, hfar, hparent, hsib, habove⟩ := h
    have hd' := (entries_cons_perm addr fr path).nodup_iff.mp hd
    obtain ⟨ha, _⟩ := List.nodup_cons.mp hd'
    rw [List.mem_append, not_or] at ha
    refine ⟨child_setChild_self, (child_setChild_side (Side.other_ne _)).trans hfar, hparent,
      hsib.congr ?_, habove.congr rfl ?_⟩
    · intro i hi
      exact ⟨fun _ => child_setChild_ne (fun he => ha.1 (he ▸ hi)), rfl⟩
    · intro i hi
      exact ⟨fun _ => child_setChild_ne (fun he => ha.2 (he ▸ hi)), rfl⟩

end Updates

end Trees

end TreeLinks
