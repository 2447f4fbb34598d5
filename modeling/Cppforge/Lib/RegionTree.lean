import Mathlib.Data.List.Basic

/-! Trees of any fan-out whose leaves hold entries, and that keep a region for every
node, at the node and once more beside the link to it. -/

inductive RegionTree (B E : Type) where
  | leaf (region : B) (entries : List E)
  | internal (region : B) (children : List (B × RegionTree B E))

namespace RegionTree
variable {B E : Type}

/-- The child numbers on the way to a node. -/
abbrev Path := List Nat

@[elab_as_elim]
theorem ind {motive : RegionTree B E → Prop} (leaf : ∀ b entries, motive (.leaf b entries))
    (internal : ∀ b children, (∀ c ∈ children, motive c.2) → motive (.internal b children)) :
    ∀ t, motive t
  | .leaf b entries => leaf b entries
  | .internal b children => internal b children fun c _ => ind leaf internal c.2
termination_by t => sizeOf t
decreasing_by
  rename_i hmem
  have hchild := List.sizeOf_lt_of_mem hmem
  have hpair : sizeOf c.2 < sizeOf c := by
    cases c
    simp
  simp only [RegionTree.internal.sizeOf_spec]
  omega

def isLeaf : RegionTree B E → Prop
  | .leaf _ _ => True
  | .internal _ _ => False

def region : RegionTree B E → B
  | .leaf b _ => b
  | .internal b _ => b

mutual
/-- What the leaves hold, from left to right. -/
def entries : RegionTree B E → List E
  | .leaf _ es => es
  | .internal _ children => entriesFrom children

def entriesFrom : List (B × RegionTree B E) → List E
  | [] => []
  | (_, child) :: children => entries child ++ entriesFrom children
end

mutual
/-- The leaves with their depths, the root's counted as 1. -/
def leaves : RegionTree B E → List (Nat × List E)
  | .leaf _ es => [(1, es)]
  | .internal _ children => (leavesFrom children).map fun l => (l.1 + 1, l.2)

def leavesFrom : List (B × RegionTree B E) → List (Nat × List E)
  | [] => []
  | (_, child) :: children => leaves child ++ leavesFrom children
end

mutual
/-- The numbers of children of the internal nodes. -/
def fanOuts : RegionTree B E → List Nat
  | .leaf _ _ => []
  | .internal _ children => children.length :: fanOutsFrom children

def fanOutsFrom : List (B × RegionTree B E) → List Nat
  | [] => []
  | (_, child) :: children => fanOuts child ++ fanOutsFrom children
end

theorem entries_leaf (b : B) (es : List E) : (RegionTree.leaf b es).entries = es := by
  rw [entries]

theorem entries_internal (b : B) (children : List (B × RegionTree B E)) :
    (RegionTree.internal b children).entries = entriesFrom children := by
  rw [entries]

theorem entriesFrom_append (A C : List (B × RegionTree B E)) :
    entriesFrom (A ++ C) = entriesFrom A ++ entriesFrom C := by
  induction A with
  | nil => rfl
  | cons c A ih => simp [entriesFrom, ih]

variable {children : List (B × RegionTree B E)} {t : RegionTree B E} {b : B} {e : E} {es es' : List E}

theorem mem_entriesFrom : e ∈ entriesFrom children ↔ ∃ c ∈ children, e ∈ c.2.entries := by
  induction children with
  | nil => simp [entriesFrom]
  | cons c children ih => simp [entriesFrom, ih]

section Leaves

theorem leaves_leaf (b : B) (es : List E) : (RegionTree.leaf b es).leaves = [(1, es)] := by
  rw [leaves]

theorem leaves_internal (b : B) (children : List (B × RegionTree B E)) :
    (RegionTree.internal b children).leaves = (leavesFrom children).map fun l => (l.1 + 1, l.2) := by
  rw [leaves]

theorem mem_leavesFrom {l : Nat × List E} :
    l ∈ leavesFrom children ↔ ∃ c ∈ children, l ∈ c.2.leaves := by
  induction children with
  | nil => simp [leavesFrom]
  | cons c children ih => simp [leavesFrom, ih]

theorem mem_fanOutsFrom {k : Nat} : k ∈ fanOutsFrom children ↔ ∃ c ∈ children, k ∈ c.2.fanOuts := by
  induction children with
  | nil => simp [fanOutsFrom]
  | cons c children ih => simp [fanOutsFrom, ih]

/-- The depths of the leaves. -/
def depths (t : RegionTree B E) : List Nat := t.leaves.map Prod.fst

theorem depths_internal (b : B) (children : List (B × RegionTree B E)) :
    (RegionTree.internal b children).depths = ((leavesFrom children).map Prod.fst).map (· + 1) := by
  rw [depths, leaves_internal, List.map_map, List.map_map]
  rfl

end Leaves

section Paths

/-- The leaf at the end of a path. -/
def leafAt : Path → RegionTree B E → Option (B × List E)
  | [], .leaf b es => some (b, es)
  | i :: path, .internal _ children => (children[i]?).bind fun c => leafAt path c.2
  | _, _ => none

/-- The tree with another leaf there. -/
def setLeaf (b : B) (es : List E) : Path → RegionTree B E → RegionTree B E
  | [], .leaf _ _ => .leaf b es
  | i :: path, .internal b' children =>
    .internal b' (children.modify i fun c => (c.1, setLeaf b es path c.2))
  | _, t => t

/-- All regions on the way to the leaf, without its own, meet a condition. -/
def OnPath (P : B → Prop) : Path → RegionTree B E → Prop
  | [], .leaf _ _ => True
  | i :: path, .internal b children =>
    P b ∧ ∃ c, children[i]? = some c ∧ P c.1 ∧ OnPath P path c.2
  | _, _ => False

instance OnPath.decidable {P : B → Prop} [DecidablePred P] :
    ∀ (path : Path) (t : RegionTree B E), Decidable (OnPath P path t)
  | [], .leaf _ _ => isTrue trivial
  | [], .internal _ _ => isFalse id
  | _ :: _, .leaf _ _ => isFalse id
  | i :: path, .internal b children =>
    have : ∀ c : B × RegionTree B E, Decidable (OnPath P path c.2) := fun c =>
      OnPath.decidable path c.2
    inferInstanceAs (Decidable (P b ∧ ∃ c ∈ children[i]?, P c.1 ∧ OnPath P path c.2))

variable {path : Path}

theorem leafAt_nil (h : leafAt [] t = some (b, es)) : t = .leaf b es := by
  cases t with
  | leaf b' es' =>
    rw [leafAt, Option.some.injEq, Prod.mk.injEq] at h
    rw [h.1, h.2]
  | internal b' children => cases h

theorem leafAt_cons {i : Nat} (h : leafAt (i :: path) t = some (b, es)) :
    ∃ b' before c after, t = .internal b' (before ++ c :: after) ∧ before.length = i ∧
      leafAt path c.2 = some (b, es) := by
  cases t with
  | leaf b' es' => cases h
  | internal b' children =>
    obtain ⟨c, hc, hleaf⟩ := Option.bind_eq_some_iff.mp h
    obtain ⟨hi, rfl⟩ := List.getElem?_eq_some_iff.mp hc
    refine ⟨b', children.take i, children[i], children.drop (i + 1), ?_, ?_, hleaf⟩
    · rw [List.getElem_cons_drop, List.take_append_drop]
    · rw [List.length_take]
      omega

theorem setLeaf_cons (b : B) (es : List E) (b' : B) (before : List (B × RegionTree B E))
    (c : B × RegionTree B E) (after : List (B × RegionTree B E)) :
    setLeaf b es (before.length :: path) (.internal b' (before ++ c :: after)) =
      .internal b' (before ++ (c.1, setLeaf b es path c.2) :: after) := by
  rw [setLeaf, List.modify_eq_take_cons_drop (by simp)]
  simp

theorem OnPath.leafAt {P : B → Prop} (h : OnPath P path t) : ∃ b es, leafAt path t = some (b, es) := by
  induction path generalizing t with
  | nil =>
    cases t with
    | leaf b es => exact ⟨b, es, rfl⟩
    | internal b children => exact absurd h id
  | cons i path ih =>
    cases t with
    | leaf b es => exact absurd h id
    | internal b children =>
      obtain ⟨_, c, hc, _, hpath⟩ := h
      obtain ⟨b', es, hleaf⟩ := ih hpath
      exact ⟨b', es, by rw [RegionTree.leafAt, hc, Option.bind_some, hleaf]⟩

/-- Only the entries of the leaf change. -/
theorem entries_setLeaf (h : leafAt path t = some (b, es)) : ∃ before after,
    t.entries = before ++ es ++ after ∧
      ∀ b' es', (setLeaf b' es' path t).entries = before ++ es' ++ after := by
  induction path generalizing t with
  | nil =>
    rw [leafAt_nil h]
    refine ⟨[], [], by simp [entries_leaf], fun b' es' => ?_⟩
    rw [setLeaf, entries_leaf]
    simp
  | cons i path ih =>
    obtain ⟨_, before, c, after, rfl, rfl, hleaf⟩ := leafAt_cons h
    obtain ⟨A, C, hentries, hset⟩ := ih hleaf
    refine ⟨entriesFrom before ++ A, C ++ entriesFrom after, ?_, fun b' es' => ?_⟩
    · rw [entries_internal, entriesFrom_append, entriesFrom, hentries]
      simp
    · rw [setLeaf_cons, entries_internal, entriesFrom_append, entriesFrom, hset b' es']
      simp

/-- The shape stays. -/
theorem depths_setLeaf (b : B) (es : List E) (path : Path) (t : RegionTree B E) :
    (setLeaf b es path t).depths = t.depths := by
  induction path generalizing t with
  | nil => cases t <;> rfl
  | cons i path ih =>
    cases t with
    | leaf b' es' => rfl
    | internal b' children =>
      rw [setLeaf, depths_internal, depths_internal]
      congr 1
      induction children generalizing i with
      | nil => rw [List.modify_nil]
      | cons c children ihc =>
        cases i with
        | zero =>
          rw [List.modify_zero_cons, leavesFrom, leavesFrom, List.map_append, List.map_append]
          exact congrArg (· ++ _) (ih c.2)
        | succ i =>
          rw [List.modify_succ_cons, leavesFrom, leavesFrom, List.map_append, List.map_append, ihc]

theorem setLeaf_perm (h : leafAt path t = some (b, es)) (b' : B) (es' : List E) :
    ((setLeaf b' es' path t).entries ++ es).Perm (t.entries ++ es') := by
  obtain ⟨before, after, hentries, hset⟩ := entries_setLeaf h
  rw [hentries, hset, List.append_assoc, List.append_assoc]
  refine (List.perm_append_comm_assoc before es' (after ++ es)).trans ?_
  refine List.perm_append_comm.trans ?_
  refine List.Perm.append_right es' ?_
  rw [List.append_assoc]
  exact List.perm_append_comm.append_left before

theorem OnPath.cons {P : B → Prop} {b' : B} {before after : List (B × RegionTree B E)}
    {c : B × RegionTree B E}
    (h : OnPath P (before.length :: path) (.internal b' (before ++ c :: after))) :
    P b' ∧ P c.1 ∧ OnPath P path c.2 := by
  obtain ⟨hb, c', hc', hpath⟩ := h
  rw [List.getElem?_append_right (Nat.le_refl _), Nat.sub_self, List.getElem?_cons_zero,
    Option.some.injEq] at hc'
  exact ⟨hb, hc' ▸ hpath⟩

end Paths

section Covers
variable {within : E → B → Prop}

mutual
/-- Every entry lies within all regions above it. -/
def Covers (within : E → B → Prop) : RegionTree B E → Prop
  | .leaf b es => ∀ e ∈ es, within e b
  | .internal b children => (∀ e ∈ entriesFrom children, within e b) ∧ CoversFrom within children

def CoversFrom (within : E → B → Prop) : List (B × RegionTree B E) → Prop
  | [] => True
  | (b, child) :: children =>
    (∀ e ∈ entries child, within e b) ∧ Covers within child ∧ CoversFrom within children
end

theorem covers_leaf : Covers within (.leaf b es) ↔ ∀ e ∈ es, within e b := by rw [Covers]

theorem covers_internal : Covers within (.internal b children) ↔
    (∀ e ∈ entriesFrom children, within e b) ∧
      ∀ c ∈ children, (∀ e ∈ c.2.entries, within e c.1) ∧ Covers within c.2 := by
  have hfrom : CoversFrom within children ↔
      ∀ c ∈ children, (∀ e ∈ c.2.entries, within e c.1) ∧ Covers within c.2 := by
    induction children with
    | nil => simp [CoversFrom]
    | cons c children ih => rw [CoversFrom, ih, List.forall_mem_cons, and_assoc]
  rw [Covers, hfrom]

theorem Covers.region (h : Covers within t) : ∀ e ∈ t.entries, within e t.region := by
  cases t with
  | leaf b es =>
    rw [entries_leaf]
    exact covers_leaf.mp h
  | internal b children =>
    rw [entries_internal]
    exact (covers_internal.mp h).1

theorem Covers.leafAt {path : Path} (h : Covers within t) (hleaf : leafAt path t = some (b, es)) :
    ∀ e ∈ es, within e b := by
  induction path generalizing t with
  | nil =>
    rw [leafAt_nil hleaf] at h
    exact covers_leaf.mp h
  | cons i path ih =>
    obtain ⟨_, before, c, after, rfl, rfl, hbelow⟩ := leafAt_cons hleaf
    exact ih ((covers_internal.mp h).2 c (by simp)).2 hbelow

/-- A leaf may take in entries that lie within the regions on its path. -/
theorem Covers.setLeaf {path : Path} (h : Covers within t)
    (hleaf : RegionTree.leafAt path t = some (b, es))
    {b' : B} (hregion : ∀ e ∈ es', within e b')
    (hnew : ∀ e ∈ es', e ∈ es ∨ OnPath (within e) path t) :
    Covers within (setLeaf b' es' path t) := by
  induction path generalizing t with
  | nil =>
    rw [leafAt_nil hleaf]
    exact covers_leaf.mpr hregion
  | cons i path ih =>
    obtain ⟨b'', before, c, after, rfl, rfl, hbelow⟩ := leafAt_cons hleaf
    obtain ⟨hb, hchildren⟩ := covers_internal.mp h
    obtain ⟨hc, hcovers⟩ := hchildren c (by simp)
    obtain ⟨A, C, hentries, hset⟩ := entries_setLeaf hbelow
    have hold : ∀ e ∈ (RegionTree.setLeaf b' es' path c.2).entries,
        e ∈ c.2.entries ∨ (within e b'' ∧ within e c.1) := by
      intro e he
      rw [hset b' es', List.mem_append, List.mem_append] at he
      rw [hentries]
      rcases he with (he | he) | he
      · exact .inl (by simp [he])
      · rcases hnew e he with hmem | hpath
        · exact .inl (by simp [hmem])
        · exact .inr ⟨hpath.cons.1, hpath.cons.2.1⟩
      · exact .inl (by simp [he])
    rw [setLeaf_cons, covers_internal]
    constructor
    · intro e he
      rw [entriesFrom_append, entriesFrom, List.mem_append, List.mem_append] at he
      rcases he with he | he | he
      · exact hb e (by simp [entriesFrom_append, he])
      · rcases hold e he with hmem | hwithin
        · exact hb e (by simp [entriesFrom_append, entriesFrom, hmem])
        · exact hwithin.1
      · exact hb e (by simp [entriesFrom_append, entriesFrom, he])
    · intro d hd
      rcases List.mem_append.mp hd with hd | hd
      · exact hchildren d (by simp [hd])
      · rcases List.mem_cons.mp hd with rfl | hd
        · refine ⟨?_, ih hcovers hbelow ?_⟩
          · intro e he
            rcases hold e he with hmem | hwithin
            · exact hc e hmem
            · exact hwithin.2
          · intro e he
            exact (hnew e he).imp_right fun hpath => hpath.cons.2.2
        · exact hchildren d (by simp [hd])

end Covers

end RegionTree
