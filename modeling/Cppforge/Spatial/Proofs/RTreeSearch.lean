import Cppforge.Lib.Picks
import Cppforge.Lib.Run
import Cppforge.Spatial.RTree
import Mathlib.Data.Multiset.Filter
import Mathlib.Data.Multiset.MapFold

namespace Cppforge.Spatial.RTree
open RegionTree Arithmetic

variable {R D : Type} [LinearOrder R] [Arithmetic R] {n : Nat}

section Groups
variable (c : Capacity) (sorting : Sorting)
variable {items : List (Entry R D n)} {mbr : BoundingBox R n}

theorem computeMBR_contains {l : List (BoundingBox R n)} {b : BoundingBox R n} (hb : b ∈ l) :
    (computeMBR l).contains b = true := by
  have hfold : ∀ (l : List (BoundingBox R n)) (box b : BoundingBox R n),
      box.contains b = true ∨ b ∈ l → (l.foldl BoundingBox.combined box).contains b = true := by
    intro l
    induction l with
    | nil =>
      intro box b hb
      simpa using hb
    | cons a l ih =>
      intro box b hb
      refine ih (box.combined a) b ?_
      rcases hb with hb | hb
      · exact .inl (BoundingBox.contains_trans (BoundingBox.combined_contains_left box a) hb)
      · rcases List.mem_cons.mp hb with rfl | hb
        · exact .inl (BoundingBox.combined_contains_right box b)
        · exact .inr hb
  cases l with
  | nil => cases hb
  | cons a l =>
    refine hfold l a b ?_
    rcases List.mem_cons.mp hb with rfl | hb
    · exact .inl (BoundingBox.contains_refl b)
    · exact .inr hb

omit [Arithmetic R] in
theorem boxes_zipIdx_snd : (boxes items).zipIdx.map Prod.snd = List.range items.length := by
  rw [List.zipIdx_map_snd, boxes, List.length_map, List.range_eq_range']

theorem splitEntries_perm (entries : List (BoxIndex R n)) :
    ((splitEntries c sorting entries).1 ++ (splitEntries c sorting entries).2).Perm
      (entries.map Prod.snd) := by
  dsimp only [splitEntries]
  rw [← List.map_append, List.take_append_drop]
  exact (sorting.perm _ _).map _

theorem splitLeafNode_perm (items : List (Entry R D n)) :
    ((splitLeafNode c sorting items).1 ++ (splitLeafNode c sorting items).2).Perm items := by
  refine Picks.picks_perm ?_
  rw [← boxes_zipIdx_snd]
  exact splitEntries_perm c sorting _

/-- Nothing is lost, and as many entries go as are asked for. -/
theorem farthest_spec (mbr : BoundingBox R n) (items : List (Entry R D n)) :
    ((farthest c sorting mbr items).1 ++ (farthest c sorting mbr items).2).Perm items ∧
      (farthest c sorting mbr items).2.length = min c.kReinsertCount items.length := by
  dsimp only [farthest]
  generalize hdist : (boxes items).zipIdx.map _ = distIdx
  have hidx : distIdx.map Prod.snd = List.range items.length := by
    rw [← hdist, List.map_map, ← boxes_zipIdx_snd]
    rfl
  generalize hsort : sorting.sort _ distIdx = sorted
  have hperm : (sorted.map Prod.snd).Perm (List.range items.length) := by
    rw [← hidx, ← hsort]
    exact (sorting.perm _ _).map _
  have hcount : sorted.length = items.length := by
    have := hperm.length_eq
    rwa [List.length_map, List.length_range] at this
  have hsub : ∀ removeCount, ((sorted.take removeCount).map Prod.snd).Sublist (sorted.map Prod.snd) :=
    fun removeCount => (List.take_sublist removeCount _).map _
  have hbound : ∀ removeCount, ∀ i ∈ (sorted.take removeCount).map Prod.snd, i < items.length :=
    fun removeCount i hi => List.mem_range.mp (hperm.subset ((hsub removeCount).subset hi))
  constructor
  · exact Picks.erase_picks_perm ((hsub _).nodup (hperm.nodup_iff.mpr List.nodup_range)) (hbound _)
  · rw [Picks.length_picks (hbound _), List.length_map, List.length_take, hcount]
    omega

end Groups

section Leaf
variable {c : Capacity} {sorting : Sorting}
variable {root root' : Node R D n} {entry : Entry R D n} {path : Path} {mbr : BoundingBox R n}
  {items : List (Entry R D n)}

/-- The leaf an entry is put in. -/
def Chosen (root : Node R D n) (entry : Entry R D n) (path : Path) (mbr : BoundingBox R n)
    (items : List (Entry R D n)) : Prop :=
  chooseSubtree entry.1 root 0 = some path ∧ root.leafAt path = some (mbr, items)

theorem Chosen.addToLeaf (h : Chosen root entry path mbr items) :
    addToLeaf root entry = some (path, mbr.combined entry.1, items ++ [entry]) := by
  rw [RTree.addToLeaf, h.1, Option.bind_eq_bind, Option.bind_some, h.2]
  rfl

theorem Chosen.insertAgain (h : Chosen root entry path mbr items) :
    insertAgain c sorting root entry = some (if items.length < c.maxEntries
      then root.setLeaf (mbr.combined entry.1) (items ++ [entry]) path
      else growRoot c sorting root path (items ++ [entry])) := by
  have hlength : (items ++ [entry]).length = items.length + 1 := List.length_append
  rw [RTree.insertAgain, h.addToLeaf, Option.bind_eq_bind, Option.bind_some]
  dsimp only
  rw [hlength]
  by_cases hlen : items.length < c.maxEntries
  · rw [if_pos hlen, if_neg (by omega)]
    rfl
  · rw [if_neg hlen, if_pos (by omega)]
    rfl

/-- The ways an insertion may go. -/
theorem Chosen.insertNode (h : Chosen root entry path mbr items) :
    insertNode c sorting root entry =
      if items.length < c.maxEntries then
        some (root.setLeaf (mbr.combined entry.1) (items ++ [entry]) path)
      else if path = [] then some (growRoot c sorting root path (items ++ [entry]))
      else
        let (root, toReinsert) :=
          detach c sorting root path (mbr.combined entry.1) (items ++ [entry])
        toReinsert.foldlM (RTree.insertAgain c sorting) root := by
  have hlength : (items ++ [entry]).length = items.length + 1 := List.length_append
  rw [RTree.insertNode, h.addToLeaf, Option.bind_eq_bind, Option.bind_some]
  dsimp only
  rw [hlength]
  by_cases hlen : items.length < c.maxEntries
  · rw [if_pos hlen, if_pos (show items.length + 1 ≤ c.maxEntries from hlen)]
    rfl
  · rw [if_neg hlen, if_neg (by omega)]
    by_cases hpath : path = []
    · rw [if_pos hpath, if_pos hpath]
      rfl
    · rw [if_neg hpath, if_neg hpath]

end Leaf

section Conditions
variable (c : Capacity) (sorting : Sorting) (P₀ P₁ : Node R D n → Entry R D n → Prop)

/-- The tree before it meets `P₀`, and `P₁` before every entry that goes in again. -/
def InsertMeets (root : Node R D n) (entry : Entry R D n) : Prop :=
  P₀ root entry ∧ ∀ path mbr items, Chosen root entry path mbr items →
    c.maxEntries ≤ items.length → path ≠ [] →
      let (root, toReinsert) :=
        detach c sorting root path (mbr.combined entry.1) (items ++ [entry])
      Run.Along (insertAgain c sorting) P₁ root toReinsert

/-- So do all insertions of a call, which are those of the orphaned entries for `remove`. -/
def OpMeets [DecidableEq D] (t : RTree R D n) : Op R D n → Prop
  | .insert bbox data => ∀ root, t.root = some root → InsertMeets c sorting P₀ P₁ root (bbox, data)
  | .remove bbox data => ∀ root root' orphaned, t.root = some root →
    removeRecursive c (bbox, data) root = some (root', orphaned) →
      Run.Along (insertNode c sorting) (InsertMeets c sorting P₀ P₁) root' orphaned

variable {c sorting P₀ P₁} [∀ root entry, Decidable (P₀ root entry)]
  [∀ root entry, Decidable (P₁ root entry)]

instance InsertMeets.decidable (root : Node R D n) (entry : Entry R D n) :
    Decidable (InsertMeets c sorting P₀ P₁ root entry) :=
  decidable_of_iff (P₀ root entry ∧ ∀ path ∈ chooseSubtree entry.1 root 0,
      ∀ leaf ∈ root.leafAt path, c.maxEntries ≤ leaf.2.length → path ≠ [] →
        Run.Along (insertAgain c sorting) P₁
          (detach c sorting root path (leaf.1.combined entry.1) (leaf.2 ++ [entry])).1
          (detach c sorting root path (leaf.1.combined entry.1) (leaf.2 ++ [entry])).2)
    (and_congr_right' ⟨fun h path mbr items hchosen => h path hchosen.1 (mbr, items) hchosen.2,
      fun h path hpath leaf hleaf => h path leaf.1 leaf.2 ⟨hpath, hleaf⟩⟩)

instance OpMeets.decidable [DecidableEq D] (t : RTree R D n) :
    ∀ op, Decidable (OpMeets c sorting P₀ P₁ t op)
  | .insert bbox data => inferInstanceAs (Decidable
      (∀ root ∈ t.root, InsertMeets c sorting P₀ P₁ root (bbox, data)))
  | .remove bbox data => decidable_of_iff
      (∀ root ∈ t.root, ∀ r ∈ removeRecursive c (bbox, data) root,
        Run.Along (insertNode c sorting) (InsertMeets c sorting P₀ P₁) r.1 r.2)
      ⟨fun h root root' orphaned hroot hrem => h root hroot (root', orphaned) hrem,
        fun h root hroot r hrem => h root r.1 r.2 hroot hrem⟩

end Conditions

section Line

/-- Boxes of one dimension. -/
def segment (lo hi : ℚ) (h : lo ≤ hi) : BoundingBox ℚ 0 := ⟨fun _ => lo, fun _ => hi, fun _ => h⟩

def point (x : ℚ) : BoundingBox ℚ 0 := segment x x (le_refl x)

/-- The smallest trees there are. -/
def three : Capacity := ⟨3, le_refl 3⟩

end Line

end Cppforge.Spatial.RTree

namespace Cppforge.Spatial.RTree
open RegionTree Arithmetic

variable {R D : Type} [LinearOrder R] {n : Nat}

/-- A box lies in a rectangle. -/
def Within (entry : Entry R D n) (mbr : BoundingBox R n) : Prop := mbr.contains entry.1 = true

instance (entry : Entry R D n) : DecidablePred (Within entry) := fun mbr =>
  inferInstanceAs (Decidable (mbr.contains entry.1 = true))

section Search
variable {root : Node R D n} {query : BoundingBox R n}

theorem filter_nil {es : List (Entry R D n)} {mbr : BoundingBox R n} (h : ∀ e ∈ es, Within e mbr)
    (hmiss : ¬ mbr.intersects query = true) : es.filter (·.1.intersects query) = [] := by
  rw [List.filter_eq_nil_iff]
  intro e he hmeet
  exact hmiss (BoundingBox.intersects_of_contains (h e he) hmeet)

/-- Under rectangles that cover what is below them, nothing is pruned wrongly. -/
theorem searchNode_eq (h : Covers Within root) :
    searchNode query root = (root.entries.filter (·.1.intersects query)).map Prod.snd := by
  induction root using RegionTree.ind with
  | leaf mbr items =>
    rw [searchNode, entries_leaf]
    by_cases hmeet : mbr.intersects query = true
    · rw [if_pos hmeet]
    · rw [if_neg hmeet, filter_nil (covers_leaf.mp h) hmeet]
      rfl
  | internal mbr children ih =>
    obtain ⟨hmbr, hchildren⟩ := covers_internal.mp h
    have hfrom : ∀ l, (∀ c ∈ l, c ∈ children) → searchFrom query l =
        ((entriesFrom l).filter (·.1.intersects query)).map Prod.snd := by
      intro l
      induction l with
      | nil => intro _; rfl
      | cons c l ihl =>
        intro hsub
        obtain ⟨hbox, hcovers⟩ := hchildren c (hsub c List.mem_cons_self)
        have hhead : (if c.1.intersects query = true then searchNode query c.2 else []) =
            (c.2.entries.filter (·.1.intersects query)).map Prod.snd := by
          by_cases hmeet : c.1.intersects query = true
          · rw [if_pos hmeet, ih c (hsub c List.mem_cons_self) hcovers]
          · rw [if_neg hmeet, filter_nil hbox hmeet]
            rfl
        rw [searchFrom, entriesFrom, List.filter_append, List.map_append, hhead,
          ihl fun c' hc' => hsub c' (List.mem_cons_of_mem _ hc')]
    rw [searchNode, entries_internal]
    by_cases hmeet : mbr.intersects query = true
    · rw [if_pos hmeet, hfrom children fun _ hc => hc]
    · rw [if_neg hmeet, filter_nil hmbr hmeet]
      rfl

end Search

section Contents
variable {root : Node R D n} {entry : Entry R D n} {path : Path} {mbr : BoundingBox R n}
  {items kept : List (Entry R D n)} {m : Multiset (Entry R D n)}

/-- The rectangles cover what is below them, and this is what the tree holds. -/
structure Holds (root : Node R D n) (m : Multiset (Entry R D n)) : Prop where
  covers : Covers Within root
  entries : .ofList root.entries = m

theorem Holds.setLeaf (h : Holds root m) (hleaf : root.leafAt path = some (mbr, items))
    (hpath : root.OnPath (Within entry) path) {box : BoundingBox R n}
    (hbox : ∀ e ∈ kept, Within e box) (hkept : ∀ e ∈ kept, e ∈ items ++ [entry]) :
    Covers Within (root.setLeaf box kept path) ∧
      .ofList (root.setLeaf box kept path).entries + .ofList items = m + .ofList kept := by
  refine ⟨h.covers.setLeaf hleaf hbox ?_, ?_⟩
  · intro e he
    rcases List.mem_append.mp (hkept e he) with hold | hnew
    · exact .inl hold
    · rw [List.mem_singleton.mp hnew]
      exact .inr hpath
  · rw [← h.entries, Multiset.coe_add, Multiset.coe_add]
    exact Multiset.coe_eq_coe.mpr (setLeaf_perm hleaf box kept)

theorem Holds.place (h : Holds root m) (hleaf : root.leafAt path = some (mbr, items))
    (hpath : root.OnPath (Within entry) path) :
    Holds (root.setLeaf (mbr.combined entry.1) (items ++ [entry]) path) (entry ::ₘ m) := by
  have hbox : ∀ e ∈ items ++ [entry], Within e (mbr.combined entry.1) := by
    intro e he
    rcases List.mem_append.mp he with hold | hnew
    · exact BoundingBox.contains_trans (BoundingBox.combined_contains_left mbr entry.1)
        (h.covers.leafAt hleaf e hold)
    · rw [List.mem_singleton.mp hnew]
      exact BoundingBox.combined_contains_right mbr entry.1
  obtain ⟨hcovers, hentries⟩ := h.setLeaf hleaf hpath hbox fun _ he => he
  refine ⟨hcovers, ?_⟩
  rw [← Multiset.coe_add, Multiset.coe_singleton, add_comm (Multiset.ofList items), ← add_assoc] at hentries
  rw [add_right_cancel hentries, add_comm, Multiset.singleton_add]

theorem foldl_cons_eq (es : List (Entry R D n)) (m : Multiset (Entry R D n)) :
    es.foldl (fun m e => e ::ₘ m) m = m + .ofList es := by
  induction es generalizing m with
  | nil => simp
  | cons e es ih => rw [List.foldl_cons, ih, ← Multiset.cons_coe, Multiset.cons_add, Multiset.add_cons]

end Contents

variable [Arithmetic R] {c : Capacity} {sorting : Sorting}

section Insertion
variable {root : Node R D n} {entry : Entry R D n} {path : Path} {mbr : BoundingBox R n}
  {items kept : List (Entry R D n)} {m : Multiset (Entry R D n)}

theorem computeMBR_within (es : List (Entry R D n)) : ∀ e ∈ es, Within e (computeMBR (boxes es)) :=
  fun _ he => computeMBR_contains (List.mem_map_of_mem he)

/-- The way to the leaf leads through rectangles around the box. -/
def Fits (root : Node R D n) (entry : Entry R D n) : Prop :=
  ∃ path, chooseSubtree entry.1 root 0 = some path ∧ root.OnPath (Within entry) path

instance Fits.decidable (root : Node R D n) (entry : Entry R D n) : Decidable (Fits root entry) :=
  inferInstanceAs (Decidable
    (∃ path ∈ chooseSubtree entry.1 root 0, root.OnPath (Within entry) path))

theorem Fits.chosen (h : Fits root entry) : ∃ path mbr items,
    Chosen root entry path mbr items ∧ root.OnPath (Within entry) path := by
  obtain ⟨path, hchoose, hpath⟩ := h
  obtain ⟨mbr, items, hleaf⟩ := hpath.leafAt
  exact ⟨path, mbr, items, ⟨hchoose, hleaf⟩, hpath⟩

/-- A leaf gives up some of its entries. -/
theorem Holds.part (h : Holds root m) (hleaf : root.leafAt path = some (mbr, items))
    (hpath : root.OnPath (Within entry) path) {moved : List (Entry R D n)}
    (hperm : (kept ++ moved).Perm (items ++ [entry])) :
    Covers Within (root.setLeaf (computeMBR (boxes kept)) kept path) ∧
      .ofList (root.setLeaf (computeMBR (boxes kept)) kept path).entries + .ofList moved =
        entry ::ₘ m := by
  obtain ⟨hcovers, hentries⟩ := h.setLeaf hleaf hpath (computeMBR_within kept) fun e he =>
    hperm.subset (List.mem_append_left moved he)
  refine ⟨hcovers, ?_⟩
  have hgroups : Multiset.ofList kept + .ofList moved = .ofList items + {entry} := by
    rw [Multiset.coe_add, ← Multiset.coe_singleton, Multiset.coe_add]
    exact Multiset.coe_eq_coe.mpr hperm
  generalize Multiset.ofList (root.setLeaf (computeMBR (boxes kept)) kept path).entries = rest
    at hentries ⊢
  have hsum : rest + .ofList moved + .ofList items = entry ::ₘ m + .ofList items := by
    rw [add_right_comm, hentries, add_assoc, hgroups, ← Multiset.singleton_add, add_assoc,
      ← add_assoc, add_comm]
  exact add_right_cancel hsum

theorem Holds.growRoot (h : Holds root m) (hleaf : root.leafAt path = some (mbr, items))
    (hpath : root.OnPath (Within entry) path) :
    Holds (growRoot c sorting root path (items ++ [entry])) (entry ::ₘ m) := by
  have hperm := splitLeafNode_perm c sorting (items ++ [entry])
  generalize hsplit : splitLeafNode c sorting (items ++ [entry]) = groups at hperm
  obtain ⟨kept, moved⟩ := groups
  obtain ⟨hcovers, hentries⟩ := h.part hleaf hpath hperm
  rw [RTree.growRoot, hsplit]
  dsimp only
  generalize root.setLeaf (computeMBR (boxes kept)) kept path = root' at hcovers hentries
  constructor
  · have hnew : Covers Within (.leaf (computeMBR (boxes moved)) moved) :=
      covers_leaf.mpr (computeMBR_within moved)
    rw [covers_internal]
    constructor
    · intro e he
      obtain ⟨child, hchild, hmem⟩ := mem_entriesFrom.mp he
      rcases List.mem_pair.mp hchild with rfl | rfl
      · exact BoundingBox.contains_trans (BoundingBox.combined_contains_left _ _)
          (hcovers.region e hmem)
      · exact BoundingBox.contains_trans (BoundingBox.combined_contains_right _ _)
          (hnew.region e hmem)
    · intro child hchild
      rcases List.mem_pair.mp hchild with rfl | rfl
      · exact ⟨hcovers.region, hcovers⟩
      · exact ⟨hnew.region, hnew⟩
  · rw [← hentries, entries_internal, entriesFrom, entriesFrom, entriesFrom, entries_leaf,
      List.append_nil, Multiset.coe_add]

theorem insertAgain_holds (h : Holds root m) (hfits : Fits root entry) :
    ∃ root', insertAgain c sorting root entry = some root' ∧ Holds root' (entry ::ₘ m) := by
  obtain ⟨path, mbr, items, hchosen, hpath⟩ := hfits.chosen
  refine ⟨_, hchosen.insertAgain, ?_⟩
  split
  · exact h.place hchosen.2 hpath
  · exact h.growRoot hchosen.2 hpath

theorem insertNode_holds (h : Holds root m)
    (hmeets : InsertMeets c sorting Fits Fits root entry) :
    ∃ root', insertNode c sorting root entry = some root' ∧ Holds root' (entry ::ₘ m) := by
  obtain ⟨hfits, hagain⟩ := hmeets
  obtain ⟨path, mbr, items, hchosen, hpath⟩ := hfits.chosen
  rw [hchosen.insertNode]
  by_cases hlen : items.length < c.maxEntries
  · rw [if_pos hlen]
    exact ⟨_, rfl, h.place hchosen.2 hpath⟩
  by_cases hnil : path = []
  · rw [if_neg hlen, if_pos hnil]
    exact ⟨_, rfl, h.growRoot hchosen.2 hpath⟩
  rw [if_neg hlen, if_neg hnil]
  have halong := hagain path mbr items hchosen (Nat.le_of_not_lt hlen) hnil
  have hperm := (farthest_spec c sorting (mbr.combined entry.1) (items ++ [entry])).1
  rw [detach] at halong ⊢
  generalize farthest c sorting (mbr.combined entry.1) (items ++ [entry]) = groups at *
  obtain ⟨kept, toReinsert⟩ := groups
  obtain ⟨hcovers, hentries⟩ := h.part hchosen.2 hpath hperm
  change Run.Along (insertAgain c sorting) Fits
    (root.setLeaf (computeMBR (boxes kept)) kept path) toReinsert at halong
  have hstep : ∀ (root : Node R D n) m e, Holds root m → Fits root e →
      ∃ root', insertAgain c sorting root e = some root' ∧ Holds root' (e ::ₘ m) :=
    fun _ _ _ hholds hfits => insertAgain_holds hholds hfits
  obtain ⟨root', hrun, hholds⟩ := halong.follows hstep ⟨hcovers, rfl⟩
  refine ⟨root', hrun, ?_⟩
  rwa [foldl_cons_eq, hentries] at hholds

end Insertion

section Removal
variable {root root' : Node R D n} {entry : Entry R D n}
  {orphaned : List (Entry R D n)} {children rest : List (BoundingBox R n × Node R D n)}

/-- The links and the subtrees behind them. -/
def CoversAll (children : List (BoundingBox R n × Node R D n)) : Prop :=
  ∀ child ∈ children, (∀ e ∈ child.2.entries, Within e child.1) ∧ Covers Within child.2

/-- The rectangle around all links covers the subtrees. -/
theorem CoversAll.node {mbr : BoundingBox R n} (h : CoversAll children) :
    Covers Within (.internal (if children = [] then mbr else computeMBR (boxes children)) children) := by
  refine covers_internal.mpr ⟨?_, h⟩
  intro e he
  obtain ⟨child, hchild, hmem⟩ := mem_entriesFrom.mp he
  rw [if_neg (List.ne_nil_of_mem hchild)]
  exact BoundingBox.contains_trans (computeMBR_contains (List.mem_map_of_mem hchild))
    ((h child hchild).1 e hmem)

omit [Arithmetic R] in
/-- Nothing is lost when a child is dropped, and the link that stays covers the child. -/
theorem condenseAfterRemove_spec (box : BoundingBox R n) (hroot : root.isLeaf → orphaned = []) :
    (entriesFrom (condenseAfterRemove c box root rest orphaned).1 ++
        (condenseAfterRemove c box root rest orphaned).2).Perm
      (root.entries ++ orphaned ++ entriesFrom rest) ∧
    ((∀ e ∈ root.entries, Within e box) → Covers Within root → CoversAll rest →
      CoversAll (condenseAfterRemove c box root rest orphaned).1) := by
  cases root with
  | leaf mbr items =>
    rw [hroot trivial, entries_leaf, List.append_nil, condenseAfterRemove]
    split
    · exact ⟨List.perm_append_comm, fun _ _ hrest => hrest⟩
    · refine ⟨by rw [List.append_nil, entriesFrom, entries_leaf], ?_⟩
      intro _ hcovers hrest child hchild
      rcases List.mem_cons.mp hchild with rfl | hchild
      · exact ⟨hcovers.region, hcovers⟩
      · exact hrest child hchild
  | internal mbr children =>
    rw [condenseAfterRemove]
    refine ⟨?_, ?_⟩
    · rw [entriesFrom, List.append_assoc, List.append_assoc]
      exact List.perm_append_comm.append_left _
    · intro hbox hcovers hrest child hchild
      rcases List.mem_cons.mp hchild with rfl | hchild
      · exact ⟨hbox, hcovers⟩
      · exact hrest child hchild

variable [DecidableEq D]

/-- One entry is taken out, and the rectangles still cover what is left. -/
structure Removed (entry : Entry R D n) (root root' : Node R D n) (orphaned : List (Entry R D n)) :
    Prop where
  perm : root.entries.Perm (entry :: (root'.entries ++ orphaned))
  leaf : root'.isLeaf → orphaned = []
  covers : Covers Within root → Covers Within root'

theorem removeFrom_some {children' : List (BoundingBox R n × Node R D n)}
    (ih : ∀ child ∈ children, ∀ root' orphaned,
      removeRecursive c entry child.2 = some (root', orphaned) → Removed entry child.2 root' orphaned)
    (h : removeFrom c entry children = some (children', orphaned)) :
    (entriesFrom children).Perm (entry :: (entriesFrom children' ++ orphaned)) ∧
      (CoversAll children → CoversAll children') := by
  induction children generalizing children' with
  | nil =>
    rw [removeFrom] at h
    cases h
  | cons child rest ihl =>
    obtain ⟨box, child⟩ := child
    rw [removeFrom] at h
    split at h
    · next root' removed hfound =>
      split at hfound
      · rw [Option.some.injEq] at h
        have hremoved := ih (box, child) List.mem_cons_self root' removed hfound
        obtain ⟨hperm, hcovers⟩ :=
          condenseAfterRemove_spec (c := c) box hremoved.leaf
        rw [h] at hperm hcovers
        constructor
        · rw [entriesFrom]
          refine (hremoved.perm.append_right _).trans ?_
          rw [List.cons_append]
          exact hperm.symm.cons entry
        · intro hall
          obtain ⟨hbox, hchild⟩ := hall (box, child) List.mem_cons_self
          refine hcovers ?_ (hremoved.covers hchild) fun d hd => hall d (List.mem_cons_of_mem _ hd)
          intro e he
          refine hbox e (hremoved.perm.mem_iff.mpr (List.mem_cons_of_mem _ ?_))
          exact List.mem_append_left _ he
      · cases hfound
    · cases hrest : removeFrom c entry rest with
      | none =>
        rw [hrest] at h
        cases h
      | some r =>
        rw [hrest, Option.bind_eq_bind, Option.bind_some, Option.pure_def, Option.some.injEq,
          Prod.mk.injEq] at h
        obtain ⟨rfl, rfl⟩ := h
        obtain ⟨hperm, hcovers⟩ := ihl (fun d hd => ih d (List.mem_cons_of_mem _ hd)) hrest
        constructor
        · rw [entriesFrom, entriesFrom, List.append_assoc]
          exact (hperm.append_left _).trans List.perm_middle
        · intro hall d hd
          rcases List.mem_cons.mp hd with rfl | hd
          · exact hall (box, child) List.mem_cons_self
          · exact hcovers (fun d' hd' => hall d' (List.mem_cons_of_mem _ hd')) d hd

theorem removeRecursive_some (h : removeRecursive c entry root = some (root', orphaned)) :
    Removed entry root root' orphaned := by
  induction root using RegionTree.ind generalizing root' orphaned with
  | leaf mbr items =>
    rw [removeRecursive] at h
    split at h
    · next hmem =>
      rw [Option.some.injEq, Prod.mk.injEq] at h
      obtain ⟨rfl, rfl⟩ := h
      refine ⟨?_, fun _ => rfl, ?_⟩
      · rw [entries_leaf, entries_leaf, List.append_nil]
        exact List.perm_cons_erase hmem
      · intro hcovers
        exact covers_leaf.mpr fun e he => covers_leaf.mp hcovers e (List.mem_of_mem_erase he)
    · cases h
  | internal mbr children ih =>
    rw [removeRecursive] at h
    cases hfrom : removeFrom c entry children with
    | none =>
      rw [hfrom] at h
      cases h
    | some r =>
      rw [hfrom, Option.bind_eq_bind, Option.bind_some, Option.pure_def, Option.some.injEq,
        Prod.mk.injEq] at h
      obtain ⟨rfl, rfl⟩ := h
      obtain ⟨hperm, hcovers⟩ :=
        removeFrom_some (fun child hchild _ _ hrem => ih child hchild hrem) hfrom
      refine ⟨?_, fun hleaf => absurd hleaf id, ?_⟩
      · rw [entries_internal, entries_internal]
        exact hperm
      · intro hall
        exact CoversAll.node (hcovers (covers_internal.mp hall).2)

/-- Under covering rectangles the search for an entry misses none. -/
theorem removeRecursive_none (h : removeRecursive c entry root = none)
    (hcovers : Covers Within root) : entry ∉ root.entries := by
  induction root using RegionTree.ind with
  | leaf mbr items =>
    rw [removeRecursive] at h
    split at h
    · cases h
    · next hmem => rwa [entries_leaf]
  | internal mbr children ih =>
    have hfrom : ∀ l, (∀ d ∈ l, d ∈ children) → removeFrom c entry l = none →
        entry ∉ entriesFrom l := by
      intro l hsub hnone
      induction l with
      | nil =>
        rw [entriesFrom]
        exact List.not_mem_nil
      | cons child rest ihl =>
        obtain ⟨box, child⟩ := child
        obtain ⟨hbox, hchild⟩ :=
          (covers_internal.mp hcovers).2 (box, child) (hsub (box, child) List.mem_cons_self)
        rw [removeFrom] at hnone
        split at hnone
        · cases hnone
        · next hfound =>
          rw [entriesFrom, List.mem_append, not_or]
          constructor
          · intro hmem
            have hmeet : box.intersects entry.1 = true :=
              BoundingBox.intersects_of_contains (hbox entry hmem) (BoundingBox.intersects_self _)
            rw [if_pos hmeet] at hfound
            exact ih (box, child) (hsub _ List.mem_cons_self) hfound hchild hmem
          · refine ihl (fun d hd => hsub d (List.mem_cons_of_mem _ hd)) ?_
            cases hrest : removeFrom c entry rest with
            | none => rfl
            | some r =>
              rw [hrest] at hnone
              cases hnone
    rw [entries_internal]
    refine hfrom children (fun _ hd => hd) ?_
    rw [removeRecursive] at h
    cases hrest : removeFrom c entry children with
    | none => rfl
    | some r =>
      rw [hrest] at h
      cases h

omit [Arithmetic R] [DecidableEq D] in
theorem collapse_covers (h : Covers Within root) : Covers Within (collapse root) := by
  unfold collapse
  split
  · exact ((covers_internal.mp h).2 _ List.mem_cons_self).2
  · exact h

omit [Arithmetic R] [DecidableEq D] in
theorem collapse_entries (root : Node R D n) : (collapse root).entries = root.entries := by
  unfold collapse
  split
  · rw [entries_internal, entriesFrom, entriesFrom, List.append_nil]
  · rfl

end Removal

section Runs
variable [DecidableEq D] {t : RTree R D n} {m : Multiset (Entry R D n)}

/-- What the index is for: a multiset of boxes with their payloads. -/
def spec (m : Multiset (Entry R D n)) :
    Op R D n → Multiset (Entry R D n) × Option Bool
  | .insert bbox data => ((bbox, data) ::ₘ m, none)
  | .remove bbox data => (m.erase (bbox, data), some (decide ((bbox, data) ∈ m)))

/-- The queries answer from the multiset. -/
def Answers (t : RTree R D n) (m : Multiset (Entry R D n)) : Prop :=
  t.size = m.card ∧ ∀ query, Multiset.ofList (t.search query) =
    (m.filter fun e => e.1.intersects query = true).map Prod.snd

/-- The tree holds the multiset. -/
structure Stores (t : RTree R D n) (m : Multiset (Entry R D n)) : Prop where
  count : t.dataCount = m.card
  none : t.root = none → m = 0
  some : ∀ root, t.root = some root → Holds root m

omit [Arithmetic R] [DecidableEq D] in
theorem Stores.answers (h : Stores t m) : Answers t m := by
  refine ⟨h.count, ?_⟩
  intro query
  rw [search]
  cases hroot : t.root with
  | none =>
    rw [h.none hroot]
    rfl
  | some root =>
    have hholds := h.some root hroot
    dsimp only
    rw [searchNode_eq hholds.covers, ← hholds.entries, ← Multiset.map_coe, Multiset.filter_coe]
    simp only [Bool.decide_eq_true]

theorem insert_stores (h : Stores t m) {bbox : BoundingBox R n} {data : D}
    (hmeets : OpMeets c sorting Fits Fits t (.insert bbox data)) :
    ∃ t', t.insert c sorting bbox data = some t' ∧ Stores t' ((bbox, data) ::ₘ m) := by
  rw [insert]
  cases hroot : t.root with
  | none =>
    refine ⟨_, rfl, ?_⟩
    rw [h.none hroot]
    refine ⟨rfl, nofun, ?_⟩
    intro root heq
    rw [← Option.some.inj heq]
    refine ⟨covers_leaf.mpr ?_, by rw [entries_leaf]; rfl⟩
    intro e he
    rw [List.mem_singleton.mp he]
    exact BoundingBox.contains_refl bbox
  | some root =>
    obtain ⟨root', hins, hholds⟩ := insertNode_holds (h.some root hroot) (hmeets root hroot)
    refine ⟨⟨some root', t.dataCount + 1⟩, ?_, ?_, nofun, ?_⟩
    · dsimp only
      rw [hins]
      rfl
    · rw [Multiset.card_cons, ← h.count]
    · intro root'' heq
      rwa [← Option.some.inj heq]

theorem remove_stores (h : Stores t m) {bbox : BoundingBox R n} {data : D}
    (hmeets : OpMeets c sorting Fits Fits t (.remove bbox data)) :
    ∃ t', t.remove c sorting bbox data = some (t', decide ((bbox, data) ∈ m)) ∧
      Stores t' (m.erase (bbox, data)) := by
  rw [remove]
  cases hroot : t.root with
  | none =>
    rw [h.none hroot]
    exact ⟨t, rfl, by rwa [Multiset.erase_zero, ← h.none hroot]⟩
  | some root =>
    have hholds := h.some root hroot
    have hmem : (bbox, data) ∈ m ↔ (bbox, data) ∈ root.entries := by
      rw [← hholds.entries]
      exact Multiset.mem_coe
    dsimp only
    cases hrem : removeRecursive c (bbox, data) root with
    | none =>
      have hnot : (bbox, data) ∉ m := hmem.not.mpr (removeRecursive_none hrem hholds.covers)
      exact ⟨t, by simp [hnot], by rwa [Multiset.erase_of_notMem hnot]⟩
    | some r =>
      obtain ⟨root₁, orphaned⟩ := r
      have hremoved := removeRecursive_some hrem
      have hfound : (bbox, data) ∈ m := by
        rw [hmem, hremoved.perm.mem_iff]
        exact List.mem_cons_self
      have hsplit : .ofList root₁.entries + .ofList orphaned = m.erase (bbox, data) := by
        rw [← hholds.entries, Multiset.coe_add, Multiset.coe_eq_coe.mpr hremoved.perm,
          ← Multiset.cons_coe, Multiset.erase_cons_head]
      have hstep : ∀ (root : Node R D n) m e, Holds root m → InsertMeets c sorting Fits Fits root e →
          ∃ root', insertNode c sorting root e = some root' ∧ Holds root' (e ::ₘ m) :=
        fun _ _ _ hholds hmeets => insertNode_holds hholds hmeets
      obtain ⟨root₂, hrun, hholds₂⟩ := (hmeets root root₁ orphaned hroot hrem).follows hstep
        ⟨hremoved.covers hholds.covers, rfl⟩
      rw [foldl_cons_eq, hsplit] at hholds₂
      refine ⟨⟨some (collapse root₂), t.dataCount - 1⟩, ?_, ?_, nofun, ?_⟩
      · dsimp only
        rw [hrun, decide_eq_true hfound]
        rfl
      · rw [Multiset.card_erase_of_mem hfound, ← h.count]
        rfl
      · intro root'' heq
        rw [← Option.some.inj heq]
        exact ⟨collapse_covers hholds₂.covers, by rw [collapse_entries, hholds₂.entries]⟩

theorem step_stores (h : Stores t m) (op : Op R D n) (hmeets : OpMeets c sorting Fits Fits t op) :
    ∃ t', step c sorting t op = some (t', (spec m op).2) ∧ Stores t' (spec m op).1 := by
  cases op with
  | insert bbox data =>
    obtain ⟨t', hins, hstores⟩ := insert_stores h hmeets
    exact ⟨t', by rw [step, hins]; rfl, hstores⟩
  | remove bbox data =>
    obtain ⟨t', hrem, hstores⟩ := remove_stores h hmeets
    exact ⟨t', by rw [step, hrem]; rfl, hstores⟩

omit [Arithmetic R] [DecidableEq D] in
theorem empty_stores : Stores (empty R D n) 0 := ⟨rfl, fun _ => rfl, nofun⟩

/-- As long as every box is put under rectangles around it, all answers are right. -/
theorem search_exact (ops : List (Op R D n))
    (h : Run.Meets (step c sorting) (OpMeets c sorting Fits Fits) (empty R D n) ops) :
    Run.Refines (step c sorting) spec Answers (empty R D n) 0 ops :=
  h.refines (fun _ _ hstores => hstores.answers) (fun _ _ op hstores hok => step_stores hstores op hok)
    empty_stores

/-- The root is split, then one of its leaves after a forced reinsertion, and at the end
two leaves are dropped. -/
def fitting : List (Op ℚ Nat 0) :=
  [.insert (point 0) 0, .insert (point 1) 1, .insert (point 10) 2, .insert (point 11) 3,
    .insert (point 1) 4, .insert (segment 0 1 (by decide)) 5, .remove (point 0) 0,
    .remove (point 1) 1, .insert (point 10) 6, .remove (point 1) 4,
    .remove (segment 0 1 (by decide)) 5]

theorem search_exact_fitting :
    Run.Refines (step three Sorting.insertion) spec Answers (empty ℚ Nat 0) 0 fitting :=
  search_exact fitting (by decide +kernel)

/-- The last point lies between the rectangles of the two leaves. -/
def between : List (Op ℚ Nat 0) :=
  [.insert (point 0) 0, .insert (point 1) 1, .insert (point 10) 2, .insert (point 11) 3,
    .insert (point 5) 4]

theorem search_between :
    ¬ Run.Refines (step three Sorting.insertion) spec Answers (empty ℚ Nat 0) 0 between := by
  intro h
  obtain ⟨t, hrun, hanswers⟩ := h between (List.prefix_refl _)
  have hsearch : (Run.exec (step three Sorting.insertion) (empty ℚ Nat 0) between).map
      (fun r => r.1.search (point 5)) = some [] := by
    decide +kernel
  rw [hrun, Option.map_some, Option.some.injEq] at hsearch
  have hspec := hanswers.2 (point 5)
  rw [hsearch] at hspec
  have hstored : ((Run.execModel spec 0 between).1.filter
      fun e => e.1.intersects (point 5) = true).map Prod.snd = {4} := by
    decide +kernel
  rw [hstored] at hspec
  cases congrArg Multiset.card hspec

end Runs

end Cppforge.Spatial.RTree
