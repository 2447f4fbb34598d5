import Cppforge.Spatial.Proofs.RTreeSearch

namespace Cppforge.Spatial.RTree
open RegionTree Arithmetic

variable {R D : Type} [LinearOrder R] [Arithmetic R] {n : Nat}

section Groups
variable (c : Capacity) (sorting : Sorting)

omit [LinearOrder R] in
theorem best_mem {I : Type} (start : I × List R) (candidates : List (I × List R)) :
    best start candidates = start.1 ∨ best start candidates ∈ candidates.map Prod.fst := by
  rw [best]
  induction candidates generalizing start with
  | nil => exact .inl rfl
  | cons x candidates ih =>
    rw [List.foldl_cons, List.map_cons, List.mem_cons]
    rcases ih (if better x.2 start.2 then x else start) with h | h
    · rw [h]
      split
      · exact .inr (.inl rfl)
      · exact .inl rfl
    · exact .inr (.inr h)

theorem kMinEntries_pos : 1 ≤ c.kMinEntries := Nat.le_max_right _ _

theorem kMinEntries_le : c.kMinEntries ≤ c.maxEntries := by
  have := c.three_le
  rw [Capacity.kMinEntries]
  omega

/-- Both groups of a split get an entry. -/
theorem chooseSplitIndex_bounds {sorted : List (BoxIndex R n)}
    (hlen : sorted.length = c.maxEntries + 1) :
    1 ≤ chooseSplitIndex c sorted ∧ chooseSplitIndex c sorted ≤ c.maxEntries := by
  have hpos := kMinEntries_pos c
  have hle := kMinEntries_le c
  rcases best_mem (c.kMinEntries, [maxValue, maxValue]) ((splitSizes c sorted.length).map fun k =>
      (k, [intersectionArea (computeMBR (boxes (sorted.take k)))
          (computeMBR (boxes (sorted.drop k).reverse)),
        (computeMBR (boxes (sorted.take k))).area +
          (computeMBR (boxes (sorted.drop k).reverse)).area])) with h | h
  · rw [chooseSplitIndex, h]
    exact ⟨hpos, hle⟩
  · rw [List.map_map, List.mem_map] at h
    obtain ⟨k, hk, heq⟩ := h
    rw [chooseSplitIndex, ← heq]
    obtain ⟨j, hj, rfl⟩ := List.mem_map.mp hk
    have hj := List.mem_range.mp hj
    dsimp only [Function.comp]
    omega

theorem splitLeafNode_length {items : List (Entry R D n)} (hlen : items.length = c.maxEntries + 1) :
    (splitLeafNode c sorting items).1.length ≤ c.maxEntries ∧
      (splitLeafNode c sorting items).2.length ≤ c.maxEntries := by
  have hperm := (splitLeafNode_perm c sorting items).length_eq
  have hgroups := splitEntries_perm c sorting (boxes items).zipIdx
  rw [boxes_zipIdx_snd] at hgroups
  have hbound : ∀ i ∈ (splitEntries c sorting (boxes items).zipIdx).1, i < items.length :=
    fun i hi => List.mem_range.mp (hgroups.subset (List.mem_append_left _ hi))
  have hfirst : (splitLeafNode c sorting items).1.length =
      (splitEntries c sorting (boxes items).zipIdx).1.length := Picks.length_picks hbound
  have hsize : (splitEntries c sorting (boxes items).zipIdx).1.length ≤ c.maxEntries ∧
      1 ≤ (splitEntries c sorting (boxes items).zipIdx).1.length := by
    dsimp only [splitEntries]
    generalize hsorted : sorting.sort _ (boxes items).zipIdx = sorted
    have hcount : sorted.length = c.maxEntries + 1 := by
      rw [← hsorted, (sorting.perm _ _).length_eq, List.length_zipIdx, boxes, List.length_map, hlen]
    obtain ⟨hpos, hle⟩ := chooseSplitIndex_bounds c hcount
    rw [List.length_map, List.length_take]
    omega
  rw [List.length_append] at hperm
  omega

/-- The forced reinsertion makes room. -/
theorem farthest_length (mbr : BoundingBox R n) {items : List (Entry R D n)}
    (hlen : items.length = c.maxEntries + 1) :
    (farthest c sorting mbr items).1.length ≤ c.maxEntries := by
  obtain ⟨hperm, htaken⟩ := farthest_spec c sorting mbr items
  have hpos : 1 ≤ c.kReinsertCount := Nat.le_max_right _ _
  have hsum := hperm.length_eq
  rw [List.length_append] at hsum
  omega

end Groups

section Rows
variable {c : Capacity} {sorting : Sorting} {root root' : Node R D n} {entry : Entry R D n}
  {path : Path} {mbr : BoundingBox R n} {items items₀ : List (Entry R D n)} {k : Nat}
  {children : List (BoundingBox R n × Node R D n)}

/-- A leaf within its capacity. -/
def SmallLeaf (c : Capacity) (t : Node R D n) : Prop :=
  ∃ mbr items, t = .leaf mbr items ∧ items.length ≤ c.maxEntries

/-- A root above `k` such leaves. -/
def Row (c : Capacity) (k : Nat) (t : Node R D n) : Prop :=
  ∃ mbr children, t = .internal mbr children ∧ children.length = k ∧
    ∀ child ∈ children, SmallLeaf c child.2

/-- An entry that goes in again finds room, or the root is the leaf. -/
def Roomy (c : Capacity) (root : Node R D n) (entry : Entry R D n) : Prop :=
  ∀ path ∈ chooseSubtree entry.1 root 0, ∀ leaf ∈ root.leafAt path,
    path = [] ∨ leaf.2.length < c.maxEntries

instance (root : Node R D n) (entry : Entry R D n) : Decidable (Roomy c root entry) :=
  inferInstanceAs (Decidable (∀ path ∈ chooseSubtree entry.1 root 0, ∀ leaf ∈ root.leafAt path,
    path = [] ∨ leaf.2.length < c.maxEntries))

theorem chooseAt_eq (bbox : BoundingBox R n) (children : List (BoundingBox R n × Node R D n))
    (i level : Nat) : chooseAt bbox children i level =
      (children[i]?).bind fun child => chooseSubtree bbox child.2 level := by
  induction children generalizing i with
  | nil => rw [chooseAt]; rfl
  | cons child children ih =>
    cases i with
    | zero =>
      rw [chooseAt]
      rfl
    | succ i => rw [chooseAt, ih, List.getElem?_cons_succ]

theorem leastOverlap_lt {boxes : List (BoundingBox R n)} (hpos : 0 < boxes.length)
    (bbox : BoundingBox R n) : leastOverlap boxes bbox < boxes.length := by
  dsimp only [leastOverlap]
  generalize hcandidates : boxes.zipIdx.map _ = candidates
  rcases best_mem (0, [maxValue, maxValue, maxValue]) candidates with h | h
  · rwa [h]
  · rw [← hcandidates, List.map_map, List.mem_map] at h
    obtain ⟨⟨box, i⟩, hmem, heq⟩ := h
    rw [← hcandidates, ← heq]
    exact (List.mem_zipIdx hmem).2.1.trans_eq (Nat.zero_add _)

theorem Row.found (h : Row c k root) (hk : 0 < k) (bbox : BoundingBox R n) :
    ∃ i mbr items, chooseSubtree bbox root 0 = some [i] ∧ root.leafAt [i] = some (mbr, items) ∧
      items.length ≤ c.maxEntries := by
  obtain ⟨mbr, children, rfl, rfl, hleaves⟩ := h
  have hidx : leastOverlap (boxes children) bbox < children.length := by
    have hlen : (boxes children).length = children.length := List.length_map _
    rw [← hlen]
    exact leastOverlap_lt (by rwa [hlen]) bbox
  obtain ⟨mbr', items, heq, hitems⟩ := hleaves _ (List.getElem_mem hidx)
  refine ⟨leastOverlap (boxes children) bbox, mbr', items, ?_, ?_, hitems⟩
  · rw [chooseSubtree, if_pos rfl, chooseAt_eq, List.getElem?_eq_getElem hidx, Option.bind_some, heq,
      chooseSubtree]
    rfl
  · rw [leafAt, List.getElem?_eq_getElem hidx, Option.bind_some, heq]
    rfl

theorem Row.chosen (h : Row c k root) (hk : 0 < k) (entry : Entry R D n) :
    ∃ i mbr items, Chosen root entry [i] mbr items ∧ items.length ≤ c.maxEntries := by
  obtain ⟨i, mbr, items, hchoose, hleaf, hitems⟩ := h.found hk entry.1
  exact ⟨i, mbr, items, ⟨hchoose, hleaf⟩, hitems⟩

omit [Arithmetic R] in
theorem Row.setLeaf (h : Row c k root) {i : Nat} (hleaf : root.leafAt [i] = some (mbr, items))
    (mbr' : BoundingBox R n) {items' : List (Entry R D n)} (hitems : items'.length ≤ c.maxEntries) :
    Row c k (root.setLeaf mbr' items' [i]) := by
  obtain ⟨mbr₀, before, child, after, rfl, rfl, hchild⟩ := leafAt_cons hleaf
  obtain ⟨_, children, heq, hk, hleaves⟩ := h
  rw [RegionTree.internal.injEq] at heq
  obtain ⟨rfl, rfl⟩ := heq
  rw [setLeaf_cons, leafAt_nil hchild]
  refine ⟨_, _, rfl, ?_, ?_⟩
  · rw [← hk, List.length_append, List.length_append, List.length_cons, List.length_cons]
  · intro d hd
    rcases List.mem_append.mp hd with hd | hd
    · exact hleaves d (List.mem_append_left _ hd)
    · rcases List.mem_cons.mp hd with rfl | hd
      · exact ⟨mbr', items', rfl, hitems⟩
      · exact hleaves d (List.mem_append_right _ (List.mem_cons_of_mem _ hd))

/-- A split of the root. -/
theorem growRoot_row (hlen : items.length = c.maxEntries + 1) :
    Row c 2 (growRoot c sorting (.leaf mbr items₀) [] items) := by
  obtain ⟨hkept, hmoved⟩ := splitLeafNode_length c sorting hlen
  rw [growRoot]
  refine ⟨_, _, rfl, rfl, ?_⟩
  intro child hchild
  rcases List.mem_pair.mp hchild with rfl | rfl
  · exact ⟨_, _, rfl, hkept⟩
  · exact ⟨_, _, rfl, hmoved⟩

theorem insertAgain_row (h : Row c k root) (hk : 0 < k) (hroomy : Roomy c root entry) :
    ∃ root', insertAgain c sorting root entry = some root' ∧ Row c k root' := by
  obtain ⟨i, mbr, items, hchosen, _⟩ := h.chosen hk entry
  have hlen : items.length < c.maxEntries :=
    (hroomy [i] hchosen.1 (mbr, items) hchosen.2).resolve_left (List.cons_ne_nil i [])
  refine ⟨_, hchosen.insertAgain, ?_⟩
  rw [if_pos hlen]
  exact h.setLeaf hchosen.2 _ (by rw [List.length_append, List.length_singleton]; omega)

/-- What the forced reinsertion starts from. -/
theorem detach_row (sorting : Sorting) (h : Row c k root) {i : Nat} (hchosen : Chosen root entry [i] mbr items)
    (hitems : items.length ≤ c.maxEntries) (hfull : ¬ items.length < c.maxEntries) :
    Row c k (detach c sorting root [i] (mbr.combined entry.1) (items ++ [entry])).1 := by
  refine h.setLeaf hchosen.2 _ (farthest_length c sorting _ ?_)
  rw [List.length_append, List.length_singleton]
  omega

theorem insertNode_row (h : Row c k root) (hk : 0 < k)
    (hmeets : InsertMeets c sorting (fun _ _ => True) (Roomy c) root entry) :
    ∃ root', insertNode c sorting root entry = some root' ∧ Row c k root' := by
  obtain ⟨i, mbr, items, hchosen, hitems⟩ := h.chosen hk entry
  rw [hchosen.insertNode]
  by_cases hlen : items.length < c.maxEntries
  · rw [if_pos hlen]
    exact ⟨_, rfl, h.setLeaf hchosen.2 _ (by rw [List.length_append, List.length_singleton]; omega)⟩
  · rw [if_neg hlen, if_neg (List.cons_ne_nil i [])]
    have halong := hmeets.2 [i] mbr items hchosen (Nat.le_of_not_lt hlen) (List.cons_ne_nil i [])
    have hrow := detach_row sorting h hchosen hitems hlen
    exact Run.Along.keeps (fun _ _ hrow hroomy => insertAgain_row hrow hk hroomy) halong hrow

theorem insertNode_leaf (h : SmallLeaf c root) (entry : Entry R D n) :
    ∃ root', insertNode c sorting root entry = some root' ∧
      (SmallLeaf c root' ∨ Row c 2 root') := by
  obtain ⟨mbr, items, rfl, hitems⟩ := h
  have hchosen : Chosen (.leaf mbr items) entry [] mbr items := ⟨by rw [chooseSubtree], rfl⟩
  rw [hchosen.insertNode]
  by_cases hlen : items.length < c.maxEntries
  · rw [if_pos hlen]
    refine ⟨_, rfl, .inl ⟨_, _, rfl, ?_⟩⟩
    rw [List.length_append, List.length_singleton]
    omega
  · rw [if_neg hlen, if_pos rfl]
    refine ⟨_, rfl, .inr (growRoot_row ?_)⟩
    rw [List.length_append, List.length_singleton]
    omega

end Rows

section Splits
variable {c : Capacity} {sorting : Sorting} {root root' : Node R D n} {entry : Entry R D n}
  {path : Path} {mbr : BoundingBox R n} {items : List (Entry R D n)} {k : Nat}
  {es : List (Entry R D n)}

/-- A root above two subtrees, with leaves at different depths. -/
def Uneven (t : Node R D n) : Prop :=
  (∃ mbr a b, t = .internal mbr [a, b]) ∧ ∃ d ∈ t.depths, ∃ d' ∈ t.depths, d ≠ d'

omit [Arithmetic R] in
theorem Uneven.setLeaf (h : Uneven root) (mbr : BoundingBox R n) (items : List (Entry R D n))
    (path : Path) : Uneven (root.setLeaf mbr items path) := by
  obtain ⟨⟨mbr₀, a, b, rfl⟩, hdepths⟩ := h
  rw [Uneven, depths_setLeaf]
  refine ⟨?_, hdepths⟩
  match path with
  | [] => exact ⟨mbr₀, a, b, rfl⟩
  | 0 :: _ => exact ⟨mbr₀, _, b, rfl⟩
  | 1 :: _ => exact ⟨mbr₀, a, _, rfl⟩
  | (_ + 2) :: _ => exact ⟨mbr₀, a, b, by simp [RegionTree.setLeaf]⟩

/-- The old tree is one level deeper than the new leaf beside it. -/
theorem depths_growRoot (root : Node R D n) (path : Path) (items : List (Entry R D n)) :
    (growRoot c sorting root path items).depths = root.depths.map (· + 1) ++ [2] := by
  dsimp only [growRoot]
  rw [depths_internal, leavesFrom, leavesFrom, leavesFrom, List.map_append, List.map_append]
  congr 1
  exact congrArg (List.map (· + 1)) (depths_setLeaf _ _ path root)

theorem Uneven.growRoot (h : Uneven root) (path : Path) (items : List (Entry R D n)) :
    Uneven (growRoot c sorting root path items) := by
  obtain ⟨_, d, hd, d', hd', hne⟩ := h
  refine ⟨⟨_, _, _, rfl⟩, ?_⟩
  rw [depths_growRoot]
  refine ⟨d + 1, ?_, d' + 1, ?_, fun heq => hne (Nat.succ_injective heq)⟩
  · exact List.mem_append_left _ (List.mem_map_of_mem hd)
  · exact List.mem_append_left _ (List.mem_map_of_mem hd')

theorem chosen_of_addToLeaf {leaf : Path × BoundingBox R n × List (Entry R D n)}
    (h : addToLeaf root entry = some leaf) : ∃ path mbr items, Chosen root entry path mbr items := by
  rw [addToLeaf, Option.bind_eq_bind, Option.bind_eq_some_iff] at h
  obtain ⟨path, hpath, h⟩ := h
  rw [Option.bind_eq_bind, Option.bind_eq_some_iff] at h
  obtain ⟨⟨mbr, items⟩, hleaf, _⟩ := h
  exact ⟨path, mbr, items, hpath, hleaf⟩

theorem Uneven.insertAgain (h : Uneven root) (hins : insertAgain c sorting root entry = some root') :
    Uneven root' := by
  obtain ⟨leaf, hleaf, _⟩ := Option.bind_eq_some_iff.mp hins
  obtain ⟨path, mbr, items, hchosen⟩ := chosen_of_addToLeaf hleaf
  rw [hchosen.insertAgain, Option.some.injEq] at hins
  rw [← hins]
  split
  · exact h.setLeaf _ _ _
  · exact h.growRoot _ _

omit [Arithmetic R] in
theorem foldlM_uneven {step : Node R D n → Entry R D n → Option (Node R D n)}
    (hstep : ∀ root entry root', Uneven root → step root entry = some root' → Uneven root')
    (h : Uneven root) (hrun : es.foldlM step root = some root') : Uneven root' := by
  induction es generalizing root with
  | nil => exact Option.some.inj hrun ▸ h
  | cons e es ih =>
    rw [List.foldlM_cons, Option.bind_eq_bind, Option.bind_eq_some_iff] at hrun
    obtain ⟨root₁, hfirst, hrun⟩ := hrun
    exact ih (hstep root e root₁ h hfirst) hrun

theorem Uneven.insertNode (h : Uneven root) (hins : insertNode c sorting root entry = some root') :
    Uneven root' := by
  obtain ⟨leaf, hleaf, _⟩ := Option.bind_eq_some_iff.mp hins
  obtain ⟨path, mbr, items, hchosen⟩ := chosen_of_addToLeaf hleaf
  rw [hchosen.insertNode] at hins
  split at hins
  · rw [← Option.some.inj hins]
    exact h.setLeaf _ _ _
  · split at hins
    · rw [← Option.some.inj hins]
      exact h.growRoot _ _
    · exact foldlM_uneven (fun _ _ _ huneven hagain => huneven.insertAgain hagain)
        (h.setLeaf _ _ _) hins

/-- A leaf below the root that is split leaves its tree uneven. -/
theorem split_uneven (h : Row c k root) (hk : 0 < k) (hroomy : ¬ Roomy c root entry)
    (hins : insertAgain c sorting root entry = some root') : Uneven root' := by
  obtain ⟨i, mbr, items, hchosen, _⟩ := h.chosen hk entry
  have hfull : ¬ items.length < c.maxEntries := by
    intro hlen
    refine hroomy fun path hpath leaf hleaf => .inr ?_
    rw [Option.some.inj (hpath.symm.trans hchosen.1)] at hleaf
    rwa [Option.some.inj (hleaf.symm.trans hchosen.2)]
  rw [hchosen.insertAgain, if_neg hfull, Option.some.injEq] at hins
  rw [← hins]
  obtain ⟨mbr₀, children, rfl, rfl, hleaves⟩ := h
  refine ⟨⟨_, _, _, rfl⟩, ?_⟩
  rw [depths_growRoot]
  refine ⟨3, ?_, 2, by simp, by decide⟩
  obtain ⟨child, hchild⟩ := List.exists_mem_of_length_pos hk
  obtain ⟨mbr₁, items₁, heq, _⟩ := hleaves child hchild
  rw [depths_internal]
  refine List.mem_append_left _ (List.mem_map.mpr ⟨2, List.mem_map.mpr ⟨1, ?_, rfl⟩, rfl⟩)
  refine List.mem_map.mpr ⟨(1, items₁), mem_leavesFrom.mpr ⟨child, hchild, ?_⟩, rfl⟩
  rw [heq, leaves_leaf]
  exact List.mem_singleton_self _

omit [Arithmetic R] in
/-- Where one of several entries finds no room, the tree ends up uneven. -/
theorem row_uneven {step : Node R D n → Entry R D n → Option (Node R D n)}
    {Ok : Node R D n → Entry R D n → Prop}
    (hok : ∀ root e, Row c k root → Ok root e → ∃ root', step root e = some root' ∧ Row c k root')
    (hbad : ∀ root e root', Row c k root → ¬ Ok root e → step root e = some root' → Uneven root')
    (hkeep : ∀ root e root', Uneven root → step root e = some root' → Uneven root')
    (h : Row c k root) (hnot : ¬ Run.Along step Ok root es)
    (hrun : es.foldlM step root = some root') : Uneven root' := by
  induction es generalizing root with
  | nil => exact absurd trivial hnot
  | cons e es ih =>
    rw [List.foldlM_cons, Option.bind_eq_bind, Option.bind_eq_some_iff] at hrun
    obtain ⟨root₁, hfirst, hrun⟩ := hrun
    by_cases he : Ok root e
    · obtain ⟨root₂, hstep, hrow⟩ := hok root e h he
      obtain rfl := Option.some.inj (hstep.symm.trans hfirst)
      refine ih hrow (fun halong => hnot ⟨he, ?_⟩) hrun
      intro root₃ hstep'
      rwa [← Option.some.inj (hstep.symm.trans hstep')]
    · exact foldlM_uneven hkeep (hbad root e root₁ h he hfirst) hrun

theorem insertAgain_uneven (h : Row c k root) (hk : 0 < k)
    (hnot : ¬ Run.Along (insertAgain c sorting) (Roomy c) root es)
    (hrun : es.foldlM (insertAgain c sorting) root = some root') : Uneven root' :=
  row_uneven (fun _ _ hrow hroomy => insertAgain_row hrow hk hroomy)
    (fun _ _ _ hrow hroomy hins => split_uneven hrow hk hroomy hins)
    (fun _ _ _ huneven hins => huneven.insertAgain hins) h hnot hrun

theorem insertNode_uneven (h : Row c k root) (hk : 0 < k)
    (hnot : ¬ InsertMeets c sorting (fun _ _ => True) (Roomy c) root entry)
    (hins : insertNode c sorting root entry = some root') : Uneven root' := by
  obtain ⟨i, mbr, items, hchosen, hitems⟩ := h.chosen hk entry
  have hagain : ¬ items.length < c.maxEntries ∧ ¬ Run.Along (insertAgain c sorting) (Roomy c)
      (detach c sorting root [i] (mbr.combined entry.1) (items ++ [entry])).1
      (detach c sorting root [i] (mbr.combined entry.1) (items ++ [entry])).2 := by
    by_contra hall
    refine hnot ⟨trivial, ?_⟩
    intro path mbr' items' hchosen' hfull _
    obtain rfl := Option.some.inj (hchosen'.1.symm.trans hchosen.1)
    have heq := Option.some.inj (hchosen'.2.symm.trans hchosen.2)
    rw [Prod.mk.injEq] at heq
    obtain ⟨rfl, rfl⟩ := heq
    by_contra halong
    exact hall ⟨Nat.not_lt.mpr hfull, halong⟩
  rw [hchosen.insertNode, if_neg hagain.1, if_neg (List.cons_ne_nil i [])] at hins
  exact insertAgain_uneven (detach_row sorting h hchosen hitems hagain.1) hk hagain.2 hins

end Splits

section Removal
variable [DecidableEq D] {c : Capacity} {sorting : Sorting} {root root' : Node R D n}
  {entry : Entry R D n} {orphaned : List (Entry R D n)}
  {children children' : List (BoundingBox R n × Node R D n)}

theorem removeRecursive_leaf (h : SmallLeaf c root)
    (hrem : removeRecursive c entry root = some (root', orphaned)) :
    SmallLeaf c root' ∧ orphaned = [] := by
  obtain ⟨mbr, items, rfl, hitems⟩ := h
  rw [removeRecursive] at hrem
  split at hrem
  · rw [Option.some.injEq, Prod.mk.injEq] at hrem
    obtain ⟨rfl, rfl⟩ := hrem
    exact ⟨⟨mbr, _, rfl, (List.length_erase_le).trans hitems⟩, rfl⟩
  · cases hrem

/-- At most one child goes. -/
theorem removeFrom_row (h : ∀ child ∈ children, SmallLeaf c child.2)
    (hrem : removeFrom c entry children = some (children', orphaned)) :
    (∀ child ∈ children', SmallLeaf c child.2) ∧ children'.length ≤ children.length ∧
      children.length ≤ children'.length + 1 := by
  induction children generalizing children' orphaned with
  | nil =>
    rw [removeFrom] at hrem
    cases hrem
  | cons child rest ih =>
    obtain ⟨box, child⟩ := child
    have hrest : ∀ d ∈ rest, SmallLeaf c d.2 := fun d hd => h d (List.mem_cons_of_mem _ hd)
    rw [removeFrom] at hrem
    split at hrem
    · next root' removed hfound =>
      split at hfound
      · obtain ⟨⟨mbr, items, rfl, hitems⟩, _⟩ := removeRecursive_leaf (h _ List.mem_cons_self) hfound
        rw [condenseAfterRemove, Option.some.injEq] at hrem
        split at hrem
        · rw [Prod.mk.injEq] at hrem
          rw [← hrem.1]
          exact ⟨hrest, Nat.le_succ _, le_refl _⟩
        · rw [Prod.mk.injEq] at hrem
          rw [← hrem.1]
          refine ⟨?_, le_refl _, Nat.le_succ _⟩
          intro d hd
          rcases List.mem_cons.mp hd with rfl | hd
          · exact ⟨mbr, items, rfl, hitems⟩
          · exact hrest d hd
      · cases hfound
    · obtain ⟨⟨rest', removed⟩, hfrom, hrem⟩ := Option.bind_eq_some_iff.mp hrem
      rw [Option.pure_def, Option.some.injEq, Prod.mk.injEq] at hrem
      obtain ⟨hsmall, hle, hge⟩ := ih hrest hfrom
      rw [← hrem.1]
      refine ⟨?_, Nat.succ_le_succ hle, Nat.succ_le_succ hge⟩
      intro d hd
      rcases List.mem_cons.mp hd with rfl | hd
      · exact h (box, child) List.mem_cons_self
      · exact hsmall d hd

theorem removeRecursive_row (h : Row c 2 root)
    (hrem : removeRecursive c entry root = some (root', orphaned)) :
    Row c 1 root' ∨ Row c 2 root' := by
  obtain ⟨mbr, children, rfl, hlen, hleaves⟩ := h
  rw [removeRecursive] at hrem
  obtain ⟨⟨children', removed⟩, hfrom, hrem⟩ := Option.bind_eq_some_iff.mp hrem
  rw [Option.pure_def, Option.some.injEq, Prod.mk.injEq] at hrem
  obtain ⟨hsmall, hle, hge⟩ := removeFrom_row hleaves hfrom
  rw [← hrem.1]
  by_cases hone : children'.length = 1
  · exact .inl ⟨_, _, rfl, hone, hsmall⟩
  · exact .inr ⟨_, _, rfl, by omega, hsmall⟩

omit [Arithmetic R] [DecidableEq D] in
theorem collapse_row (h : Row c 1 root ∨ Row c 2 root) :
    SmallLeaf c (collapse root) ∨ Row c 2 (collapse root) := by
  rcases h with ⟨mbr, children, rfl, hlen, hleaves⟩ | ⟨mbr, children, rfl, hlen, hleaves⟩
  · obtain ⟨child, rfl⟩ := List.length_eq_one_iff.mp hlen
    exact .inl (hleaves child (List.mem_singleton_self child))
  · obtain ⟨a, b, rfl⟩ := List.length_eq_two.mp hlen
    exact .inr ⟨mbr, [a, b], rfl, rfl, hleaves⟩

end Removal

section States
variable {c : Capacity} {sorting : Sorting} {t : RTree R D n} {root root' : Node R D n}
  {orphaned : List (Entry R D n)} {k : Nat}

/-- All leaves lie at depth `height()`, no node holds too much or, if it is an inner one,
nothing, and an insertion finds its leaf. -/
structure Structured (c : Capacity) (t : RTree R D n) : Prop where
  leaves : ∀ root, t.root = some root →
    ∀ l ∈ root.leaves, l.1 = t.height ∧ l.2.length ≤ c.maxEntries
  fanOuts : ∀ root, t.root = some root → ∀ k ∈ root.fanOuts, 1 ≤ k ∧ k ≤ c.maxEntries
  found : ∀ root, t.root = some root → ∀ bbox, (chooseSubtree bbox root 0).isSome

/-- One leaf, or two below a root. -/
def Flat (c : Capacity) (t : RTree R D n) : Prop :=
  ∀ root, t.root = some root → SmallLeaf c root ∨ Row c 2 root

theorem Flat.structured (h : Flat c t) : Structured c t := by
  have hcap := c.three_le
  refine ⟨?_, ?_, ?_⟩
  · intro root hroot l hl
    rw [height, hroot]
    rcases h root hroot with ⟨mbr, items, rfl, hitems⟩ | ⟨mbr, children, rfl, hlen, hleaves⟩
    · rw [leaves_leaf] at hl
      rw [List.mem_singleton.mp hl]
      exact ⟨rfl, hitems⟩
    · obtain ⟨a, b, rfl⟩ := List.length_eq_two.mp hlen
      rw [leaves_internal] at hl
      obtain ⟨l', hl', rfl⟩ := List.mem_map.mp hl
      obtain ⟨child, hchild, hmem⟩ := mem_leavesFrom.mp hl'
      obtain ⟨mbr', items, heq, hitems⟩ := hleaves child hchild
      obtain ⟨mbr₁, items₁, heq₁, _⟩ := hleaves a List.mem_cons_self
      rw [heq, leaves_leaf] at hmem
      rw [List.mem_singleton.mp hmem]
      refine ⟨?_, hitems⟩
      obtain ⟨box, a⟩ := a
      obtain rfl := heq₁
      rfl
  · intro root hroot k hk
    rcases h root hroot with ⟨mbr, items, rfl, _⟩ | ⟨mbr, children, rfl, hlen, hleaves⟩
    · rw [RegionTree.fanOuts] at hk
      cases hk
    · rw [RegionTree.fanOuts] at hk
      rcases List.mem_cons.mp hk with rfl | hk
      · omega
      · obtain ⟨child, hchild, hk⟩ := mem_fanOutsFrom.mp hk
        obtain ⟨mbr', items, heq, _⟩ := hleaves child hchild
        rw [heq, RegionTree.fanOuts] at hk
        cases hk
  · intro root hroot bbox
    rcases h root hroot with ⟨mbr, items, rfl, _⟩ | hrow
    · rw [chooseSubtree]
      rfl
    · obtain ⟨i, mbr, items, hchoose, _⟩ := hrow.found Nat.two_pos bbox
      rw [hchoose]
      rfl

omit [Arithmetic R] in
theorem flat_of_root (h : SmallLeaf c root ∨ Row c 2 root) (count : Nat) :
    Flat c ⟨some root, count⟩ := by
  intro root' heq
  rwa [← Option.some.inj heq]

/-- An uneven tree has a leaf that is not at depth `height()`. -/
theorem Uneven.not_structured (h : Uneven root) (hroot : t.root = some root) :
    ¬ Structured c t := by
  intro hstructured
  obtain ⟨_, d, hd, d', hd', hne⟩ := h
  obtain ⟨l, hl, rfl⟩ := List.mem_map.mp hd
  obtain ⟨l', hl', rfl⟩ := List.mem_map.mp hd'
  refine hne ?_
  rw [(hstructured.leaves root hroot l hl).1, (hstructured.leaves root hroot l' hl').1]

omit [Arithmetic R] in
theorem Uneven.collapse (h : Uneven root) : collapse root = root := by
  obtain ⟨⟨mbr, a, b, rfl⟩, _⟩ := h
  rfl

/-- The orphaned entries go in again. -/
theorem reinsert_row (h : Row c k root)
    (hk : 0 < k) (halong : Run.Along (insertNode c sorting)
      (InsertMeets c sorting (fun _ _ => True) (Roomy c)) root orphaned) :
    ∃ root', orphaned.foldlM (insertNode c sorting) root = some root' ∧ Row c k root' :=
  halong.keeps (fun _ _ hrow hmeets => insertNode_row hrow hk hmeets) h

theorem reinsert_uneven (h : Row c k root) (hk : 0 < k) (hnot : ¬ Run.Along (insertNode c sorting)
      (InsertMeets c sorting (fun _ _ => True) (Roomy c)) root orphaned)
    (hrun : orphaned.foldlM (insertNode c sorting) root = some root') : Uneven root' :=
  row_uneven (fun _ _ hrow hmeets => insertNode_row hrow hk hmeets)
    (fun _ _ _ hrow hmeets hins => insertNode_uneven hrow hk hmeets hins)
    (fun _ _ _ huneven hins => huneven.insertNode hins) h hnot hrun

end States

section Runs
variable [DecidableEq D] {c : Capacity} {sorting : Sorting} {t t' : RTree R D n} {op : Op R D n}

/-- No leaf but the root is split. -/
abbrev SplitsRootOnly (c : Capacity) (sorting : Sorting) (t : RTree R D n) (op : Op R D n) : Prop :=
  OpMeets c sorting (fun _ _ => True) (Roomy c) t op

theorem insert_flat (h : Flat c t) {bbox : BoundingBox R n} {data : D}
    (hop : SplitsRootOnly c sorting t (.insert bbox data)) :
    ∃ t', t.insert c sorting bbox data = some t' ∧ Flat c t' := by
  rw [insert]
  cases hroot : t.root with
  | none =>
    refine ⟨_, rfl, flat_of_root (.inl ⟨_, _, rfl, ?_⟩) _⟩
    exact Nat.le_trans (Nat.le_add_left 1 2) c.three_le
  | some root =>
    have hins : ∃ root', insertNode c sorting root (bbox, data) = some root' ∧
        (SmallLeaf c root' ∨ Row c 2 root') := by
      rcases h root hroot with hleaf | hrow
      · exact insertNode_leaf hleaf (bbox, data)
      · obtain ⟨root', hins, hrow'⟩ := insertNode_row hrow Nat.two_pos (hop root hroot)
        exact ⟨root', hins, .inr hrow'⟩
    obtain ⟨root', hins, hflat⟩ := hins
    refine ⟨⟨some root', t.dataCount + 1⟩, ?_, flat_of_root hflat _⟩
    dsimp only
    rw [hins]
    rfl

theorem remove_flat (h : Flat c t) {bbox : BoundingBox R n} {data : D}
    (hop : SplitsRootOnly c sorting t (.remove bbox data)) :
    ∃ t' found, t.remove c sorting bbox data = some (t', found) ∧ Flat c t' := by
  rw [remove]
  cases hroot : t.root with
  | none => exact ⟨t, false, rfl, h⟩
  | some root =>
    dsimp only
    cases hrem : removeRecursive c (bbox, data) root with
    | none => exact ⟨t, false, rfl, h⟩
    | some r =>
      obtain ⟨root₁, orphaned⟩ := r
      have hrun : ∃ root₂, orphaned.foldlM (insertNode c sorting) root₁ = some root₂ ∧
          (SmallLeaf c (collapse root₂) ∨ Row c 2 (collapse root₂)) := by
        rcases h root hroot with hleaf | hrow
        · obtain ⟨hleaf₁, rfl⟩ := removeRecursive_leaf hleaf hrem
          obtain ⟨mbr, items, rfl, hitems⟩ := hleaf₁
          exact ⟨_, rfl, .inl ⟨mbr, items, rfl, hitems⟩⟩
        · rcases removeRecursive_row hrow hrem with hrow₁ | hrow₁
          · obtain ⟨root₂, hrun, hrow₂⟩ :=
              reinsert_row hrow₁ Nat.one_pos (hop root root₁ orphaned hroot hrem)
            exact ⟨root₂, hrun, collapse_row (.inl hrow₂)⟩
          · obtain ⟨root₂, hrun, hrow₂⟩ :=
              reinsert_row hrow₁ Nat.two_pos (hop root root₁ orphaned hroot hrem)
            exact ⟨root₂, hrun, collapse_row (.inr hrow₂)⟩
      obtain ⟨root₂, hrun, hflat⟩ := hrun
      refine ⟨⟨some (collapse root₂), t.dataCount - 1⟩, true, ?_, flat_of_root hflat _⟩
      dsimp only
      rw [hrun]
      rfl

theorem insert_uneven (h : Flat c t) {bbox : BoundingBox R n} {data : D}
    (hop : ¬ SplitsRootOnly c sorting t (.insert bbox data))
    (hins : t.insert c sorting bbox data = some t') : ¬ Structured c t' := by
  obtain ⟨root, hop⟩ := not_forall.mp hop
  obtain ⟨hroot, hnot⟩ := Classical.not_imp.mp hop
  rw [insert, hroot] at hins
  obtain ⟨root', hnode, hins⟩ := Option.bind_eq_some_iff.mp hins
  obtain rfl := Option.some.inj hins
  rcases h root hroot with ⟨mbr, items, rfl, _⟩ | hrow
  · refine absurd ⟨trivial, ?_⟩ hnot
    intro path mbr' items' hchosen _ hne
    rw [Chosen, chooseSubtree, Option.some.injEq] at hchosen
    exact absurd hchosen.1.symm hne
  · exact (insertNode_uneven hrow Nat.two_pos hnot hnode).not_structured rfl

theorem remove_uneven (h : Flat c t) {bbox : BoundingBox R n} {data : D} {found : Bool}
    (hop : ¬ SplitsRootOnly c sorting t (.remove bbox data))
    (hrun : t.remove c sorting bbox data = some (t', found)) : ¬ Structured c t' := by
  have hbad : ∃ root root₁ orphaned, t.root = some root ∧
      removeRecursive c (bbox, data) root = some (root₁, orphaned) ∧
      ¬ Run.Along (insertNode c sorting)
        (InsertMeets c sorting (fun _ _ => True) (Roomy c)) root₁ orphaned := by
    by_contra hall
    refine hop fun root root₁ orphaned hroot hrem => ?_
    by_contra halong
    exact hall ⟨root, root₁, orphaned, hroot, hrem, halong⟩
  obtain ⟨root, root₁, orphaned, hroot, hrem, hnot⟩ := hbad
  rw [remove, hroot] at hrun
  dsimp only at hrun
  rw [hrem] at hrun
  obtain ⟨root₂, hnodes, hrun⟩ := Option.bind_eq_some_iff.mp hrun
  rw [Option.pure_def, Option.some.injEq, Prod.mk.injEq] at hrun
  have huneven : Uneven root₂ := by
    rcases h root hroot with hleaf | hrow
    · obtain ⟨_, rfl⟩ := removeRecursive_leaf hleaf hrem
      exact absurd trivial hnot
    · rcases removeRecursive_row hrow hrem with hrow₁ | hrow₁
      · exact reinsert_uneven hrow₁ Nat.one_pos hnot hnodes
      · exact reinsert_uneven hrow₁ Nat.two_pos hnot hnodes
  rw [← hrun.1]
  refine huneven.not_structured ?_
  rw [huneven.collapse]

theorem step_flat (h : Flat c t) (hop : SplitsRootOnly c sorting t op) :
    ∃ t' r, step c sorting t op = some (t', r) ∧ Flat c t' := by
  cases op with
  | insert bbox data =>
    obtain ⟨t', hins, hflat⟩ := insert_flat h hop
    exact ⟨t', none, by rw [step, hins]; rfl, hflat⟩
  | remove bbox data =>
    obtain ⟨t', found, hrem, hflat⟩ := remove_flat h hop
    exact ⟨t', some found, by rw [step, hrem]; rfl, hflat⟩

theorem step_uneven (h : Flat c t) (hop : ¬ SplitsRootOnly c sorting t op) {r : Option Bool}
    (hstep : step c sorting t op = some (t', r)) : ¬ Structured c t' := by
  cases op with
  | insert bbox data =>
    obtain ⟨t₁, hins, hstep⟩ := Option.bind_eq_some_iff.mp hstep
    rw [Option.pure_def, Option.some.injEq, Prod.mk.injEq] at hstep
    rw [← hstep.1]
    exact insert_uneven h hop hins
  | remove bbox data =>
    obtain ⟨⟨t₁, found⟩, hrem, hstep⟩ := Option.bind_eq_some_iff.mp hstep
    rw [Option.pure_def, Option.some.injEq, Prod.mk.injEq] at hstep
    rw [← hstep.1]
    exact remove_uneven h hop hrem

/-- The tree keeps its shape exactly as long as no leaf below the root is split. -/
theorem structured_iff (ops : List (Op R D n)) :
    Run.Stays (step c sorting) (Structured c) (empty R D n) ops ↔
      Run.Meets (step c sorting) (SplitsRootOnly c sorting) (empty R D n) ops :=
  Run.stays_iff (fun _ h => h.structured) (fun _ _ h hop => step_flat h hop)
    (fun _ _ h hop _ _ hstep => step_uneven h hop hstep) ops (by intro root hroot; cases hroot)

/-- The last entry pushes one out of its leaf that finds only this leaf again. -/
def crowded : List (Op ℚ Nat 0) :=
  [.insert (point 0) 0, .insert (point 1) 1, .insert (point 10) 2, .insert (point 11) 3,
    .insert (point 12) 4, .insert (segment 10 16 (by decide)) 5]

theorem not_structured_crowded :
    ¬ Run.Stays (step three Sorting.insertion) (Structured three) (empty ℚ Nat 0) crowded := by
  intro h
  obtain ⟨t, rs, hrun, hstructured⟩ := h crowded (List.prefix_refl _)
  have hshape : (Run.exec (step three Sorting.insertion) (empty ℚ Nat 0) crowded).map
      (fun r => (r.1.root.map RegionTree.depths, r.1.height)) = some (some [3, 3, 2], 3) := by
    decide +kernel
  rw [hrun, Option.map_some, Option.some.injEq, Prod.mk.injEq] at hshape
  obtain ⟨root, hroot, hdepths⟩ := Option.map_eq_some_iff.mp hshape.1
  obtain ⟨l, hl, htwo⟩ := List.mem_map.mp (hdepths ▸ by decide : 2 ∈ root.depths)
  have hheight := (hstructured.leaves root hroot l hl).1
  rw [htwo, hshape.2] at hheight
  cases hheight

end Runs

end Cppforge.Spatial.RTree
