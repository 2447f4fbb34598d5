import Cppforge.Crypto.MerkleTree
import Mathlib.Data.Set.Function

namespace Cppforge.Crypto.MerkleTree
open Pairing

variable {sha256 : Bytes → Bytes} {leaves : List Bytes} {leaf hash : Bytes} {i : Nat}

/-- The tree of a sequence of leaf hashes. -/
def ofLeaves (sha256 : Bytes → Bytes) (leaves : List Bytes) : MerkleTree where
  levels := if leaves = [] then [] else Pairing.levels (sha256Pair sha256) leaves
  leafCount := leaves.length

/-- The leaf hashes after an operation. -/
def leavesStep (sha256 : Bytes → Bytes) (leaves : List Bytes) : Op → List Bytes
  | .addLeaf dataBlock => leaves ++ [sha256 dataBlock]
  | .addLeafByHash leafHash => leaves ++ [leafHash]
  | .clear => []

/-- The leaf hashes that the constructor and the operations after it leave. -/
def leavesOf (sha256 : Bytes → Bytes) (dataBlocks : List Bytes) (ops : List Op) : List Bytes :=
  ops.foldl (leavesStep sha256) (dataBlocks.map sha256)

theorem rebuildInternalNodes_cons (rest : List (List Bytes)) (h : leaves ≠ []) :
    rebuildInternalNodes sha256 (leaves :: rest) = ofLeaves sha256 leaves := by
  cases leaves with
  | nil => exact absurd rfl h
  | cons leaf leaves => simp [rebuildInternalNodes, ofLeaves]

theorem create_eq (dataBlocks : List Bytes) :
    create sha256 dataBlocks = ofLeaves sha256 (dataBlocks.map sha256) := by
  cases dataBlocks with
  | nil => rfl
  | cons block blocks => exact rebuildInternalNodes_cons [] (List.cons_ne_nil _ _)

theorem addLeafByHash_ofLeaves :
    (ofLeaves sha256 leaves).addLeafByHash sha256 hash = ofLeaves sha256 (leaves ++ [hash]) := by
  by_cases hnil : leaves = []
  · subst hnil
    exact rebuildInternalNodes_cons [] (List.cons_ne_nil hash [])
  · obtain ⟨rest, hrest⟩ := List.head?_eq_some_iff.mp (levels_head? (sha256Pair sha256) leaves)
    simpa [addLeafByHash, ofLeaves, hnil, hrest] using
      rebuildInternalNodes_cons rest (List.append_ne_nil_of_right_ne_nil leaves (List.cons_ne_nil hash []))

theorem step_ofLeaves (op : Op) :
    step sha256 (ofLeaves sha256 leaves) op = ofLeaves sha256 (leavesStep sha256 leaves op) := by
  cases op with
  | addLeaf dataBlock => exact addLeafByHash_ofLeaves
  | addLeafByHash leafHash => exact addLeafByHash_ofLeaves
  | clear => rfl

/-- However a tree was built, it is that of its leaf hashes. -/
theorem build_eq (dataBlocks : List Bytes) (ops : List Op) :
    build sha256 dataBlocks ops = ofLeaves sha256 (leavesOf sha256 dataBlocks ops) := by
  rw [build, leavesOf, create_eq]
  generalize dataBlocks.map sha256 = leaves
  induction ops generalizing leaves with
  | nil => rfl
  | cons op ops ih => simpa [step_ofLeaves] using ih (leavesStep sha256 leaves op)

theorem rootHash_ofLeaves :
    (ofLeaves sha256 leaves).rootHash = (top (sha256Pair sha256) leaves).getD [] := by
  by_cases hnil : leaves = []
  · subst hnil
    simp [ofLeaves, rootHash, top]
  · have htop := levels_getLast? (sha256Pair sha256) leaves
    simp only [ofLeaves, rootHash, hnil, if_false]
    cases hlast : (Pairing.levels (sha256Pair sha256) leaves).getLast? with
    | none => simp [← htop, hlast]
    | some last =>
      cases last with
      | nil => simp [← htop, hlast]
      | cons root rest => simp [← htop, hlast]

theorem leafHash_ofLeaves (h : leaves[i]? = some leaf) :
    (ofLeaves sha256 leaves).leafHash i = .ok leaf := by
  have hnil : leaves ≠ [] := by
    rintro rfl
    simp at h
  simp [leafHash, ofLeaves, hnil, levels_head?, h]

/-- The walk up from a value meets siblings that lead from it to the root. -/
theorem siblingsFrom_levels (sha256 : Bytes → Bytes) (h : leaves[i]? = some leaf) :
    ∃ siblings, siblingsFrom (Pairing.levels (sha256Pair sha256) leaves) i = some siblings ∧
      top (sha256Pair sha256) leaves =
        some (siblings.foldl (join (sha256Pair sha256)) leaf) := by
  fun_induction Pairing.levels (sha256Pair sha256) leaves generalizing i leaf with
  | case1 leaves hlen ih =>
    obtain ⟨side, hside, hnext⟩ := pairUp_neighbour (sha256Pair sha256) h
    obtain ⟨siblings, hwalk, htop⟩ := ih hnext
    obtain ⟨rest, hrest⟩ := List.head?_eq_some_iff.mp
      (levels_head? (sha256Pair sha256) (pairUp (sha256Pair sha256) leaves))
    rw [hrest] at hwalk ⊢
    refine ⟨side :: siblings, by simp [siblingsFrom, hside, hwalk], ?_⟩
    rw [top, if_pos hlen, htop, List.foldl_cons]
  | case2 leaves hlen =>
    refine ⟨[], rfl, ?_⟩
    rcases leaves with _ | ⟨a, _ | ⟨b, rest⟩⟩
    · simp at h
    · cases i with
      | zero => simpa [top] using h
      | succ i => simp at h
    · simp at hlen

theorem getProof_ofLeaves (h : leaves[i]? = some leaf) :
    ∃ proof, (ofLeaves sha256 leaves).getProof i = some (some proof) ∧
      verifyProof sha256 proof leaf (ofLeaves sha256 leaves).rootHash = true := by
  obtain ⟨hi, _⟩ := List.getElem?_eq_some_iff.mp h
  have hnil : leaves ≠ [] := by
    rintro rfl
    simp at h
  obtain ⟨siblings, hwalk, htop⟩ := siblingsFrom_levels sha256 h
  have hlevels : Pairing.levels (sha256Pair sha256) leaves ≠ [] := by
    intro hnone
    simpa [hnone] using levels_head? (sha256Pair sha256) leaves
  refine ⟨⟨i, siblings.map (·.1), siblings.map (·.2)⟩, ?_, ?_⟩
  · simp [getProof, ofLeaves, hnil, hlevels, hi, hwalk]
  · have hzip : (siblings.map (·.1)).zip (siblings.map (·.2)) = siblings := by
      simp [List.zip_map']
    simp [verifyProof, rootHash_ofLeaves, htop, hzip]

/-- Every leaf has a proof that leads to the root, and the root is that of the leaf hashes,
whatever built the tree. -/
theorem proofs_complete (dataBlocks : List Bytes) (ops : List Op) :
    (build sha256 dataBlocks ops).leafCount = (leavesOf sha256 dataBlocks ops).length ∧
    (∀ i < (build sha256 dataBlocks ops).leafCount, ∃ proof leaf,
      (build sha256 dataBlocks ops).getProof i = some (some proof) ∧
      (build sha256 dataBlocks ops).leafHash i = .ok leaf ∧
      (leavesOf sha256 dataBlocks ops)[i]? = some leaf ∧
      verifyProof sha256 proof leaf (build sha256 dataBlocks ops).rootHash = true) ∧
    ∀ dataBlocks' ops', leavesOf sha256 dataBlocks' ops' = leavesOf sha256 dataBlocks ops →
      (build sha256 dataBlocks' ops').rootHash = (build sha256 dataBlocks ops).rootHash := by
  simp only [build_eq]
  refine ⟨rfl, ?_, ?_⟩
  · intro i hi
    have hleaf := List.getElem?_eq_getElem hi
    obtain ⟨proof, hproof, hverify⟩ := getProof_ofLeaves hleaf
    exact ⟨proof, _, hproof, leafHash_ofLeaves hleaf, hleaf, hverify⟩
  · intro dataBlocks' ops' hsame
    rw [hsame]

section Binding
variable {blocks blocks' : List Bytes} {t t' : MerkleTree} {T T' : Pairing.Tree Bytes} {d d' : Nat}

/-- The pairs of hashes that the levels above one are the hashes of. -/
def innerInputs (sha256 : Bytes → Bytes) (level : List Bytes) : List Bytes :=
  if 1 < level.length then
    pairUp (· ++ ·) level ++ innerInputs sha256 (pairUp (sha256Pair sha256) level)
  else []
termination_by level.length
decreasing_by
  rw [length_pairUp]
  omega

/-- The byte strings that are hashed for a tree of data blocks. -/
def inputs (sha256 : Bytes → Bytes) (blocks : List Bytes) : List Bytes :=
  blocks ++ innerInputs sha256 (blocks.map sha256)

/-- The trees of a sequence of data blocks. -/
inductive BuiltFrom (sha256 : Bytes → Bytes) : List Bytes → MerkleTree → Prop
  | create (blocks : List Bytes) : BuiltFrom sha256 blocks (create sha256 blocks)
  | addLeaf {blocks : List Bytes} {t : MerkleTree} (dataBlock : Bytes)
      (h : BuiltFrom sha256 blocks t) :
      BuiltFrom sha256 (blocks ++ [dataBlock]) (t.addLeaf sha256 dataBlock)
  | clear {blocks : List Bytes} {t : MerkleTree} (h : BuiltFrom sha256 blocks t) :
      BuiltFrom sha256 [] t.clear

/-- The hash of a tree over blocks. -/
def digest (sha256 : Bytes → Bytes) (T : Pairing.Tree Bytes) : Bytes := T.eval sha256 (sha256Pair sha256)

/-- The string that a tree's digest is the hash of. -/
def preimage (sha256 : Bytes → Bytes) : Pairing.Tree Bytes → Bytes
  | .leaf block => block
  | .node l r => digest sha256 l ++ digest sha256 r

/-- The strings that the inner nodes of a tree hash. -/
def nodeInputs (sha256 : Bytes → Bytes) : Pairing.Tree Bytes → List Bytes
  | .leaf _ => []
  | .node l r => preimage sha256 (.node l r) :: (nodeInputs sha256 l ++ nodeInputs sha256 r)

theorem digest_eq (T : Pairing.Tree Bytes) : digest sha256 T = sha256 (preimage sha256 T) := by
  cases T with
  | leaf block => rfl
  | node l r => rfl

theorem BuiltFrom.eq_ofLeaves (h : BuiltFrom sha256 blocks t) :
    t = ofLeaves sha256 (blocks.map sha256) := by
  induction h with
  | create blocks => exact create_eq blocks
  | addLeaf dataBlock h ih =>
    rw [ih, List.map_append]
    exact addLeafByHash_ofLeaves
  | clear h ih => rfl

theorem BuiltFrom.rootHash_eq (h : BuiltFrom sha256 blocks t) :
    t.rootHash = ((tree blocks).map (digest sha256)).getD [] := by
  rw [h.eq_ofLeaves, rootHash_ofLeaves, top_eval]
  rfl

theorem top_nodeInputs (ts : List (Pairing.Tree Bytes)) (htop : top Pairing.Tree.node ts = some T) :
    ∀ s ∈ nodeInputs sha256 T, (∃ u ∈ ts, s ∈ nodeInputs sha256 u) ∨
      s ∈ innerInputs sha256 (ts.map (digest sha256)) := by
  fun_induction top Pairing.Tree.node ts with
  | case1 ts hlen ih =>
    have hlevel : (pairUp Pairing.Tree.node ts).map (digest sha256) =
        pairUp (sha256Pair sha256) (ts.map (digest sha256)) := by
      rw [map_pairUp, pairUp_map]
      rfl
    have hpairs : (pairUp Pairing.Tree.node ts).map (preimage sha256) =
        pairUp (· ++ ·) (ts.map (digest sha256)) := by
      rw [map_pairUp, pairUp_map]
      rfl
    intro s hs
    rw [innerInputs, List.length_map, if_pos hlen, List.mem_append, ← hpairs, ← hlevel]
    rcases ih htop s hs with ⟨u, hu, hs⟩ | hs
    · obtain ⟨a, ha, b, hb, rfl⟩ := mem_pairUp hu
      rcases List.mem_cons.mp hs with rfl | hs
      · exact .inr (.inl (List.mem_map_of_mem hu))
      · rcases List.mem_append.mp hs with hs | hs
        · exact .inl ⟨a, ha, hs⟩
        · exact .inl ⟨b, hb, hs⟩
    · exact .inr (.inr hs)
  | case2 ts hlen => exact fun s hs => .inl ⟨T, List.mem_of_head? htop, hs⟩

theorem tree_nodeInputs (h : tree blocks = some T) :
    ∀ s ∈ nodeInputs sha256 T, s ∈ innerInputs sha256 (blocks.map sha256) := by
  intro s hs
  rcases top_nodeInputs _ h s hs with ⟨u, hu, hs⟩ | hs
  · obtain ⟨block, _, rfl⟩ := List.mem_map.mp hu
    simp [nodeInputs] at hs
  · simpa [digest, Function.comp_def, Pairing.Tree.eval] using hs

theorem preimage_mem (T : Pairing.Tree Bytes) : preimage sha256 T ∈ T.leaves ++ nodeInputs sha256 T := by
  cases T with
  | leaf block => simp [preimage, Pairing.Tree.leaves]
  | node l r => simp [nodeInputs]

/-- All that is hashed for a tree over blocks is in a set. -/
def Within (sha256 : Bytes → Bytes) (S : Set Bytes) (T : Pairing.Tree Bytes) : Prop :=
  ∀ s ∈ T.leaves ++ nodeInputs sha256 T, s ∈ S

theorem Within.children {S : Set Bytes} {l r : Pairing.Tree Bytes} (h : Within sha256 S (.node l r)) :
    Within sha256 S l ∧ Within sha256 S r := by
  simp only [Within, Pairing.Tree.leaves, nodeInputs, List.mem_append, List.mem_cons] at h ⊢
  constructor
  · rintro s (hs | hs)
    · exact h s (.inl (.inl hs))
    · exact h s (.inr (.inr (.inl hs)))
  · rintro s (hs | hs)
    · exact h s (.inl (.inr hs))
    · exact h s (.inr (.inr (.inr hs)))

section Injective
variable {S : Set Bytes} (hlen : ∀ s, (sha256 s).length = 32) (hinj : Set.InjOn sha256 S)
include hinj

theorem preimage_eq (hS : Within sha256 S T) (hS' : Within sha256 S T')
    (h : digest sha256 T = digest sha256 T') : preimage sha256 T = preimage sha256 T' := by
  rw [digest_eq, digest_eq] at h
  exact hinj (hS _ (preimage_mem T)) (hS' _ (preimage_mem T')) h

include hlen

theorem digest_children {l r l' r' : Pairing.Tree Bytes} (hS : Within sha256 S (.node l r))
    (hS' : Within sha256 S (.node l' r'))
    (h : digest sha256 (.node l r) = digest sha256 (.node l' r')) :
    digest sha256 l = digest sha256 l' ∧ digest sha256 r = digest sha256 r' :=
  List.append_inj (preimage_eq hinj hS hS' h) (by simp only [digest_eq, hlen])

theorem tree_eq_of_digest (hS : Within sha256 S T) (hS' : Within sha256 S T') (hT : T.Perfect d)
    (hT' : T'.Perfect d) (h : digest sha256 T = digest sha256 T') : T = T' := by
  induction hT generalizing T' with
  | leaf block =>
    cases hT' with
    | leaf block' => exact congrArg Pairing.Tree.leaf (preimage_eq hinj hS hS' h)
  | node hl hr ihl ihr =>
    cases hT' with
    | node hl' hr' =>
      obtain ⟨hleft, hright⟩ := digest_children hlen hinj hS hS' h
      rw [ihl hS.children.1 hS'.children.1 hl' hleft, ihr hS.children.2 hS'.children.2 hr' hright]

/-- Where no block is what an inner node of the other tree hashes, equal digests come from
one depth. -/
theorem depth_eq_of_digest (hS : Within sha256 S T) (hS' : Within sha256 S T')
    (hsep : ∀ b ∈ T.leaves, b ∉ nodeInputs sha256 T')
    (hsep' : ∀ b ∈ T'.leaves, b ∉ nodeInputs sha256 T) (hT : T.Perfect d) (hT' : T'.Perfect d')
    (h : digest sha256 T = digest sha256 T') : d = d' := by
  induction hT generalizing T' d' with
  | leaf block =>
    cases hT' with
    | leaf block' => rfl
    | node hl' hr' =>
      have hpre : block = _ := preimage_eq hinj hS hS' h
      exact absurd (hpre ▸ List.mem_cons_self) (hsep block (List.mem_singleton_self block))
  | node hl hr ihl ihr =>
    cases hT' with
    | leaf block' =>
      have hpre : _ = block' := preimage_eq hinj hS hS' h
      exact absurd (hpre ▸ List.mem_cons_self) (hsep' block' (List.mem_singleton_self block'))
    | node hl' hr' =>
      obtain ⟨hleft, _⟩ := digest_children hlen hinj hS hS' h
      have hdown := ihl hS.children.1 hS'.children.1
        (fun b hb hin => hsep b (List.mem_append_left _ hb)
          (List.mem_cons_of_mem _ (List.mem_append_left _ hin)))
        (fun b hb hin => hsep' b (List.mem_append_left _ hb)
          (List.mem_cons_of_mem _ (List.mem_append_left _ hin))) hl' hleft
      rw [hdown]

end Injective

/-- No block is what an inner node of the other tree hashes. -/
def Separate (sha256 : Bytes → Bytes) (blocks blocks' : List Bytes) : Prop :=
  ∀ b ∈ blocks, b ∉ innerInputs sha256 (blocks'.map sha256)

theorem tree_eq_of_rootHash (hlen : ∀ s, (sha256 s).length = 32)
    (hinj : Set.InjOn sha256 {s | s ∈ inputs sha256 blocks ∨ s ∈ inputs sha256 blocks'})
    (hcase : blocks.length = blocks'.length ∨
      Separate sha256 blocks blocks' ∧ Separate sha256 blocks' blocks)
    (ht : BuiltFrom sha256 blocks t) (ht' : BuiltFrom sha256 blocks' t')
    (h : t.rootHash = t'.rootHash) : tree blocks = tree blocks' := by
  have hlong : ∀ T : Pairing.Tree Bytes, digest sha256 T ≠ [] := by
    intro T hnil
    have hsize := hlen (preimage sha256 T)
    rw [digest_eq] at hnil
    rw [hnil] at hsize
    cases hsize
  rw [ht.rootHash_eq, ht'.rootHash_eq] at h
  cases hT : tree blocks with
  | none =>
    cases hT' : tree blocks' with
    | none => rfl
    | some T' => simp [hT, hT', (hlong T').symm] at h
  | some T =>
    cases hT' : tree blocks' with
    | none => simp [hT, hT', hlong T] at h
    | some T' =>
      obtain ⟨d, hd⟩ := tree_perfect hT
      obtain ⟨d', hd'⟩ := tree_perfect hT'
      have hdigest : digest sha256 T = digest sha256 T' := by simpa [hT, hT'] using h
      have hS : ∀ s ∈ T.leaves ++ nodeInputs sha256 T, s ∈ inputs sha256 blocks :=
        fun s hs => List.mem_append.mpr
          ((List.mem_append.mp hs).imp (tree_leaves hT s) (tree_nodeInputs hT s))
      have hS' : ∀ s ∈ T'.leaves ++ nodeInputs sha256 T', s ∈ inputs sha256 blocks' :=
        fun s hs => List.mem_append.mpr
          ((List.mem_append.mp hs).imp (tree_leaves hT' s) (tree_nodeInputs hT' s))
      have hdepth : d = d' := by
        rcases hcase with hsame | ⟨hsep, hsep'⟩
        · simpa [hT, hT', hd.depth_eq, hd'.depth_eq] using tree_depth hsame
        · exact depth_eq_of_digest hlen hinj (fun s hs => .inl (hS s hs))
            (fun s hs => .inr (hS' s hs))
            (fun b hb hin => hsep b (tree_leaves hT b hb) (tree_nodeInputs hT' b hin))
            (fun b hb hin => hsep' b (tree_leaves hT' b hb) (tree_nodeInputs hT b hin))
            hd hd' hdigest
      rw [tree_eq_of_digest hlen hinj (fun s hs => .inl (hS s hs)) (fun s hs => .inr (hS' s hs))
        hd (hdepth ▸ hd') hdigest]

/-- As many blocks, but other ones, have another root. So have any other blocks, unless they
become the same when each level is padded, or a block is a pair of hashes of the other tree. -/
theorem root_binds (hlen : ∀ s, (sha256 s).length = 32)
    (hinj : Set.InjOn sha256 {s | s ∈ inputs sha256 blocks ∨ s ∈ inputs sha256 blocks'})
    (ht : BuiltFrom sha256 blocks t) (ht' : BuiltFrom sha256 blocks' t') :
    (blocks ≠ blocks' → blocks.length = blocks'.length → t.rootHash ≠ t'.rootHash) ∧
    (Separate sha256 blocks blocks' → Separate sha256 blocks' blocks →
      (t.rootHash = t'.rootHash ↔ padded blocks = padded blocks')) := by
  constructor
  · intro hne hsame hroot
    exact hne (tree_injective hsame (tree_eq_of_rootHash hlen hinj (.inl hsame) ht ht' hroot))
  · intro hsep hsep'
    rw [padded_inj]
    constructor
    · intro hroot
      exact tree_eq_of_rootHash hlen hinj (.inr ⟨hsep, hsep'⟩) ht ht' hroot
    · intro htree
      rw [ht.rootHash_eq, ht'.rootHash_eq, htree]

/-- 32 bytes that depend on all bytes of a string. -/
def checksum (s : Bytes) : Bytes := s.foldl (fun sum b => sum * 31 + b + 7) 1 :: List.replicate 31 0

theorem length_checksum (s : Bytes) : (checksum s).length = 32 := rfl

theorem checksum_injOn {S S' : List Bytes}
    (h : ∀ a ∈ S ++ S', ∀ b ∈ S ++ S', checksum a = checksum b → a = b) :
    Set.InjOn checksum {s | s ∈ S ∨ s ∈ S'} :=
  fun a ha b hb => h a (List.mem_append.mpr ha) b (List.mem_append.mpr hb)

theorem root_binds_three :
    (create checksum [[0], [1], [2]]).rootHash ≠ (create checksum [[2], [1], [0]]).rootHash ∧
    (create checksum [[0], [1], [2]]).rootHash ≠ (create checksum [[0], [1], [2], [3]]).rootHash := by
  constructor
  · exact (root_binds length_checksum (checksum_injOn (by decide +kernel)) (.create _) (.create _)).1
      (by decide) rfl
  · have hiff := (root_binds length_checksum (checksum_injOn (by decide +kernel))
      (.create [[0], [1], [2]]) (.create [[0], [1], [2], [3]])).2
      (by unfold Separate; decide +kernel) (by unfold Separate; decide +kernel)
    rw [ne_eq, hiff]
    decide +kernel

/-- A last block without a neighbour counts twice. -/
theorem root_of_repeated :
    ¬ ∀ (sha256 : Bytes → Bytes) (blocks blocks' : List Bytes), (∀ s, (sha256 s).length = 32) →
      Set.InjOn sha256 {s | s ∈ inputs sha256 blocks ∨ s ∈ inputs sha256 blocks'} →
      blocks ≠ blocks' → (create sha256 blocks).rootHash ≠ (create sha256 blocks').rootHash := by
  intro h
  exact h checksum [[0], [1], [2]] [[0], [1], [2], [2]] length_checksum
    (checksum_injOn (by decide +kernel)) (by decide) (by decide +kernel)

end Binding

section Position
variable {sides : List (Bytes × Bool)} {proof : MerkleProof}

/-- The strings that a verification hashes on its way up. -/
def climbInputs (sha256 : Bytes → Bytes) : Bytes → List (Bytes × Bool) → List Bytes
  | _, [] => []
  | current, side :: sides =>
    join (· ++ ·) current side :: climbInputs sha256 (join (sha256Pair sha256) current side) sides

/-- The strings that `verifyProof` hashes. -/
def proofInputs (sha256 : Bytes → Bytes) (proof : MerkleProof) (leafHash : Bytes) : List Bytes :=
  climbInputs sha256 leafHash (proof.siblings.zip proof.isLeft)

theorem join_sha256Pair (current : Bytes) (side : Bytes × Bool) :
    join (sha256Pair sha256) current side = sha256 (join (· ++ ·) current side) := by
  unfold join
  split
  · rfl
  · rfl

theorem length_pairUp_sha256 (hlen : ∀ s, (sha256 s).length = 32) :
    ∀ node ∈ pairUp (sha256Pair sha256) leaves, node.length = 32 := by
  intro node hnode
  obtain ⟨a, _, b, _, rfl⟩ := mem_pairUp hnode
  exact hlen (a ++ b)

theorem levels_ne_nil : Pairing.levels (sha256Pair sha256) leaves ≠ [] := by
  intro hnil
  simpa [hnil] using levels_head? (sha256Pair sha256) leaves

/-- Where a joined string is that of two children, the side tells which of them was joined. -/
theorem child_of_join {a b current : Bytes} {side : Bytes × Bool} (ha : a.length = 32)
    (hb : b.length = 32) (hside : side.1.length = 32) (h : join (· ++ ·) current side = a ++ b) :
    current = if side.2 then b else a := by
  unfold join at h
  split at h
  · rename_i hfront
    rw [if_pos hfront]
    exact (List.append_inj h (by rw [hside, ha])).2
  · rename_i hfront
    rw [if_neg hfront]
    exact (List.append_inj' h (by rw [hside, hb])).1

/-- What leads to the root through siblings of a node's length is the leaf that the sides lead
down to. The induction goes up the levels: the node above is known, so the string it hashes is. -/
theorem climb_spelled {S : Set Bytes} (hlen : ∀ s, (sha256 s).length = 32)
    (hinj : Set.InjOn sha256 S) (hleaves : ∀ leaf ∈ leaves, leaf.length = 32)
    (hinner : ∀ s ∈ innerInputs sha256 leaves, s ∈ S)
    (hclimb : ∀ s ∈ climbInputs sha256 hash sides, s ∈ S)
    (hsides : ∀ side ∈ sides, side.1.length = 32)
    (hcount : sides.length + 1 = (Pairing.levels (sha256Pair sha256) leaves).length)
    (htop : top (sha256Pair sha256) leaves = some (sides.foldl (join (sha256Pair sha256)) hash)) :
    leaves[spelled leaves.length (sides.map (·.2))]? = some hash := by
  fun_induction Pairing.levels (sha256Pair sha256) leaves generalizing sides hash with
  | case1 leaves hmany ih =>
    cases sides with
    | nil => simp [levels_ne_nil] at hcount
    | cons side sides =>
      rw [innerInputs, if_pos hmany] at hinner
      rw [climbInputs] at hclimb
      rw [top, if_pos hmany] at htop
      have habove := ih (length_pairUp_sha256 hlen)
        (fun s hs => hinner s (List.mem_append_right _ hs))
        (fun s hs => hclimb s (List.mem_cons_of_mem _ hs))
        (fun s hs => hsides s (List.mem_cons_of_mem _ hs)) (by simpa using hcount) htop
      obtain ⟨hp, _⟩ := List.getElem?_eq_some_iff.mp habove
      rw [length_pairUp] at habove hp
      obtain ⟨a, b, ha, hb⟩ := exists_pair hp
      have hnode : a ++ b ∈ S :=
        hinner _ (List.mem_append_left _ (List.mem_of_getElem? (pairUp_getElem? ha hb _)))
      have hstring : join (· ++ ·) hash side = a ++ b := by
        rw [pairUp_getElem? ha hb, Option.some.injEq, join_sha256Pair] at habove
        exact (hinj hnode (hclimb _ List.mem_cons_self) habove).symm
      rw [child_of_join (hleaves a (List.mem_of_getElem? ha)) (hleaves b (List.mem_of_getElem? hb))
        (hsides side List.mem_cons_self) hstring, List.map_cons, spelled]
      split
      · exact hb
      · exact ha
  | case2 leaves hmany =>
    cases sides with
    | nil =>
      rw [top, if_neg hmany] at htop
      rw [List.map_nil, spelled, ← List.head?_eq_getElem?, htop]
      rfl
    | cons side sides => simp at hcount

/-- The sides of a position's own proof lead down to it. -/
theorem spelled_siblingsFrom (hi : i < leaves.length)
    (hwalk : siblingsFrom (Pairing.levels (sha256Pair sha256) leaves) i = some sides) :
    spelled leaves.length (sides.map (·.2)) = i := by
  fun_induction Pairing.levels (sha256Pair sha256) leaves generalizing i sides with
  | case1 leaves hmany ih =>
    obtain ⟨rest, hrest⟩ := List.head?_eq_some_iff.mp
      (levels_head? (sha256Pair sha256) (pairUp (sha256Pair sha256) leaves))
    simp only [hrest, siblingsFrom, Option.bind_eq_bind, Option.bind_eq_some_iff, Option.pure_def,
      Option.some.injEq] at hwalk ih
    obtain ⟨side, hside, siblings, hwalk, rfl⟩ := hwalk
    refine spelled_cons hi (neighbour?_side hside) ?_
    rw [← length_pairUp (sha256Pair sha256)]
    exact ih (by rw [length_pairUp]; omega) hwalk
  | case2 leaves hmany =>
    obtain rfl : [] = sides := by simpa [siblingsFrom] using hwalk
    simp only [List.map_nil, spelled]
    omega

theorem verifyProof_ofLeaves (hne : leaves ≠ [])
    (h : verifyProof sha256 proof hash (ofLeaves sha256 leaves).rootHash = true) :
    proof.siblings.length = proof.isLeft.length ∧ top (sha256Pair sha256) leaves =
      some ((proof.siblings.zip proof.isLeft).foldl (join (sha256Pair sha256)) hash) := by
  unfold verifyProof at h
  split at h
  · cases h
  · rename_i hsame
    refine ⟨not_not.mp hsame, ?_⟩
    cases htop : top (sha256Pair sha256) leaves with
    | none => exact absurd ((top_eq_none _).mp htop) hne
    | some root =>
      rw [eq_of_beq h, rootHash_ofLeaves, htop]
      rfl

/-- An accepted proof with as many siblings as there are levels above the leaves is one of the
leaf that its sides lead down to. The index it carries is not looked at: it is that leaf's where
the sides are those that the tree itself gives for the index. -/
theorem position_sound (dataBlocks : List Bytes) (ops : List Op) (proof : MerkleProof)
    (hash : Bytes)
    (hlen : ∀ s, (sha256 s).length = 32)
    (hinj : Set.InjOn sha256 {s | s ∈ innerInputs sha256 (leavesOf sha256 dataBlocks ops) ∨
      s ∈ proofInputs sha256 proof hash})
    (hleaves : ∀ leaf ∈ leavesOf sha256 dataBlocks ops, leaf.length = 32)
    (hsiblings : ∀ sibling ∈ proof.siblings, sibling.length = 32)
    (hcount : proof.siblings.length + 1 = (build sha256 dataBlocks ops).levels.length)
    (h : verifyProof sha256 proof hash (build sha256 dataBlocks ops).rootHash = true) :
    (build sha256 dataBlocks ops).leafHash
      (spelled (build sha256 dataBlocks ops).leafCount proof.isLeft) = .ok hash ∧
    ∀ own, (build sha256 dataBlocks ops).getProof proof.leafIndex = some (some own) →
      own.isLeft = proof.isLeft →
      (build sha256 dataBlocks ops).leafHash proof.leafIndex = .ok hash := by
  rw [build_eq] at hcount h ⊢
  generalize leavesOf sha256 dataBlocks ops = leaves at hinj hleaves hcount h ⊢
  have hne : leaves ≠ [] := by
    rintro rfl
    simp [ofLeaves] at hcount
  have hlevels : (ofLeaves sha256 leaves).levels = Pairing.levels (sha256Pair sha256) leaves :=
    if_neg hne
  obtain ⟨hsame, htop⟩ := verifyProof_ofLeaves hne h
  have hflags : (proof.siblings.zip proof.isLeft).map (·.2) = proof.isLeft :=
    List.map_snd_zip hsame.ge
  have hspelled := climb_spelled hlen hinj hleaves (fun s hs => .inl hs) (fun s hs => .inr hs)
    (fun side hside => hsiblings _ (List.of_mem_zip hside).1)
    (by rw [List.length_zip, ← hsame, min_self, hcount, hlevels]) htop
  rw [hflags] at hspelled
  refine ⟨leafHash_ofLeaves hspelled, ?_⟩
  intro own hown hsides
  unfold getProof at hown
  split at hown
  · cases hown
  · rename_i hin
    simp only [Option.bind_eq_bind, Option.bind_eq_some_iff, Option.pure_def,
      Option.some.injEq] at hown
    obtain ⟨siblings, hwalk, rfl⟩ := hown
    rw [hlevels] at hwalk
    have hi : proof.leafIndex < leaves.length := not_le.mp fun hout => hin (.inr hout)
    rw [← hsides] at hspelled
    rw [← spelled_siblingsFrom hi hwalk]
    exact leafHash_ofLeaves hspelled

theorem position_sound_second :
    (build checksum [[0], [1], [2]] []).leafHash 2 = .ok (checksum [2]) := by
  let proof : MerkleProof :=
    ⟨2, [checksum [2], checksum (checksum [0] ++ checksum [1])], [false, true]⟩
  exact (position_sound [[0], [1], [2]] [] proof (checksum [2]) length_checksum
    (checksum_injOn (by decide +kernel)) (by decide +kernel) (by decide +kernel)
    (by decide +kernel) (by decide +kernel)).1

/-- The proof of the first leaf is accepted under the index of the second. -/
theorem position_of_other_index :
    ¬ ∀ (sha256 : Bytes → Bytes) (dataBlocks : List Bytes) (ops : List Op) (proof : MerkleProof)
      (hash : Bytes), (∀ s, (sha256 s).length = 32) →
      Set.InjOn sha256 {s | s ∈ innerInputs sha256 (leavesOf sha256 dataBlocks ops) ∨
        s ∈ proofInputs sha256 proof hash} →
      (∀ leaf ∈ leavesOf sha256 dataBlocks ops, leaf.length = 32) →
      (∀ sibling ∈ proof.siblings, sibling.length = 32) →
      proof.siblings.length + 1 = (build sha256 dataBlocks ops).levels.length →
      verifyProof sha256 proof hash (build sha256 dataBlocks ops).rootHash = true →
      (build sha256 dataBlocks ops).leafHash proof.leafIndex = .ok hash := by
  intro h
  have hother := h checksum [[0], [1]] [] ⟨1, [checksum [1]], [false]⟩
    (checksum [0]) length_checksum
    (checksum_injOn (by decide +kernel)) (by decide +kernel) (by decide +kernel)
    (by decide +kernel) (by decide +kernel)
  exact absurd hother (by decide +kernel)

end Position

end Cppforge.Crypto.MerkleTree
