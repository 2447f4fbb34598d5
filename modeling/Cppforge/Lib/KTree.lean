import Cppforge.Lib.Ordered
import Cppforge.Lib.Splice

namespace KTree
open Ordered

/-- A search tree of any fan-out: a node has one more child than separators. -/
inductive Node (L K : Type) where
  | leaf (content : L)
  | internal (keys : List K) (children : List (Node L K))

namespace Node
variable {L K : Type}

mutual
/-- Levels along the first children. -/
def depth : Node L K → Nat
  | .leaf _ => 1
  | .internal _ children => 1 + depthFirst children

def depthFirst : List (Node L K) → Nat
  | [] => 0
  | child :: _ => depth child
end

mutual
def leaves : Node L K → List L
  | .leaf content => [content]
  | .internal _ children => leavesFrom children

def leavesFrom : List (Node L K) → List L
  | [] => []
  | child :: children => leaves child ++ leavesFrom children
end

theorem leavesFrom_append (A B : List (Node L K)) :
    leavesFrom (A ++ B) = leavesFrom A ++ leavesFrom B := by
  induction A with
  | nil => rfl
  | cons c A ih => simp [leavesFrom, ih]

end Node

section Pairs
variable {N K : Type}

/-- Rewrites the children `i` and `i + 1` and the separator between them. -/
def onPair (f : K → N → N → Option (N × K × N)) (keys : List K) (children : List N) (i : Nat) :
    Option (List K × List N) := do
  let left ← children[i]?
  let right ← children[i + 1]?
  let key ← keys[i]?
  let (left, key, right) ← f key left right
  return (keys.set i key, (children.set i left).set (i + 1) right)

/-- Replaces the children `i` and `i + 1` and the separator between them by one child. -/
def joinPair (f : K → N → N → Option N) (keys : List K) (children : List N) (i : Nat) :
    Option (List K × List N) := do
  let left ← children[i]?
  let right ← children[i + 1]?
  let key ← keys[i]?
  let left ← f key left right
  return (keys.eraseIdx i, (children.set i left).eraseIdx (i + 1))

/-- Replaces child `i` by two with a separator between them. -/
def splitAt (f : N → Option (N × K × N)) (keys : List K) (children : List N) (i : Nat) :
    Option (List K × List N) := do
  let child ← children[i]?
  let (left, key, right) ← f child
  return (keys.insertIdx i key, (children.set i left).insertIdx (i + 1) right)

variable {K1 K2 : List K} {k : K} {C1 C2 : List N} {l r : N} {i : Nat}

theorem getElem?_next (hC : C1.length = i) : (C1 ++ l :: r :: C2)[i + 1]? = some r := by
  have happ : C1 ++ l :: r :: C2 = (C1 ++ [l]) ++ r :: C2 := by simp
  rw [happ]
  exact Splice.getElem?_mid (by simp [hC])

theorem set_next (hC : C1.length = i) (x : N) :
    (C1 ++ l :: r :: C2).set (i + 1) x = C1 ++ l :: x :: C2 := by
  have happ : C1 ++ l :: r :: C2 = (C1 ++ [l]) ++ r :: C2 := by simp
  rw [happ, Splice.set_mid (by simp [hC])]
  simp

theorem onPair_eq {f : K → N → N → Option (N × K × N)} {l' r' : N} {k' : K} (hK : K1.length = i)
    (hC : C1.length = i) (hf : f k l r = some (l', k', r')) :
    onPair f (K1 ++ k :: K2) (C1 ++ l :: r :: C2) i =
      some (K1 ++ k' :: K2, C1 ++ l' :: r' :: C2) := by
  simp [onPair, Splice.getElem?_mid hC, getElem?_next hC, Splice.getElem?_mid hK, hf,
    Splice.set_mid hK, Splice.set_mid hC, set_next hC]

theorem joinPair_eq {f : K → N → N → Option N} {m : N} (hK : K1.length = i) (hC : C1.length = i)
    (hf : f k l r = some m) :
    joinPair f (K1 ++ k :: K2) (C1 ++ l :: r :: C2) i = some (K1 ++ K2, C1 ++ m :: C2) := by
  have herase : (C1 ++ m :: r :: C2).eraseIdx (i + 1) = C1 ++ m :: C2 := by
    have happ : C1 ++ m :: r :: C2 = (C1 ++ [m]) ++ r :: C2 := by simp
    rw [happ, Splice.eraseIdx_mid (by simp [hC])]
    simp
  simp [joinPair, Splice.getElem?_mid hC, getElem?_next hC, Splice.getElem?_mid hK, hf,
    Splice.set_mid hC, Splice.eraseIdx_mid hK, herase]

theorem splitAt_eq {f : N → Option (N × K × N)} {c l' r' : N} (hK : K1.length = i)
    (hC : C1.length = i) (hf : f c = some (l', k, r')) :
    splitAt f (K1 ++ K2) (C1 ++ c :: C2) i = some (K1 ++ k :: K2, C1 ++ l' :: r' :: C2) := by
  have hins : (C1 ++ l' :: C2).insertIdx (i + 1) r' = C1 ++ l' :: r' :: C2 := by
    have happ : C1 ++ l' :: C2 = (C1 ++ [l']) ++ C2 := by simp
    rw [happ, Splice.insertIdx_mid (by simp [hC])]
    simp
  simp [splitAt, Splice.getElem?_mid hC, hf, Splice.insertIdx_mid hK, Splice.set_mid hC, hins]

end Pairs

/-- How a tree is read as a sequence: what a leaf and a separator contribute. -/
structure View (L K ι : Type) where
  items : L → List ι
  sep : K → ι

namespace View
variable {L K ι : Type} (v : View L K ι)

mutual
/-- The tree from left to right, with each separator between its neighbours. -/
def flat : Node L K → List ι
  | .leaf content => v.items content
  | .internal keys children => flatFrom keys children

def flatFrom : List K → List (Node L K) → List ι
  | _, [] => []
  | [], c :: _ => flat c
  | k :: ks, c :: cs => flat c ++ v.sep k :: flatFrom ks cs
end

/-- What a run of children with a separator behind each contributes. -/
def before : List K → List (Node L K) → List ι
  | k :: ks, c :: cs => v.flat c ++ v.sep k :: before ks cs
  | _, _ => []

/-- What a run of children with a separator in front of each contributes. -/
def after : List K → List (Node L K) → List ι
  | k :: ks, c :: cs => v.sep k :: (v.flat c ++ after ks cs)
  | _, _ => []

def count : Node L K → Nat
  | .leaf content => (v.items content).length
  | .internal keys _ => keys.length

section Flatten

theorem flatFrom_cons {ks : List K} {cs : List (Node L K)} (c : Node L K)
    (h : cs.length = ks.length) : v.flatFrom ks (c :: cs) = v.flat c ++ v.after ks cs := by
  induction ks generalizing c cs with
  | nil =>
    simp only [flatFrom]
    cases cs <;> simp [after]
  | cons k ks ih =>
    cases cs with
    | nil => cases h
    | cons c' cs =>
      simp only [flatFrom, after]
      rw [ih c' (by simpa using h)]

theorem flatFrom_split {K1 K2 : List K} {C1 C2 : List (Node L K)} (c : Node L K)
    (h1 : C1.length = K1.length) (h2 : C2.length = K2.length) :
    v.flatFrom (K1 ++ K2) (C1 ++ c :: C2) = v.before K1 C1 ++ v.flat c ++ v.after K2 C2 := by
  induction K1 generalizing C1 with
  | nil =>
    have : C1 = [] := List.length_eq_zero_iff.mp h1
    subst C1
    simpa [before] using v.flatFrom_cons c h2
  | cons k K1 ih =>
    cases C1 with
    | nil => cases h1
    | cons c1 C1 =>
      simp only [List.cons_append, flatFrom, before]
      rw [ih (by simpa using h1)]
      simp

theorem flatFrom_last {ks : List K} {cs : List (Node L K)} (c : Node L K)
    (h : cs.length = ks.length) : v.flatFrom ks (cs ++ [c]) = v.before ks cs ++ v.flat c := by
  have hsplit := @flatFrom_split L K ι v ks [] cs [] c h rfl
  simpa [after] using hsplit

/-- Two runs of children with a separator between them. -/
theorem flatFrom_append {K1 K2 : List K} {C1 C2 : List (Node L K)} (k : K)
    (h : C1.length = K1.length + 1) :
    v.flatFrom (K1 ++ k :: K2) (C1 ++ C2) = v.flatFrom K1 C1 ++ v.sep k :: v.flatFrom K2 C2 := by
  induction K1 generalizing C1 with
  | nil =>
    obtain ⟨c, rfl⟩ := List.length_eq_one_iff.mp h
    simp [flatFrom]
  | cons k' K1 ih =>
    cases C1 with
    | nil => cases h
    | cons c C1 =>
      simp only [List.cons_append, flatFrom]
      rw [ih (by simpa using h)]
      simp

theorem flatFrom_snoc {ks : List K} {cs : List (Node L K)} (k : K) (c : Node L K)
    (h : cs.length = ks.length + 1) :
    v.flatFrom (ks ++ [k]) (cs ++ [c]) = v.flatFrom ks cs ++ v.sep k :: v.flat c := by
  rw [v.flatFrom_append k h]
  rfl

theorem before_snoc {ks : List K} {cs : List (Node L K)} (k : K) (c : Node L K)
    (h : cs.length = ks.length) :
    v.before (ks ++ [k]) (cs ++ [c]) = v.before ks cs ++ v.flat c ++ [v.sep k] := by
  induction ks generalizing cs with
  | nil =>
    have : cs = [] := List.length_eq_zero_iff.mp h
    subst cs
    simp [before]
  | cons k' ks ih =>
    cases cs with
    | nil => cases h
    | cons c' cs =>
      simp only [List.cons_append, before]
      rw [ih (by simpa using h)]
      simp

end Flatten
section Shape
variable (order : Nat)

/-- Occupancy and equal depth: a subtree whose leaves lie `h` levels down. The
lower bound of the node itself is left to its parent. -/
def Shape : Nat → Node L K → Prop
  | 0, .leaf content => (v.items content).length ≤ 2 * order - 1
  | h + 1, .internal keys children => keys.length ≤ 2 * order - 1 ∧
      children.length = keys.length + 1 ∧ ∀ c ∈ children, order ≤ v.count c + 1 ∧ Shape h c
  | _, _ => False

/-- What a parent asks of its children. -/
def Fit (h : Nat) (c : Node L K) : Prop := order ≤ v.count c + 1 ∧ v.Shape order h c

/-- An internal node taken apart at one child. -/
structure Parts (h : Nat) (K1 K2 : List K) (C1 : List (Node L K)) (c : Node L K)
    (C2 : List (Node L K)) : Prop where
  left : C1.length = K1.length
  right : C2.length = K2.length
  front : ∀ x ∈ C1, v.Fit order h x
  child : v.Fit order h c
  back : ∀ x ∈ C2, v.Fit order h x

end Shape

variable {v} {order h : Nat}

theorem Shape.depth {node : Node L K} (hs : v.Shape order h node) : node.depth = h + 1 := by
  induction h generalizing node with
  | zero =>
    cases node with
    | leaf content => rfl
    | internal keys children => cases hs
  | succ h ih =>
    cases node with
    | leaf content => cases hs
    | internal keys children =>
      obtain ⟨_, hlen, hkids⟩ := hs
      cases children with
      | nil => cases hlen
      | cons c cs =>
        simp only [Node.depth, Node.depthFirst, ih (hkids c List.mem_cons_self).2]
        omega

theorem Shape.count_le {node : Node L K} (hs : v.Shape order h node) :
    v.count node ≤ 2 * order - 1 := by
  cases h with
  | zero =>
    cases node with
    | leaf content => exact hs
    | internal keys children => cases hs
  | succ h =>
    cases node with
    | leaf content => cases hs
    | internal keys children => exact hs.1

/-- A node of some height above the leaves is internal, one at height zero is a leaf. -/
theorem Shape.cases {node : Node L K} (hs : v.Shape order h node) :
    (∃ content, h = 0 ∧ node = .leaf content ∧ (v.items content).length ≤ 2 * order - 1) ∨
      ∃ h' keys children, h = h' + 1 ∧ node = .internal keys children ∧
        keys.length ≤ 2 * order - 1 ∧ children.length = keys.length + 1 ∧
        ∀ c ∈ children, v.Fit order h' c := by
  cases h with
  | zero =>
    cases node with
    | leaf content => exact .inl ⟨content, rfl, rfl, hs⟩
    | internal keys children => cases hs
  | succ h =>
    cases node with
    | leaf content => cases hs
    | internal keys children => exact .inr ⟨h, keys, children, rfl, rfl, hs⟩

namespace Parts
variable {K1 K2 : List K} {C1 C2 : List (Node L K)} {c : Node L K}

theorem of_shape {keys : List K} {children : List (Node L K)}
    (hs : v.Shape order (h + 1) (.internal keys children)) (hkeys : keys = K1 ++ K2) :
    ∃ C1 c C2, children = C1 ++ c :: C2 ∧ v.Parts order h K1 K2 C1 c C2 := by
  obtain ⟨_, hlen, hkids⟩ := hs
  have hklen := congrArg List.length hkeys
  rw [List.length_append] at hklen
  obtain ⟨C1, c, C2, hchildren, hC1⟩ := Splice.pick (l := children) (i := K1.length) (by omega)
  have hclen := congrArg List.length hchildren
  rw [List.length_append, List.length_cons] at hclen
  subst hchildren
  refine ⟨C1, c, C2, rfl, hC1, by omega, ?_, ?_, ?_⟩
  · intro x hx
    exact hkids x (List.mem_append_left _ hx)
  · exact hkids c (by simp)
  · intro x hx
    exact hkids x (List.mem_append_right _ (List.mem_cons_of_mem _ hx))

theorem flat (p : v.Parts order h K1 K2 C1 c C2) :
    v.flat (.internal (K1 ++ K2) (C1 ++ c :: C2)) =
      v.before K1 C1 ++ v.flat c ++ v.after K2 C2 := by
  rw [View.flat]
  exact v.flatFrom_split c p.left p.right

/-- Putting back another child of the same height. -/
theorem put (p : v.Parts order h K1 K2 C1 c C2) {c' : Node L K} (hc : v.Fit order h c') :
    v.Parts order h K1 K2 C1 c' C2 :=
  ⟨p.left, p.right, p.front, hc, p.back⟩

theorem shape (p : v.Parts order h K1 K2 C1 c C2) (hlen : (K1 ++ K2).length ≤ 2 * order - 1) :
    v.Shape order (h + 1) (.internal (K1 ++ K2) (C1 ++ c :: C2)) := by
  refine ⟨hlen, ?_, ?_⟩
  · simp only [List.length_append, List.length_cons, p.left, p.right]
    omega
  · intro x hx
    rw [List.mem_append, List.mem_cons] at hx
    rcases hx with hx | rfl | hx
    · exact p.front x hx
    · exact p.child
    · exact p.back x hx

variable {K1' K2' : List K} {C1' C2' : List (Node L K)} {k k' : K} {l r : Node L K}

/-- The descent goes on right of a child and a separator, or left of them. -/
theorem step_right (p : v.Parts order h K1 (k :: K2) C1 c (r :: C2)) :
    v.Parts order h (K1 ++ [k]) K2 (C1 ++ [c]) r C2 := by
  refine ⟨by simp [p.left], by simpa using p.right, ?_, p.back r List.mem_cons_self, ?_⟩
  · intro x hx
    rcases List.mem_append.mp hx with hx | hx
    · exact p.front x hx
    · rw [List.mem_singleton.mp hx]
      exact p.child
  · intro x hx
    exact p.back x (List.mem_cons_of_mem _ hx)

theorem step_left (p : v.Parts order h (K1 ++ [k]) K2 (C1 ++ [l]) c C2) :
    v.Parts order h K1 (k :: K2) C1 l (c :: C2) := by
  refine ⟨by simpa using p.left, by simp [p.right], ?_, p.front l (by simp), ?_⟩
  · intro x hx
    exact p.front x (List.mem_append_left _ hx)
  · intro x hx
    rcases List.mem_cons.mp hx with rfl | hx
    · exact p.child
    · exact p.back x hx

/-- A child replaced by two. -/
theorem split (p : v.Parts order h K1 K2 C1 c C2) (k : K) (hl : v.Fit order h l)
    (hr : v.Fit order h r) : v.Parts order h K1 (k :: K2) C1 l (r :: C2) := by
  refine ⟨p.left, by simp [p.right], p.front, hl, ?_⟩
  intro x hx
  rcases List.mem_cons.mp hx with rfl | hx
  · exact hr
  · exact p.back x hx

/-- A child and the next one replaced, or joined. -/
theorem put_pair (p : v.Parts order h K1 (k :: K2) C1 c (r :: C2)) (k' : K) {c' r' : Node L K}
    (hc : v.Fit order h c') (hr : v.Fit order h r') :
    v.Parts order h K1 (k' :: K2) C1 c' (r' :: C2) := by
  refine ⟨p.left, by simpa using p.right, p.front, hc, ?_⟩
  intro x hx
  rcases List.mem_cons.mp hx with rfl | hx
  · exact hr
  · exact p.back x (List.mem_cons_of_mem _ hx)

theorem join_next (p : v.Parts order h K1 (k :: K2) C1 c (r :: C2)) {m : Node L K}
    (hm : v.Fit order h m) : v.Parts order h K1 K2 C1 m C2 :=
  ⟨p.left, by simpa using p.right, p.front, hm, fun x hx => p.back x (List.mem_cons_of_mem _ hx)⟩

/-- The neighbours of a child, where it has any. -/
theorem prev_cases (p : v.Parts order h K1 K2 C1 c C2) (hne : K1 ≠ []) :
    ∃ K k C s, K1 = K ++ [k] ∧ C1 = C ++ [s] ∧ C.length = K.length := by
  have hlen := p.left
  rcases List.eq_nil_or_concat K1 with hnil | ⟨K, k, hK⟩
  · exact absurd hnil hne
  · rcases List.eq_nil_or_concat C1 with hnil | ⟨C, s, hC⟩
    · rw [hnil, hK] at hlen
      simp at hlen
    · rw [hC, hK] at hlen
      exact ⟨K, k, C, s, by simpa using hK, by simpa using hC, by simpa using hlen⟩

theorem next_cases (p : v.Parts order h K1 K2 C1 c C2) (hne : K2 ≠ []) :
    ∃ k K s C, K2 = k :: K ∧ C2 = s :: C := by
  cases K2 with
  | nil => exact absurd rfl hne
  | cons k K =>
    cases C2 with
    | nil => cases p.right
    | cons s C => exact ⟨k, K, s, C, rfl, rfl⟩

end Parts

section Items

/-- The leaves of a run of children, inside what the run contributes. -/
theorem items_before {ks : List K} {cs : List (Node L K)} (hlen : cs.length = ks.length)
    (hcs : ∀ c ∈ cs, (c.leaves.flatMap v.items).Sublist (v.flat c)) :
    ((Node.leavesFrom cs).flatMap v.items).Sublist (v.before ks cs) := by
  induction cs generalizing ks with
  | nil => simp [Node.leavesFrom]
  | cons c cs ih =>
    cases ks with
    | nil => cases hlen
    | cons k ks =>
      have hrest := ih (by simpa using hlen) (fun x hx => hcs x (List.mem_cons_of_mem _ hx))
      simp only [Node.leavesFrom, List.flatMap_append, before]
      exact (hcs c List.mem_cons_self).append (hrest.cons _)

theorem items_after {ks : List K} {cs : List (Node L K)} (hlen : cs.length = ks.length)
    (hcs : ∀ c ∈ cs, (c.leaves.flatMap v.items).Sublist (v.flat c)) :
    ((Node.leavesFrom cs).flatMap v.items).Sublist (v.after ks cs) := by
  induction cs generalizing ks with
  | nil => simp [Node.leavesFrom]
  | cons c cs ih =>
    cases ks with
    | nil => cases hlen
    | cons k ks =>
      have hrest := ih (by simpa using hlen) (fun x hx => hcs x (List.mem_cons_of_mem _ hx))
      simp only [Node.leavesFrom, List.flatMap_append, after]
      exact ((hcs c List.mem_cons_self).append hrest).cons _

theorem Shape.items {node : Node L K} (hs : v.Shape order h node) :
    (node.leaves.flatMap v.items).Sublist (v.flat node) := by
  induction h generalizing node with
  | zero =>
    cases node with
    | leaf content => simp [Node.leaves, flat]
    | internal keys children => cases hs
  | succ h ih =>
    cases node with
    | leaf content => cases hs
    | internal keys children =>
      obtain ⟨_, hlen, hkids⟩ := hs
      cases children with
      | nil => cases hlen
      | cons c cs =>
        simp only [Node.leaves, Node.leavesFrom, List.flatMap_append, flat]
        rw [v.flatFrom_cons c (by simpa using hlen)]
        exact (ih (hkids c List.mem_cons_self).2).append (items_after (by simpa using hlen)
          (fun x hx => ih (hkids x (List.mem_cons_of_mem _ hx)).2))

end Items

section Internal
variable {h : Nat}

/-- A full internal node around its median. -/
theorem halves_internal (ho : 1 ≤ order) {ks : List K} {cs : List (Node L K)}
    (hs : v.Shape order (h + 1) (.internal ks cs)) (hfull : ks.length = 2 * order - 1) :
    ∃ A m B, ks[order - 1]? = some m ∧ ks.take (order - 1) = A ∧
      (ks.drop order).take (order - 1) = B ∧ A.length = order - 1 ∧ B.length = order - 1 ∧
      v.flatFrom ks cs = v.flatFrom A (cs.take order) ++
        v.sep m :: v.flatFrom B ((cs.drop order).take order) ∧
      cs = cs.take order ++ (cs.drop order).take order ∧
      v.Shape order (h + 1) (.internal A (cs.take order)) ∧
      v.Shape order (h + 1) (.internal B ((cs.drop order).take order)) := by
  obtain ⟨_, hlen, hkids⟩ := hs
  obtain ⟨A, m, B, hkeys, hA⟩ := Splice.pick (l := ks) (i := order - 1) (by omega)
  have hB : B.length = order - 1 := by
    have := congrArg List.length hkeys
    rw [List.length_append, List.length_cons] at this
    omega
  obtain ⟨CA, CB, hchildren, hCA⟩ := Splice.cut (l := cs) (i := order) (by omega)
  have hCB : CB.length = order := by
    have := congrArg List.length hchildren
    rw [List.length_append] at this
    omega
  have htake : cs.take order = CA := by
    rw [hchildren]
    exact List.take_left' hCA
  have hdrop : (cs.drop order).take order = CB := by
    rw [hchildren, List.drop_left' hCA, List.take_of_length_le (by omega)]
  rw [htake, hdrop]
  refine ⟨A, m, B, ?_, ?_, ?_, hA, hB, ?_, hchildren, ⟨by omega, by omega, ?_⟩,
    ⟨by omega, by omega, ?_⟩⟩
  · rw [hkeys]
    exact Splice.getElem?_mid hA
  · rw [hkeys]
    exact List.take_left' hA
  · rw [hkeys, Splice.drop_mid (by omega), List.take_of_length_le (by omega)]
  · rw [hkeys, hchildren]
    exact v.flatFrom_append m (by omega)
  · intro x hx
    exact hkids x (by rw [hchildren]; exact List.mem_append_left _ hx)
  · intro x hx
    exact hkids x (by rw [hchildren]; exact List.mem_append_right _ hx)

variable {sk ck : List K} {sc cc : List (Node L K)} {up : K} {moved : Node L K}

/-- The last separator and child of one node moved across to the next. -/
theorem rotateRight_internal (k : K)
    (hs : v.Shape order (h + 1) (.internal (sk ++ [up]) (sc ++ [moved])))
    (hc : v.Shape order (h + 1) (.internal ck cc)) (hroom : ck.length < 2 * order - 1) :
    v.flatFrom (sk ++ [up]) (sc ++ [moved]) = v.flatFrom sk sc ++ v.sep up :: v.flat moved ∧
      v.flatFrom (k :: ck) (moved :: cc) = v.flat moved ++ v.sep k :: v.flatFrom ck cc ∧
      v.Shape order (h + 1) (.internal sk sc) ∧
      v.Shape order (h + 1) (.internal (k :: ck) (moved :: cc)) := by
  obtain ⟨hslen, hsc, hskids⟩ := hs
  obtain ⟨_, hcc, hckids⟩ := hc
  simp only [List.length_append, List.length_singleton] at hslen hsc
  refine ⟨v.flatFrom_snoc up moved (by omega), rfl, ⟨by omega, by omega, ?_⟩,
    ⟨by simp only [List.length_cons]; omega, by simp only [List.length_cons]; omega, ?_⟩⟩
  · intro x hx
    exact hskids x (List.mem_append_left _ hx)
  · intro x hx
    rcases List.mem_cons.mp hx with rfl | hx
    · exact hskids x (by simp)
    · exact hckids x hx

/-- The first separator and child of one node moved across to the previous one. -/
theorem rotateLeft_internal (k : K) (hc : v.Shape order (h + 1) (.internal ck cc))
    (hs : v.Shape order (h + 1) (.internal (up :: sk) (moved :: sc)))
    (hroom : ck.length < 2 * order - 1) :
    v.flatFrom (ck ++ [k]) (cc ++ [moved]) = v.flatFrom ck cc ++ v.sep k :: v.flat moved ∧
      v.flatFrom (up :: sk) (moved :: sc) = v.flat moved ++ v.sep up :: v.flatFrom sk sc ∧
      v.Shape order (h + 1) (.internal (ck ++ [k]) (cc ++ [moved])) ∧
      v.Shape order (h + 1) (.internal sk sc) := by
  obtain ⟨_, hcc, hckids⟩ := hc
  obtain ⟨hslen, hsc, hskids⟩ := hs
  simp only [List.length_cons] at hslen hsc
  refine ⟨v.flatFrom_snoc k moved hcc, rfl,
    ⟨by simp only [List.length_append, List.length_singleton]; omega,
      by simp only [List.length_append, List.length_singleton]; omega, ?_⟩,
    ⟨by omega, by omega, ?_⟩⟩
  · intro x hx
    rcases List.mem_append.mp hx with hx | hx
    · exact hckids x hx
    · rw [List.mem_singleton.mp hx]
      exact hskids moved List.mem_cons_self
  · intro x hx
    exact hskids x (List.mem_cons_of_mem _ hx)

/-- Two internal nodes as one. -/
theorem join_internal (k : K) (hl : v.Shape order (h + 1) (.internal ck cc))
    (hr : v.Shape order (h + 1) (.internal sk sc))
    (hroom : ck.length + sk.length + 1 ≤ 2 * order - 1) :
    v.flatFrom (ck ++ k :: sk) (cc ++ sc) = v.flatFrom ck cc ++ v.sep k :: v.flatFrom sk sc ∧
      v.Shape order (h + 1) (.internal (ck ++ k :: sk) (cc ++ sc)) := by
  obtain ⟨_, hlc, hlkids⟩ := hl
  obtain ⟨_, hrc, hrkids⟩ := hr
  refine ⟨v.flatFrom_append k hlc, ?_, ?_, ?_⟩
  · simp only [List.length_append, List.length_cons]
    omega
  · simp only [List.length_append, List.length_cons]
    omega
  · intro x hx
    rcases List.mem_append.mp hx with hx | hx
    · exact hlkids x hx
    · exact hrkids x hx

end Internal

end View

/-- In strictly increasing order. -/
def Ascending (comp : ι → ι → Bool) (l : List ι) : Prop := l.Pairwise (fun a b => comp a b = true)

section Sequences
variable {comp : ι → ι → Bool} {P Q X Y M : List ι} {x y z : ι}

theorem Ascending.mid (h : Ascending comp (X ++ M ++ Y)) : Ascending comp M :=
  (List.pairwise_append.mp (List.pairwise_append.mp h).1).2.1

/-- A new element at its place. -/
theorem Ascending.insert_cut (hc : StrictWeak comp) (h : Ascending comp (P ++ Q))
    (hP : ∀ e ∈ P, cut comp z e = .lt) (hQ : ∀ e ∈ Q, cut comp z e = .gt) :
    Ascending comp (P ++ z :: Q) := by
  obtain ⟨hp, hq, hpq⟩ := List.pairwise_append.mp h
  refine List.pairwise_append.mpr ⟨hp, List.pairwise_cons.mpr ⟨?_, hq⟩, ?_⟩
  · intro e he
    exact (cut_eq_gt hc).mp (hQ e he)
  · intro e he e' he'
    rcases List.mem_cons.mp he' with rfl | he'
    · exact cut_eq_lt.mp (hP e he)
    · exact hpq e he e' he'

/-- A new element between two neighbours. -/
theorem Ascending.insert_between (hc : StrictWeak comp) (h : Ascending comp (P ++ x :: y :: Q))
    (hx : comp x z = true) (hy : comp z y = true) : Ascending comp (P ++ x :: z :: y :: Q) := by
  have happ : ∀ R : List ι, P ++ x :: R = (P ++ [x]) ++ R := by simp
  rw [happ] at h ⊢
  obtain ⟨hp, hq, _⟩ := List.pairwise_append.mp h
  refine h.insert_cut hc ?_ ?_
  · intro e he
    rcases List.mem_append.mp he with he | he
    · have hex := (List.pairwise_append.mp hp).2.2 e he x List.mem_cons_self
      exact cut_eq_lt.mpr (hc.trans hex hx)
    · rw [List.mem_singleton.mp he]
      exact cut_eq_lt.mpr hx
  · intro e he
    rcases List.mem_cons.mp he with rfl | he
    · exact (cut_eq_gt hc).mpr hy
    · exact (cut_eq_gt hc).mpr (hc.trans hy ((List.pairwise_cons.mp hq).1 e he))

end Sequences

/-- What precedes an element no greater than the key lies below the key. -/
theorem below_of_le {comp : ι → ι → Bool} (hc : StrictWeak comp) {A : List ι} {k key : ι}
    (hA : ∀ e ∈ A, comp e k = true) (hk : comp key k = false) : ∀ e ∈ A, cut comp key e = .lt :=
  fun e he => cut_eq_lt.mpr (hc.lt_of_lt_of_le (hA e he) hk)

/-- What follows an element no less than the key lies above the key. -/
theorem above_of_le {comp : ι → ι → Bool} (hc : StrictWeak comp) {B : List ι} {k key : ι}
    (hB : ∀ e ∈ B, comp k e = true) (hk : comp k key = false) : ∀ e ∈ B, cut comp key e = .gt := by
  intro e he
  exact (cut_eq_gt hc).mpr (hc.lt_of_le_of_lt hk (hB e he))

namespace View
variable {L K ι : Type}

/-- The key a descent is for lies between the two sides of the node. -/
structure Sides (v : View L K ι) (comp : ι → ι → Bool) (key : ι) (K1 K2 : List K)
    (C1 C2 : List (Node L K)) : Prop where
  below : ∀ e ∈ v.before K1 C1, cut comp key e = .lt
  above : ∀ e ∈ v.after K2 C2, cut comp key e = .gt

variable {v : View L K ι} {comp : ι → ι → Bool} {key : ι} {K1 K2 : List K}
  {C1 C2 : List (Node L K)} {c l r : Node L K} {k : K}

/-- The separators next to the child decide for everything beyond them. -/
theorem Sides.of_keys (hc : StrictWeak comp) (hC1 : C1.length = K1.length)
    (ha : Ascending comp (v.before K1 C1 ++ v.flat c ++ v.after K2 C2))
    (hlt : ∀ k ∈ K1, cut comp key (v.sep k) = .lt)
    (hgt : ∀ k ∈ K2.head?, cut comp key (v.sep k) = .gt) : v.Sides comp key K1 K2 C1 C2 := by
  obtain ⟨hfront, hback, _⟩ := List.pairwise_append.mp ha
  constructor
  · rcases List.eq_nil_or_concat K1 with hnil | ⟨K, k, hK⟩
    · subst K1
      simp [before]
    · rcases List.eq_nil_or_concat C1 with hnil | ⟨C, c1, hC⟩
      · rw [hnil, hK] at hC1
        simp at hC1
      · subst K1 C1
        simp only [List.concat_eq_append, List.length_append, List.length_singleton,
          Nat.add_right_cancel_iff] at hC1 hfront hlt ⊢
        rw [v.before_snoc k c1 hC1] at hfront ⊢
        have hlast := (List.pairwise_append.mp (List.pairwise_append.mp hfront).1).2.2
        intro e he
        rcases List.mem_append.mp he with he | he
        · have hek := hlast e he (v.sep k) List.mem_cons_self
          have hkk := cut_eq_lt.mp (hlt k (by simp))
          exact cut_eq_lt.mpr (hc.trans hek hkk)
        · rw [List.mem_singleton.mp he]
          exact hlt k (by simp)
  · cases K2 with
    | nil => simp [after]
    | cons k K2 =>
      cases C2 with
      | nil => simp [after]
      | cons r C2 =>
        simp only [after] at hback ⊢
        have hk := hgt k rfl
        have hfirst := (List.pairwise_cons.mp hback).1
        intro e he
        rcases List.mem_cons.mp he with rfl | he
        · exact hk
        · exact (cut_eq_gt hc).mpr (hc.trans ((cut_eq_gt hc).mp hk) (hfirst e he))

/-- A separator and the child behind it join the back. -/
theorem Sides.push_back (s : v.Sides comp key K1 K2 C1 C2)
    (hgt : ∀ e ∈ v.sep k :: v.flat r, cut comp key e = .gt) :
    v.Sides comp key K1 (k :: K2) C1 (r :: C2) := by
  refine ⟨s.below, ?_⟩
  intro e he
  simp only [after, ← List.cons_append] at he
  rcases List.mem_append.mp he with he | he
  · exact hgt e he
  · exact s.above e he

/-- A child and the separator behind it join the front. -/
theorem Sides.push_front (s : v.Sides comp key K1 K2 C1 C2) (hC1 : C1.length = K1.length)
    (hlt : ∀ e ∈ v.flat l ++ [v.sep k], cut comp key e = .lt) :
    v.Sides comp key (K1 ++ [k]) K2 (C1 ++ [l]) C2 := by
  refine ⟨?_, s.above⟩
  rw [v.before_snoc k l hC1, List.append_assoc]
  intro e he
  rcases List.mem_append.mp he with he | he
  · exact s.below e he
  · exact hlt e he

theorem Sides.pop_front (s : v.Sides comp key (K1 ++ [k]) K2 (C1 ++ [l]) C2)
    (hC1 : C1.length = K1.length) : v.Sides comp key K1 K2 C1 C2 ∧
      ∀ e ∈ v.flat l ++ [v.sep k], cut comp key e = .lt := by
  have hb := s.below
  rw [v.before_snoc k l hC1, List.append_assoc] at hb
  exact ⟨⟨fun e he => hb e (List.mem_append_left _ he), s.above⟩,
    fun e he => hb e (List.mem_append_right _ he)⟩

theorem Sides.pop_back (s : v.Sides comp key K1 (k :: K2) C1 (r :: C2)) :
    v.Sides comp key K1 K2 C1 C2 ∧ ∀ e ∈ v.sep k :: v.flat r, cut comp key e = .gt := by
  have ha := s.above
  simp only [after, ← List.cons_append] at ha
  exact ⟨⟨s.below, fun e he => ha e (List.mem_append_right _ he)⟩,
    fun e he => ha e (List.mem_append_left _ he)⟩

end View
end KTree
