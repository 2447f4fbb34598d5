import Cppforge.Multiway.BPlusTree
import Mathlib.Data.List.Nodup

namespace Cppforge.Multiway.BPlusTree
open Ordered KTree

variable {K V : Type} {comp : K → K → Bool} {order : Nat}

/-- What a tree is made of from left to right. -/
inductive Item (K : Type) where
  | entry (key : K)
  | router (key : K)

def Item.key : Item K → K
  | .entry k => k
  | .router k => k

/-- A routing key comes right before the pair with the same key. -/
def itemLt (comp : K → K → Bool) : Item K → Item K → Bool
  | .router r, .entry k => !comp k r
  | x, y => comp x.key y.key

def layout : View (Leaf K V) K (Item K) := ⟨fun l => l.entries.map (fun e => .entry e.1), .router⟩

section Order

theorem itemLt_strictWeak (hc : StrictWeak comp) : StrictWeak (itemLt comp) := by
  refine ⟨?_, ?_, ?_⟩
  · intro a
    cases a <;> exact hc.irrefl _
  · intro a b c hab hbc
    cases a <;> cases b <;> cases c <;>
      simp only [itemLt, Item.key, Bool.not_eq_true'] at hab hbc ⊢
    · exact hc.trans hab hbc
    · exact hc.trans hab hbc
    · exact hc.lt_of_lt_of_le hab hbc
    · exact hc.trans hab hbc
    · exact hc.le_trans hab (hc.asymm hbc)
    · exact hc.lt_of_le_of_lt hab hbc
    · exact hc.le_trans (hc.asymm hab) hbc
    · exact hc.trans hab hbc
  · intro a c b hac
    cases a <;> cases b <;> cases c <;> simp only [itemLt, Item.key, Bool.not_eq_true'] at hac ⊢
    · exact hc.split _ hac
    · exact hc.split _ hac
    · exact (hc.split _ hac).imp_right hc.asymm
    · exact hc.split _ hac
    · rename_i r k k'
      cases h : comp k r with
      | false => exact .inl rfl
      | true => exact .inr (hc.lt_of_lt_of_le h hac)
    · exact (hc.split _ hac).imp_left hc.asymm
    · rename_i r r' k
      cases h : comp k r' with
      | false => exact .inr rfl
      | true => exact .inl (hc.lt_of_le_of_lt hac h)
    · exact hc.split _ hac

theorem cut_router_lt {key r : K} :
    cut (itemLt comp) (.entry key) (.router r) = .lt ↔ comp key r = false := by
  rw [cut_eq_lt]
  simp [itemLt]

theorem cut_router_gt (hc : StrictWeak comp) {key r : K} :
    cut (itemLt comp) (.entry key) (.router r) = .gt ↔ comp key r = true :=
  cut_eq_gt (itemLt_strictWeak hc)

end Order

section Contents

/-- The pairs of a subtree and the addresses of its leaves, from left to right. -/
def pairs (node : Node K V) : List (K × V) := node.leaves.flatMap Leaf.entries

def addrs (node : Node K V) : List Nat := node.leaves.map Leaf.addr

def pairsFrom (children : List (Node K V)) : List (K × V) :=
  (KTree.Node.leavesFrom children).flatMap Leaf.entries

def addrsFrom (children : List (Node K V)) : List Nat :=
  (KTree.Node.leavesFrom children).map Leaf.addr

@[simp] theorem pairs_leaf (l : Leaf K V) : pairs (.leaf l) = l.entries := by
  simp [pairs, KTree.Node.leaves]

@[simp] theorem addrs_leaf (l : Leaf K V) : addrs (.leaf l) = [l.addr] := rfl

@[simp] theorem pairs_internal (keys : List K) (children : List (Node K V)) :
    pairs (.internal keys children) = pairsFrom children := rfl

@[simp] theorem addrs_internal (keys : List K) (children : List (Node K V)) :
    addrs (.internal keys children) = addrsFrom children := rfl

@[simp] theorem pairsFrom_nil : pairsFrom ([] : List (Node K V)) = [] := rfl

@[simp] theorem addrsFrom_nil : addrsFrom ([] : List (Node K V)) = [] := rfl

@[simp] theorem pairsFrom_cons (c : Node K V) (cs : List (Node K V)) :
    pairsFrom (c :: cs) = pairs c ++ pairsFrom cs := by
  simp [pairsFrom, pairs, KTree.Node.leavesFrom]

@[simp] theorem addrsFrom_cons (c : Node K V) (cs : List (Node K V)) :
    addrsFrom (c :: cs) = addrs c ++ addrsFrom cs := by
  simp [addrsFrom, addrs, KTree.Node.leavesFrom]

@[simp] theorem pairsFrom_append (A B : List (Node K V)) :
    pairsFrom (A ++ B) = pairsFrom A ++ pairsFrom B := by
  simp [pairsFrom, KTree.Node.leavesFrom_append]

@[simp] theorem addrsFrom_append (A B : List (Node K V)) :
    addrsFrom (A ++ B) = addrsFrom A ++ addrsFrom B := by
  simp [addrsFrom, KTree.Node.leavesFrom_append]

@[simp] theorem layout_leaf (l : Leaf K V) :
    layout.flat (.leaf l) = l.entries.map (fun e => Item.entry e.1) := rfl

@[simp] theorem layout_sep (k : K) : (layout : View (Leaf K V) K (Item K)).sep k = .router k := rfl

@[simp] theorem count_leaf (l : Leaf K V) : layout.count (.leaf l) = l.entries.length := by
  simp [View.count, layout]

@[simp] theorem count_internal (keys : List K) (children : List (Node K V)) :
    layout.count (.internal keys children) = keys.length := rfl

@[simp] theorem shape_leaf (l : Leaf K V) :
    layout.Shape order 0 (.leaf l) ↔ l.entries.length ≤ 2 * order - 1 := by
  simp [View.Shape, layout]

theorem count_eq (node : Node K V) : node.count = layout.count node := by
  cases node with
  | leaf l => simp [Node.count]
  | internal keys children => rfl

theorem items_eq (ls : List (Leaf K V)) :
    ls.flatMap layout.items = (ls.flatMap Leaf.entries).map (fun e => Item.entry e.1) := by
  rw [List.map_flatMap]
  rfl

/-- The pairs of a subtree are in order when its layout is. -/
theorem pairs_ascending {h : Nat} {node : Node K V} (hs : layout.Shape order h node)
    (ha : Ascending (itemLt comp) (layout.flat node)) :
    (pairs node).Pairwise (fun a b => comp a.1 b.1 = true) := by
  have hsub := hs.items
  rw [items_eq] at hsub
  exact List.pairwise_map.mp (ha.sublist hsub)

/-- Where a pair lies relative to a key. -/
def place (comp : K → K → Bool) (key : K) (e : K × V) : Ordering := cut comp key e.1

/-- Pairs in order around a key. -/
theorem exists_place (hc : StrictWeak comp) (key : K) {l : List (K × V)}
    (hs : l.Pairwise (fun a b => comp a.1 b.1 = true)) :
    (∃ A e B, l = A ++ e :: B ∧ (∀ x ∈ A, place comp key x = .lt) ∧ place comp key e = .eq ∧
      ∀ x ∈ B, place comp key x = .gt) ∨
    ∃ A B, l = A ++ B ∧ (∀ x ∈ A, place comp key x = .lt) ∧ ∀ x ∈ B, place comp key x = .gt :=
  exists_cut Prod.fst hc key hs

variable {h : Nat} {key : K} {K1 K2 : List K} {C1 C2 : List (Node K V)} {c : Node K V}

theorem place_before (p : layout.Parts order h K1 K2 C1 c C2)
    (s : layout.Sides (itemLt comp) (.entry key) K1 K2 C1 C2) :
    ∀ e ∈ pairsFrom C1, place comp key e = .lt := by
  have hsub := View.items_before p.left (fun c hc => (p.front c hc).2.items)
  rw [items_eq] at hsub
  intro e he
  exact s.below (.entry e.1) (hsub.subset (List.mem_map_of_mem he))

theorem place_after (p : layout.Parts order h K1 K2 C1 c C2)
    (s : layout.Sides (itemLt comp) (.entry key) K1 K2 C1 C2) :
    ∀ e ∈ pairsFrom C2, place comp key e = .gt := by
  have hsub := View.items_after p.right (fun c hc => (p.back c hc).2.items)
  rw [items_eq] at hsub
  intro e he
  exact s.above (.entry e.1) (hsub.subset (List.mem_map_of_mem he))

end Contents

section Leaves

/-- The leaf list visits `L`, and no other address is in use from `fresh` on. -/
def Listed (s : Store) (L : List Nat) : Prop :=
  L.Nodup ∧ (∀ a ∈ L, a < s.fresh) ∧ Chain.Linked s.prev s.next none L none

/-- A part `L` of the leaf list has become `L'`, with the same first leaf. -/
def Relinks (s s' : Store) (L L' : List Nat) : Prop :=
  L'.head? = L.head? ∧ ∀ A B, Listed s (A ++ L ++ B) → Listed s' (A ++ L' ++ B)

theorem Relinks.refl (s : Store) (L : List Nat) : Relinks s s L L := ⟨rfl, fun _ _ h => h⟩

theorem Relinks.trans {s s' s'' : Store} {L L' L'' : List Nat} (h : Relinks s s' L L')
    (h' : Relinks s' s'' L' L'') : Relinks s s'' L L'' :=
  ⟨h'.1.trans h.1, fun A B hl => h'.2 A B (h.2 A B hl)⟩

theorem Relinks.frame {s s' : Store} {L L' : List Nat} (h : Relinks s s' L L') (A B : List Nat) :
    Relinks s s' (A ++ L ++ B) (A ++ L' ++ B) := by
  refine ⟨?_, ?_⟩
  · simp only [List.head?_append, h.1]
  · intro A' B' hl
    have := h.2 (A' ++ A) (B ++ B') (by simpa using hl)
    simpa using this

theorem relinks_setSize (s : Store) (n : Int) (L : List Nat) : Relinks s (s.setSize n) L L :=
  ⟨rfl, fun _ _ h => h⟩

/-- A split puts a new leaf behind the old one. -/
theorem relinks_split (s : Store) (a : Nat) :
    Relinks s (s.alloc.linkAfter a s.fresh) [a] [a, s.fresh] := by
  refine ⟨rfl, ?_⟩
  intro A B ⟨hd, hlt, hl⟩
  simp only [List.append_assoc, List.singleton_append] at hd hlt hl
  have hnew : s.fresh ∉ A ++ a :: B := by
    intro hmem
    exact Nat.lt_irrefl _ (hlt _ hmem)
  have hane : a ≠ s.fresh := by
    intro he
    exact hnew (by simp [he])
  -- the fields the constructor of the new leaf sets are written again by the linking
  have hsame : ∀ x ∈ A ++ a :: B, s.alloc.prev x = s.prev x ∧ s.alloc.next x = s.next x := by
    intro x hx
    have hne : x ≠ s.fresh := fun he => hnew (he ▸ hx)
    simp [Store.alloc, Function.update, hne]
  have hins := (hl.congr hsame).insert hd hnew
  refine ⟨?_, ?_, ?_⟩
  · simp only [List.append_assoc, List.cons_append, List.nil_append]
    simp only [List.nodup_append, List.nodup_cons, List.mem_append, List.mem_cons, not_or] at *
    grind
  · intro x hx
    simp only [List.append_assoc, List.cons_append, List.nil_append, List.mem_append,
      List.mem_cons] at hx
    change x < s.fresh + 1
    rcases hx with hx | rfl | rfl | hx
    · exact Nat.lt_succ_of_lt (hlt x (by simp [hx]))
    · exact Nat.lt_succ_of_lt (hlt x (by simp))
    · omega
    · exact Nat.lt_succ_of_lt (hlt x (by simp [hx]))
  · simp only [List.append_assoc, List.cons_append, List.nil_append]
    exact hins

/-- A merge takes the second of two leaves out. -/
theorem relinks_merge (s : Store) (a b : Nat) : Relinks s (s.unlinkAfter a b) [a, b] [a] := by
  refine ⟨rfl, ?_⟩
  intro A B ⟨hd, hlt, hl⟩
  simp only [List.append_assoc, List.cons_append, List.nil_append] at hd hlt hl
  refine ⟨?_, ?_, ?_⟩
  · simp only [List.append_assoc, List.singleton_append]
    have hsub : (a :: B).Sublist (a :: b :: B) := (List.sublist_cons_self b B).cons_cons a
    exact hd.sublist (hsub.append_left A)
  · intro x hx
    refine hlt x ?_
    simp only [List.append_assoc, List.singleton_append, List.mem_append, List.mem_cons] at hx ⊢
    grind
  · simp only [List.append_assoc, List.singleton_append]
    exact hl.remove hd

theorem find_addr {leaves : List (Leaf K V)} {l : Leaf K V} (hd : (leaves.map Leaf.addr).Nodup)
    (hl : l ∈ leaves) : leaves.find? (fun x => x.addr == l.addr) = some l := by
  cases hx : leaves.find? (fun x => x.addr == l.addr) with
  | none =>
    have := List.find?_eq_none.mp hx l hl
    simp at this
  | some x =>
    have haddr : x.addr = l.addr := by simpa using List.find?_some hx
    rw [List.inj_on_of_nodup_map hd (List.mem_of_find?_eq_some hx) hl haddr]

/-- The walk from the first leaf of a suffix of the list collects the pairs of the suffix. -/
theorem inorderLeaves_eq {leaves P S : List (Leaf K V)} {prev next : Nat → Option Nat}
    {p : Option Nat} (hd : (leaves.map Leaf.addr).Nodup) (hsplit : leaves = P ++ S)
    (hl : Chain.Linked prev next p (S.map Leaf.addr) none) {fuel : Nat} (hf : S.length ≤ fuel) :
    inorderLeaves leaves next fuel (S.map Leaf.addr).head? = some (S.flatMap Leaf.entries) := by
  induction S generalizing P p fuel with
  | nil => cases fuel <;> rfl
  | cons l S ih =>
    cases fuel with
    | zero => simp at hf
    | succ fuel =>
      obtain ⟨_, hnext, hrest⟩ := hl
      rw [Option.or_none] at hnext
      have hfind := find_addr hd (show l ∈ leaves by simp [hsplit])
      have hwalk := ih (show leaves = (P ++ [l]) ++ S by simp [hsplit]) hrest
        (show S.length ≤ fuel by simpa using hf)
      simp only [List.map_cons, List.head?_cons, inorderLeaves, hfind, hnext, hwalk,
        Option.bind_eq_bind, Option.bind_some, List.flatMap_cons]
      rfl

end Leaves

end Cppforge.Multiway.BPlusTree
