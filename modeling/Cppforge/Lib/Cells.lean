import Mathlib.Logic.Function.Basic
import Mathlib.Data.List.Basic
import Mathlib.Data.List.Nodup

namespace Cells

/-- A node that owns the one behind it and points back to the one in front. -/
structure Node (α β : Type) where
  data : β
  next : Option α
  prev : Option α
deriving DecidableEq

/-- The live nodes by address. -/
abbrev Heap (α β : Type) := α → Option (Node α β)

variable {α β : Type} {h h' : Heap α β} {p n q : Option α} {L A B : List (α × β)}

/-- The address of the first cell. -/
def first (L : List (α × β)) : Option α := L.head?.map Prod.fst

/-- The address of the last cell. -/
def last (L : List (α × β)) : Option α := L.getLast?.map Prod.fst

/-- The cells `L` lie in the heap, linked both ways, from `p` on the left to `n` on the right. -/
def Seg (h : Heap α β) (p : Option α) : List (α × β) → Option α → Prop
  | [], _ => True
  | c :: L, n => h c.1 = some ⟨c.2, (first L).or n, p⟩ ∧ Seg h (some c.1) L n

theorem first_append : first (A ++ B) = (first A).or (first B) := by
  cases A with
  | nil => rfl
  | cons c A => rfl

theorem last_append : last (A ++ B) = (last B).or (last A) := by
  rw [last, List.getLast?_append, last, last]
  cases B.getLast? <;> rfl

@[simp] theorem last_concat (A : List (α × β)) (c : α × β) : last (A ++ [c]) = some c.1 := by
  rw [last_append]
  rfl

@[simp] theorem last_cons_cons (c d : α × β) (L : List (α × β)) :
    last (c :: d :: L) = last (d :: L) := by
  rw [last, List.getLast?_cons_cons, last]

theorem seg_append : Seg h p (A ++ B) n ↔
    Seg h p A ((first B).or n) ∧ Seg h ((last A).or p) B n := by
  induction A generalizing p with
  | nil => simp [Seg, last]
  | cons c A ih =>
    have hlast : (last (c :: A)).or p = (last A).or (some c.1) := by
      have := last_append (A := [c]) (B := A)
      rw [List.singleton_append] at this
      rw [this]
      cases last A <;> rfl
    simp only [List.cons_append, Seg, ih, hlast, first_append, Option.or_assoc, and_assoc]

theorem Seg.congr (hs : Seg h p L n) (hsame : ∀ c ∈ L, h' c.1 = h c.1) : Seg h' p L n := by
  induction L generalizing p with
  | nil => trivial
  | cons c L ih =>
    obtain ⟨hc, hL⟩ := hs
    exact ⟨(hsame c List.mem_cons_self).trans hc,
      ih hL (fun d hd => hsame d (List.mem_cons_of_mem _ hd))⟩

/-- The cells from an address on, at most `fuel` of them. -/
def walk (fuel : Nat) (h : Heap α β) : Option α → Option (List (α × β))
  | none => some []
  | some a => match fuel with
    | 0 => none
    | fuel + 1 => do
      let node ← h a
      let rest ← walk fuel h node.next
      return (a, node.data) :: rest

theorem walk_seg (hs : Seg h p L none) {fuel : Nat} (hf : L.length ≤ fuel) :
    walk fuel h (first L) = some L := by
  induction L generalizing p fuel with
  | nil => cases fuel <;> rfl
  | cons c L ih =>
    obtain ⟨hc, hL⟩ := hs
    cases fuel with
    | zero => simp at hf
    | succ fuel =>
      have hrest := ih hL (by simpa using hf)
      simp [first, walk, hc] at hrest ⊢
      simp [hrest]

section Writes
variable [DecidableEq α]

/-- A write to the node at an address; `none` if there is none. -/
def modify (h : Heap α β) (a : α) (f : Node α β → Node α β) : Option (Heap α β) := do
  let node ← h a
  return Function.update h a (some (f node))

/-- The node at an owning pointer is deleted, and with it all that it owns. -/
def destroy (fuel : Nat) (h : Heap α β) : Option α → Option (Heap α β)
  | none => some h
  | some a => match fuel with
    | 0 => none
    | fuel + 1 => do
      let node ← h a
      destroy fuel (Function.update h a none) node.next

/-- `a->next_ = std::move(p)`: what the pointer owned before is deleted. -/
def assignNext (fuel : Nat) (h : Heap α β) (a : α) (p : Option α) : Option (Heap α β) := do
  let node ← h a
  destroy fuel (Function.update h a (some { node with next := p })) node.next

/-- Deleting a whole segment: exactly its cells go. -/
theorem destroy_seg (hs : Seg h p L none) (hd : (L.map Prod.fst).Nodup) {fuel : Nat}
    (hf : L.length ≤ fuel) :
    ∃ h', destroy fuel h (first L) = some h' ∧ (∀ a ∈ L.map Prod.fst, h' a = none) ∧
      ∀ a, a ∉ L.map Prod.fst → h' a = h a := by
  induction L generalizing h p fuel with
  | nil =>
    refine ⟨h, ?_, nofun, fun _ _ => rfl⟩
    cases fuel <;> rfl
  | cons c L ih =>
    obtain ⟨hc, hL⟩ := hs
    obtain ⟨hcL, hd⟩ := List.nodup_cons.mp hd
    have hne : ∀ d ∈ L, d.1 ≠ c.1 := by
      intro d hdL he
      exact hcL (he ▸ List.mem_map_of_mem hdL)
    cases fuel with
    | zero => simp at hf
    | succ fuel =>
      have hL' : Seg (Function.update h c.1 none) (some c.1) L none :=
        hL.congr (fun d hdL => Function.update_of_ne (hne d hdL) _ _)
      obtain ⟨h', hdestroy, hgone, hkept⟩ := ih hL' hd (by simpa using hf)
      refine ⟨h', ?_, ?_, ?_⟩
      · rw [Option.or_none] at hc
        simp only [first, List.head?_cons, Option.map_some, destroy, hc, Option.bind_eq_bind,
          Option.bind_some]
        exact hdestroy
      · intro a ha
        rcases List.mem_cons.mp ha with rfl | ha
        · rw [hkept _ hcL, Function.update_self]
        · exact hgone a ha
      · intro a ha
        obtain ⟨hac, haL⟩ := not_or.mp (fun hor => ha (List.mem_cons.mpr hor))
        rw [hkept a haL, Function.update_of_ne hac]

/-- Another successor for the last cell. -/
theorem Seg.set_last {c : α × β} (hs : Seg h p (A ++ [c]) n)
    (hd : ((A ++ [c]).map Prod.fst).Nodup) (q : Option α) :
    Seg (Function.update h c.1 (some ⟨c.2, q, (last A).or p⟩)) p (A ++ [c]) q := by
  obtain ⟨hA, _⟩ := seg_append.mp hs
  refine seg_append.mpr ⟨hA.congr ?_, ?_, trivial⟩
  · intro d hdA
    apply Function.update_of_ne
    intro he
    rw [List.map_append] at hd
    exact (List.nodup_append.mp hd).2.2 d.1 (List.mem_map_of_mem hdA) c.1 (by simp) he
  · simp [first]

/-- Another predecessor for the first cell. -/
theorem Seg.set_first {c : α × β} (hs : Seg h p (c :: B) n)
    (hd : ((c :: B).map Prod.fst).Nodup) (q : Option α) :
    Seg (Function.update h c.1 (some ⟨c.2, (first B).or n, q⟩)) q (c :: B) n := by
  obtain ⟨_, hB⟩ := hs
  refine ⟨by simp, hB.congr ?_⟩
  intro d hdB
  apply Function.update_of_ne
  intro he
  exact (List.nodup_cons.mp hd).1 (he ▸ List.mem_map_of_mem hdB)

/-- A new cell behind the last one. -/
theorem Seg.snoc {c : α × β} {x : α} (hs : Seg h p (A ++ [c]) none)
    (hd : ((A ++ [c]).map Prod.fst).Nodup) (hx : ∀ d ∈ A ++ [c], d.1 ≠ x) (value : β) :
    Seg (Function.update (Function.update h x (some ⟨value, none, some c.1⟩)) c.1
      (some ⟨c.2, some x, (last A).or p⟩)) p ((A ++ [c]) ++ [(x, value)]) none := by
  have hcx : c.1 ≠ x := hx c (List.mem_append_right _ (List.mem_singleton_self c))
  refine seg_append.mpr ⟨?_, ?_, trivial⟩
  · refine Seg.set_last (hs.congr ?_) hd (some x)
    intro d hdA
    exact Function.update_of_ne (hx d hdA) _ _
  · simp [Function.update_of_ne hcx.symm, first]

end Writes

theorem last_reverse (L : List (α × β)) : last L.reverse = first L := by
  rw [last, List.getLast?_reverse, first]

/-- Where one cell leads to another, that one leads back. -/
theorem Seg.next_iff_prev (hs : Seg h none L none) {a b : α} {m k : Node α β}
    (hm : h a = some m) (hk : h b = some k) (ha : a ∈ L.map Prod.fst) (hb : b ∈ L.map Prod.fst) :
    m.next = some b ↔ k.prev = some a := by
  constructor
  · obtain ⟨c, hc, rfl⟩ := List.mem_map.mp ha
    obtain ⟨A, B, rfl⟩ := List.append_of_mem hc
    obtain ⟨_, hnode, hB⟩ := seg_append.mp hs
    rw [hm] at hnode
    cases hnode
    intro hnext
    cases B with
    | nil => cases hnext
    | cons e B =>
      cases hnext
      have he := hB.1
      rw [hk] at he
      cases he
      rfl
  · obtain ⟨c, hc, rfl⟩ := List.mem_map.mp hb
    obtain ⟨A, B, rfl⟩ := List.append_of_mem hc
    obtain ⟨hA, hnode, _⟩ := seg_append.mp hs
    rw [hk] at hnode
    cases hnode
    intro hprev
    rcases List.eq_nil_or_concat A with rfl | ⟨A, d, rfl⟩
    · cases hprev
    · rw [List.concat_eq_append] at hprev hA
      simp only [last_concat, Option.some_or, Option.some.injEq] at hprev
      subst hprev
      have hd := (seg_append.mp hA).2.1
      rw [hm] at hd
      cases hd
      rfl

end Cells
