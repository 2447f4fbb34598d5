import Cppforge.Lists.LinkedList

namespace Cppforge.Lists.LinkedList
open Cells

variable {T : Type} {l l' : LinkedList T} {L A B : List (Nat × T)} {c d e : Nat × T}

section Shape

/-- The list consists of the cells `L`, linked both ways, and of nothing else. -/
structure Shape (l : LinkedList T) (L : List (Nat × T)) : Prop where
  seg : Seg l.nodes none L none
  head : l.head = first L
  tail : l.tail = last L
  size : l.listSize = L.length
  nodup : (L.map Prod.fst).Nodup
  below : ∀ c ∈ L, c.1 < l.fresh
  live : ∀ a, a ∉ L.map Prod.fst → l.nodes a = none

theorem create_shape : Shape (create : LinkedList T) [] :=
  ⟨trivial, rfl, rfl, rfl, List.nodup_nil, nofun, fun _ _ => rfl⟩

theorem Shape.length_le (h : Shape l L) : L.length ≤ l.fresh := by
  have hsub : L.map Prod.fst ⊆ List.range l.fresh := by
    intro a ha
    obtain ⟨c, hc, rfl⟩ := List.mem_map.mp ha
    exact List.mem_range.mpr (h.below c hc)
  simpa using List.Nodup.length_le_of_subset h.nodup hsub

/-- A traversal meets the cells. -/
theorem Shape.cells_eq (h : Shape l L) : l.cells = some L := by
  rw [cells, h.head]
  exact walk_seg h.seg h.length_le

theorem Shape.iterator_eq (h : Shape l L) (n : Nat) : l.iterator n = some (first (L.drop n)) := by
  rw [iterator, h.cells_eq]
  rfl

theorem Shape.fresh_not (h : Shape l L) (hc : c ∈ L) : c.1 ≠ l.fresh :=
  Nat.ne_of_lt (h.below c hc)

/-- The nodes of a heap are those of the cells, all allocated before `fresh`. -/
structure Owns (nodes : Heap Nat T) (fresh : Nat) (L : List (Nat × T)) : Prop where
  nodup : (L.map Prod.fst).Nodup
  below : ∀ c ∈ L, c.1 < fresh
  live : ∀ a, a ∉ L.map Prod.fst → nodes a = none

theorem Shape.owns (h : Shape l L) : Owns l.nodes l.fresh L := ⟨h.nodup, h.below, h.live⟩

section Owns
variable {nodes nodes' : Heap Nat T} {fresh : Nat} {L' : List (Nat × T)} {value : T}

/-- One cell more, at the next address. -/
theorem Owns.grow (h : Owns nodes fresh L) (hp : L'.Perm ((fresh, value) :: L))
    (hout : ∀ a, a ∉ L'.map Prod.fst → nodes' a = nodes a) : Owns nodes' (fresh + 1) L' := by
  have hkeys : (L'.map Prod.fst).Perm (fresh :: L.map Prod.fst) := hp.map Prod.fst
  refine ⟨hkeys.nodup_iff.mpr (List.nodup_cons.mpr ⟨?_, h.nodup⟩), ?_, ?_⟩
  · intro hm
    obtain ⟨c, hc, he⟩ := List.mem_map.mp hm
    exact Nat.ne_of_lt (h.below c hc) he
  · intro c hc
    rcases List.mem_cons.mp (hp.mem_iff.mp hc) with rfl | hc
    · exact Nat.lt_succ_self _
    · exact Nat.lt_succ_of_lt (h.below c hc)
  · intro a ha
    refine (hout a ha).trans (h.live a ?_)
    intro hm
    exact ha (hkeys.mem_iff.mpr (List.mem_cons_of_mem _ hm))

/-- One cell less. -/
theorem Owns.shrink (h : Owns nodes fresh L) (hp : L.Perm (c :: L')) (hgone : nodes' c.1 = none)
    (hout : ∀ a, a ∉ L'.map Prod.fst → a ≠ c.1 → nodes' a = nodes a) : Owns nodes' fresh L' := by
  have hkeys : (L.map Prod.fst).Perm (c.1 :: L'.map Prod.fst) := hp.map Prod.fst
  refine ⟨(List.nodup_cons.mp (hkeys.nodup_iff.mp h.nodup)).2, ?_, ?_⟩
  · intro x hx
    exact h.below x (hp.mem_iff.mpr (List.mem_cons_of_mem _ hx))
  · intro a ha
    by_cases hac : a = c.1
    · rw [hac, hgone]
    · refine (hout a ha hac).trans (h.live a ?_)
      intro hm
      rcases List.mem_cons.mp (hkeys.mem_iff.mp hm) with he | hm
      · exact hac he
      · exact ha hm

theorem Owns.shape {head tail : Option Nat} {size : Nat} (h : Owns nodes fresh L)
    (hseg : Seg nodes none L none) (hhead : head = first L) (htail : tail = last L)
    (hsize : size = L.length) : Shape ⟨nodes, fresh, head, tail, size⟩ L :=
  ⟨hseg, hhead, htail, hsize, h.nodup, h.below, h.live⟩

end Owns

/-- The cells around one of them lie elsewhere. -/
theorem nodup_mid (h : ((A ++ c :: B).map Prod.fst).Nodup) :
    ((A ++ B).map Prod.fst).Nodup ∧ (∀ x ∈ A ++ B, x.1 ≠ c.1) ∧ ∀ x ∈ A, ∀ y ∈ B, x.1 ≠ y.1 := by
  rw [List.map_append, List.map_cons] at h
  obtain ⟨hA, hcB, hAB⟩ := List.nodup_append.mp h
  obtain ⟨hc, hB⟩ := List.nodup_cons.mp hcB
  have hdisj : ∀ x ∈ A, ∀ y ∈ B, x.1 ≠ y.1 := fun x hx y hy =>
    hAB x.1 (List.mem_map_of_mem hx) y.1 (List.mem_cons_of_mem _ (List.mem_map_of_mem hy))
  refine ⟨?_, ?_, hdisj⟩
  · rw [List.map_append]
    refine List.nodup_append.mpr ⟨hA, hB, ?_⟩
    intro a ha b hb
    exact hAB a ha b (List.mem_cons_of_mem _ hb)
  · intro x hx
    rcases List.mem_append.mp hx with hx | hx
    · exact hAB x.1 (List.mem_map_of_mem hx) c.1 List.mem_cons_self
    · intro he
      exact hc (he ▸ List.mem_map_of_mem hx)

end Shape

section Pointers
variable {nodes : Heap Nat T} {fresh size a b : Nat} {head tail p : Option Nat}
  {node other : Node Nat T}

theorem setPrev_eq (h : nodes a = some node) :
    setPrev ⟨nodes, fresh, head, tail, size⟩ a p =
      some ⟨Function.update nodes a (some { node with prev := p }), fresh, head, tail, size⟩ := by
  simp [setPrev, Cells.modify, h]

theorem takeNext_eq (h : nodes a = some node) :
    takeNext ⟨nodes, fresh, head, tail, size⟩ a =
      some (⟨Function.update nodes a (some { node with next := none }), fresh, head, tail, size⟩,
        node.next) := by
  simp [takeNext, Cells.modify, h]

/-- Nothing is deleted where nothing was owned. -/
theorem assignNext_null (h : nodes a = some node) (hn : node.next = none) :
    assignNext ⟨nodes, fresh, head, tail, size⟩ a p =
      some ⟨Function.update nodes a (some { node with next := p }), fresh, head, tail, size⟩ := by
  simp [assignNext, Cells.assignNext, h, hn, destroy]

/-- A node that owns nothing is deleted alone. -/
theorem assignNext_owned (h : nodes a = some node) (hn : node.next = some b) (hab : a ≠ b)
    (hb : nodes b = some other) (hbn : other.next = none) (hf : 0 < fresh) :
    assignNext ⟨nodes, fresh, head, tail, size⟩ a p =
      some ⟨Function.update (Function.update nodes a (some { node with next := p })) b none, fresh,
        head, tail, size⟩ := by
  obtain ⟨f, rfl⟩ := Nat.exists_eq_succ_of_ne_zero (Nat.ne_of_gt hf)
  simp [assignNext, Cells.assignNext, h, hn, destroy, Function.update_of_ne hab.symm, hb, hbn]

theorem assignHead_null :
    assignHead ⟨nodes, fresh, none, tail, size⟩ p = some ⟨nodes, fresh, p, tail, size⟩ := by
  simp [assignHead, destroy]

theorem assignHead_owned (hb : nodes b = some other) (hbn : other.next = none) (hf : 0 < fresh) :
    assignHead ⟨nodes, fresh, some b, tail, size⟩ p =
      some ⟨Function.update nodes b none, fresh, p, tail, size⟩ := by
  obtain ⟨f, rfl⟩ := Nat.exists_eq_succ_of_ne_zero (Nat.ne_of_gt hf)
  simp [assignHead, destroy, hb, hbn]

end Pointers

section Pushes

theorem pushFront_spec (h : Shape l L) (value : T) :
    ∃ l', l.pushFront value = some l' ∧ Shape l' ((l.fresh, value) :: L) := by
  cases L with
  | nil =>
    have hhead : l.head = none := h.head
    have heq : l.pushFront value = some
        ⟨Function.update l.nodes l.fresh (some ⟨value, none, none⟩), l.fresh + 1, some l.fresh,
          some l.fresh, l.listSize + 1⟩ := by
      simp [pushFront, hhead, makeNode, assignHead_null]
    refine ⟨_, heq, Owns.shape (h.owns.grow (.refl _) ?_) ⟨by simp [first], trivial⟩ rfl rfl
      (by simp [h.size])⟩
    intro a ha
    exact Function.update_of_ne (by simpa using ha) _ _
  | cons c L =>
    have hhead : l.head = some c.1 := h.head
    have hcf := h.fresh_not (List.mem_cons_self : c ∈ c :: L)
    have hc : (Function.update l.nodes l.fresh (some ⟨value, some c.1, none⟩)) c.1 =
        some ⟨c.2, (first L).or none, none⟩ := (Function.update_of_ne hcf _ _).trans h.seg.1
    have heq : l.pushFront value = some
        ⟨Function.update (Function.update l.nodes l.fresh (some ⟨value, some c.1, none⟩)) c.1
          (some ⟨c.2, (first L).or none, some l.fresh⟩), l.fresh + 1, some l.fresh, l.tail,
          l.listSize + 1⟩ := by
      simp [pushFront, hhead, makeNode, setPrev_eq hc, assignHead_null]
    refine ⟨_, heq, Owns.shape (h.owns.grow (.refl _) ?_) ⟨?_, ?_⟩ rfl ?_ (by simp [h.size])⟩
    · intro a ha
      simp only [List.map_cons, List.mem_cons, not_or] at ha
      simp only [Function.update_of_ne ha.1, Function.update_of_ne ha.2.1]
    · simp [Function.update_of_ne hcf.symm, first]
    · refine (Seg.set_first (h.seg.congr ?_) h.nodup (some l.fresh))
      intro d hd
      exact Function.update_of_ne (h.fresh_not hd) _ _
    · rw [last_cons_cons]
      exact h.tail

theorem pushBack_spec (h : Shape l L) (value : T) :
    ∃ l', l.pushBack value = some l' ∧ Shape l' (L ++ [(l.fresh, value)]) := by
  have hperm : (L ++ [(l.fresh, value)]).Perm ((l.fresh, value) :: L) :=
    List.perm_append_singleton _ _
  rcases List.eq_nil_or_concat L with rfl | ⟨A, c, rfl⟩
  · have hhead : l.head = none := h.head
    have htail : l.tail = none := h.tail
    have heq : l.pushBack value = some
        ⟨Function.update l.nodes l.fresh (some ⟨value, none, none⟩), l.fresh + 1, some l.fresh,
          some l.fresh, l.listSize + 1⟩ := by
      simp [pushBack, hhead, htail, makeNode, assignHead_null]
    refine ⟨_, heq, Owns.shape (h.owns.grow hperm ?_) ⟨by simp [first], trivial⟩ rfl rfl
      (by simp [h.size])⟩
    intro a ha
    exact Function.update_of_ne (by simpa using ha) _ _
  · rw [List.concat_eq_append] at *
    have htail : l.tail = some c.1 := by rw [h.tail, last_concat]
    have hcf := h.fresh_not (List.mem_append_right A (List.mem_singleton_self c))
    obtain ⟨hA, hcnode, _⟩ := seg_append.mp h.seg
    have hc : (Function.update l.nodes l.fresh (some ⟨value, none, some c.1⟩)) c.1 =
        some ⟨c.2, none, (last A).or none⟩ := (Function.update_of_ne hcf _ _).trans hcnode
    have heq : l.pushBack value = some
        ⟨Function.update (Function.update l.nodes l.fresh (some ⟨value, none, some c.1⟩)) c.1
          (some ⟨c.2, some l.fresh, (last A).or none⟩), l.fresh + 1, l.head, some l.fresh,
          l.listSize + 1⟩ := by
      simp [pushBack, htail, makeNode, assignNext_null hc rfl]
    refine ⟨_, heq, Owns.shape (h.owns.grow hperm ?_)
      (h.seg.snoc h.nodup (fun d hd => h.fresh_not hd) value) ?_ ?_ (by simp [h.size])⟩
    · intro a ha
      have hac : a ≠ c.1 := by
        rintro rfl
        exact ha (by simp)
      have haf : a ≠ l.fresh := by
        rintro rfl
        exact ha (by simp)
      simp only [Function.update_of_ne hac, Function.update_of_ne haf]
    · simp only [h.head, first_append, Option.or_assoc]
      cases A <;> rfl
    · rw [last_concat]

end Pushes

section Removals

theorem dropHead_spec (h : Shape l (c :: B)) :
    ∃ l', l.dropHead c.1 = some l' ∧ Shape { l' with listSize := l'.listSize - 1 } B := by
  have howns := h.owns
  obtain ⟨nodes, fresh, head, tail, size⟩ := l
  obtain ⟨⟨hc, hB⟩, hhead, htail, hsize, hnodup, hbelow, _⟩ := h
  obtain ⟨hcB, hnodupB⟩ := List.nodup_cons.mp hnodup
  have hne : ∀ x ∈ B, x.1 ≠ c.1 := by
    intro x hx he
    exact hcB (he ▸ List.mem_map_of_mem hx)
  have hpos : 0 < fresh := Nat.zero_lt_of_lt (hbelow c List.mem_cons_self)
  simp only at hc hB hhead htail hsize
  subst hhead hsize
  rw [Option.or_none] at hc
  have hdelete : (Function.update nodes c.1 (some ⟨c.2, none, none⟩)) c.1 =
      some ⟨c.2, none, none⟩ := Function.update_self ..
  cases B with
  | nil =>
    have heq : dropHead ⟨nodes, fresh, first [c], tail, [c].length⟩ c.1 =
        some ⟨Function.update nodes c.1 none, fresh, none, none, 1⟩ := by
      simp [dropHead, takeNext_eq hc, first, assignHead_owned hdelete rfl hpos]
    refine ⟨_, heq, Owns.shape (howns.shrink (.refl _) (Function.update_self ..) ?_) trivial rfl
      rfl rfl⟩
    intro a _ hac
    exact Function.update_of_ne hac _ _
  | cons e B =>
    have hec := hne e List.mem_cons_self
    have he : (Function.update nodes c.1 none) e.1 = some ⟨e.2, (first B).or none, some c.1⟩ :=
      (Function.update_of_ne hec _ _).trans hB.1
    have heq : dropHead ⟨nodes, fresh, first (c :: e :: B), tail, (c :: e :: B).length⟩ c.1 =
        some ⟨Function.update (Function.update nodes c.1 none) e.1
          (some ⟨e.2, (first B).or none, none⟩), fresh, some e.1, tail, (e :: B).length + 1⟩ := by
      simp only [dropHead, takeNext_eq hc, first, List.head?_cons, Option.map_some,
        assignHead_owned hdelete rfl hpos, Function.update_idem, setPrev_eq he,
        Option.bind_eq_bind, Option.bind_some]
      rfl
    refine ⟨_, heq, Owns.shape (howns.shrink (.refl _) ?_ ?_) ?_ rfl ?_ rfl⟩
    · simp only [Function.update_of_ne hec.symm, Function.update_self]
    · intro a ha hac
      have hae : a ≠ e.1 := by
        rintro rfl
        exact ha (by simp)
      simp only [Function.update_of_ne hae, Function.update_of_ne hac]
    · refine Seg.set_first (hB.congr ?_) hnodupB none
      intro x hx
      exact Function.update_of_ne (hne x hx) _ _
    · rw [htail, last_cons_cons]

theorem popFront_spec (h : Shape l (c :: B)) : ∃ l', l.popFront = some l' ∧ Shape l' B := by
  obtain ⟨l', hdrop, hshape⟩ := dropHead_spec h
  exact ⟨_, by simp [popFront, h.head, first, hdrop], hshape⟩

theorem first_concat_append : first (A ++ [d] ++ B) = first (A ++ [d]) := by
  cases A <;> rfl

/-- Erasing a cell behind another one. -/
theorem erase_behind (h : Shape l ((A ++ [d]) ++ c :: B)) :
    ∃ l', l.erase (some c.1) = some (l', first B) ∧ Shape l' ((A ++ [d]) ++ B) := by
  have howns := h.owns
  obtain ⟨nodes, fresh, head, tail, size⟩ := l
  obtain ⟨hseg, hhead, htail, hsize, hnodup, hbelow, _⟩ := h
  obtain ⟨hA, hc, hB⟩ := seg_append.mp hseg
  obtain ⟨hnodupAB, hne, hdisj⟩ := nodup_mid hnodup
  have hdmem : d ∈ (A ++ [d]) := List.mem_append_right _ (List.mem_singleton_self d)
  have hdc : d.1 ≠ c.1 := hne d (List.mem_append_left _ hdmem)
  have hpos : 0 < fresh := Nat.zero_lt_of_lt (hbelow c (by simp))
  have hnodupA : ((A ++ [d]).map Prod.fst).Nodup :=
    hnodupAB.sublist ((List.sublist_append_left _ _).map _)
  have hnodupB : (B.map Prod.fst).Nodup :=
    hnodupAB.sublist ((List.sublist_append_right _ _).map _)
  simp only [last_concat, Option.or_none] at hc hB hhead htail hsize
  have hd : nodes d.1 = some ⟨d.2, some c.1, (last A).or none⟩ := (seg_append.mp hA).2.1
  have hd₁ : (Function.update nodes c.1 (some ⟨c.2, none, some d.1⟩)) d.1 =
      some ⟨d.2, some c.1, (last A).or none⟩ := (Function.update_of_ne hdc _ _).trans hd
  have hc₁ : (Function.update nodes c.1 (some ⟨c.2, none, some d.1⟩)) c.1 =
      some ⟨c.2, none, some d.1⟩ := Function.update_self ..
  -- the heap once `c` is bypassed and deleted
  set bypassed := Function.update (Function.update (Function.update nodes c.1
    (some ⟨c.2, none, some d.1⟩)) d.1 (some ⟨d.2, first B, (last A).or none⟩)) c.1 none
    with hbypassed
  have hleft : Seg bypassed none (A ++ [d]) (first B) := by
    refine (Seg.set_last hA hnodupA (first B)).congr ?_
    intro x hx
    have hxc := hne x (List.mem_append_left _ hx)
    by_cases hxd : x.1 = d.1
    · rw [hxd, hbypassed, Function.update_of_ne hdc, Function.update_self, Function.update_self]
    · simp only [hbypassed, Function.update_of_ne hxc, Function.update_of_ne hxd]
  have hright : ∀ x ∈ B, bypassed x.1 = nodes x.1 := by
    intro x hx
    have hxc := hne x (List.mem_append_right _ hx)
    have hxd := (hdisj d hdmem x hx).symm
    simp only [hbypassed, Function.update_of_ne hxc, Function.update_of_ne hxd]
  have hgone : bypassed c.1 = none := Function.update_self ..
  have hout : ∀ a, a ∉ ((A ++ [d]) ++ B).map Prod.fst → a ≠ c.1 → bypassed a = nodes a := by
    intro a ha hac
    have had : a ≠ d.1 := by
      rintro rfl
      exact ha (List.mem_map_of_mem (List.mem_append_left _ hdmem))
    simp only [hbypassed, Function.update_of_ne hac, Function.update_of_ne had]
  have hlen : size - 1 = ((A ++ [d]) ++ B).length := by
    rw [hsize]
    simp only [List.length_append, List.length_cons]
    omega
  have hhead' : head = first ((A ++ [d]) ++ B) := by
    rw [hhead, first_concat_append, first_concat_append]
  cases B with
  | nil =>
    have heq : erase ⟨nodes, fresh, head, tail, size⟩ (some c.1) =
        some (⟨bypassed, fresh, head, some d.1, size - 1⟩, none) := by
      simp [erase, hc, takeNext_eq hc, assignNext_owned hd₁ rfl hdc hc₁ rfl hpos, hbypassed, first]
    refine ⟨_, heq, Owns.shape (howns.shrink List.perm_middle hgone hout) ?_ hhead' ?_ hlen⟩
    · rw [List.append_nil]
      exact hleft
    · simp
  | cons e B =>
    have hen : bypassed e.1 = some ⟨e.2, (first B).or none, some c.1⟩ :=
      (hright e List.mem_cons_self).trans hB.1
    have heq : erase ⟨nodes, fresh, head, tail, size⟩ (some c.1) =
        some (⟨Function.update bypassed e.1 (some ⟨e.2, (first B).or none, some d.1⟩), fresh, head,
          tail, size - 1⟩, first (e :: B)) := by
      simp only [erase, hc, takeNext_eq hc, assignNext_owned hd₁ rfl hdc hc₁ rfl hpos, first,
        List.head?_cons, Option.map_some, Option.bind_eq_bind, Option.bind_some]
      rw [show some e.1 = first (e :: B) from rfl, ← hbypassed, setPrev_eq hen]
      rfl
    have hec : e.1 ≠ c.1 := hne e (by simp)
    refine ⟨_, heq, Owns.shape (howns.shrink List.perm_middle ?_ ?_) (seg_append.mpr ⟨?_, ?_⟩)
      hhead' ?_ hlen⟩
    · exact (Function.update_of_ne hec.symm _ _).trans hgone
    · intro a ha hac
      have hae : a ≠ e.1 := by
        rintro rfl
        exact ha (by simp)
      exact (Function.update_of_ne hae _ _).trans (hout a ha hac)
    · refine hleft.congr ?_
      intro x hx
      exact Function.update_of_ne (hdisj x hx e List.mem_cons_self) _ _
    · rw [last_concat]
      exact Seg.set_first (hB.congr hright) hnodupB (some d.1)
    · simp only [htail, last_append, last_cons_cons]

/-- `erase` takes out one cell, and returns the place of the next. -/
theorem erase_spec (h : Shape l (A ++ c :: B)) :
    ∃ l', l.erase (some c.1) = some (l', first B) ∧ Shape l' (A ++ B) := by
  rcases List.eq_nil_or_concat A with rfl | ⟨A, d, rfl⟩
  · obtain ⟨l', hdrop, hshape⟩ := dropHead_spec h
    have hc := h.seg.1
    rw [Option.or_none] at hc
    exact ⟨_, by simp [erase, hc, hdrop], hshape⟩
  · rw [List.concat_eq_append] at *
    exact erase_behind h

theorem popBack_spec (h : Shape l (A ++ [c])) : ∃ l', l.popBack = some l' ∧ Shape l' A := by
  have howns := h.owns
  have hperm : (A ++ [c]).Perm (c :: A) := List.perm_append_singleton _ _
  obtain ⟨nodes, fresh, head, tail, size⟩ := l
  obtain ⟨hseg, hhead, htail, hsize, hnodup, hbelow, _⟩ := h
  obtain ⟨hA, hc, _⟩ := seg_append.mp hseg
  obtain ⟨hnodupA, hne, _⟩ := nodup_mid hnodup
  simp only [List.append_nil] at hnodupA hne
  have hpos : 0 < fresh := Nat.zero_lt_of_lt (hbelow c (by simp))
  simp only [last_concat, Option.or_none] at hc hhead htail hsize
  have hsizeA : size - 1 = A.length := by simp [hsize]
  subst htail
  rcases List.eq_nil_or_concat A with rfl | ⟨A, d, rfl⟩
  · have hhead' : head = some c.1 := hhead
    subst hhead'
    have heq : popBack ⟨nodes, fresh, some c.1, some c.1, size⟩ =
        some ⟨Function.update nodes c.1 none, fresh, none, none, size - 1⟩ := by
      simp [popBack, assignHead_owned hc rfl hpos]
    refine ⟨_, heq, Owns.shape (howns.shrink hperm (Function.update_self ..) ?_) trivial rfl rfl
      hsizeA⟩
    intro a _ hac
    exact Function.update_of_ne hac _ _
  · rw [List.concat_eq_append] at *
    have hdmem : d ∈ A ++ [d] := List.mem_append_right _ (List.mem_singleton_self d)
    have hdc := hne d hdmem
    have hd : nodes d.1 = some ⟨d.2, some c.1, (last A).or none⟩ := (seg_append.mp hA).2.1
    have hhead' : head ≠ some c.1 := by
      rw [hhead, first_concat_append]
      cases A with
      | nil =>
        intro he
        exact hdc (Option.some.inj he)
      | cons x A =>
        intro he
        exact hne x List.mem_cons_self (Option.some.inj he)
    have hc' : nodes c.1 = some ⟨c.2, none, some d.1⟩ := by
      rw [hc, last_concat]
      rfl
    have heq : popBack ⟨nodes, fresh, head, some c.1, size⟩ =
        some ⟨Function.update (Function.update nodes d.1 (some ⟨d.2, none, (last A).or none⟩)) c.1
          none, fresh, head, some d.1, size - 1⟩ := by
      simp [popBack, hhead', hc', assignNext_owned hd rfl hdc hc' rfl hpos]
    refine ⟨_, heq, Owns.shape (howns.shrink hperm (Function.update_self ..) ?_) ?_ ?_ ?_ hsizeA⟩
    · intro a ha hac
      have had : a ≠ d.1 := by
        rintro rfl
        exact ha (List.mem_map_of_mem hdmem)
      simp only [Function.update_of_ne hac, Function.update_of_ne had]
    · refine (Seg.set_last hA hnodupA none).congr ?_
      intro x hx
      exact Function.update_of_ne (hne x hx) _ _
    · rw [hhead, first_concat_append]
    · rw [last_concat]

/-- The loop of `remove_if`, with the cells `A` behind it and `B` in front. -/
theorem removeLoop_spec (pred : T → Bool) {fuel : Nat} (h : Shape l (A ++ B))
    (hf : B.length ≤ fuel) (count : Nat) :
    ∃ l', removeLoop pred fuel l (first B) count =
        some (l', count + (B.map Prod.snd).countP pred) ∧
      Shape l' (A ++ B.filter (fun x => !pred x.2)) := by
  induction B generalizing l A fuel count with
  | nil => exact ⟨l, by cases fuel <;> rfl, h⟩
  | cons c B ih =>
    obtain ⟨_, hc, _⟩ := seg_append.mp h.seg
    rw [Option.or_none] at hc
    cases fuel with
    | zero => simp at hf
    | succ fuel =>
      have hf' : B.length ≤ fuel := by simpa using hf
      by_cases hp : pred c.2 = true
      · obtain ⟨l₁, herase, hshape⟩ := erase_spec h
        obtain ⟨l', hloop, hshape'⟩ := ih hshape hf' (count + 1)
        refine ⟨l', ?_, ?_⟩
        · simp only [first, List.head?_cons, Option.map_some, removeLoop, hc, Option.bind_eq_bind,
            Option.bind_some, if_pos hp, herase]
          rw [first] at hloop
          rw [hloop, List.map_cons, List.countP_cons_of_pos hp, Nat.add_assoc, Nat.add_comm 1]
        · rw [List.filter_cons_of_neg (by simp [hp])]
          exact hshape'
      · rw [← List.singleton_append, ← List.append_assoc] at h
        obtain ⟨l', hloop, hshape'⟩ := ih h hf' count
        refine ⟨l', ?_, ?_⟩
        · simp only [first, List.head?_cons, Option.map_some, removeLoop, hc, Option.bind_eq_bind,
            Option.bind_some, if_neg hp]
          rw [first] at hloop
          rw [hloop, List.map_cons, List.countP_cons_of_neg hp]
        · rw [List.filter_cons_of_pos (by simp [hp]), ← List.singleton_append, ← List.append_assoc]
          exact hshape'

theorem removeIf_spec (h : Shape l L) (pred : T → Bool) :
    ∃ l', l.removeIf pred = some (l', (L.map Prod.snd).countP pred) ∧
      Shape l' (L.filter (fun x => !pred x.2)) := by
  obtain ⟨l', hloop, hshape⟩ := removeLoop_spec pred (A := []) h h.length_le 0
  rw [Nat.zero_add] at hloop
  exact ⟨l', by rw [removeIf, h.head]; exact hloop, hshape⟩

/-- `head_.reset()` deletes every cell. -/
theorem clear_spec (h : Shape l L) : ∃ l', l.clear = some l' ∧ Shape l' [] := by
  obtain ⟨nodes, hdestroy, hgone, hkept⟩ := destroy_seg h.seg h.nodup h.length_le
  refine ⟨⟨nodes, l.fresh, none, none, 0⟩, by simp [clear, assignHead, h.head, hdestroy], trivial,
    rfl, rfl, rfl, List.nodup_nil, nofun, ?_⟩
  intro a _
  by_cases ha : a ∈ L.map Prod.fst
  · exact hgone a ha
  · exact (hkept a ha).trans (h.live a ha)

end Removals

section Reversal

/-- The loop of `reverse`: `P` is turned already, `C` is still to come. -/
theorem reverseLoop_spec {nodes : Heap Nat T} {P C : List (Nat × T)} {fuel : Nat}
    (hC : Seg nodes (first P) C none) (hP : Seg nodes (first C) P none)
    (hd : ((C ++ P).map Prod.fst).Nodup) (hf : C.length ≤ fuel) :
    ∃ nodes', reverseLoop fuel nodes (first P) (first C) =
        some (nodes', first (C.reverse ++ P)) ∧
      Seg nodes' none (C.reverse ++ P) none ∧
      ∀ a, a ∉ (C ++ P).map Prod.fst → nodes' a = nodes a := by
  induction C generalizing nodes P fuel with
  | nil =>
    refine ⟨nodes, ?_, hP, fun _ _ => rfl⟩
    cases fuel <;> rfl
  | cons c C ih =>
    obtain ⟨hc, hC⟩ := hC
    rw [List.cons_append, List.map_cons] at hd
    obtain ⟨hcm, hd⟩ := List.nodup_cons.mp hd
    have hne : ∀ x ∈ C ++ P, x.1 ≠ c.1 := by
      intro x hx he
      exact hcm (he ▸ List.mem_map_of_mem hx)
    have hd' : ((C ++ c :: P).map Prod.fst).Nodup := by
      rw [(List.perm_middle.map Prod.fst).nodup_iff]
      exact List.nodup_cons.mpr ⟨hcm, hd⟩
    cases fuel with
    | zero => simp at hf
    | succ fuel =>
      rw [Option.or_none] at hc
      -- the links of `c` change places
      have hC₁ : Seg (Function.update nodes c.1 (some ⟨c.2, first P, first C⟩)) (first (c :: P)) C
          none := hC.congr (fun x hx =>
        Function.update_of_ne (hne x (List.mem_append_left _ hx)) _ _)
      have hP₁ : Seg (Function.update nodes c.1 (some ⟨c.2, first P, first C⟩)) (first C) (c :: P)
          none := ⟨by simp, hP.congr (fun x hx =>
        Function.update_of_ne (hne x (List.mem_append_right _ hx)) _ _)⟩
      obtain ⟨nodes', hloop, hseg, hkept⟩ := ih hC₁ hP₁ hd' (by simpa using hf)
      have hrev : (c :: C).reverse ++ P = C.reverse ++ c :: P := by simp
      rw [hrev]
      refine ⟨nodes', ?_, hseg, ?_⟩
      · rw [← hloop]
        simp [first, reverseLoop, Cells.modify, hc]
      · intro a ha
        have hac : a ≠ c.1 := by
          rintro rfl
          exact ha (by simp)
        rw [hkept a ?_, Function.update_of_ne hac]
        intro hm
        apply ha
        rw [List.cons_append]
        exact ((List.perm_middle.map Prod.fst).mem_iff).mp hm

theorem reverse_spec (h : Shape l L) : ∃ l', l.reverse = some l' ∧ Shape l' L.reverse := by
  by_cases hsize : l.listSize < 2
  · have hrev : L.reverse = L := by
      rw [h.size] at hsize
      match L, hsize with
      | [], _ => rfl
      | [_], _ => rfl
      | _ :: _ :: _, hlen => exact absurd hlen (by simp)
    rw [hrev]
    exact ⟨l, by rw [reverse, if_pos hsize], h⟩
  · obtain ⟨nodes, hloop, hseg, hkept⟩ := reverseLoop_spec (P := []) (C := L) h.seg trivial
      (by simpa using h.nodup) h.length_le
    rw [List.append_nil] at hloop hseg
    have hnodup : (L.reverse.map Prod.fst).Nodup := by
      rw [List.map_reverse, List.nodup_reverse]
      exact h.nodup
    cases hr : L.reverse with
    | nil =>
      have hlen := congrArg List.length hr
      rw [List.length_reverse, ← h.size, List.length_nil] at hlen
      omega
    | cons e R =>
      rw [hr] at hloop hseg hnodup
      have hfirst : first (e :: R) = some e.1 := rfl
      rw [hfirst, ← h.head] at hloop
      have heq : l.reverse = some ⟨Function.update nodes e.1 (some ⟨e.2, (first R).or none, none⟩),
          l.fresh, some e.1, l.head, l.listSize⟩ := by
        have hloop' : reverseLoop l.fresh l.nodes none l.head = some (nodes, some e.1) := hloop
        rw [reverse, if_neg hsize]
        simp [hloop', setPrev_eq hseg.1]
      refine ⟨_, heq, hseg.set_first hnodup none, hfirst.symm, ?_, ?_, hnodup, ?_, ?_⟩
      · rw [← hr, last_reverse]
        exact h.head
      · rw [← hr, List.length_reverse]
        exact h.size
      · intro c hc
        rw [← hr, List.mem_reverse] at hc
        exact h.below c hc
      · intro a ha
        have hae : a ≠ e.1 := by
          rintro rfl
          exact ha (by simp)
        have haL : a ∉ L.map Prod.fst := by
          rw [← hr, List.map_reverse, List.mem_reverse] at ha
          exact ha
        simp only [Function.update_of_ne hae]
        rw [hkept a (by simpa using haL)]
        exact h.live a haL

end Reversal

section Copies

/-- The copy `C ++ [d]` grows while the cells `S` of the original are still to copy. -/
theorem copyLoop_spec {S C : List (Nat × T)} {p : Option Nat} {fuel : Nat}
    (hS : Seg l.nodes p S none) (hsub : S ⊆ L) (hC : Seg l.nodes none (C ++ [d]) none)
    (h : Owns l.nodes l.fresh (L ++ (C ++ [d]))) (hf : S.length ≤ fuel) :
    ∃ nodes fresh C' d', copyLoop fuel l d.1 (first S) =
        some (⟨nodes, fresh, l.head, l.tail, l.listSize⟩, d'.1) ∧
      (C' ++ [d']).map Prod.snd = (C ++ [d] ++ S).map Prod.snd ∧
      first (C' ++ [d']) = first (C ++ [d]) ∧ Seg nodes none (C' ++ [d']) none ∧
      Owns nodes fresh (L ++ (C' ++ [d'])) ∧ ∀ x ∈ L, nodes x.1 = l.nodes x.1 := by
  induction S generalizing l p C d fuel with
  | nil =>
    refine ⟨l.nodes, l.fresh, C, d, ?_, by simp, rfl, hC, h, fun _ _ => rfl⟩
    cases fuel <;> rfl
  | cons s S ih =>
    obtain ⟨hs, hS⟩ := hS
    have hdisj : ∀ x ∈ L, ∀ y ∈ C ++ [d], x.1 ≠ y.1 := by
      intro x hx y hy
      have hd := h.nodup
      rw [List.map_append] at hd
      exact (List.nodup_append.mp hd).2.2 _ (List.mem_map_of_mem hx) _ (List.mem_map_of_mem hy)
    have hdmem : d ∈ C ++ [d] := List.mem_append_right _ (List.mem_singleton_self d)
    have hfreshL : ∀ x ∈ L, x.1 ≠ l.fresh := fun x hx =>
      Nat.ne_of_lt (h.below x (List.mem_append_left _ hx))
    have hfreshC : ∀ x ∈ C ++ [d], x.1 ≠ l.fresh := fun x hx =>
      Nat.ne_of_lt (h.below x (List.mem_append_right _ hx))
    have hdn : (Function.update l.nodes l.fresh (some ⟨s.2, none, some d.1⟩)) d.1 =
        some ⟨d.2, none, (last C).or none⟩ :=
      (Function.update_of_ne (hfreshC d hdmem) _ _).trans (seg_append.mp hC).2.1
    set nodes₁ := Function.update (Function.update l.nodes l.fresh (some ⟨s.2, none, some d.1⟩))
      d.1 (some ⟨d.2, some l.fresh, (last C).or none⟩) with hnodes₁
    have hsame : ∀ x ∈ L, nodes₁ x.1 = l.nodes x.1 := by
      intro x hx
      rw [hnodes₁, Function.update_of_ne (hdisj x hx d hdmem),
        Function.update_of_ne (hfreshL x hx)]
    have hnodupC : ((C ++ [d]).map Prod.fst).Nodup :=
      h.nodup.sublist ((List.sublist_append_right _ _).map _)
    have hgrown : Owns nodes₁ (l.fresh + 1) (L ++ (C ++ [d] ++ [(l.fresh, s.2)])) := by
      rw [← List.append_assoc]
      refine h.grow (List.perm_append_singleton _ _) ?_
      intro a ha
      rw [List.map_append, List.mem_append, not_or] at ha
      have hafresh : a ≠ l.fresh := by simpa using ha.2
      have had : a ≠ d.1 := by
        rintro rfl
        exact ha.1 (List.mem_map_of_mem (List.mem_append_right _ hdmem))
      rw [hnodes₁, Function.update_of_ne had, Function.update_of_ne hafresh]
    cases fuel with
    | zero => simp at hf
    | succ fuel =>
      obtain ⟨nodes, fresh, C', d', hloop, hdata, hfirst, hseg, howns, hkept⟩ := ih
        (l := ⟨nodes₁, l.fresh + 1, l.head, l.tail, l.listSize⟩) (C := C ++ [d])
        (d := (l.fresh, s.2)) (hS.congr (fun x hx => hsame x (hsub (List.mem_cons_of_mem _ hx))))
        (fun x hx => hsub (List.mem_cons_of_mem _ hx)) (hC.snoc hnodupC hfreshC s.2) hgrown
        (by simpa using hf)
      refine ⟨nodes, fresh, C', d', ?_, ?_, ?_, hseg, howns, ?_⟩
      · rw [← hloop]
        rw [Option.or_none] at hs
        simp [first, copyLoop, hs, makeNode, assignNext_null hdn rfl, hnodes₁]
      · rw [hdata]
        simp
      · rw [hfirst, first_concat_append]
      · intro x hx
        exact (hkept x hx).trans (hsame x hx)

/-- The copy has the elements of the original and none of its nodes, and the original is gone. -/
theorem assignCopy_spec (h : Shape l L) :
    ∃ l' L', l.assignCopy = some l' ∧ Shape l' L' ∧ L'.map Prod.snd = L.map Prod.snd := by
  cases L with
  | nil =>
    have hempty : l.empty = true := by simp [empty, h.size]
    refine ⟨{ l with head := none, tail := none, listSize := 0 }, [], ?_, ?_, rfl⟩
    · have hhead : l.head = none := h.head
      simp [assignCopy, copy, hempty, hhead, destroy]
    · exact ⟨trivial, rfl, rfl, rfl, h.nodup, fun x hx => absurd hx List.not_mem_nil, h.live⟩
  | cons c L =>
    have hempty : l.empty = false := by simp [empty, h.size]
    have hhead : l.head = some c.1 := h.head
    have hc := h.seg.1
    rw [Option.or_none] at hc
    have hsame : ∀ x ∈ c :: L, (Function.update l.nodes l.fresh (some ⟨c.2, none, none⟩)) x.1 =
        l.nodes x.1 := fun x hx => Function.update_of_ne (h.fresh_not hx) _ _
    have hgrown : Owns (l.makeNode ⟨c.2, none, none⟩).nodes (l.fresh + 1)
        (c :: L ++ [(l.fresh, c.2)]) := by
      refine h.owns.grow (List.perm_append_singleton _ _) ?_
      intro a ha
      rw [List.map_append, List.mem_append, not_or] at ha
      have hafresh : a ≠ l.fresh := by simpa using ha.2
      exact Function.update_of_ne hafresh _ _
    obtain ⟨nodes, fresh, C, d, hloop, hdata, hfirst, hseg, howns, hkept⟩ :=
      copyLoop_spec (l := l.makeNode ⟨c.2, none, none⟩) (L := c :: L) (S := L) (C := [])
        (d := (l.fresh, c.2)) (h.seg.2.congr (fun x hx => hsame x (List.mem_cons_of_mem _ hx)))
        (List.subset_cons_self _ _) ⟨by simp [makeNode, first], trivial⟩ hgrown
        (Nat.le_trans (Nat.le_succ _) h.length_le)
    obtain ⟨nodes', hdestroy, hdeleted, hleft⟩ := destroy_seg (h.seg.congr (fun x hx =>
      (hkept x hx).trans (hsame x hx))) h.nodup h.length_le
    have hcopied : ∀ x ∈ C ++ [d], x.1 ∉ (c :: L).map Prod.fst := by
      intro x hx hm
      have hnodup := howns.nodup
      rw [List.map_append] at hnodup
      exact (List.nodup_append.mp hnodup).2.2 x.1 hm x.1 (List.mem_map_of_mem hx) rfl
    rw [List.nil_append] at hdata hfirst
    refine ⟨⟨nodes', fresh, some l.fresh, some d.1, l.listSize⟩, C ++ [d], ?_, ?_, hdata⟩
    · have hcopy : l.copy = some ⟨nodes, fresh, some l.fresh, some d.1, l.listSize⟩ := by
        simp [copy, hempty, hhead, hc, hloop]
      rw [show first (c :: L) = some c.1 from rfl] at hdestroy
      simp [assignCopy, hcopy, hhead, hdestroy]
    · refine ⟨hseg.congr (fun x hx => hleft _ (hcopied x hx)), hfirst.symm, (last_concat _ _).symm,
        ?_, howns.nodup.sublist ((List.sublist_append_right _ _).map _),
        fun x hx => howns.below x (List.mem_append_right _ hx), ?_⟩
      · have hlen := congrArg List.length hdata
        simp only [List.length_map] at hlen
        rw [hlen, h.size]
        rfl
      · intro a ha
        by_cases hm : a ∈ (c :: L).map Prod.fst
        · exact hdeleted a hm
        · refine (hleft a hm).trans (howns.live a ?_)
          rw [List.map_append, List.mem_append]
          exact fun hor => hor.elim hm ha

end Copies

section Inserts

/-- At either end `insert` is a push. -/
theorem insert_end (h : Shape l L) {pos : Nat} (hpos : pos = 0 ∨ L.length ≤ pos) (value : T) :
    ∃ l' it, l.insert (first (L.drop pos)) value = some (l', it) ∧
      Shape l' (L.take pos ++ (l.fresh, value) :: L.drop pos) := by
  obtain ⟨l₁, hfront, hfrontShape⟩ := pushFront_spec h value
  by_cases hzero : pos = 0 ∨ L = []
  · have hdrop : L.drop pos = L := by
      rcases hzero with rfl | rfl <;> simp
    have htake : L.take pos = [] := by
      rcases hzero with rfl | rfl <;> simp
    rw [hdrop, htake]
    exact ⟨l₁, l₁.head, by simp [insert, h.head, hfront], hfrontShape⟩
  · obtain ⟨hz, hne⟩ := not_or.mp hzero
    obtain ⟨l₂, hback, hbackShape⟩ := pushBack_spec h value
    have hlen := hpos.resolve_left hz
    have hhead : l.head ≠ none := by
      rw [h.head]
      cases L with
      | nil => exact absurd rfl hne
      | cons c L => exact nofun
    rw [List.drop_eq_nil_of_le hlen, List.take_of_length_le hlen]
    exact ⟨l₂, l₂.tail, by simp [insert, first, hhead.symm, hback], hbackShape⟩

/-- Between two cells the one behind keeps its link past the new one. -/
theorem insert_middle (h : Shape l ((A ++ [d]) ++ c :: B)) (value : T) :
    ∃ l' it, l.insert (some c.1) value = some (l', it) ∧
      l'.nodes l.fresh = some ⟨value, some c.1, some d.1⟩ ∧
      l'.nodes c.1 = some ⟨c.2, first B, some d.1⟩ ∧ d.1 ≠ l.fresh := by
  have hcmem : c ∈ (A ++ [d]) ++ c :: B := by simp
  have hdmem : d ∈ A ++ [d] := List.mem_append_right _ (List.mem_singleton_self d)
  obtain ⟨_, hne, _⟩ := nodup_mid h.nodup
  have hdc : d.1 ≠ c.1 := hne d (List.mem_append_left _ hdmem)
  have hcf := h.fresh_not hcmem
  have hdf := h.fresh_not (List.mem_append_left (c :: B) hdmem)
  obtain ⟨hA, hc, _⟩ := seg_append.mp h.seg
  rw [last_concat, Option.or_none, Option.some_or] at hc
  have hd : l.nodes d.1 = some ⟨d.2, some c.1, (last A).or none⟩ := (seg_append.mp hA).2.1
  have hhead : some c.1 ≠ l.head := by
    rw [h.head, first_concat_append]
    cases A with
    | nil =>
      intro he
      exact hdc (Option.some.inj he).symm
    | cons x A =>
      intro he
      exact hne x (by simp) (Option.some.inj he).symm
  obtain ⟨nodes, fresh, head, tail, size⟩ := l
  simp only at hc hd hcf hdf hhead
  have hd₁ : (Function.update (Function.update nodes d.1 (some ⟨d.2, none, (last A).or none⟩)) fresh
      (some ⟨value, some c.1, some d.1⟩)) d.1 = some ⟨d.2, none, (last A).or none⟩ := by
    rw [Function.update_of_ne hdf, Function.update_self]
  have heq : insert ⟨nodes, fresh, head, tail, size⟩ (some c.1) value =
      some (⟨Function.update (Function.update (Function.update nodes d.1
        (some ⟨d.2, none, (last A).or none⟩)) fresh (some ⟨value, some c.1, some d.1⟩)) d.1
        (some ⟨d.2, some fresh, (last A).or none⟩), fresh + 1, head, tail, size + 1⟩,
        some fresh) := by
    rw [insert, if_neg hhead]
    simp only [hc, takeNext_eq hd, makeNode, assignNext_null hd₁ rfl, Option.bind_eq_bind,
      Option.bind_some]
    rfl
  refine ⟨_, _, heq, ?_, ?_, hdf⟩
  · simp only [Function.update_of_ne hdf.symm, Function.update_self]
  · simp only [Function.update_of_ne hdc.symm, Function.update_of_ne hcf, hc]

end Inserts

section Runs

/-- `next_` and `prev_` of the live nodes are inverse to each other. -/
def Inverse (l : LinkedList T) : Prop :=
  ∀ a b m k, l.nodes a = some m → l.nodes b = some k → (m.next = some b ↔ k.prev = some a)

/-- The list stands for the elements `xs`. -/
structure Represents (l : LinkedList T) (xs : List T) : Prop where
  traversal : l.toVector = some xs
  size : l.listSize = xs.length
  tail : ∃ cells, l.cells = some cells ∧ l.tail = last cells
  inverse : Inverse l

theorem Shape.represents (h : Shape l L) : Represents l (L.map Prod.snd) := by
  refine ⟨by rw [toVector, h.cells_eq]; rfl, by rw [h.size, List.length_map],
    ⟨L, h.cells_eq, h.tail⟩, ?_⟩
  have hmem : ∀ a node, l.nodes a = some node → a ∈ L.map Prod.fst := by
    intro a node ha
    by_contra hnot
    rw [h.live a hnot] at ha
    cases ha
  intro a b m k hm hk
  exact h.seg.next_iff_prev hm hk (hmem a m hm) (hmem b k hk)

/-- An insertion is at either end of the list. -/
def Op.AtEnds (n : Nat) : Op T → Prop
  | .insert pos _ => pos = 0 ∨ n ≤ pos
  | _ => True

theorem pop_cases (h : Shape l L) : (L = [] ∧ l.empty = true) ∨ (L ≠ [] ∧ l.empty = false) := by
  cases L with
  | nil => exact .inl ⟨rfl, by simp [empty, h.size]⟩
  | cons c L => exact .inr ⟨nofun, by simp [empty, h.size]⟩

variable [BEq T]

/-- No call inserts between two elements of what the list holds by then. -/
def EndInserts (xs : List T) : List (Op T) → Prop
  | [] => True
  | op :: ops => op.AtEnds xs.length ∧ EndInserts (applyList xs op).1 ops

theorem apply_spec (h : Shape l L) (op : Op T) (hop : op.AtEnds L.length) :
    ∃ l' L', l.apply op = some (l', (applyList (L.map Prod.snd) op).2) ∧ Shape l' L' ∧
      L'.map Prod.snd = (applyList (L.map Prod.snd) op).1 := by
  cases op with
  | pushFront value =>
    obtain ⟨l', heq, hshape⟩ := pushFront_spec h value
    exact ⟨l', _, by simp [apply, heq, applyList], hshape, rfl⟩
  | pushBack value =>
    obtain ⟨l', heq, hshape⟩ := pushBack_spec h value
    exact ⟨l', _, by simp [apply, heq, applyList], hshape, by simp [applyList]⟩
  | popFront =>
    rcases pop_cases h with ⟨rfl, hempty⟩ | ⟨hne, hempty⟩
    · exact ⟨l, [], by simp [apply, hempty, applyList], h, rfl⟩
    · obtain ⟨c, B, rfl⟩ := List.exists_cons_of_ne_nil hne
      obtain ⟨l', heq, hshape⟩ := popFront_spec h
      exact ⟨l', B, by simp [apply, hempty, heq, applyList], hshape, by simp [applyList]⟩
  | popBack =>
    rcases pop_cases h with ⟨rfl, hempty⟩ | ⟨hne, hempty⟩
    · exact ⟨l, [], by simp [apply, hempty, applyList], h, rfl⟩
    · obtain ⟨A, c, hAc⟩ := (List.eq_nil_or_concat L).resolve_left hne
      rw [List.concat_eq_append] at hAc
      subst hAc
      obtain ⟨l', heq, hshape⟩ := popBack_spec h
      exact ⟨l', A, by simp [apply, hempty, heq, applyList], hshape, by simp [applyList]⟩
  | insert pos value =>
    obtain ⟨l', it, heq, hshape⟩ := insert_end h hop value
    exact ⟨l', _, by simp [apply, h.iterator_eq, heq, applyList], hshape, by simp [applyList]⟩
  | erase pos =>
    by_cases hpos : pos < L.length
    · have hsplit : L = L.take pos ++ L[pos] :: L.drop (pos + 1) := by
        rw [List.getElem_cons_drop, List.take_append_drop]
      rw [hsplit] at h
      obtain ⟨l', heq, hshape⟩ := erase_spec h
      rw [← hsplit] at h
      refine ⟨l', _, ?_, hshape, ?_⟩
      · have hit : first (L.drop pos) = some (L[pos]).1 := by
          rw [← List.getElem_cons_drop hpos]
          rfl
        simp [apply, h.iterator_eq, hit, heq, applyList]
      · rw [applyList, List.eraseIdx_eq_take_drop_succ]
        simp
    · have hdrop : L.drop pos = [] := List.drop_eq_nil_of_le (by omega)
      refine ⟨l, L, ?_, h, ?_⟩
      · simp [apply, h.iterator_eq, hdrop, first, erase, applyList]
      · rw [applyList, List.eraseIdx_of_length_le (by simpa using Nat.le_of_not_lt hpos)]
  | remove value =>
    obtain ⟨l', heq, hshape⟩ := removeIf_spec h (fun x => x == value)
    exact ⟨l', _, by simp [apply, remove, heq, applyList], hshape,
      by simp [applyList, List.filter_map, Function.comp_def]⟩
  | removeIf pred =>
    obtain ⟨l', heq, hshape⟩ := removeIf_spec h pred
    exact ⟨l', _, by simp [apply, heq, applyList], hshape,
      by simp [applyList, List.filter_map, Function.comp_def]⟩
  | reverse =>
    obtain ⟨l', heq, hshape⟩ := reverse_spec h
    exact ⟨l', _, by simp [apply, heq, applyList], hshape, by simp [applyList]⟩
  | copy =>
    obtain ⟨l', L', heq, hshape, hdata⟩ := assignCopy_spec h
    exact ⟨l', L', by simp [apply, heq, applyList], hshape, hdata⟩
  | clear =>
    obtain ⟨l', heq, hshape⟩ := clear_spec h
    exact ⟨l', [], by simp [apply, heq, applyList], hshape, rfl⟩

/-- An insertion between two elements leaves a link that does not lead back. -/
theorem insert_not_inverse (h : Shape l L) {pos : Nat} {value : T} (hpos : 0 < pos)
    (hlt : pos < L.length) {l' : LinkedList T} {r : Result}
    (heq : l.apply (.insert pos value) = some (l', r)) : ¬ Inverse l' := by
  have hsplit : L = (L.take (pos - 1) ++ [L[pos - 1]]) ++ L[pos] :: L.drop (pos + 1) := by
    have hprev : pos - 1 + 1 = pos := Nat.sub_add_cancel hpos
    rw [List.take_append_getElem, hprev, List.getElem_cons_drop, List.take_append_drop]
  have hit : first (L.drop pos) = some (L[pos]).1 := by
    rw [← List.getElem_cons_drop hlt]
    rfl
  have hiter := h.iterator_eq pos
  rw [hsplit] at h
  obtain ⟨l₁, it, hins, hnew, hnext, hne⟩ := insert_middle h value
  simp only [apply, hiter, hit, hins, Option.bind_eq_bind, Option.bind_some, Option.pure_def,
    Option.some.injEq, Prod.mk.injEq] at heq
  obtain ⟨rfl, _⟩ := heq
  intro hinv
  have hback := (hinv _ _ _ _ hnew hnext).mp rfl
  exact hne (Option.some.inj hback)

/-- After every call of a run the list is the plain list, with the same results. -/
def Follows (l : LinkedList T) (xs : List T) (ops : List (Op T)) : Prop :=
  ∀ calls, calls <+: ops → ∃ l', l.run calls = some (l', (runList xs calls).2) ∧
    Represents l' (runList xs calls).1

theorem follows_cons {l₁ : LinkedList T} {xs : List T} {op : Op T} {ops : List (Op T)}
    (h : Represents l xs) (heq : l.apply op = some (l₁, (applyList xs op).2)) :
    Follows l xs (op :: ops) ↔ Follows l₁ (applyList xs op).1 ops := by
  constructor
  · intro hall calls hcalls
    obtain ⟨l', hrun, hrep⟩ := hall (op :: calls) (List.cons_prefix_cons.mpr ⟨rfl, hcalls⟩)
    simp only [run, heq, Option.bind_eq_bind, Option.bind_some, runList] at hrun
    cases hr : l₁.run calls with
    | none =>
      rw [hr] at hrun
      cases hrun
    | some r =>
      rw [hr] at hrun
      simp only [Option.bind_some, Option.pure_def, Option.some.injEq, Prod.mk.injEq,
        List.cons.injEq, true_and] at hrun
      obtain ⟨rfl, hrs⟩ := hrun
      exact ⟨r.1, by rw [← hrs], hrep⟩
  · intro hall calls hcalls
    rcases List.prefix_cons_iff.mp hcalls with rfl | ⟨calls, rfl, hrest⟩
    · exact ⟨l, rfl, h⟩
    · obtain ⟨l', hrun, hrep⟩ := hall calls hrest
      exact ⟨l', by simp [run, heq, hrun, runList], hrep⟩

theorem follows_iff (h : Shape l L) (ops : List (Op T)) :
    Follows l (L.map Prod.snd) ops ↔ EndInserts (L.map Prod.snd) ops := by
  induction ops generalizing l L with
  | nil =>
    refine ⟨fun _ => trivial, ?_⟩
    intro _ calls hcalls
    rw [List.prefix_nil.mp hcalls]
    exact ⟨l, rfl, h.represents⟩
  | cons op ops ih =>
    by_cases hop : op.AtEnds (L.map Prod.snd).length
    · obtain ⟨l₁, L₁, heq, hshape, hdata⟩ := apply_spec h op (by simpa using hop)
      rw [follows_cons h.represents heq, ← hdata, ih hshape, EndInserts, ← hdata]
      exact (and_iff_right hop).symm
    · -- the first insertion between two elements breaks the links
      constructor
      · intro hall
        obtain ⟨l', hrun, hrep⟩ := hall [op] (List.cons_prefix_cons.mpr ⟨rfl, List.nil_prefix⟩)
        cases op with
        | insert pos value =>
          obtain ⟨hz, hlt⟩ := not_or.mp hop
          rw [List.length_map] at hlt
          cases heq : l.apply (.insert pos value) with
          | none => simp [run, heq] at hrun
          | some r =>
            simp only [run, heq, Option.bind_eq_bind, Option.bind_some, Option.pure_def,
              Option.some.injEq, Prod.mk.injEq] at hrun
            have hbroken := insert_not_inverse h (Nat.pos_of_ne_zero hz) (Nat.lt_of_not_le hlt) heq
            rw [hrun.1] at hbroken
            exact absurd hrep.inverse hbroken
        | _ => exact absurd trivial hop
      · intro hends
        exact absurd hends.1 hop

/-- A run keeps to the plain list exactly when nothing is inserted between two elements. -/
theorem run_follows_iff (ops : List (Op T)) :
    Follows (create : LinkedList T) [] ops ↔ EndInserts [] ops :=
  follows_iff create_shape ops

/-- `insert` does not set the `prev_` of the element behind; `pop_back` then deletes two. -/
theorem popped_past_inserted :
    let calls : List (Op Nat) := [.pushBack 1, .pushBack 2, .insert 1 9, .popBack]
    ((create.run calls).bind fun r => r.1.toVector) = some [1] ∧
      ((create.run calls).map fun r => r.1.listSize) = some 2 ∧
      (runList [] calls).1 = [1, 9] ∧ ¬ Follows create [] calls := by
  refine ⟨by decide +kernel, by decide +kernel, by decide, ?_⟩
  intro hfollows
  have hends := (follows_iff create_shape _).mp hfollows
  simp [EndInserts, applyList, Op.AtEnds] at hends

end Runs

end Cppforge.Lists.LinkedList
