import Cppforge.Multiway.Proofs.BPlusInsert

namespace Cppforge.Multiway.BPlusTree
open Ordered KTree

variable {K V : Type} {comp : K → K → Bool} {order : Nat}

/-- Two neighbours and the routing key between them, after something moved across. -/
structure Shifted (comp : K → K → Bool) (order h : Nat) (k : K) (l r l' : Node K V) (up : K)
    (r' : Node K V) : Prop where
  left : layout.Fit order h l'
  right : layout.Fit order h r'
  pairs : pairs l' ++ pairs r' = pairs l ++ pairs r
  addrs : addrs l' ++ addrs r' = addrs l ++ addrs r
  order : StrictWeak comp → ∀ X Y,
    Ascending (itemLt comp) (X ++ (layout.flat l ++ .router k :: layout.flat r) ++ Y) →
    Ascending (itemLt comp) (X ++ (layout.flat l' ++ .router up :: layout.flat r') ++ Y)

section Rotate
variable {h : Nat} {s c : Node K V}

/-- What was in front of a key stays in front of it. -/
def KeepsBelow (comp : K → K → Bool) (k : K) (l l' : Node K V) (up : K) : Prop :=
  ∀ key, (∀ e ∈ layout.flat l ++ [.router k], cut (itemLt comp) (.entry key) e = .lt) →
    ∀ e ∈ layout.flat l' ++ [.router up], cut (itemLt comp) (.entry key) e = .lt

/-- What was behind a key stays behind it. -/
def KeepsAbove (comp : K → K → Bool) (k : K) (l r : Node K V) (up : K) (r' : Node K V) : Prop :=
  ∀ key, Ascending (itemLt comp) (layout.flat l ++ .router k :: layout.flat r) →
    (∀ e ∈ .router k :: layout.flat r, cut (itemLt comp) (.entry key) e = .gt) →
    ∀ e ∈ .router up :: layout.flat r', cut (itemLt comp) (.entry key) e = .gt

theorem leafRotateRight_spec (comp : K → K → Bool) (ho : 2 ≤ order) (k : K) {s c : Leaf K V}
    (hs : order ≤ s.entries.length) (hmax : s.entries.length ≤ 2 * order - 1)
    (hc : c.entries.length = order - 1) :
    ∃ s' up c', leafRotateRight k (.leaf s) (.leaf c) = some (s', up, c') ∧
      Shifted comp order 0 k (.leaf s) (.leaf c) s' up c' ∧ order ≤ layout.count c' ∧
      (StrictWeak comp → KeepsBelow comp k (.leaf s) s' up) := by
  obtain ⟨sa, se⟩ := s
  obtain ⟨ca, ce⟩ := c
  simp only at hs hmax hc
  rcases List.eq_nil_or_concat se with rfl | ⟨se', e, rfl⟩
  · simp at hs
    omega
  · rcases List.eq_nil_or_concat se' with rfl | ⟨se, a, rfl⟩
    · simp at hs
      omega
    · simp only [List.concat_eq_append, List.length_append, List.length_singleton] at hs hmax ⊢
      refine ⟨.leaf ⟨sa, se ++ [a]⟩, e.1, .leaf ⟨ca, e :: ce⟩, ?_, ⟨?_, ?_, ?_, ?_, ?_⟩, ?_, ?_⟩
      · simp [leafRotateRight]
      · rw [fit_leaf, List.length_append, List.length_singleton]
        omega
      · rw [fit_leaf, List.length_cons]
        omega
      · simp
      · simp
      · intro hw X Y ha
        have hseq : Ascending (itemLt comp) ((X ++ se.map (fun e => Item.entry e.1)) ++
            .entry a.1 :: .entry e.1 :: (ce.map (fun e => Item.entry e.1) ++ Y)) := by
          refine ha.sublist ?_
          simp
        simpa using ascending_router hw hseq
      · simp only [count_leaf, List.length_cons]
        omega
      · intro hw key hlt x hx
        rcases List.mem_append.mp hx with hx | hx
        · refine hlt x (List.mem_append_left _ ?_)
          simp only [layout_leaf, List.map_append] at hx ⊢
          exact List.mem_append_left _ hx
        · rw [List.mem_singleton.mp hx]
          have he := hlt (.entry e.1) (by simp)
          exact cut_router_lt.mpr (hw.asymm (cut_eq_lt.mp he))

theorem leafRotateLeft_spec (comp : K → K → Bool) (ho : 2 ≤ order) (k : K) {s c : Leaf K V}
    (hs : order ≤ s.entries.length) (hmax : s.entries.length ≤ 2 * order - 1)
    (hc : c.entries.length = order - 1) :
    ∃ c' up s', leafRotateLeft k (.leaf c) (.leaf s) = some (c', up, s') ∧
      Shifted comp order 0 k (.leaf c) (.leaf s) c' up s' ∧ order ≤ layout.count c' ∧
      (StrictWeak comp → KeepsAbove comp k (.leaf c) (.leaf s) up s') := by
  obtain ⟨sa, se⟩ := s
  obtain ⟨ca, ce⟩ := c
  simp only at hs hmax hc
  cases se with
  | nil =>
    simp at hs
    omega
  | cons e se =>
    cases se with
    | nil =>
      simp at hs
      omega
    | cons f se =>
      simp only [List.length_cons] at hs hmax
      refine ⟨.leaf ⟨ca, ce ++ [e]⟩, f.1, .leaf ⟨sa, f :: se⟩, by simp [leafRotateLeft],
        ⟨?_, ?_, ?_, ?_, ?_⟩, ?_, ?_⟩
      · rw [fit_leaf, List.length_append, List.length_singleton]
        omega
      · rw [fit_leaf, List.length_cons]
        omega
      · simp
      · simp
      · intro hw X Y ha
        have hseq : Ascending (itemLt comp) ((X ++ ce.map (fun e => Item.entry e.1)) ++
            .entry e.1 :: .entry f.1 :: (se.map (fun e => Item.entry e.1) ++ Y)) := by
          refine ha.sublist ?_
          simp
        simpa using ascending_router hw hseq
      · simp only [count_leaf, List.length_append, List.length_singleton]
        omega
      · intro hw key ha hgt x hx
        rcases List.mem_cons.mp hx with rfl | hx
        · have hsort := (List.pairwise_cons.mp (List.pairwise_append.mp ha).2.1).2
          simp only [layout_leaf, List.map_cons] at hsort
          have hef : comp e.1 f.1 = true := (List.pairwise_cons.mp hsort).1 _ List.mem_cons_self
          have hke : comp key e.1 = true :=
            (cut_eq_gt (itemLt_strictWeak hw)).mp (hgt (.entry e.1) (by simp))
          exact (cut_router_gt hw).mpr (hw.trans hke hef)
        · refine hgt x (List.mem_cons_of_mem _ ?_)
          simp only [layout_leaf, List.map_cons] at hx ⊢
          exact List.mem_cons_of_mem _ hx

theorem internalRotateRight_spec (comp : K → K → Bool) (ho : 2 ≤ order) (k : K) {sk ck : List K} {sc cc : List (Node K V)}
    (hs : layout.Shape order (h + 1) (.internal sk sc))
    (hc : layout.Shape order (h + 1) (.internal ck cc)) (hlend : order ≤ sk.length)
    (hfew : ck.length = order - 1) :
    ∃ s' up c', internalRotateRight k (.internal sk sc) (.internal ck cc) = some (s', up, c') ∧
      Shifted comp order (h + 1) k (.internal sk sc) (.internal ck cc) s' up c' ∧
      order ≤ layout.count c' ∧ KeepsBelow comp k (.internal sk sc) s' up := by
  rcases List.eq_nil_or_concat sk with rfl | ⟨sk', up, rfl⟩
  · simp at hlend
    omega
  · rcases List.eq_nil_or_concat sc with rfl | ⟨sc', moved, rfl⟩
    · have := hs.2.1
      simp at this
    · simp only [List.concat_eq_append, List.length_append, List.length_singleton] at hs hlend ⊢
      obtain ⟨hfs, hfc, hss, hsc⟩ := View.rotateRight_internal k hs hc (by omega)
      simp only [layout_sep] at hfs hfc
      refine ⟨.internal sk' sc', up, .internal (k :: ck) (moved :: cc), by simp [internalRotateRight],
        ⟨⟨?_, hss⟩, ⟨?_, hsc⟩, by simp, by simp, ?_⟩, ?_, ?_⟩
      · rw [count_internal]
        omega
      · rw [count_internal, List.length_cons]
        omega
      · intro _ X Y ha
        simp only [View.flat, hfs, hfc] at ha ⊢
        simpa using ha
      · rw [count_internal, List.length_cons]
        omega
      · intro key hlt x hx
        refine hlt x (List.mem_append_left _ ?_)
        simp only [View.flat, hfs] at hx ⊢
        rcases List.mem_append.mp hx with hx | hx
        · exact List.mem_append_left _ hx
        · rw [List.mem_singleton.mp hx]
          simp

theorem internalRotateLeft_spec (comp : K → K → Bool) (ho : 2 ≤ order) (k : K) {sk ck : List K} {sc cc : List (Node K V)}
    (hs : layout.Shape order (h + 1) (.internal sk sc))
    (hc : layout.Shape order (h + 1) (.internal ck cc)) (hlend : order ≤ sk.length)
    (hfew : ck.length = order - 1) :
    ∃ c' up s', internalRotateLeft k (.internal ck cc) (.internal sk sc) = some (c', up, s') ∧
      Shifted comp order (h + 1) k (.internal ck cc) (.internal sk sc) c' up s' ∧
      order ≤ layout.count c' ∧
      KeepsAbove comp k (.internal ck cc) (.internal sk sc) up s' := by
  cases sk with
  | nil =>
    simp at hlend
    omega
  | cons up sk =>
    cases sc with
    | nil => cases hs.2.1
    | cons moved sc =>
      obtain ⟨hfc, hfs, hsc, hss⟩ := View.rotateLeft_internal k hc hs (by omega)
      simp only [layout_sep] at hfs hfc
      rw [List.length_cons] at hlend
      refine ⟨.internal (ck ++ [k]) (cc ++ [moved]), up, .internal sk sc, rfl,
        ⟨⟨?_, hsc⟩, ⟨?_, hss⟩, by simp, by simp, ?_⟩, ?_, ?_⟩
      · rw [count_internal, List.length_append, List.length_singleton]
        omega
      · rw [count_internal]
        omega
      · intro _ X Y ha
        simp only [View.flat, hfs, hfc] at ha ⊢
        simpa using ha
      · rw [count_internal, List.length_append, List.length_singleton]
        omega
      · intro key _ hgt x hx
        refine hgt x (List.mem_cons_of_mem _ ?_)
        simp only [View.flat, hfs] at hx ⊢
        exact List.mem_append_right _ hx

end Rotate

/-- Two neighbours made one; the routing key between them goes or comes down. -/
structure Joined (comp : K → K → Bool) (order h : Nat) (k : K) (s s' : Store) (l r m : Node K V) :
    Prop where
  fit : layout.Fit order h m
  count : order ≤ layout.count m
  size : s'.size = s.size
  pairs : pairs m = pairs l ++ pairs r
  links : Relinks s s' (addrs l ++ addrs r) (addrs m)
  order : ∀ X Y,
    Ascending (itemLt comp) (X ++ (layout.flat l ++ .router k :: layout.flat r) ++ Y) →
    Ascending (itemLt comp) (X ++ layout.flat m ++ Y)

section Merge
variable {h : Nat} {K1 K2 : List K} {C1 C2 : List (Node K V)} {l r : Node K V}

theorem mergeChild_spec (comp : K → K → Bool) (ho : 2 ≤ order) {k : K}
    (p : layout.Parts order h K1 (k :: K2) C1 l (r :: C2)) (s : Store)
    (hl : layout.count l < order) (hr : layout.count r < order) :
    ∃ m s', mergeChild s (K1 ++ k :: K2) (C1 ++ l :: r :: C2) K1.length =
        some (K1 ++ K2, C1 ++ m :: C2, s') ∧ Joined comp order h k s s' l r m := by
  have hlmin := p.child.1
  have hright := p.back r List.mem_cons_self
  have hrmin := hright.1
  rcases p.child.2.cases with ⟨⟨la, le⟩, rfl, rfl, _⟩ | ⟨h, lk, lc, rfl, rfl, _⟩
  · obtain ⟨⟨ra, re⟩, _, rfl, _⟩ | ⟨_, _, _, h0, _⟩ := hright.2.cases
    · simp only [count_leaf] at hl hr hlmin hrmin
      have hjoin : joinPair leafJoin (K1 ++ k :: K2) (C1 ++ .leaf ⟨la, le⟩ :: .leaf ⟨ra, re⟩ :: C2)
          K1.length = some (K1 ++ K2, C1 ++ .leaf ⟨la, le ++ re⟩ :: C2) :=
        joinPair_eq rfl p.left rfl
      refine ⟨.leaf ⟨la, le ++ re⟩, s.unlinkAfter la ra, ?_, ⟨?_, ?_, rfl, ?_, ?_, ?_⟩⟩
      · simp [mergeChild, mergeLeaf, Splice.getElem?_mid p.left, getElem?_next p.left, Node.isLeaf,
          hjoin]
      · rw [fit_leaf, List.length_append]
        omega
      · simp only [count_leaf, List.length_append]
        omega
      · simp
      · exact relinks_merge s la ra
      · intro X Y ha
        refine ha.sublist ?_
        simp
    · cases h0
  · obtain ⟨_, h0, _⟩ | ⟨_, rk, rc, h1, rfl, _⟩ := hright.2.cases
    · cases h0
    · cases h1
      simp only [count_internal] at hl hr hlmin hrmin
      obtain ⟨hflat, hs⟩ := View.join_internal k p.child.2 hright.2 (by omega)
      have hjoin : mergeInternal (K1 ++ k :: K2) (C1 ++ .internal lk lc :: .internal rk rc :: C2)
          K1.length = some (K1 ++ K2, C1 ++ .internal (lk ++ k :: rk) (lc ++ rc) :: C2) :=
        joinPair_eq rfl p.left rfl
      refine ⟨.internal (lk ++ k :: rk) (lc ++ rc), s, ?_, ⟨⟨?_, hs⟩, ?_, rfl, by simp, ?_, ?_⟩⟩
      · simp [mergeChild, Splice.getElem?_mid p.left, Node.isLeaf, hjoin]
      · simp only [count_internal, List.length_append, List.length_cons]
        omega
      · simp only [count_internal, List.length_append, List.length_cons]
        omega
      · simp only [addrs_internal, addrsFrom_append]
        exact Relinks.refl s _
      · intro X Y ha
        simp only [View.flat, hflat, layout_sep] at ha ⊢
        exact ha

end Merge

section Fill
variable {h : Nat} {K1 K2 : List K} {C1 C2 : List (Node K V)} {c : Node K V}

/-- What every way of preparing the descent achieves: the child has a key to spare. -/
def Filled (comp : K → K → Bool) (order h : Nat) (s : Store) (K1 K2 : List K)
    (C1 : List (Node K V)) (c : Node K V) (C2 : List (Node K V))
    (r : Option (List K × List (Node K V) × Nat × Store)) : Prop :=
  ∃ K1' K2' C1' c' C2' s', r = some (K1' ++ K2', C1' ++ c' :: C2', K1'.length, s') ∧
    Rearranged comp order h s s' K1 K2 C1 c C2 K1' K2' C1' c' C2' ∧ order ≤ layout.count c' ∧
    (K1' ++ K2').length ≤ (K1 ++ K2).length ∧ (K1 ++ K2).length ≤ (K1' ++ K2').length + 1 ∧
    (StrictWeak comp →
      Ascending (itemLt comp) (layout.before K1 C1 ++ layout.flat c ++ layout.after K2 C2) →
      ∀ key, layout.Sides (itemLt comp) (.entry key) K1 K2 C1 C2 →
        layout.Sides (itemLt comp) (.entry key) K1' K2' C1' C2')

theorem filled_borrowPrev {k : K} {t t' c' : Node K V} {up : K} (s : Store)
    (p : layout.Parts order h (K1 ++ [k]) K2 (C1 ++ [t]) c C2)
    (hsh : Shifted comp order h k t c t' up c') (hmin : order ≤ layout.count c')
    (hbelow : StrictWeak comp → KeepsBelow comp k t t' up) :
    Filled comp order h s (K1 ++ [k]) K2 (C1 ++ [t]) c C2
      (some (K1 ++ up :: K2, C1 ++ t' :: c' :: C2, (K1 ++ [k]).length, s)) := by
  have hC : C1.length = K1.length := by simpa using p.left
  refine ⟨K1 ++ [up], K2, C1 ++ [t'], c', C2, s, by simp,
    ⟨(p.step_left.put_pair up hsh.left hsh.right).step_right, rfl, ?_, ?_, ?_⟩, hmin, by simp,
    by simp, ?_⟩
  · have := hsh.pairs
    simp only [List.append_assoc, List.singleton_append, pairsFrom_append, pairsFrom_cons]
    rw [← List.append_assoc (pairs t'), ← List.append_assoc (pairs t), this]
  · have haddrs : addrsFrom (C1 ++ [t] ++ c :: C2) = addrsFrom (C1 ++ [t'] ++ c' :: C2) := by
      have := hsh.addrs
      simp only [List.append_assoc, List.singleton_append, addrsFrom_append, addrsFrom_cons]
      rw [← List.append_assoc (addrs t'), ← List.append_assoc (addrs t), this]
    rw [haddrs]
    exact Relinks.refl s _
  · intro hw X Y ha
    rw [layout.before_snoc k t hC] at ha
    rw [layout.before_snoc up t' hC]
    have := hsh.order hw (X ++ layout.before K1 C1) (layout.after K2 C2 ++ Y) (by simpa using ha)
    simpa using this
  · intro hw _ key hs
    obtain ⟨hs', hlt⟩ := hs.pop_front hC
    exact hs'.push_front hC (hbelow hw key hlt)

theorem filled_borrowNext {k : K} {t t' c' : Node K V} {up : K} (s : Store)
    (p : layout.Parts order h K1 (k :: K2) C1 c (t :: C2))
    (hsh : Shifted comp order h k c t c' up t') (hmin : order ≤ layout.count c')
    (habove : StrictWeak comp → KeepsAbove comp k c t up t') :
    Filled comp order h s K1 (k :: K2) C1 c (t :: C2)
      (some (K1 ++ up :: K2, C1 ++ c' :: t' :: C2, K1.length, s)) := by
  refine ⟨K1, up :: K2, C1, c', t' :: C2, s, rfl,
    ⟨p.put_pair up hsh.left hsh.right, rfl, ?_, ?_, ?_⟩, hmin, by simp, by simp, ?_⟩
  · have := hsh.pairs
    simp only [pairsFrom_append, pairsFrom_cons]
    rw [← List.append_assoc (pairs c'), ← List.append_assoc (pairs c), this]
  · have haddrs : addrsFrom (C1 ++ c :: t :: C2) = addrsFrom (C1 ++ c' :: t' :: C2) := by
      have := hsh.addrs
      simp only [addrsFrom_append, addrsFrom_cons]
      rw [← List.append_assoc (addrs c'), ← List.append_assoc (addrs c), this]
    rw [haddrs]
    exact Relinks.refl s _
  · intro hw X Y ha
    have := hsh.order hw (X ++ layout.before K1 C1) (layout.after K2 C2 ++ Y)
      (by simpa [View.after] using ha)
    simpa [View.after] using this
  · intro hw ha key hs
    obtain ⟨hs', hgt⟩ := hs.pop_back
    have hpair : Ascending (itemLt comp) (layout.flat c ++ .router k :: layout.flat t) := by
      refine Ascending.mid (X := layout.before K1 C1) (Y := layout.after K2 C2) ?_
      simpa [View.after] using ha
    exact hs'.push_back (habove hw key hpair hgt)

theorem filled_mergeNext {k : K} {t m : Node K V} {s s' : Store}
    (p : layout.Parts order h K1 (k :: K2) C1 c (t :: C2)) (hj : Joined comp order h k s s' c t m) :
    Filled comp order h s K1 (k :: K2) C1 c (t :: C2)
      (some (K1 ++ K2, C1 ++ m :: C2, K1.length, s')) := by
  refine ⟨K1, K2, C1, m, C2, s', rfl, ⟨p.join_next hj.fit, hj.size, ?_, ?_, ?_⟩, hj.count, by simp,
    by simp; omega, fun _ _ key hs => hs.pop_back.1⟩
  · simp [hj.pairs]
  · simpa using hj.links.frame (addrsFrom C1) (addrsFrom C2)
  · intro _ X Y ha
    have := hj.order (X ++ layout.before K1 C1) (layout.after K2 C2 ++ Y)
      (by simpa [View.after] using ha)
    simpa using this

theorem filled_mergePrev {k : K} {t m : Node K V} {s s' : Store}
    (p : layout.Parts order h (K1 ++ [k]) K2 (C1 ++ [t]) c C2)
    (hj : Joined comp order h k s s' t c m) :
    Filled comp order h s (K1 ++ [k]) K2 (C1 ++ [t]) c C2
      (some (K1 ++ K2, C1 ++ m :: C2, K1.length, s')) := by
  have hC : C1.length = K1.length := by simpa using p.left
  refine ⟨K1, K2, C1, m, C2, s', rfl, ⟨p.step_left.join_next hj.fit, hj.size, ?_, ?_, ?_⟩, hj.count,
    by simp, by simp; omega, fun _ _ key hs => (hs.pop_front hC).1⟩
  · simp [hj.pairs]
  · simpa using hj.links.frame (addrsFrom C1) (addrsFrom C2)
  · intro _ X Y ha
    rw [layout.before_snoc k t hC] at ha
    have := hj.order (X ++ layout.before K1 C1) (layout.after K2 C2 ++ Y) (by simpa using ha)
    simpa using this

theorem borrowFromPrev_run (comp : K → K → Bool) (ho : 2 ≤ order) {k : K} {t : Node K V}
    (p : layout.Parts order h (K1 ++ [k]) K2 (C1 ++ [t]) c C2) (hlend : order ≤ layout.count t)
    (hfew : layout.count c = order - 1) :
    ∃ t' up c', borrowFromPrev (Node.isLeaf c) (K1 ++ [k] ++ K2) (C1 ++ [t] ++ c :: C2)
        (K1 ++ [k]).length = some (K1 ++ up :: K2, C1 ++ t' :: c' :: C2) ∧
      Shifted comp order h k t c t' up c' ∧ order ≤ layout.count c' ∧ (StrictWeak comp → KeepsBelow comp k t t' up) := by
  have hC : C1.length = K1.length := by simpa using p.left
  have hkeys : K1 ++ [k] ++ K2 = K1 ++ k :: K2 := by simp
  have hkids : C1 ++ [t] ++ c :: C2 = C1 ++ t :: c :: C2 := by simp
  have hidx : (K1 ++ [k]).length - 1 = K1.length := by simp
  have hprev := p.step_left.child
  rcases p.child.2.cases with ⟨cl, rfl, rfl, _⟩ | ⟨h, ck, cc, rfl, rfl, _⟩
  · obtain ⟨tl, _, rfl, htmax⟩ | ⟨_, _, _, h0, _⟩ := hprev.2.cases
    · have hmax := (shape_leaf tl).mp hprev.2
      simp only [count_leaf] at hlend hfew
      obtain ⟨t', up, c', hrot, hsh, hmin, hbelow⟩ :=
        leafRotateRight_spec comp ho k hlend hmax hfew
      refine ⟨t', up, c', ?_, hsh, hmin, hbelow⟩
      simp only [borrowFromPrev, Node.isLeaf, if_true, borrowLeafFromPrev, hkeys, hkids, hidx]
      exact onPair_eq rfl hC hrot
    · cases h0
  · obtain ⟨_, h0, _⟩ | ⟨_, tk, tc, h1, rfl, _⟩ := hprev.2.cases
    · cases h0
    · cases h1
      simp only [count_internal] at hlend hfew
      obtain ⟨t', up, c', hrot, hsh, hmin, hbelow⟩ := internalRotateRight_spec comp ho k
        hprev.2 p.child.2 hlend hfew
      refine ⟨t', up, c', ?_, hsh, hmin, fun _ => hbelow⟩
      simp only [borrowFromPrev, Node.isLeaf, Bool.false_eq_true, if_false, borrowInternalFromPrev,
        hkeys, hkids, hidx]
      exact onPair_eq rfl hC hrot

theorem borrowFromNext_run (comp : K → K → Bool) (ho : 2 ≤ order) {k : K} {t : Node K V}
    (p : layout.Parts order h K1 (k :: K2) C1 c (t :: C2)) (hlend : order ≤ layout.count t)
    (hfew : layout.count c = order - 1) :
    ∃ c' up t', borrowFromNext (Node.isLeaf c) (K1 ++ k :: K2) (C1 ++ c :: t :: C2) K1.length =
        some (K1 ++ up :: K2, C1 ++ c' :: t' :: C2) ∧
      Shifted comp order h k c t c' up t' ∧ order ≤ layout.count c' ∧ (StrictWeak comp → KeepsAbove comp k c t up t') := by
  have hnext := p.back t List.mem_cons_self
  rcases p.child.2.cases with ⟨cl, rfl, rfl, _⟩ | ⟨h, ck, cc, rfl, rfl, _⟩
  · obtain ⟨tl, _, rfl, _⟩ | ⟨_, _, _, h0, _⟩ := hnext.2.cases
    · have hmax := (shape_leaf tl).mp hnext.2
      simp only [count_leaf] at hlend hfew
      obtain ⟨c', up, t', hrot, hsh, hmin, habove⟩ :=
        leafRotateLeft_spec comp ho k hlend hmax hfew
      refine ⟨c', up, t', ?_, hsh, hmin, habove⟩
      simp only [borrowFromNext, Node.isLeaf, if_true, borrowLeafFromNext]
      exact onPair_eq rfl p.left hrot
    · cases h0
  · obtain ⟨_, h0, _⟩ | ⟨_, tk, tc, h1, rfl, _⟩ := hnext.2.cases
    · cases h0
    · cases h1
      simp only [count_internal] at hlend hfew
      obtain ⟨c', up, t', hrot, hsh, hmin, habove⟩ := internalRotateLeft_spec comp ho k
        hnext.2 p.child.2 hlend hfew
      refine ⟨c', up, t', ?_, hsh, hmin, fun _ => habove⟩
      simp only [borrowFromNext, Node.isLeaf, Bool.false_eq_true, if_false, borrowInternalFromNext]
      exact onPair_eq rfl p.left hrot

theorem canLend_prev {k : K} {t : Node K V} (hC : C1.length = K1.length) :
    canLend order (C1 ++ [t] ++ c :: C2) ((K1 ++ [k]).length - 1) =
      decide (order ≤ layout.count t) := by
  have hget : (C1 ++ [t] ++ c :: C2)[(K1 ++ [k]).length - 1]? = some t := by
    rw [List.append_assoc]
    exact Splice.getElem?_mid (by simp [hC])
  simp only [canLend, hget, count_eq]

theorem canLend_next {t : Node K V} (hC : C1.length = K1.length) :
    canLend order (C1 ++ c :: t :: C2) (K1.length + 1) = decide (order ≤ layout.count t) := by
  simp only [canLend, getElem?_next hC, count_eq]

/-- A child with too few keys gets one from a neighbour or is merged with one. -/
theorem fill_spec (comp : K → K → Bool) (ho : 2 ≤ order) (p : layout.Parts order h K1 K2 C1 c C2) (s : Store)
    (hpos : 1 ≤ (K1 ++ K2).length) (hfew : layout.count c = order - 1) :
    Filled comp order h s K1 K2 C1 c C2
      (fill order s (K1 ++ K2) (C1 ++ c :: C2) K1.length (Node.isLeaf c)) := by
  unfold fill
  split
  · rename_i hcond
    rw [Bool.and_eq_true, decide_eq_true_eq] at hcond
    obtain ⟨K, k, C, t, rfl, rfl, hC⟩ := p.prev_cases (List.length_pos_iff.mp hcond.1)
    rw [canLend_prev hC, decide_eq_true_eq] at hcond
    obtain ⟨t', up, c', hrun, hsh, hmin, hbelow⟩ :=
      borrowFromPrev_run comp ho p hcond.2 hfew
    rw [hrun]
    exact filled_borrowPrev s p hsh hmin hbelow
  · rename_i hnolend
    split
    · rename_i hcond
      rw [Bool.and_eq_true, decide_eq_true_eq] at hcond
      have hK2 : K2 ≠ [] := by
        intro hnil
        rw [hnil] at hcond
        simp at hcond
      obtain ⟨k, K, t, C, rfl, rfl⟩ := p.next_cases hK2
      rw [canLend_next p.left, decide_eq_true_eq] at hcond
      obtain ⟨c', up, t', hrun, hsh, hmin, habove⟩ :=
        borrowFromNext_run comp ho p hcond.2 hfew
      rw [hrun]
      exact filled_borrowNext s p hsh hmin habove
    · rename_i hnolend'
      split
      · rename_i hlt
        have hK2 : K2 ≠ [] := by
          intro hnil
          rw [hnil] at hlt
          simp at hlt
        obtain ⟨k, K, t, C, rfl, rfl⟩ := p.next_cases hK2
        rw [canLend_next p.left, Bool.and_eq_true, decide_eq_true_eq, decide_eq_true_eq] at hnolend'
        have htfew := Nat.lt_of_not_le (fun hle => hnolend' ⟨hlt, hle⟩)
        obtain ⟨m, s', hrun, hj⟩ :=
          mergeChild_spec comp ho p s (by omega) htfew
        rw [hrun]
        exact filled_mergeNext p hj
      · rename_i hge
        have hK2 : K2 = [] := by
          rw [List.length_append] at hge
          exact List.length_eq_zero_iff.mp (by omega)
        have hK1 : K1 ≠ [] := by
          intro hnil
          rw [hnil, hK2] at hpos
          simp at hpos
        obtain ⟨K, k, C, t, rfl, rfl, hC⟩ := p.prev_cases hK1
        rw [canLend_prev hC, Bool.and_eq_true, decide_eq_true_eq, decide_eq_true_eq] at hnolend
        have htfew := Nat.lt_of_not_le (fun hle => hnolend ⟨by simp, hle⟩)
        obtain ⟨m, s', hrun, hj⟩ :=
          mergeChild_spec comp ho p.step_left s htfew (by omega)
        have hkeys : K ++ [k] ++ K2 = K ++ k :: K2 := by simp
        have hkids : C ++ [t] ++ c :: C2 = C ++ t :: c :: C2 := by simp
        have hidx : (K ++ [k]).length - 1 = K.length := by simp
        rw [hidx, hkeys, hkids, hrun]
        exact filled_mergePrev p hj

/-- The node is ready for the descent. -/
theorem prepare_spec (comp : K → K → Bool) (ho : 2 ≤ order) (p : layout.Parts order h K1 K2 C1 c C2) (s : Store)
    (hpos : 1 ≤ (K1 ++ K2).length) :
    Filled comp order h s K1 K2 C1 c C2
      (prepare order s (K1 ++ K2) (C1 ++ c :: C2) K1.length) := by
  have hget : (C1 ++ c :: C2)[K1.length]? = some c := Splice.getElem?_mid p.left
  have hmin := p.child.1
  have hland : ∀ A B : List K, ¬ (A ++ B).length < A.length := by
    intro A B
    rw [List.length_append]
    omega
  by_cases hfew : layout.count c = order - 1
  · obtain ⟨K1', K2', C1', c', C2', s', hfill, hrest⟩ :=
      fill_spec comp ho p s hpos hfew
    refine ⟨K1', K2', C1', c', C2', s', ?_, hrest⟩
    simp only [prepare, hget, Option.bind_eq_bind, Option.bind_some, count_eq, hfew, if_true, hfill,
      hland, if_false, Option.pure_def]
  · refine ⟨K1, K2, C1, c, C2, s, ?_, Rearranged.refl p s, by omega, le_rfl, by omega,
      fun _ _ _ hs => hs⟩
    simp only [prepare, hget, Option.bind_eq_bind, Option.bind_some, count_eq, hfew, if_false,
      hland, Option.pure_def]

end Fill

section Leaf
variable {A B entries : List (K × V)} {e : K × V} {key : K}

theorem findKey_eq (hA : ∀ x ∈ A, place comp key x = .lt)
    (hB : ∀ b ∈ B.head?, comp b.1 key = false) : findKey comp (A ++ B) key = A.length := by
  have hscan : (A ++ B).takeWhile (fun e => comp e.1 key) = A := by
    rw [List.takeWhile_append_of_pos (fun x hx => cut_eq_lt.mp (hA x hx))]
    cases B with
    | nil => simp
    | cons b B =>
      have hb : comp b.1 key = false := hB b rfl
      simp [hb]
  rw [findKey, hscan]

/-- The search of a leaf finds the pair of the key, at the index it is erased from. -/
theorem entryAt_cases (hc : StrictWeak comp) (key : K)
    (hs : entries.Pairwise (fun a b => comp a.1 b.1 = true)) :
    entryAt comp entries key = lookup (place comp key) entries ∧
      (∀ e, entryAt comp entries key = some e →
        entries.eraseIdx (findKey comp entries key) = erase (place comp key) entries) := by
  rcases exists_place hc key hs with ⟨A, e, B, rfl, hA, he, hB⟩ | ⟨A, B, rfl, hA, hB⟩
  · have hidx : findKey comp (A ++ e :: B) key = A.length := by
      refine findKey_eq hA ?_
      intro b hb
      cases hb
      exact (cut_eq_eq.mp he).1
    rw [lookup_hit (ne_eq_of_lt hA) he, erase_hit (ne_eq_of_lt hA) he (ne_eq_of_gt hB), hidx]
    refine ⟨?_, fun _ _ => Splice.eraseIdx_mid rfl⟩
    have hhit : equivalent comp e.1 key = true := equivalent_iff.mpr he
    simp [entryAt, hidx, hhit]
  · have hnone : entryAt comp (A ++ B) key = none := by
      have hidx : findKey comp (A ++ B) key = A.length := by
        refine findKey_eq hA ?_
        intro b hb
        exact hc.asymm ((cut_eq_gt hc).mp (hB b (List.mem_of_head? hb)))
      cases B with
      | nil => rw [entryAt, hidx, List.append_nil, List.getElem?_length]
      | cons b B =>
        have hmiss : equivalent comp b.1 key = false :=
          equivalent_false.mpr (ne_eq_of_gt hB b List.mem_cons_self)
        simp [entryAt, hidx, hmiss]
    rw [lookup_gap hA hB, hnone]
    refine ⟨rfl, ?_⟩
    intro e he
    cases he

end Leaf

/-- The size a removal leaves: one less if the key was there. -/
def sizeAfterRemove (comp : K → K → Bool) (key : K) (l : List (K × V)) (size : Int) : Int :=
  if (lookup (place comp key) l).isSome then BTree.toInt32 (size - 1) else size

/-- What a removal below a node keeps of the tree's structure. -/
structure Trimmed (order h : Nat) (s s' : Store) (node node' : Node K V) : Prop where
  shape : layout.Shape order h node'
  count : layout.count node ≤ layout.count node' + 1
  links : Relinks s s' (addrs node) (addrs node')

/-- What it does to the contents, between the items `X` and `Y` around the subtree. -/
def RemovesAt (comp : K → K → Bool) (key : K) (s s' : Store) (node node' : Node K V) : Prop :=
  ∀ X Y, Ascending (itemLt comp) (X ++ layout.flat node ++ Y) →
    Ascending (itemLt comp) (X ++ layout.flat node' ++ Y) ∧
      pairs node' = erase (place comp key) (pairs node) ∧
      s'.size = sizeAfterRemove comp key (pairs node) s.size

theorem removeRecursive_leaf (hc : StrictWeak comp) (key : K) (l : Leaf K V) (s : Store)
    (fuel : Nat) : ∀ node' s',
    removeRecursive comp order key (fuel + 1) (.leaf l) s = some (node', s') →
      RemovesAt comp key s s' (.leaf l) node' := by
  intro node' s' hrun X Y ha
  obtain ⟨addr, entries⟩ := l
  simp only [layout_leaf] at ha
  have hsorted : entries.Pairwise (fun a b => comp a.1 b.1 = true) := List.pairwise_map.mp ha.mid
  obtain ⟨hlook, herase⟩ := entryAt_cases hc key hsorted
  simp only [removeRecursive] at hrun
  cases hat : entryAt comp entries key with
  | some e =>
    simp only [hat, Option.isSome_some, if_true, Option.some.injEq, Prod.mk.injEq] at hrun
    obtain ⟨rfl, rfl⟩ := hrun
    rw [hat] at hlook
    refine ⟨?_, ?_, ?_⟩
    · refine ha.sublist ?_
      simp only [layout_leaf]
      exact ((List.eraseIdx_sublist _ _).map _).append_left X |>.append_right Y
    · rw [pairs_leaf, pairs_leaf, herase e hat]
    · simp [sizeAfterRemove, ← hlook, Store.setSize]
  | none =>
    simp only [hat, Option.isSome_none, Bool.false_eq_true, if_false, Option.some.injEq,
      Prod.mk.injEq] at hrun
    obtain ⟨rfl, rfl⟩ := hrun
    rw [hat] at hlook
    refine ⟨by simpa using ha, ?_, ?_⟩
    · rw [pairs_leaf, erase_eq_self]
      intro e he heq
      have hnot := List.find?_eq_none.mp hlook.symm e he
      simp [heq] at hnot
    · simp [sizeAfterRemove, ← hlook]

theorem removeRecursive_spec (comp : K → K → Bool) (ho : 2 ≤ order) (key : K) {h : Nat}
    {node : Node K V} (s : Store) (hs : layout.Shape order h node) (hpos : 1 ≤ layout.count node) :
    ∃ node' s', removeRecursive comp order key (h + 1) node s = some (node', s') ∧
      Trimmed order h s s' node node' ∧
      (StrictWeak comp → RemovesAt comp key s s' node node') := by
  induction h generalizing node s with
  | zero =>
    cases node with
    | internal keys children => cases hs
    | leaf l =>
      have hmax := (shape_leaf l).mp hs
      cases hat : (entryAt comp l.entries key).isSome with
      | true =>
        have hrun : removeRecursive comp order key 1 (.leaf l) s =
            some (.leaf ⟨l.addr, l.entries.eraseIdx (findKey comp l.entries key)⟩,
              s.setSize (s.size - 1)) := by simp [removeRecursive, hat]
        have hlen := List.length_eraseIdx (l := l.entries) (i := findKey comp l.entries key)
        refine ⟨_, _, hrun, ⟨?_, ?_, relinks_setSize s _ _⟩,
          fun hc => removeRecursive_leaf hc key l s 0 _ _ hrun⟩
        · simp only [shape_leaf]
          split at hlen <;> omega
        · simp only [count_leaf]
          split at hlen <;> omega
      | false =>
        have hrun : removeRecursive comp order key 1 (.leaf l) s = some (.leaf l, s) := by
          simp [removeRecursive, hat]
        exact ⟨_, _, hrun, ⟨hs, by omega, Relinks.refl _ _⟩,
          fun hc => removeRecursive_leaf hc key l s 0 _ _ hrun⟩
  | succ h ih =>
    cases node with
    | leaf l => cases hs
    | internal keys children =>
      obtain ⟨K1, K2, C1, c, C2, hkeys, hchildren, hidx, p, hsides⟩ := open_node comp hs key
      have hlen := hs.1
      rw [count_internal, hkeys] at hpos
      rw [hkeys] at hlen
      obtain ⟨K1', K2', C1', c', C2', s₁, hprep, hre, hmin, hle, hge, hturn⟩ :=
        prepare_spec comp ho p s hpos
      obtain ⟨c'', s₂, hrem, ht, hat⟩ := ih s₁ hre.child.2 (by omega)
      have hcount := ht.count
      have hp := hre.toParts.put (show layout.Fit order h c'' from ⟨by omega, ht.shape⟩)
      have hrun : removeRecursive comp order key (h + 1 + 1) (.internal keys children) s =
          some (.internal (K1' ++ K2') (C1' ++ c'' :: C2'), s₂) := by
        have hprep' : prepare order s keys children (childIdx comp keys key) =
            some (K1' ++ K2', C1' ++ c' :: C2', K1'.length, s₁) := by
          rw [← hidx, hkeys, hchildren]
          exact hprep
        simp [removeRecursive, hprep', Splice.getElem?_mid hre.left, hrem, Splice.set_mid hre.left]
      refine ⟨_, _, hrun, ⟨hp.shape (by omega), ?_, ?_⟩, ?_⟩
      · rw [count_internal, count_internal, hkeys]
        exact hge
      · rw [addrs_internal, addrs_internal, hchildren]
        exact hre.links.trans (by simpa using ht.links.frame (addrsFrom C1') (addrsFrom C2'))
      · intro hc X Y ha
        have hs₀ := hsides hc ha.mid
        rw [hkeys, hchildren, p.flat] at ha
        have hs₁ := hturn hc ha.mid key hs₀
        have ha₁ := hre.order hc X Y ha
        obtain ⟨ha₂, hpairs, hsize⟩ := hat hc (X ++ layout.before K1' C1')
          (layout.after K2' C2' ++ Y) (by simpa using ha₁)
        have hfront := ne_eq_of_lt (place_before hre.toParts hs₁)
        have hback := ne_eq_of_gt (place_after hre.toParts hs₁)
        have hcontents : pairsFrom children = pairsFrom C1' ++ pairs c' ++ pairsFrom C2' := by
          rw [hchildren, ← hre.pairs]
          simp
        refine ⟨?_, ?_, ?_⟩
        · rw [hp.flat]
          simpa using ha₂
        · rw [pairs_internal, pairs_internal, hcontents, erase_append, erase_append,
            erase_eq_self _ hfront, erase_eq_self (pairsFrom C2') hback, ← hpairs]
          simp
        · rw [hsize, hre.size, pairs_internal, hcontents, sizeAfterRemove, sizeAfterRemove,
            lookup_append, lookup_append, lookup_eq_none _ hfront, lookup_eq_none _ hback]
          simp

end Cppforge.Multiway.BPlusTree
