import Cppforge.Lib.Run
import Cppforge.Lists.SkipList
import Mathlib.Data.Finset.Insert
import Mathlib.Data.Finset.Card

namespace Cppforge.Lists.SkipList
open Function Lanes

/-- An element with its node and the height of its tower. -/
structure Tower (T : Type) where
  addr : Nat
  key : T
  height : Nat

variable {T : Type} {nodes nodes' : Heap T} {i j n a b newNode current : Nat} {q : Option Nat}

section Heaps

/-- What does not change while a node lives. -/
def shape (nodes : Heap T) (a : Nat) : Option (T × Nat) :=
  (nodes a).map fun node => (node.key, node.forward.length)

theorem forward_of_shape {key : T} {height : Nat} (h : shape nodes a = some (key, height))
    (hi : i < height) : ∃ q, forward nodes i a = some q := by
  obtain ⟨node, hnode, heq⟩ := Option.map_eq_some_iff.mp h
  rw [Prod.mk.injEq] at heq
  rw [← heq.2] at hi
  exact ⟨node.forward[i], by simp [forward, hnode, hi]⟩

theorem setForward_spec (h : forward nodes i a = some q) (p : Option Nat) :
    ∃ nodes', setForward nodes i a p = some nodes' ∧ (∀ b, shape nodes' b = shape nodes b) ∧
      ∀ j b, forward nodes' j b = if j = i ∧ b = a then some p else forward nodes j b := by
  obtain ⟨node, hnode, hread⟩ := Option.bind_eq_some_iff.mp h
  obtain ⟨hi, _⟩ := List.getElem?_eq_some_iff.mp hread
  refine ⟨update nodes a (some { node with forward := node.forward.set i p }),
    by simp [setForward, hnode, hi], ?_, ?_⟩
  · intro b
    by_cases hb : b = a
    · subst hb
      simp [shape, hnode]
    · simp [shape, hb]
  · intro j b
    by_cases hb : b = a
    · subst hb
      by_cases hj : j = i
      · subst hj
        simp [forward, hi]
      · simp [forward, hnode, hj, List.getElem?_set_ne (Ne.symm hj)]
    · simp [forward, hb]

theorem splice_spec {pred : Nat → Nat} (newNode n : Nat)
    (hpred : ∀ j, i ≤ j → j < i + n → ∃ q, forward nodes j (pred j) = some q)
    (hnew : ∀ j, i ≤ j → j < i + n → ∃ q, forward nodes j newNode = some q)
    (hne : ∀ j, pred j ≠ newNode) :
    ∃ nodes', splice newNode i ((List.range' i n).map pred) nodes = some nodes' ∧
      (∀ b, shape nodes' b = shape nodes b) ∧
      ∀ j b, forward nodes' j b =
        if i ≤ j ∧ j < i + n then
          if b = pred j then some (some newNode)
          else if b = newNode then forward nodes j (pred j) else forward nodes j b
        else forward nodes j b := by
  induction n generalizing i nodes with
  | zero =>
    refine ⟨nodes, rfl, fun _ => rfl, ?_⟩
    intro j b
    rw [if_neg (by omega)]
  | succ n ih =>
    obtain ⟨next, hnext⟩ := hpred i (le_refl i) (by omega)
    obtain ⟨old, hold⟩ := hnew i (le_refl i) (by omega)
    obtain ⟨nodes₁, hset₁, hshape₁, hfor₁⟩ := setForward_spec hold next
    have hread : forward nodes₁ i (pred i) = some next := by
      rw [hfor₁, if_neg (fun h => hne i h.2), hnext]
    obtain ⟨nodes₂, hset₂, hshape₂, hfor₂⟩ := setForward_spec hread (some newNode)
    have hlater : ∀ j b, i < j → forward nodes₂ j b = forward nodes j b := by
      intro j b hj
      rw [hfor₂, if_neg (by omega), hfor₁, if_neg (by omega)]
    obtain ⟨nodes', hrun, hshape, hfor⟩ := @ih nodes₂ (i + 1)
      (fun j hj hjn => by
        rw [hlater j _ (by omega)]
        exact hpred j (by omega) (by omega))
      (fun j hj hjn => by
        rw [hlater j _ (by omega)]
        exact hnew j (by omega) (by omega))
    refine ⟨nodes', ?_, fun b => by rw [hshape, hshape₂, hshape₁], ?_⟩
    · simp [List.range'_succ, splice, hnext, hset₁, hset₂, hrun]
    · intro j b
      rw [hfor]
      by_cases hj : j = i
      · subst hj
        rw [if_neg (by omega), if_pos (by omega), hfor₂]
        by_cases hb : b = pred j
        · simp [hb]
        · rw [if_neg (fun h => hb h.2), if_neg hb, hfor₁]
          by_cases hbn : b = newNode
          · simp [hbn, hnext]
          · simp [hbn]
      · by_cases hin : i + 1 ≤ j ∧ j < i + 1 + n
        · have hin' : i ≤ j ∧ j < i + (n + 1) := by omega
          rw [if_pos hin, if_pos hin', hlater j b (by omega), hlater j (pred j) (by omega)]
        · rw [if_neg hin, if_neg (by omega), hfor₂, if_neg (fun h => hj h.1), hfor₁,
            if_neg (fun h => hj h.1)]

/-- The loop that unlinks stops where the tower ends. -/
theorem unlink_spec {pred : Nat → Nat} (height n : Nat)
    (hin : ∀ j, i ≤ j → j < i + n → j < height → forward nodes j (pred j) = some (some current))
    (hout : ∀ j, i ≤ j → j < i + n → height ≤ j →
      ∃ q, forward nodes j (pred j) = some q ∧ q ≠ some current)
    (hcur : ∀ j, j < height → ∃ q, forward nodes j current = some q)
    (hne : ∀ j, pred j ≠ current) :
    ∃ nodes', unlink current i ((List.range' i n).map pred) nodes = some nodes' ∧
      (∀ b, shape nodes' b = shape nodes b) ∧
      ∀ j b, forward nodes' j b =
        if i ≤ j ∧ j < i + n ∧ j < height ∧ b = pred j then forward nodes j current
        else forward nodes j b := by
  induction n generalizing i nodes with
  | zero =>
    refine ⟨nodes, rfl, fun _ => rfl, ?_⟩
    intro j b
    rw [if_neg (by omega)]
  | succ n ih =>
    by_cases hi : i < height
    · obtain ⟨next, hnext⟩ := hcur i hi
      have hread := hin i (le_refl i) (by omega) hi
      obtain ⟨nodes₁, hset, hshape₁, hfor₁⟩ := setForward_spec hread next
      have hlater : ∀ j b, i < j → forward nodes₁ j b = forward nodes j b := by
        intro j b hj
        rw [hfor₁, if_neg (by omega)]
      have hcur₁ : ∀ j, forward nodes₁ j current = forward nodes j current := by
        intro j
        rw [hfor₁, if_neg (fun h => hne i h.2.symm)]
      obtain ⟨nodes', hrun, hshape, hfor⟩ := @ih nodes₁ (i + 1)
        (fun j hj hjn hjh => by
          rw [hlater j _ (by omega)]
          exact hin j (by omega) (by omega) hjh)
        (fun j hj hjn hjh => by
          rw [hlater j _ (by omega)]
          exact hout j (by omega) (by omega) hjh)
        (fun j hj => by
          rw [hcur₁]
          exact hcur j hj)
      refine ⟨nodes', ?_, fun b => by rw [hshape, hshape₁], ?_⟩
      · simp [List.range'_succ, unlink, hread, hnext, hset, hrun]
      · intro j b
        rw [hfor, hcur₁]
        by_cases hj : j = i
        · subst hj
          rw [if_neg (by omega), hfor₁]
          by_cases hb : b = pred j
          · simp [hb, hi, hnext]
          · simp [hb]
        · by_cases hjb : i + 1 ≤ j ∧ j < i + 1 + n ∧ j < height ∧ b = pred j
          · rw [if_pos hjb, if_pos ⟨by omega, by omega, hjb.2.2.1, hjb.2.2.2⟩]
          · rw [if_neg hjb, if_neg ?_, hfor₁, if_neg (fun h => hj h.1)]
            rintro ⟨h₁, h₂, h₃, h₄⟩
            exact hjb ⟨by omega, by omega, h₃, h₄⟩
    · obtain ⟨q, hread, hq⟩ := hout i (le_refl i) (by omega) (by omega)
      refine ⟨nodes, ?_, fun _ => rfl, ?_⟩
      · simp [List.range'_succ, unlink, hread, hq]
      · intro j b
        rw [if_neg (by omega)]

end Heaps

/-- The nodes of a level. -/
def lane (ts : List (Tower T)) (i : Nat) : List Nat :=
  (ts.filter fun t => decide (i < t.height)).map Tower.addr

/-- The last node of a level before a place, or the header. -/
def pred (header : Nat) (A : List (Tower T)) (i : Nat) : Nat := (lane A i).getLastD header

/-- The level of the tallest tower, or the lowest. -/
structure Tallest (ts : List (Tower T)) (level : Nat) : Prop where
  pos : 1 ≤ level
  le : ∀ t ∈ ts, t.height ≤ level
  reached : level = 1 ∨ ∃ t ∈ ts, t.height = level

variable [LinearOrder T] {l : SkipList T} {ts A B : List (Tower T)} {t : Tower T} {key : T}
  {level : Nat}

/-- The towers stand in the order of their keys, and each level links those that reach it. -/
structure Holds (l : SkipList T) (ts : List (Tower T)) : Prop where
  room : 1 ≤ l.maxLevel
  sorted : ts.Pairwise (·.key < ·.key)
  distinct : (l.header :: ts.map Tower.addr).Nodup
  old : ∀ a ∈ l.header :: ts.map Tower.addr, a < l.fresh
  shapes : ∀ t ∈ ts, shape l.nodes t.addr = some (t.key, t.height)
  range : ∀ t ∈ ts, 1 ≤ t.height ∧ t.height ≤ l.maxLevel
  head : ∃ key, shape l.nodes l.header = some (key, l.maxLevel)
  links : ∀ i < l.maxLevel, Linked (forward l.nodes i) l.header (lane ts i)
  tallest : Tallest ts l.currentLevel
  size : l.size = ts.length

section Lanes
omit [LinearOrder T]

theorem lane_append (A B : List (Tower T)) (i : Nat) : lane (A ++ B) i = lane A i ++ lane B i := by
  simp [lane]

theorem mem_lane : a ∈ lane ts i ↔ ∃ t ∈ ts, i < t.height ∧ t.addr = a := by
  simp [lane, and_assoc]

theorem lane_sublist (ts : List (Tower T)) (i : Nat) : (lane ts i).Sublist (ts.map Tower.addr) :=
  List.filter_sublist.map _

theorem lane_le (ts : List (Tower T)) (i : Nat) : (lane ts (i + 1)).Sublist (lane ts i) := by
  refine List.Sublist.map _ (List.monotone_filter_right ts ?_)
  intro t ht
  simp only [decide_eq_true_eq] at ht ⊢
  omega

theorem lane_zero (h : ∀ t ∈ ts, 1 ≤ t.height) : lane ts 0 = ts.map Tower.addr := by
  rw [lane, List.filter_eq_self.mpr]
  intro t ht
  exact decide_eq_true (h t ht)

theorem lane_eq_nil : lane ts i = [] ↔ ∀ t ∈ ts, t.height ≤ i := by
  simp [lane]

theorem lane_cons (t : Tower T) (ts : List (Tower T)) (i : Nat) :
    lane (t :: ts) i = if i < t.height then t.addr :: lane ts i else lane ts i := by
  by_cases hi : i < t.height
  · simp [lane, hi]
  · simp [lane, hi]

theorem pred_mem (header : Nat) (A : List (Tower T)) (i : Nat) :
    pred header A i = header ∨ ∃ t ∈ A, i < t.height ∧ t.addr = pred header A i := by
  rcases List.mem_cons.mp (getLastD_mem (lane A i) header) with h | h
  · exact .inl h
  · exact .inr (mem_lane.mp h)

theorem pred_mem_all (header : Nat) (A B : List (Tower T)) (i : Nat) :
    pred header A i ∈ header :: (A ++ B).map Tower.addr := by
  rcases pred_mem header A i with heq | ⟨t, ht, _, heq⟩
  · rw [heq]
    exact List.mem_cons_self
  · rw [← heq, List.map_append]
    exact List.mem_cons_of_mem _ (List.mem_append_left _ (List.mem_map_of_mem ht))

theorem mem_of_lane (h : b ∈ a :: lane ts i) : b ∈ a :: ts.map Tower.addr :=
  ((lane_sublist ts i).cons_cons a).subset h

theorem addr_perm (header : Nat) (A B : List (Tower T)) (t : Tower T) :
    (header :: (A ++ t :: B).map Tower.addr).Perm (t.addr :: header :: (A ++ B).map Tower.addr) :=
  ((List.perm_middle.map Tower.addr).cons header).trans (.swap _ _ _)

end Lanes

theorem split_at (h : ts.Pairwise (·.key < ·.key)) (key : T) :
    ∃ A B, ts = A ++ B ∧ (∀ t ∈ A, t.key < key) ∧ ∀ t ∈ B, key ≤ t.key := by
  induction ts with
  | nil => exact ⟨[], [], rfl, by simp, by simp⟩
  | cons t ts ih =>
    obtain ⟨ht, hts⟩ := List.pairwise_cons.mp h
    by_cases hk : t.key < key
    · obtain ⟨A, B, rfl, hA, hB⟩ := ih hts
      exact ⟨t :: A, B, rfl, List.forall_mem_cons.mpr ⟨hk, hA⟩, hB⟩
    · have hle := not_lt.mp hk
      exact ⟨[], t :: ts, rfl, by simp,
        List.forall_mem_cons.mpr ⟨hle, fun u hu => hle.trans (ht u hu).le⟩⟩

section Reading

theorem Holds.below (h : Holds l ts) (ht : t ∈ ts) :
    SkipList.below l.nodes key t.addr = some (decide (t.key < key)) := by
  obtain ⟨node, hnode, heq⟩ := Option.map_eq_some_iff.mp (h.shapes t ht)
  rw [Prod.mk.injEq] at heq
  simp [SkipList.below, hnode, heq.1]

/-- The descent ends before the first key that is not below, and so it does at each level. -/
theorem Holds.descend (h : Holds l (A ++ B)) (hA : ∀ t ∈ A, t.key < key)
    (hB : ∀ t ∈ B, key ≤ t.key) (hlevel : level ≤ l.maxLevel)
    (hcur : current = l.header ∨ ∃ t ∈ A, level ≤ t.height ∧ t.addr = current) :
    l.descend key level current =
      some (if level = 0 then current else pred l.header A 0,
        (List.range level).map (pred l.header A)) := by
  induction level generalizing current with
  | zero => rfl
  | succ i ih =>
    have hmem : current ∈ l.header :: lane A i := by
      rcases hcur with rfl | ⟨t, ht, hi, rfl⟩
      · exact List.mem_cons_self
      · exact List.mem_cons_of_mem _ (mem_lane.mpr ⟨t, ht, hi, rfl⟩)
    obtain ⟨P, Q, hPQ, hP⟩ := cut_behind hmem
    have hlinks := h.links i hlevel
    rw [lane_append, hPQ, List.append_assoc] at hlinks
    have hrest := hlinks.after
    rw [hP] at hrest
    have hQ : ∀ b ∈ Q, SkipList.below l.nodes key b = some true := by
      intro b hb
      obtain ⟨t, ht, _, rfl⟩ := mem_lane.mp (hPQ ▸ List.mem_append_right P hb)
      rw [h.below (List.mem_append_left B ht)]
      simp [hA t ht]
    have hstop : ∀ b ∈ (lane B i).head?, SkipList.below l.nodes key b = some false := by
      intro b hb
      obtain ⟨t, ht, _, rfl⟩ := mem_lane.mp (List.mem_of_mem_head? hb)
      rw [h.below (List.mem_append_right A ht)]
      simp [hB t ht]
    have hturns : Q.length < l.size + 1 := by
      have hle := (lane_sublist A i).length_le
      rw [hPQ, List.length_append, List.length_map] at hle
      rw [h.size, List.length_append]
      omega
    have hadvance := hrest.advance hQ hstop hturns
    have hpred : Q.getLastD current = pred l.header A i := by
      rw [pred, hPQ, getLastD_append, hP]
    rw [hpred] at hadvance
    have hnext := @ih (pred l.header A i) (by omega)
      ((pred_mem l.header A i).imp id fun ⟨t, ht, hi, heq⟩ => ⟨t, ht, hi.le, heq⟩)
    have hstep : l.descend key (i + 1) current =
        some (if i = 0 then pred l.header A i else pred l.header A 0,
          (List.range i).map (pred l.header A) ++ [pred l.header A i]) := by
      simp [SkipList.descend, hadvance, hnext]
    rw [hstep, List.range_succ, List.map_append, List.map_singleton]
    by_cases hi : i = 0
    · subst hi
      rfl
    · simp [hi]

theorem Holds.currentLevel_le (h : Holds l ts) : l.currentLevel ≤ l.maxLevel := by
  rcases h.tallest.reached with hone | ⟨t, ht, heq⟩
  · exact hone ▸ h.room
  · exact heq ▸ (h.range t ht).2

/-- From the top the descent fills `update` with the last nodes before the key. -/
theorem Holds.descend_top (h : Holds l (A ++ B)) (hA : ∀ t ∈ A, t.key < key)
    (hB : ∀ t ∈ B, key ≤ t.key) :
    l.descend key l.currentLevel l.header =
      some (pred l.header A 0, (List.range l.currentLevel).map (pred l.header A)) := by
  have hpos := h.tallest.pos
  rw [h.descend hA hB h.currentLevel_le (.inl rfl), if_neg (by omega)]

/-- After the descent the node looked for is the next one, if there is one. -/
theorem Holds.target (h : Holds l (A ++ B)) :
    l.target key (pred l.header A 0) =
      some ((B.head?.filter fun t => decide (t.key = key)).map Tower.addr) := by
  have hlinks := h.links 0 h.room
  rw [lane_append] at hlinks
  have hnext := hlinks.next_last
  have hzero : lane B 0 = B.map Tower.addr :=
    lane_zero fun t ht => (h.range t (List.mem_append_right A ht)).1
  rw [hzero] at hnext
  cases B with
  | nil =>
    have hread : forward l.nodes 0 (pred l.header A 0) = some none := hnext
    simp [SkipList.target, hread]
  | cons t B =>
    have hread : forward l.nodes 0 (pred l.header A 0) = some (some t.addr) := hnext
    obtain ⟨node, hnode, heq⟩ := Option.map_eq_some_iff.mp
      (h.shapes t (List.mem_append_right A List.mem_cons_self))
    rw [Prod.mk.injEq] at heq
    by_cases hk : t.key = key
    · simp [SkipList.target, hread, hnode, heq.1, hk]
    · simp [SkipList.target, hread, hnode, heq.1, hk]

theorem Holds.search (h : Holds l ts) (key : T) :
    l.search key = some (decide (key ∈ ts.map Tower.key)) := by
  obtain ⟨A, B, rfl, hA, hB⟩ := split_at h.sorted key
  have hno : key ∉ A.map Tower.key := by
    intro hmem
    obtain ⟨t, ht, heq⟩ := List.mem_map.mp hmem
    exact (hA t ht).ne heq
  simp only [SkipList.search, h.descend_top hA hB, Option.bind_eq_bind, Option.bind_some, h.target,
    List.map_append, List.mem_append, hno, false_or]
  cases B with
  | nil => simp
  | cons t B =>
    have hB' : key ∉ B.map Tower.key := by
      intro hmem
      obtain ⟨u, hu, heq⟩ := List.mem_map.mp hmem
      have hsorted := (List.pairwise_append.mp h.sorted).2.1
      exact ((hB t List.mem_cons_self).trans_lt ((List.pairwise_cons.mp hsorted).1 u hu)).ne heq.symm
    by_cases hk : t.key = key
    · simp [hk]
    · simp [hk, Ne.symm hk, hB']

end Reading

section Inserting

theorem grown_update {f : Nat → Nat} {c n : Nat} {a : Nat} (h : ∀ i, c ≤ i → f i = a) :
    ((List.range c).map f ++ List.replicate (n - c) a).take n = (List.range' 0 n).map f := by
  have htail : List.replicate (n - c) a = (List.range' c (n - c)).map f := by
    refine (List.eq_replicate_iff.mpr ⟨by simp, ?_⟩).symm
    intro b hb
    obtain ⟨i, hi, rfl⟩ := List.mem_map.mp hb
    exact h i (List.mem_range'_1.mp hi).1
  have hjoin : List.range' 0 c ++ List.range' c (n - c) = List.range (c + (n - c)) := by
    simpa [List.range_eq_range'] using @List.range'_append_1 0 c (n - c)
  have hmin : min n (c + (n - c)) = n := by omega
  rw [htail, ← List.map_append, List.range_eq_range', hjoin, ← List.map_take, List.take_range, hmin,
    List.range_eq_range']

omit [LinearOrder T] in
theorem Tallest.insert (h : Tallest (A ++ B) level) (ht : 1 ≤ t.height) :
    Tallest (A ++ t :: B) (if level < t.height then t.height else level) := by
  obtain ⟨hpos, hle, hreached⟩ := h
  refine ⟨by split <;> omega, ?_, ?_⟩
  · intro u hu
    rcases List.mem_append.mp hu with hu | hu
    · have := hle u (List.mem_append_left B hu)
      split <;> omega
    · rcases List.mem_cons.mp hu with rfl | hu
      · split <;> omega
      · have := hle u (List.mem_append_right A hu)
        split <;> omega
  · split
    · exact .inr ⟨t, by simp, rfl⟩
    · rcases hreached with hone | ⟨u, hu, heq⟩
      · exact .inl hone
      · refine .inr ⟨u, ?_, heq⟩
        simp only [List.mem_append, List.mem_cons] at hu ⊢
        tauto

theorem Holds.pred_next (h : Holds l (A ++ B)) (hj : j < l.maxLevel) :
    forward l.nodes j (pred l.header A j) = some (lane B j).head? := by
  have hlinks := h.links j hj
  rw [lane_append] at hlinks
  exact hlinks.next_last

theorem Holds.lane_nodup (h : Holds l ts) (j : Nat) : (l.header :: lane ts j).Nodup :=
  h.distinct.sublist ((lane_sublist ts j).cons_cons _)

/-- The heap with the new node, after its levels are spliced in. -/
theorem Holds.splice (h : Holds l (A ++ B)) (hlevel : level ≤ l.maxLevel) :
    ∃ nodes', SkipList.splice l.fresh 0 ((List.range' 0 level).map (pred l.header A))
        (update l.nodes l.fresh (some ⟨key, List.replicate level none⟩)) = some nodes' ∧
      shape nodes' l.fresh = some (key, level) ∧
      (∀ b, b ≠ l.fresh → shape nodes' b = shape l.nodes b) ∧
      (∀ j < level, forward nodes' j (pred l.header A j) = some (some l.fresh) ∧
        forward nodes' j l.fresh = forward l.nodes j (pred l.header A j)) ∧
      ∀ j b, b ≠ l.fresh → (j < level → b ≠ pred l.header A j) →
        forward nodes' j b = forward l.nodes j b := by
  have hold : ∀ j, pred l.header A j ≠ l.fresh := fun j =>
    (h.old _ (pred_mem_all l.header A B j)).ne
  have hother : ∀ j b, b ≠ l.fresh →
      forward (update l.nodes l.fresh (some ⟨key, List.replicate level none⟩)) j b =
        forward l.nodes j b := by
    intro j b hb
    simp [forward, hb]
  have hnew : shape (update l.nodes l.fresh (some ⟨key, List.replicate level none⟩)) l.fresh =
      some (key, level) := by simp [shape]
  obtain ⟨nodes', hrun, hshape, hfor⟩ := splice_spec (i := 0) l.fresh level
    (fun j _ hj => ⟨_, (hother j _ (hold j)).trans (h.pred_next (by omega))⟩)
    (fun j _ hj => forward_of_shape hnew (by omega)) hold
  refine ⟨nodes', hrun, (hshape _).trans hnew, ?_, ?_, ?_⟩
  · intro b hb
    rw [hshape]
    simp [shape, hb]
  · intro j hj
    refine ⟨?_, ?_⟩
    · rw [hfor, if_pos (by omega), if_pos rfl]
    · rw [hfor, if_pos (by omega), if_neg (hold j).symm, if_pos rfl, hother j _ (hold j)]
  · intro j b hb hp
    rw [hfor]
    by_cases hj : j < level
    · rw [if_pos (by omega), if_neg (hp hj), if_neg hb, hother j b hb]
    · rw [if_neg (by omega), hother j b hb]

/-- With the levels spliced in the new node stands between the parts. -/
theorem Holds.grow (h : Holds l (A ++ B)) (hA : ∀ t ∈ A, t.key < key) (hB : ∀ t ∈ B, key < t.key)
    (hlevel : 1 ≤ level ∧ level ≤ l.maxLevel) (hnew : shape nodes l.fresh = some (key, level))
    (hshape : ∀ b, b ≠ l.fresh → shape nodes b = shape l.nodes b)
    (hspliced : ∀ j < level, forward nodes j (pred l.header A j) = some (some l.fresh) ∧
      forward nodes j l.fresh = forward l.nodes j (pred l.header A j))
    (hsame : ∀ j b, b ≠ l.fresh → (j < level → b ≠ pred l.header A j) →
      forward nodes j b = forward l.nodes j b) :
    Holds ⟨l.maxLevel, nodes, l.fresh + 1, l.header,
      if l.currentLevel < level then level else l.currentLevel, l.size + 1⟩
      (A ++ ⟨l.fresh, key, level⟩ :: B) := by
  have hfresh : l.fresh ∉ l.header :: (A ++ B).map Tower.addr := fun hm => lt_irrefl _ (h.old _ hm)
  have hne : ∀ t ∈ A ++ B, t.addr ≠ l.fresh := fun t ht =>
    (h.old _ (List.mem_cons_of_mem _ (List.mem_map_of_mem ht))).ne
  have hmid : ∀ t, t ∈ A ++ ⟨l.fresh, key, level⟩ :: B ↔ t = ⟨l.fresh, key, level⟩ ∨ t ∈ A ++ B :=
    fun t => List.perm_middle.mem_iff.trans List.mem_cons
  have hperm := addr_perm l.header A B ⟨l.fresh, key, level⟩
  obtain ⟨hAs, hBs, hAB⟩ := List.pairwise_append.mp h.sorted
  refine ⟨h.room, ?_, ?_, ?_, ?_, ?_, ?_, ?_, h.tallest.insert hlevel.1, ?_⟩
  · refine List.pairwise_append.mpr ⟨hAs, List.pairwise_cons.mpr ⟨hB, hBs⟩, ?_⟩
    intro t ht u hu
    rcases List.mem_cons.mp hu with rfl | hu
    · exact hA t ht
    · exact hAB t ht u hu
  · exact hperm.nodup_iff.mpr (List.nodup_cons.mpr ⟨hfresh, h.distinct⟩)
  · intro a ha
    rcases List.mem_cons.mp (hperm.mem_iff.mp ha) with rfl | ha
    · exact Nat.lt_succ_self _
    · exact (h.old a ha).trans (Nat.lt_succ_self _)
  · intro t ht
    rcases (hmid t).mp ht with rfl | ht
    · exact hnew
    · exact (hshape _ (hne t ht)).trans (h.shapes t ht)
  · intro t ht
    rcases (hmid t).mp ht with rfl | ht
    · exact hlevel
    · exact h.range t ht
  · obtain ⟨k, hk⟩ := h.head
    exact ⟨k, (hshape _ (h.old _ List.mem_cons_self).ne).trans hk⟩
  · intro j hj
    have hlinks := h.links j hj
    have hnodup := h.lane_nodup j
    have hout : l.fresh ∉ l.header :: lane (A ++ B) j := fun hm => hfresh (mem_of_lane hm)
    by_cases hjl : j < level
    · rw [lane_append] at hlinks hnodup hout
      rw [lane_append, lane_cons, if_pos hjl]
      exact hlinks.insert hnodup hout (hspliced j hjl).1 (hspliced j hjl).2
        fun b hb hp => hsame j b hb fun _ => hp
    · rw [lane_append, lane_cons, if_neg hjl, ← lane_append]
      refine hlinks.congr fun b hb => hsame j b ?_ fun hlt => absurd hlt hjl
      rintro rfl
      exact hout hb
  · rw [h.size, List.length_append, List.length_append, List.length_cons]
    rfl

theorem Holds.insert (h : Holds l (A ++ B)) (hA : ∀ t ∈ A, t.key < key) (hB : ∀ t ∈ B, key < t.key)
    (hlevel : 1 ≤ level ∧ level ≤ l.maxLevel) :
    ∃ l', l.insert key level = some l' ∧ l'.maxLevel = l.maxLevel ∧
      Holds l' (A ++ ⟨l.fresh, key, level⟩ :: B) := by
  obtain ⟨nodes', hrun, hnew, hshape, hspliced, hsame⟩ := h.splice hlevel.2
  have hhigh : ∀ i, l.currentLevel ≤ i → pred l.header A i = l.header := by
    intro i hi
    have hnil : lane A i = [] := lane_eq_nil.mpr fun t ht =>
      (h.tallest.le t (List.mem_append_left B ht)).trans hi
    rw [pred, hnil]
    rfl
  have hnone : B.head?.filter (fun t => decide (t.key = key)) = none := by
    rw [Option.filter_eq_none_iff]
    intro t ht
    simp [(hB t (List.mem_of_mem_head? ht)).ne']
  refine ⟨⟨l.maxLevel, nodes', l.fresh + 1, l.header,
    if l.currentLevel < level then level else l.currentLevel, l.size + 1⟩, ?_, rfl,
    h.grow hA hB hlevel hnew hshape hspliced hsame⟩
  simp [SkipList.insert, h.descend_top hA fun t ht => (hB t ht).le, h.target, hnone,
    grown_update hhigh, hrun]

end Inserting

section Erasing

omit [LinearOrder T] in
/-- The level is lowered to that of the tallest tower left. -/
theorem shrink_spec {header : Nat} (hread : ∀ i < level, forward nodes i header = some (lane ts i).head?)
    (hpos : 1 ≤ level) (hle : ∀ t ∈ ts, t.height ≤ level) :
    ∃ r, shrink nodes header level = some r ∧ Tallest ts r := by
  induction level with
  | zero => omega
  | succ level ih =>
    by_cases hone : level = 0
    · subst hone
      exact ⟨1, rfl, le_refl 1, hle, .inl rfl⟩
    · have htop := hread level (Nat.lt_succ_self level)
      cases hlane : lane ts level with
      | nil =>
        obtain ⟨r, hr, htall⟩ := ih (fun i hi => hread i (hi.trans (Nat.lt_succ_self level)))
          (by omega) (lane_eq_nil.mp hlane)
        exact ⟨r, by simp [shrink, hone, htop, hlane, hr], htall⟩
      | cons a rest =>
        obtain ⟨t, ht, hlt, _⟩ := mem_lane.mp (hlane ▸ List.mem_cons_self (a := a))
        have := hle t ht
        exact ⟨level + 1, by simp [shrink, hone, htop, hlane], hpos, hle, .inr ⟨t, ht, by omega⟩⟩

theorem Holds.apart (h : Holds l (A ++ t :: B)) : t.addr ∉ l.header :: (A ++ B).map Tower.addr :=
  (List.nodup_cons.mp ((addr_perm l.header A B t).nodup_iff.mp h.distinct)).1

/-- The heap after the node is unlinked from its levels. -/
theorem Holds.unlink (h : Holds l (A ++ t :: B)) :
    ∃ nodes', SkipList.unlink t.addr 0 ((List.range' 0 l.currentLevel).map (pred l.header A)) l.nodes =
        some nodes' ∧
      (∀ b, shape nodes' b = shape l.nodes b) ∧
      ∀ j b, forward nodes' j b = if j < t.height ∧ b = pred l.header A j then
        forward l.nodes j t.addr else forward l.nodes j b := by
  have hmem : t ∈ A ++ t :: B := List.mem_append_right A List.mem_cons_self
  have htop := h.tallest.le t hmem
  have hmax := h.currentLevel_le
  have hne : ∀ j, pred l.header A j ≠ t.addr := fun j heq =>
    h.apart (heq ▸ pred_mem_all l.header A B j)
  obtain ⟨nodes', hrun, hshape, hfor⟩ := unlink_spec (i := 0) t.height l.currentLevel
    (fun j _ hj hjt => by
      rw [h.pred_next (by omega), lane_cons, if_pos hjt]
      rfl)
    (fun j _ hj hjt => by
      refine ⟨_, h.pred_next (by omega), ?_⟩
      rw [lane_cons, if_neg (by omega)]
      intro heq
      obtain ⟨u, hu, _, hua⟩ := mem_lane.mp (List.mem_of_head? heq)
      refine h.apart (List.mem_cons_of_mem _ ?_)
      rw [← hua]
      exact List.mem_map_of_mem (List.mem_append_right A hu))
    (fun j hj => forward_of_shape (h.shapes t hmem) hj) hne
  refine ⟨nodes', hrun, hshape, fun j b => ?_⟩
  rw [hfor]
  by_cases hj : j < t.height ∧ b = pred l.header A j
  · rw [if_pos hj, if_pos ⟨by omega, by omega, hj⟩]
  · rw [if_neg hj, if_neg fun hall => hj hall.2.2]

/-- Without the node the levels link what is left. -/
theorem Holds.links_erase (h : Holds l (A ++ t :: B))
    (hfor : ∀ j b, forward nodes j b = if j < t.height ∧ b = pred l.header A j then
      forward l.nodes j t.addr else forward l.nodes j b) (hj : j < l.maxLevel) :
    Linked (forward (update nodes t.addr none) j) l.header (lane (A ++ B) j) := by
  have hgone : ∀ b, b ≠ t.addr → forward (update nodes t.addr none) j b = forward nodes j b := by
    intro b hb
    simp [forward, hb]
  have hout : t.addr ∉ l.header :: lane (A ++ B) j := fun hm => h.apart (mem_of_lane hm)
  have hlinks := h.links j hj
  have hnodup := h.lane_nodup j
  rw [lane_append, lane_cons] at hlinks hnodup
  have hp : pred l.header A j ≠ t.addr := fun heq => h.apart (heq ▸ pred_mem_all l.header A B j)
  rw [lane_append]
  by_cases hjt : j < t.height
  · rw [if_pos hjt] at hlinks hnodup
    refine hlinks.remove hnodup ?_ ?_
    · change forward _ j (pred l.header A j) = _
      rw [hgone _ hp, hfor, if_pos ⟨hjt, rfl⟩]
    · intro b hb hbp
      rw [hgone b hb, hfor, if_neg fun hand => hbp hand.2]
  · rw [if_neg hjt] at hlinks
    refine hlinks.congr fun b hb => ?_
    rw [← lane_append] at hb
    rw [hgone b (fun heq => hout (heq ▸ hb)), hfor, if_neg fun hand => hjt hand.1]

theorem Holds.erase (h : Holds l (A ++ t :: B)) (hA : ∀ u ∈ A, u.key < t.key)
    (hB : ∀ u ∈ B, t.key < u.key) :
    ∃ l', l.erase t.key = some (l', true) ∧ l'.maxLevel = l.maxLevel ∧ Holds l' (A ++ B) := by
  have hmem : t ∈ A ++ t :: B := List.mem_append_right A List.mem_cons_self
  have hkept : ∀ u ∈ A ++ B, u ∈ A ++ t :: B := by
    intro u hu
    exact List.perm_middle.mem_iff.mpr (List.mem_cons_of_mem t hu)
  obtain ⟨nodes', hrun, hshape, hfor⟩ := h.unlink
  have hlinks := fun j (hj : j < l.maxLevel) => h.links_erase hfor hj
  have hgone : ∀ b, b ≠ t.addr → shape (update nodes' t.addr none) b = shape l.nodes b := by
    intro b hb
    rw [← hshape b]
    simp [shape, hb]
  have hread : ∀ i < l.currentLevel, forward (update nodes' t.addr none) i l.header =
      some (lane (A ++ B) i).head? := by
    intro i hi
    exact (hlinks i (hi.trans_le h.currentLevel_le)).next_last (A := [])
  obtain ⟨r, hshrink, htall⟩ := shrink_spec hread h.tallest.pos
    fun u hu => h.tallest.le u (hkept u hu)
  have hB' : ∀ u ∈ t :: B, t.key ≤ u.key :=
    List.forall_mem_cons.mpr ⟨le_refl _, fun u hu => (hB u hu).le⟩
  have htarget : l.target t.key (pred l.header A 0) = some (some t.addr) := by
    rw [h.target]
    simp [Option.filter]
  have hsub : (A ++ B).Sublist (A ++ t :: B) := List.Sublist.append_left (List.sublist_cons_self t B) A
  have haddr := (hsub.map Tower.addr).cons_cons l.header
  refine ⟨⟨l.maxLevel, update nodes' t.addr none, l.fresh, l.header, r, l.size - 1⟩, ?_, rfl,
    h.room, h.sorted.sublist hsub, h.distinct.sublist haddr, fun a ha => h.old a (haddr.subset ha),
    ?_, fun u hu => h.range u (hkept u hu), ?_, hlinks, htall, ?_⟩
  · rw [← List.range_eq_range'] at hrun
    simp [SkipList.erase, h.descend_top hA hB', htarget, hrun, hshrink]
  · intro u hu
    refine (hgone _ fun heq => h.apart ?_).trans (h.shapes u (hkept u hu))
    exact heq ▸ List.mem_cons_of_mem _ (List.mem_map_of_mem hu)
  · obtain ⟨k, hk⟩ := h.head
    exact ⟨k, (hgone _ fun heq => h.apart (heq ▸ List.mem_cons_self)).trans hk⟩
  · rw [h.size, List.length_append, List.length_append, List.length_cons]
    rfl

end Erasing

section Runs

variable {maxLevel : Nat}

/-- The calls on a set, with the answers. -/
def spec (m : Finset T) : Op T maxLevel → Finset T × Option Bool
  | .insert key _ => (Insert.insert key m, none)
  | .erase key => (m.erase key, some (decide (key ∈ m)))
  | .search key => (m, some (decide (key ∈ m)))

/-- The list and the set have the same elements. -/
structure Follows (maxLevel : Nat) (l : SkipList T) (m : Finset T) : Prop where
  bound : l.maxLevel = maxLevel
  holds : ∃ ts, Holds l ts ∧ ∀ key, key ∈ ts.map Tower.key ↔ key ∈ m

variable {m : Finset T}

theorem follows_create [Inhabited T] (h : 1 ≤ maxLevel) :
    Follows maxLevel (create maxLevel : SkipList T) ∅ := by
  refine ⟨rfl, [], ⟨h, .nil, by simp, by simp [create], by simp, by simp, ?_, ?_, ?_, rfl⟩, by simp⟩
  · exact ⟨default, by simp [shape, create]⟩
  · intro i hi
    have hi' : i < maxLevel := hi
    simp [lane, Linked, forward, create, hi']
  · exact ⟨le_refl 1, by simp, .inl rfl⟩

theorem split_found (h : ts.Pairwise (·.key < ·.key)) (hkey : key ∈ ts.map Tower.key) :
    ∃ A t B, ts = A ++ t :: B ∧ t.key = key ∧ (∀ u ∈ A, u.key < key) ∧ ∀ u ∈ B, key < u.key := by
  obtain ⟨t, ht, rfl⟩ := List.mem_map.mp hkey
  obtain ⟨A, B, rfl⟩ := List.append_of_mem ht
  obtain ⟨_, hB, hAB⟩ := List.pairwise_append.mp h
  exact ⟨A, t, B, rfl, rfl, fun u hu => hAB u hu t List.mem_cons_self, (List.pairwise_cons.mp hB).1⟩

theorem split_absent (h : ts.Pairwise (·.key < ·.key)) (hkey : key ∉ ts.map Tower.key) :
    ∃ A B, ts = A ++ B ∧ (∀ u ∈ A, u.key < key) ∧ ∀ u ∈ B, key < u.key := by
  obtain ⟨A, B, rfl, hA, hB⟩ := split_at h key
  refine ⟨A, B, rfl, hA, fun u hu => (hB u hu).lt_of_ne ?_⟩
  rintro rfl
  exact hkey (List.mem_map_of_mem (List.mem_append_right A hu))

/-- What is there already is left as it is. -/
theorem Holds.insert_again (h : Holds l ts) (hkey : key ∈ ts.map Tower.key) :
    l.insert key level = some l := by
  obtain ⟨A, t, B, rfl, rfl, hA, hB⟩ := split_found h.sorted hkey
  have hB' : ∀ u ∈ t :: B, t.key ≤ u.key :=
    List.forall_mem_cons.mpr ⟨le_refl _, fun u hu => (hB u hu).le⟩
  simp [SkipList.insert, h.descend_top hA hB', h.target, Option.filter]

theorem Holds.erase_absent (h : Holds l ts) (hkey : key ∉ ts.map Tower.key) :
    l.erase key = some (l, false) := by
  obtain ⟨A, B, rfl, hA, hB⟩ := split_absent h.sorted hkey
  have hnone : B.head?.filter (fun t => decide (t.key = key)) = none := by
    rw [Option.filter_eq_none_iff]
    intro t ht
    simp [(hB t (List.mem_of_mem_head? ht)).ne']
  simp [SkipList.erase, h.descend_top hA fun u hu => (hB u hu).le, h.target, hnone]

theorem Follows.step (h : Follows maxLevel l m) (op : Op T maxLevel) :
    ∃ l', l.step op = some (l', (spec m op).2) ∧ Follows maxLevel l' (spec m op).1 := by
  obtain ⟨hbound, ts, hts, hmem⟩ := h
  cases op with
  | insert key newLevel =>
    by_cases hkey : key ∈ ts.map Tower.key
    · refine ⟨l, by simp [SkipList.step, hts.insert_again hkey, spec], hbound, ts, hts, ?_⟩
      intro k
      rw [hmem, spec, Finset.insert_eq_of_mem ((hmem key).mp hkey)]
    · obtain ⟨A, B, rfl, hA, hB⟩ := split_absent hts.sorted hkey
      have hlevel : 1 ≤ newLevel.1 ∧ newLevel.1 ≤ l.maxLevel := hbound.symm ▸ newLevel.2
      obtain ⟨l', hins, hmax, hl'⟩ := hts.insert hA hB hlevel
      refine ⟨l', by simp [SkipList.step, hins, spec], hmax.trans hbound, _, hl', ?_⟩
      intro k
      rw [spec, Finset.mem_insert, ← hmem]
      simp [or_left_comm]
  | erase key =>
    by_cases hkey : key ∈ ts.map Tower.key
    · obtain ⟨A, t, B, rfl, rfl, hA, hB⟩ := split_found hts.sorted hkey
      obtain ⟨l', herase, hmax, hl'⟩ := hts.erase hA hB
      refine ⟨l', by simp [SkipList.step, herase, spec, (hmem t.key).mp hkey], hmax.trans hbound, _,
        hl', ?_⟩
      intro k
      have hother : k ∈ (A ++ B).map Tower.key → k ≠ t.key := by
        rintro hk rfl
        obtain ⟨u, hu, heq⟩ := List.mem_map.mp hk
        rcases List.mem_append.mp hu with hu | hu
        · exact (hA u hu).ne heq
        · exact (hB u hu).ne heq.symm
      rw [spec, Finset.mem_erase, ← hmem, (List.perm_middle.map Tower.key).mem_iff, List.map_cons,
        List.mem_cons]
      tauto
    · have hnot := (hmem key).not.mp hkey
      refine ⟨l, by simp [SkipList.step, hts.erase_absent hkey, spec, hnot], hbound, ts, hts, ?_⟩
      intro k
      rw [hmem, spec, Finset.erase_eq_of_notMem hnot]
  | search key =>
    exact ⟨l, by simp [SkipList.step, hts.search, spec, hmem], hbound, ts, hts, hmem⟩

/-- What the list shows: its elements in order, each once and no others, levels that are
parts of the ones below, and the height of the tallest tower. -/
structure Shows (l : SkipList T) (m : Finset T) : Prop where
  elements : ∃ ks, l.toVector = some ks ∧ ks.Pairwise (· < ·) ∧ ∀ key, key ∈ ks ↔ key ∈ m
  levels (i : Nat) (hi : i + 1 < l.maxLevel) : ∃ upper lower, l.level (i + 1) = some upper ∧
    l.level i = some lower ∧ upper.Sublist lower
  search (key : T) : l.search key = some (decide (key ∈ m))
  tallest : ∃ hs, l.heights = some hs ∧ (∀ height ∈ hs, height ≤ l.currentLevel) ∧
    (l.currentLevel ∈ hs ∨ hs = [] ∧ l.currentLevel = 1)
  size : l.size = m.card

theorem Holds.walk_level (h : Holds l ts) (hi : i < l.maxLevel) : l.level i = some (lane ts i) := by
  refine (h.links i hi).walk ?_
  have hle := (lane_sublist ts i).length_le
  rw [List.length_map, ← h.size] at hle
  omega

theorem Holds.level_zero (h : Holds l ts) : l.level 0 = some (ts.map Tower.addr) := by
  rw [h.walk_level h.room, lane_zero fun t ht => (h.range t ht).1]

omit [LinearOrder T] in
theorem mapM_towers {γ : Type} {read : Nat → Option γ} {field : Tower T → γ}
    (h : ∀ t ∈ ts, read t.addr = some (field t)) :
    (ts.map Tower.addr).mapM read = some (ts.map field) := by
  induction ts with
  | nil => rfl
  | cons t ts ih =>
    have hrest := ih fun u hu => h u (List.mem_cons_of_mem t hu)
    simp [List.mapM_cons, h t List.mem_cons_self, hrest]

theorem Holds.read (h : Holds l ts) (ht : t ∈ ts) :
    ∃ node, l.nodes t.addr = some node ∧ node.key = t.key ∧ node.forward.length = t.height := by
  obtain ⟨node, hnode, heq⟩ := Option.map_eq_some_iff.mp (h.shapes t ht)
  rw [Prod.mk.injEq] at heq
  exact ⟨node, hnode, heq⟩

theorem Holds.toVector (h : Holds l ts) : l.toVector = some (ts.map Tower.key) := by
  have hread : ∀ t ∈ ts, (l.nodes t.addr).map (·.key) = some t.key := by
    intro t ht
    obtain ⟨node, hnode, hkey, _⟩ := h.read ht
    simp [hnode, hkey]
  rw [SkipList.toVector, keys, h.level_zero]
  exact mapM_towers hread

theorem Holds.heights (h : Holds l ts) : l.heights = some (ts.map Tower.height) := by
  have hread : ∀ t ∈ ts, (l.nodes t.addr).map (·.forward.length) = some t.height := by
    intro t ht
    obtain ⟨node, hnode, _, hheight⟩ := h.read ht
    simp [hnode, hheight]
  rw [SkipList.heights, h.level_zero]
  exact mapM_towers hread

theorem Follows.shows (h : Follows maxLevel l m) : Shows l m := by
  obtain ⟨hbound, ts, hts, hmem⟩ := h
  have hsorted : (ts.map Tower.key).Pairwise (· < ·) := List.pairwise_map.mpr hts.sorted
  refine ⟨⟨_, hts.toVector, hsorted, hmem⟩, ?_, ?_, ⟨_, hts.heights, ?_, ?_⟩, ?_⟩
  · intro i hi
    exact ⟨_, _, hts.walk_level hi, hts.walk_level (by omega), lane_le ts i⟩
  · intro key
    rw [hts.search]
    exact congrArg some (decide_eq_decide.mpr (hmem key))
  · intro height hheight
    obtain ⟨t, ht, rfl⟩ := List.mem_map.mp hheight
    exact hts.tallest.le t ht
  · rcases hts.tallest.reached with hone | ⟨t, ht, heq⟩
    · cases ts with
      | nil => exact .inr ⟨rfl, hone⟩
      | cons t ts =>
        have hle := hts.tallest.le t List.mem_cons_self
        have hpos := (hts.range t List.mem_cons_self).1
        exact .inl (List.mem_map.mpr ⟨t, List.mem_cons_self, by omega⟩)
    · exact .inl (List.mem_map.mpr ⟨t, ht, heq⟩)
  · have heq : (ts.map Tower.key).toFinset = m := by
      ext key
      rw [List.mem_toFinset, hmem]
    rw [hts.size, ← heq, List.toFinset_card_of_nodup (hsorted.imp fun hlt => hlt.ne), List.length_map]

/-- For any heights within the range and any calls, the answers are those of the set, and
the list shows the set after every call. -/
theorem run_skipList [Inhabited T] (hmax : 1 ≤ maxLevel) (ops : List (Op T maxLevel)) :
    Run.Refines step spec Shows (create maxLevel : SkipList T) ∅ ops := by
  intro done _
  have hstep : ∀ (l : SkipList T) m (op : Op T maxLevel), Follows maxLevel l m →
      ∃ l', l.step op = some (l', (spec m op).2) ∧ Follows maxLevel l' (spec m op).1 :=
    fun l m op h => h.step op
  obtain ⟨l', hrun, hl'⟩ := Run.exec_follows hstep done (follows_create hmax)
  exact ⟨l', hrun, hl'.shows⟩

theorem run_skipList_two :
    Run.Refines step spec Shows (create 2 : SkipList Nat) ∅
      ([.insert 5 ⟨2, by decide⟩, .insert 3 ⟨1, by decide⟩, .erase 5] : List (Op Nat 2)) :=
  run_skipList (Nat.le_succ 1) _

end Runs

end Cppforge.Lists.SkipList
