import Cppforge.Spatial.PointTrees
import Mathlib.Algebra.Order.Archimedean.Basic
import Mathlib.Data.List.Perm.Basic
import Mathlib.Tactic.Linarith

namespace Cppforge.Spatial.Quadtree

variable {T : Type} {square range : Square} {node node' child child' nw ne sw se : Node T}
  {p q : Point} {v w : T} {left top : Bool} {fuel fuel' size : Nat} {r : Node T × Nat}
  {e : Point × T}

/-- The side of a boundary that a point is routed to. -/
def Square.onLeft (square : Square) (p : Point) : Bool := p.x ≤ square.centerX

def Square.onTop (square : Square) (p : Point) : Bool := p.y ≥ square.centerY

theorem contains_iff : contains square p = true ↔
    |p.x - square.centerX| ≤ square.halfDim ∧ |p.y - square.centerY| ≤ square.halfDim := by
  simp [contains]

/-- Where a point is routed to, the child's closed square holds it. -/
theorem contains_child (h : contains square p = true) :
    contains (square.child (square.onLeft p) (square.onTop p)) p = true := by
  rw [contains_iff] at h ⊢
  simp only [abs_le] at h ⊢
  obtain ⟨⟨hx₁, hx₂⟩, hy₁, hy₂⟩ := h
  unfold Square.child Square.onLeft Square.onTop
  by_cases hx : p.x ≤ square.centerX
  · by_cases hy : p.y ≥ square.centerY
    · simp only [hx, hy, decide_true, if_true]
      refine ⟨⟨?_, ?_⟩, ?_, ?_⟩ <;> linarith
    · simp only [hx, hy, decide_true, decide_false, if_true]
      refine ⟨⟨?_, ?_⟩, ?_, ?_⟩ <;> simp <;> linarith
  · by_cases hy : p.y ≥ square.centerY
    · simp only [hx, hy, decide_true, decide_false, if_true]
      refine ⟨⟨?_, ?_⟩, ?_, ?_⟩ <;> simp <;> linarith
    · simp only [hx, hy, decide_false]
      refine ⟨⟨?_, ?_⟩, ?_, ?_⟩ <;> simp <;> linarith

/-- A child's closed square is inside its parent's. -/
theorem contains_of_child (h : contains (square.child left top) p = true) :
    contains square p = true := by
  rw [contains_iff] at h ⊢
  simp only [abs_le, Square.child] at h ⊢
  obtain ⟨⟨hx₁, hx₂⟩, hy₁, hy₂⟩ := h
  have hhalf : 0 ≤ square.halfDim := by linarith
  cases left <;> cases top <;> simp only [if_true, Bool.false_eq_true, if_false] at hx₁ hx₂ hy₁ hy₂
  all_goals exact ⟨⟨by linarith, by linarith⟩, by linarith, by linarith⟩

/-- Squares that hold one point intersect. -/
theorem intersects_of_contains (h : contains square p = true) (hr : contains range p = true) :
    intersects square range = true := by
  rw [contains_iff] at h hr
  simp only [intersects, Bool.and_eq_true, decide_eq_true_eq, abs_le] at h hr ⊢
  obtain ⟨⟨hx₁, hx₂⟩, hy₁, hy₂⟩ := h
  obtain ⟨⟨hx₃, hx₄⟩, hy₃, hy₄⟩ := hr
  exact ⟨⟨by linarith, by linarith⟩, by linarith, by linarith⟩

namespace Node

/-- What a node and the nodes below it hold. -/
def entries : Node T → List (Point × T)
  | null => []
  | leaf _ entry => entry.toList
  | inner _ nw ne sw se => nw.entries ++ ne.entries ++ sw.entries ++ se.entries

/-- Below a boundary every node has its quadrant, and every point is where it is routed to. -/
inductive Placed : Square → Node T → Prop
  | leaf (square : Square) (entry : Option (Point × T))
      (inside : ∀ e ∈ entry, contains square e.1 = true) : Placed square (leaf square entry)
  | inner (square : Square) (nw ne sw se : Node T)
      (children : ∀ left top, Placed (square.child left top) (quadrant nw ne sw se left top))
      (routed : ∀ left top, ∀ e ∈ (quadrant nw ne sw se left top).entries,
        square.onLeft e.1 = left ∧ square.onTop e.1 = top) :
        Placed square (inner square nw ne sw se)

theorem mem_entries_inner :
    e ∈ (inner square nw ne sw se).entries ↔
      ∃ left top, e ∈ (quadrant nw ne sw se left top).entries := by
  simp only [entries, List.mem_append, Bool.exists_bool, quadrant]
  tauto

theorem Placed.inside (h : Placed square node) (he : e ∈ node.entries) :
    contains square e.1 = true := by
  induction h with
  | leaf square entry inside => exact inside e (Option.mem_toList.mp he)
  | inner square nw ne sw se children routed ih =>
    obtain ⟨left, top, he⟩ := mem_entries_inner.mp he
    exact contains_of_child (ih left top he)

theorem queryRange_eq (h : Placed square node) :
    node.queryRange range = node.entries.filter fun e => contains range e.1 := by
  induction h with
  | leaf square entry inside =>
    rw [queryRange, entries]
    split
    · rfl
    · rename_i hapart
      symm
      rw [List.filter_eq_nil_iff]
      intro e he hr
      exact hapart (intersects_of_contains (inside e (Option.mem_toList.mp he)) hr)
  | inner square nw ne sw se children routed ih =>
    have hnw := ih true true
    have hne := ih false true
    have hsw := ih true false
    have hse := ih false false
    simp only [quadrant] at hnw hne hsw hse
    rw [queryRange]
    split
    · rw [hnw, hne, hsw, hse, entries, List.filter_append, List.filter_append, List.filter_append]
    · rename_i hapart
      symm
      rw [List.filter_eq_nil_iff]
      intro e he hr
      exact hapart (intersects_of_contains
        ((Placed.inner square nw ne sw se children routed).inside he) hr)

/-- What setting a quadrant changes. -/
theorem setQuadrant_eq (square : Square) (nw ne sw se child : Node T) (left top : Bool) :
    ∃ nw' ne' sw' se', setQuadrant square nw ne sw se left top child =
      inner square nw' ne' sw' se' ∧
      quadrant nw' ne' sw' se' left top = child ∧
      (∀ left' top', (left', top') ≠ (left, top) →
        quadrant nw' ne' sw' se' left' top' = quadrant nw ne sw se left' top') ∧
      ∀ e, child.entries.Perm (e :: (quadrant nw ne sw se left top).entries) →
        (inner square nw' ne' sw' se').entries.Perm (e :: (inner square nw ne sw se).entries) := by
  cases left <;> cases top <;> refine ⟨_, _, _, _, rfl, rfl, ?_, ?_⟩
  any_goals
    intro left' top' hother
    cases left' <;> cases top' <;> first | rfl | exact absurd rfl hother
  all_goals
    intro e hperm
    classical
    rw [List.perm_iff_count]
    intro a
    have hcount := hperm.count_eq a
    simp only [entries, quadrant, List.count_append, List.count_cons] at hcount ⊢
    omega

/-- A call that neither returns nor throws. -/
abbrev stuck {α : Type} : Outcome α := ExceptT.lift none

/-- What an insertion that returns leaves. -/
structure Inserted (square : Square) (node : Node T) (p : Point) (v : T) (size : Nat)
    (r : Node T × Nat) : Prop where
  placed : Placed square r.1
  entries : r.1.entries.Perm ((p, v) :: node.entries)
  size : node.entries.length ≤ size → r.2 = size + 1

theorem subdivide_placed (square : Square) : Placed square (subdivide square : Node T) := by
  refine .inner square _ _ _ _ ?_ ?_
  · intro left top
    cases left <;> cases top <;> exact .leaf _ none (fun _ h => nomatch h)
  · intro left top e he
    cases left <;> cases top <;> cases he

theorem orMake_placed (h : Placed (square.child left top) child) :
    orMake square left top child = child := by
  cases h with
  | leaf square entry inside => rfl
  | inner square nw ne sw se children routed => rfl

theorem length_entries_quadrant (left top : Bool) :
    (quadrant nw ne sw se left top).entries.length ≤ (inner square nw ne sw se).entries.length := by
  simp only [entries, List.length_append]
  cases left <;> cases top <;> simp only [quadrant] <;> omega

/-- At a node with children, an insertion is one into the quadrant of the point. -/
theorem insert_inner (hc : contains square p = true)
    (h : Placed square (inner square nw ne sw se)) :
    insert (fuel + 1) (inner square nw ne sw se) p v size =
      insert fuel (quadrant nw ne sw se (square.onLeft p) (square.onTop p)) p v size >>= fun r =>
        pure (setQuadrant square nw ne sw se (square.onLeft p) (square.onTop p) r.1, r.2) := by
  cases h with
  | inner square nw ne sw se children routed =>
    have hmake := orMake_placed (children (square.onLeft p) (square.onTop p))
    rw [insert, if_pos hc]
    simp only [Square.onLeft, Square.onTop] at hmake ⊢
    rw [hmake]

theorem insert_occupied (hc : contains square p = true) :
    insert (fuel + 1) (leaf square (some (q, w))) p v size =
      insert fuel (subdivide square) q w (size - 1) >>= fun r => insert fuel r.1 p v r.2 := by
  rw [insert, if_pos hc]

theorem insert_empty (hc : contains square p = true) :
    insert (fuel + 1) (leaf square none) p v size = pure (leaf square (some (p, v)), size + 1) := by
  rw [insert, if_pos hc]

theorem inserted_set_quadrant (h : Placed square (inner square nw ne sw se))
    {r : Node T × Nat} (hin : Inserted (square.child (square.onLeft p) (square.onTop p))
      (quadrant nw ne sw se (square.onLeft p) (square.onTop p)) p v size r) :
    Inserted square (inner square nw ne sw se) p v size
      (setQuadrant square nw ne sw se (square.onLeft p) (square.onTop p) r.1, r.2) := by
  obtain ⟨nw', ne', sw', se', hset, hsame, hother, hperm⟩ :=
    setQuadrant_eq square nw ne sw se r.1 (square.onLeft p) (square.onTop p)
  rw [hset]
  cases h with
  | inner square nw ne sw se children routed =>
    refine ⟨.inner square nw' ne' sw' se' ?_ ?_, hperm _ hin.entries, ?_⟩
    · intro left top
      by_cases hlt : (left, top) = (square.onLeft p, square.onTop p)
      · obtain ⟨rfl, rfl⟩ := Prod.mk.inj hlt
        rw [hsame]
        exact hin.placed
      · rw [hother left top hlt]
        exact children left top
    · intro left top e he
      by_cases hlt : (left, top) = (square.onLeft p, square.onTop p)
      · obtain ⟨rfl, rfl⟩ := Prod.mk.inj hlt
        rw [hsame] at he
        rcases List.mem_cons.mp (hin.entries.mem_iff.mp he) with rfl | he
        · exact ⟨rfl, rfl⟩
        · exact routed _ _ e he
      · rw [hother left top hlt] at he
        exact routed left top e he
    · intro hsize
      exact hin.size ((length_entries_quadrant _ _).trans hsize)

/-- An insertion inside the boundary does not throw, and what it leaves is well placed. -/
theorem insert_inserted (fuel : Nat) (v : T) (size : Nat) (h : Placed square node)
    (hc : contains square p = true) :
    insert fuel node p v size = stuck ∨
      ∃ r, insert fuel node p v size = pure r ∧ Inserted square node p v size r := by
  induction fuel generalizing square node p v size with
  | zero => exact .inl rfl
  | succ fuel ih =>
    cases h with
    | leaf square entry inside =>
      cases entry with
      | none =>
        refine .inr ⟨_, insert_empty hc, .leaf square _ ?_, List.Perm.refl _, fun _ => rfl⟩
        intro e he
        obtain rfl : (p, v) = e := Option.some.inj he
        exact hc
      | some old =>
        obtain ⟨q, w⟩ := old
        rw [insert_occupied hc]
        rcases ih w (size - 1) (subdivide_placed square) (inside (q, w) rfl) with
          hstuck | ⟨r, hr, hold⟩
        · exact .inl (by rw [hstuck]; rfl)
        · rw [hr, pure_bind]
          rcases ih v r.2 hold.placed hc with hstuck | ⟨r', hr', hnew⟩
          · exact .inl hstuck
          · refine .inr ⟨r', hr', hnew.placed, hnew.entries.trans (hold.entries.cons _), ?_⟩
            intro hsize
            have hone : r.1.entries.length = 1 := hold.entries.length_eq
            have hback := hold.size (Nat.zero_le _)
            have hpos : 1 ≤ size := hsize
            rw [hnew.size (by omega)]
            omega
    | inner square nw ne sw se children routed =>
      have hplaced := Placed.inner square nw ne sw se children routed
      rw [insert_inner hc hplaced]
      rcases ih v size (children (square.onLeft p) (square.onTop p))
        (contains_child hc) with hstuck | ⟨r, hr, hin⟩
      · exact .inl (by rw [hstuck]; rfl)
      · rw [hr, pure_bind]
        exact .inr ⟨_, rfl, inserted_set_quadrant hplaced hin⟩

/-- A point that is already there is routed to where it is, again and again. -/
theorem insert_twice (h : Placed square node) (hp : p ∈ node.entries.map (·.1)) :
    insert fuel node p v size = stuck := by
  induction fuel generalizing square node size with
  | zero => rfl
  | succ fuel ih =>
    obtain ⟨⟨p, w⟩, he, rfl⟩ := List.mem_map.mp hp
    have hc := h.inside he
    cases h with
    | leaf square entry inside =>
      obtain rfl : entry = some (p, w) := Option.mem_toList.mp he
      rw [insert_occupied hc]
      rcases insert_inserted fuel w (size - 1) (subdivide_placed square) hc with
        hstuck | ⟨r, hr, hold⟩
      · rw [hstuck]
        rfl
      · rw [hr, pure_bind]
        exact ih hold.placed (List.mem_map_of_mem (hold.entries.mem_iff.mpr List.mem_cons_self))
    | inner square nw ne sw se children routed =>
      rw [insert_inner hc (.inner square nw ne sw se children routed)]
      obtain ⟨left, top, he⟩ := mem_entries_inner.mp he
      obtain ⟨rfl, rfl⟩ := routed left top _ he
      rw [ih (children _ _) (List.mem_map_of_mem he)]
      rfl

theorem bind_ne_stuck {α β : Type} {x : Outcome α} {f : α → Outcome β} (h : x >>= f ≠ stuck) :
    x ≠ stuck := by
  rintro rfl
  exact h rfl

theorem bind_eq_pure {α β : Type} {x : Outcome α} {f : α → Outcome β} {b : β}
    (h : x >>= f = pure b) : ∃ a, x = pure a ∧ f a = pure b := by
  match x with
  | none => cases h
  | some (.error what) => cases h
  | some (.ok a) => exact ⟨a, rfl, h⟩

theorem pure_ne_stuck {α : Type} (a : α) : (pure a : Outcome α) ≠ stuck := by
  intro h
  cases h

theorem bind_pure_ne_stuck {α β : Type} {x : Outcome α} {f : α → β} (h : x ≠ stuck) :
    (x >>= fun a => pure (f a)) ≠ stuck := by
  match x with
  | none => exact absurd rfl h
  | some (.error what) => exact fun heq => nomatch heq
  | some (.ok a) => exact fun heq => nomatch heq

theorem bind_more {α β : Type} {x : Outcome α} {f g : α → Outcome β} (h : x >>= f ≠ stuck)
    (hmore : ∀ a, x = pure a → f a ≠ stuck → g a = f a) : x >>= g = x >>= f := by
  match x with
  | none => rfl
  | some (.error what) => rfl
  | some (.ok a) => exact hmore a rfl h

/-- More room for recursion changes nothing. -/
theorem insert_more (h : insert fuel node p v size ≠ stuck) (hfuel : fuel ≤ fuel') :
    insert fuel' node p v size = insert fuel node p v size := by
  induction fuel generalizing fuel' node p v size with
  | zero => exact absurd rfl h
  | succ fuel ih =>
    obtain ⟨more, rfl⟩ := Nat.exists_eq_add_of_le' hfuel
    rw [← Nat.add_assoc] at hfuel ⊢
    have hle : fuel ≤ more + fuel := Nat.le_add_left fuel more
    cases node with
    | null => exact absurd rfl h
    | leaf square entry =>
      by_cases hc : contains square p = true
      · cases entry with
        | none => rw [insert_empty hc, insert_empty hc]
        | some old =>
          obtain ⟨q, w⟩ := old
          rw [insert_occupied hc] at h ⊢
          rw [insert_occupied hc, ih (bind_ne_stuck h) hle]
          exact bind_more h fun r _ hr => ih hr hle
      · simp [insert, hc]
    | inner square nw ne sw se =>
      by_cases hc : contains square p = true
      · simp only [insert, hc, if_true] at h ⊢
        rw [ih (bind_ne_stuck h) hle]
      · rw [insert, insert, if_neg hc, if_neg hc]

/-- How far two points are apart. -/
def apart (p q : Point) : ℚ := max |p.x - q.x| |p.y - q.y|

theorem apart_pos (h : p ≠ q) : 0 < apart p q := by
  rw [apart, lt_max_iff, abs_pos, abs_pos, sub_ne_zero, sub_ne_zero]
  by_contra hsame
  simp only [not_or, not_not] at hsame
  exact h (by cases p; cases q; simp_all)

theorem apart_le (hp : contains square p = true) (hq : contains square q = true) :
    apart p q ≤ 2 * square.halfDim := by
  rw [contains_iff] at hp hq
  simp only [abs_le] at hp hq
  obtain ⟨⟨hx₁, hx₂⟩, hy₁, hy₂⟩ := hp
  obtain ⟨⟨hx₃, hx₄⟩, hy₃, hy₄⟩ := hq
  rw [apart, max_le_iff, abs_le, abs_le]
  exact ⟨⟨by linarith, by linarith⟩, by linarith, by linarith⟩

theorem insert_empty_ne : insert 1 (leaf square none) p v size ≠ stuck := by
  rw [insert]
  split
  · exact fun h => nomatch h
  · exact fun h => nomatch h

/-- Each subdivision halves the square that holds both points, down to where it is too small. -/
theorem insert_separates (n : Nat) (hq : contains square q = true) (hp : contains square p = true)
    (hsmall : 2 * square.halfDim < 2 ^ n * apart p q) :
    ∃ fuel, ∀ size, insert fuel (leaf square (some (q, w))) p v size ≠ stuck := by
  induction n generalizing square with
  | zero =>
    have := apart_le hp hq
    rw [pow_zero, one_mul] at hsmall
    linarith
  | succ n ih =>
    have hhalf : 2 * (square.child (square.onLeft q) (square.onTop q)).halfDim <
        2 ^ n * apart p q := by
      rw [pow_succ] at hsmall
      simp only [Square.child]
      linarith
    obtain ⟨nw, ne, sw, se, hset, hsame, hother, _⟩ := setQuadrant_eq square
      (makeChild square true true) (makeChild square false true) (makeChild square true false)
      (makeChild square false false)
      (leaf (square.child (square.onLeft q) (square.onTop q)) (some (q, w)))
      (square.onLeft q) (square.onTop q)
    have hmake : ∀ left top, quadrant (makeChild square true true) (makeChild square false true)
        (makeChild square true false) (makeChild square false false) left top =
          (leaf (square.child left top) none : Node T) := by
      intro left top
      cases left <;> cases top <;> rfl
    -- the old point goes into an empty child
    have hold : ∀ fuel size, insert (fuel + 2) (subdivide square) q w size =
        pure (inner square nw ne sw se, size + 1) := by
      intro fuel size
      rw [subdivide, insert_inner hq (subdivide_placed square), hmake,
        insert_empty (contains_child hq), pure_bind, hset]
    have hplaced : Placed square (inner square nw ne sw se) := by
      rcases insert_inserted 2 w 0 (subdivide_placed square) hq with hstuck | ⟨r, hr, hin⟩
      · rw [hold] at hstuck
        cases hstuck
      · rw [hold] at hr
        cases hr
        exact hin.placed
    -- the new one into another, or the same one of half the size
    have hnew : ∃ fuel, ∀ size,
        insert fuel (quadrant nw ne sw se (square.onLeft p) (square.onTop p)) p v size ≠ stuck := by
      by_cases hlt : (square.onLeft p, square.onTop p) = (square.onLeft q, square.onTop q)
      · obtain ⟨hl, ht⟩ := Prod.mk.inj hlt
        rw [hl, ht, hsame]
        exact ih (contains_child hq) (by rw [← hl, ← ht]; exact contains_child hp) hhalf
      · rw [hother _ _ hlt, hmake]
        exact ⟨1, fun size => insert_empty_ne⟩
    obtain ⟨fuel, hfuel⟩ := hnew
    refine ⟨fuel + 3, ?_⟩
    intro size
    have hle : fuel ≤ fuel + 1 := Nat.le_succ fuel
    rw [insert_occupied hp, hold, pure_bind, insert_inner hp hplaced, insert_more (hfuel _) hle]
    exact bind_pure_ne_stuck (hfuel _)

/-- An insertion of a point that is not there ends. -/
theorem insert_ends (h : Placed square node) (hc : contains square p = true)
    (hp : p ∉ node.entries.map (·.1)) : ∃ fuel, ∀ size, insert fuel node p v size ≠ stuck := by
  induction h with
  | leaf square entry inside =>
    cases entry with
    | none => exact ⟨1, fun size => insert_empty_ne⟩
    | some old =>
      obtain ⟨q, w⟩ := old
      have hne : p ≠ q := by
        rintro rfl
        exact hp (List.mem_singleton_self p)
      have hpos := apart_pos hne
      obtain ⟨n, hn⟩ := pow_unbounded_of_one_lt (2 * square.halfDim / apart p q)
        (one_lt_two (α := ℚ))
      exact insert_separates n (inside (q, w) rfl) hc ((div_lt_iff₀ hpos).mp hn)
  | inner square nw ne sw se children routed ih =>
    have hother : p ∉ (quadrant nw ne sw se (square.onLeft p) (square.onTop p)).entries.map
        (·.1) := by
      intro hin
      obtain ⟨e, he, heq⟩ := List.mem_map.mp hin
      exact hp (List.mem_map.mpr ⟨e, mem_entries_inner.mpr ⟨_, _, he⟩, heq⟩)
    obtain ⟨fuel, hfuel⟩ := ih _ _ (contains_child hc) hother
    refine ⟨fuel + 1, ?_⟩
    intro size
    rw [insert_inner hc (.inner square nw ne sw se children routed)]
    exact bind_pure_ne_stuck (hfuel size)

end Node

/-- A tree of entries. -/
structure Holds (square : Square) (t : Quadtree T) (es : List (Point × T)) : Prop where
  placed : t.root.Placed square
  entries : t.root.entries.Perm es
  size : t.size = es.length

section Entries
variable {t t' : Quadtree T} {es more : List (Point × T)}

theorem create_holds (square : Square) : Holds square (create square : Quadtree T) [] :=
  ⟨.leaf square none (by simp), List.Perm.refl _, rfl⟩

theorem insert_holds (fuel : Nat) (v : T) (h : Holds square t es) (hc : contains square p = true) :
    t.insert fuel p v = Node.stuck ∨
      ∃ t', t.insert fuel p v = pure t' ∧ Holds square t' ((p, v) :: es) := by
  rcases Node.insert_inserted fuel v t.size h.placed hc with hstuck | ⟨r, hr, hin⟩
  · exact .inl (by rw [Quadtree.insert, hstuck]; rfl)
  · refine .inr ⟨⟨r.1, r.2⟩, by rw [Quadtree.insert, hr]; rfl, hin.placed,
      hin.entries.trans (h.entries.cons _), ?_⟩
    exact (hin.size (by rw [h.size, h.entries.length_eq])).trans (by rw [h.size, List.length_cons])

theorem insert_more (h : t.insert fuel p v ≠ Node.stuck) (hfuel : fuel ≤ fuel') :
    t.insert fuel' p v = t.insert fuel p v := by
  rw [Quadtree.insert, Quadtree.insert, Node.insert_more (Node.bind_ne_stuck h) hfuel]

theorem insert_ends (h : Holds square t es) (hc : contains square p = true)
    (hp : p ∉ es.map (·.1)) :
    ∃ fuel t', t.insert fuel p v = pure t' ∧ Holds square t' ((p, v) :: es) := by
  have hnew : p ∉ t.root.entries.map (·.1) := by rwa [(h.entries.map _).mem_iff]
  obtain ⟨fuel, hfuel⟩ := Node.insert_ends (v := v) h.placed hc hnew
  refine ⟨fuel, (insert_holds fuel v h hc).resolve_left ?_⟩
  have hends := Node.bind_pure_ne_stuck (f := fun r => (⟨r.1, r.2⟩ : Quadtree T)) (hfuel t.size)
  exact hends

theorem insertAll_cons (fuel : Nat) (t : Quadtree T) (e : Point × T) :
    insertAll fuel t (e :: more) = t.insert fuel e.1 e.2 >>= fun t => insertAll fuel t more := by
  rw [insertAll, List.foldlM_cons]
  rfl

theorem insertAll_more (h : insertAll fuel t more = pure t') (hfuel : fuel ≤ fuel') :
    insertAll fuel' t more = pure t' := by
  induction more generalizing t with
  | nil => exact h
  | cons e more ih =>
    rw [insertAll_cons] at h ⊢
    obtain ⟨t₁, hfirst, hrest⟩ := Node.bind_eq_pure h
    rw [insert_more (by rw [hfirst]; exact Node.pure_ne_stuck t₁) hfuel, hfirst, pure_bind]
    exact ih hrest

/-- Points that are pairwise distinct can all be inserted. -/
theorem insertAll_ends (h : Holds square t es) (hin : ∀ e ∈ more, contains square e.1 = true)
    (hdistinct : ((more ++ es).map (·.1)).Nodup) :
    ∃ fuel t', insertAll fuel t more = pure t' ∧ Holds square t' (more ++ es) := by
  induction more generalizing t es with
  | nil => exact ⟨0, t, rfl, h⟩
  | cons e more ih =>
    have hperm : (more ++ e :: es).Perm (e :: more ++ es) := List.perm_middle
    have hdistinct' : ((more ++ e :: es).map (·.1)).Nodup := (hperm.map _).nodup_iff.mpr hdistinct
    have hfresh : e.1 ∉ es.map (·.1) := by
      rw [List.map_append, List.map_cons] at hdistinct'
      exact (List.nodup_cons.mp (List.nodup_append.mp hdistinct').2.1).1
    obtain ⟨fuel₁, t₁, hfirst, h₁⟩ := insert_ends (v := e.2) h (hin e List.mem_cons_self) hfresh
    obtain ⟨fuel₂, t', hrest, h'⟩ :=
      ih h₁ (fun e' he' => hin e' (List.mem_cons_of_mem e he')) hdistinct'
    refine ⟨max fuel₁ fuel₂, t', ?_, h'.placed, h'.entries.trans hperm, ?_⟩
    · have hfirst' : t.insert (max fuel₁ fuel₂) e.1 e.2 = t.insert fuel₁ e.1 e.2 :=
        insert_more (by rw [hfirst]; exact Node.pure_ne_stuck t₁) (le_max_left _ _)
      rw [insertAll_cons, hfirst', hfirst, pure_bind]
      exact insertAll_more hrest (le_max_right _ _)
    · rw [h'.size, hperm.length_eq]

/-- Points that could all be inserted are pairwise distinct. -/
theorem nodup_of_insertAll (h : Holds square t es) (hin : ∀ e ∈ more, contains square e.1 = true)
    (hes : (es.map (·.1)).Nodup) (hrun : insertAll fuel t more = pure t') :
    ((more ++ es).map (·.1)).Nodup := by
  induction more generalizing t es with
  | nil => exact hes
  | cons e more ih =>
    rw [insertAll_cons] at hrun
    obtain ⟨t₁, hfirst, hrest⟩ := Node.bind_eq_pure hrun
    have hfresh : e.1 ∉ es.map (·.1) := by
      intro hagain
      have hstuck : t.insert fuel e.1 e.2 = Node.stuck := by
        rw [Quadtree.insert, Node.insert_twice h.placed ((h.entries.map _).mem_iff.mpr hagain)]
        rfl
      exact Node.pure_ne_stuck t₁ (hfirst.symm.trans hstuck)
    have h₁ : Holds square t₁ (e :: es) := by
      rcases insert_holds fuel e.2 h (hin e List.mem_cons_self) with
        hstuck | ⟨t₂, hsecond, h₂⟩
      · exact absurd (hfirst.symm.trans hstuck) (Node.pure_ne_stuck t₁)
      · rw [hfirst] at hsecond
        cases hsecond
        exact h₂
    have hall := ih h₁ (fun e' he' => hin e' (List.mem_cons_of_mem e he'))
      (List.nodup_cons.mpr ⟨hfresh, hes⟩) hrest
    exact (List.perm_middle.map _).nodup_iff.mp hall

/-- All insertions end, and afterwards every square is answered with the entries inside it, each
as often as inserted. -/
def Answers (square : Square) (entries : List (Point × T)) : Prop :=
  ∃ fuel t, insertAll fuel (create square) entries = pure t ∧ t.size = entries.length ∧
    ∀ range, (t.queryRange range).Perm (entries.filter fun e => contains range e.1)

theorem nodup_of_answers (hin : ∀ e ∈ more, contains square e.1 = true) (h : Answers square more) :
    (more.map (·.1)).Nodup := by
  obtain ⟨fuel, t, hrun, _⟩ := h
  have hall := nodup_of_insertAll (create_holds square) hin List.nodup_nil hrun
  rwa [List.append_nil] at hall

/-- Points inside a boundary can all be inserted, and are found again, exactly where no two of
them are equal. -/
theorem insertions_answer_iff (square : Square) (entries : List (Point × T))
    (hin : ∀ e ∈ entries, contains square e.1 = true) :
    Answers square entries ↔ (entries.map (·.1)).Nodup := by
  refine ⟨nodup_of_answers hin, ?_⟩
  intro hdistinct
  obtain ⟨fuel, t, hrun, h⟩ := insertAll_ends (create_holds square) hin (by rwa [List.append_nil])
  rw [List.append_nil] at h
  refine ⟨fuel, t, hrun, h.size, ?_⟩
  intro range
  rw [Quadtree.queryRange, Node.queryRange_eq h.placed]
  exact h.entries.filter _

theorem insertions_answer_two :
    Answers ⟨0, 0, 4⟩ [(⟨1, 1⟩, "a"), (⟨3, 1⟩, "b")] :=
  (insertions_answer_iff ⟨0, 0, 4⟩ [(⟨1, 1⟩, "a"), (⟨3, 1⟩, "b")] (by decide +kernel)).mpr
    (by decide +kernel)

/-- A point inserted twice subdivides without end. -/
theorem insertions_of_equal_points :
    ¬ ∀ (T : Type) (square : Square) (entries : List (Point × T)),
      (∀ e ∈ entries, contains square e.1 = true) → Answers square entries := by
  intro h
  have hin : ∀ e ∈ [((⟨0, 0⟩ : Point), 1), (⟨0, 0⟩, 2)], contains ⟨0, 0, 1⟩ e.1 = true := by
    decide +kernel
  exact absurd (nodup_of_answers hin (h Nat _ _ hin)) (by decide +kernel)

end Entries

end Cppforge.Spatial.Quadtree
