import Cppforge.Heaps.PriorityQueues
import Cppforge.Lib.Selection
import Cppforge.Lib.Run

namespace Cppforge.Heaps

open BinaryHeap Ordered

namespace Heap
variable {T : Type} {compare : T → T → Bool}

section Statement

/-- A priority queue: a bag, of which an entry that no other is greater than is in front. -/
inductive Queue (compare : T → T → Bool)
  | nil
  | front (v : T) (rest : Multiset T) (greatest : ∀ u ∈ rest, compare v u = false)

namespace Queue

def bag : Queue compare → Multiset T
  | nil => 0
  | front v rest _ => v ::ₘ rest

def front? : Queue compare → Option T
  | nil => none
  | front v _ _ => some v

end Queue

/-- What a call may answer and leave. -/
def Serves (q : Queue compare) (op : Op T) (answer : Except String (Answer T))
    (q' : Queue compare) : Prop :=
  match op with
  | .push v => answer = .ok .done ∧ q'.bag = v ::ₘ q.bag
  | .emplace v => answer = .ok .done ∧ q'.bag = v ::ₘ q.bag
  | .pop =>
    match q with
    | .nil => answer = .error "Heap is empty" ∧ q' = .nil
    | .front _ rest _ => answer = .ok .done ∧ q'.bag = rest
  | .top =>
    q' = q ∧ match q.front? with
      | none => answer = .error "Heap is empty"
      | some v => answer = .ok (.value v)
  | .size => answer = .ok (.count q.bag.card) ∧ q' = q
  | .empty => answer = .ok (.flag q.front?.isNone) ∧ q' = q
  | .clear => answer = .ok .done ∧ q' = .nil
  | .isValid => answer = .ok (.flag true) ∧ q' = q

/-- The answers to a sequence of calls. -/
def ServesAll (q : Queue compare) :
    List (Op T) → List (Except String (Answer T)) → Queue compare → Prop
  | [], answers, q' => answers = [] ∧ q' = q
  | op :: ops, answers, q' => ∃ answer rest q₁, answers = answer :: rest ∧
      Serves q op answer q₁ ∧ ServesAll q₁ ops rest q'

/-- The data are the bag in heap order. -/
structure Represents (h : Heap T) (q : Queue compare) : Prop where
  ordered : OrderedFrom compare (h.data[·]?) 0
  front : h.data.head? = q.front?
  bag : (h.data : Multiset T) = q.bag

end Statement

section Sifting

theorem exchange_eq {data : List T} {i j : Nat} (hi : i < data.length) (hj : j < data.length) :
    ∃ data', exchange data i j = some data' ∧ data'.Perm data ∧
      (data'[·]?) = swapped (data[·]?) i j := by
  have hx := List.getElem?_eq_getElem hi
  have hy := List.getElem?_eq_getElem hj
  refine ⟨_, by rw [exchange, hx, hy]; rfl, perm_swap hx hy, ?_⟩
  funext k
  exact getElem?_swap hx hy k

theorem heapifyUp_spec (hc : StrictWeak compare) {data : List T} {index : Nat}
    (hindex : index < data.length) (h : Rising compare (data[·]?) index) :
    ∃ data', heapifyUp compare data index = some data' ∧ data'.Perm data ∧
      OrderedFrom compare (data'[·]?) 0 := by
  induction index using Nat.strong_induction_on generalizing data with
  | _ index ih =>
    rw [heapifyUp]
    split
    · rename_i h0
      exact ⟨data, rfl, .refl _, h.ordered (.inl h0)⟩
    · rename_i h0
      have hpos := Nat.pos_of_ne_zero h0
      have hparent := parent_lt hpos
      have hx := List.getElem?_eq_getElem (Nat.lt_trans hparent hindex)
      change data[(index - 1) / 2]? = _ at hx
      have hy := List.getElem?_eq_getElem hindex
      simp only [hx, hy, Option.bind_eq_bind, Option.bind_some]
      split
      · rename_i hless
        obtain ⟨data₁, hexchange, hperm, hat⟩ :=
          exchange_eq hindex (j := parent index) (by omega)
        have hrising : Rising compare (data₁[·]?) (parent index) := by
          rw [hat]
          exact h.swap hc hpos hx hy hless
        obtain ⟨data', hdata', hperm', hordered⟩ :=
          ih (parent index) hparent (by rw [hperm.length_eq]; omega) hrising
        refine ⟨data', ?_, hperm'.trans hperm, hordered⟩
        change (exchange data index (parent index)).bind _ = _
        rw [hexchange]
        exact hdata'
      · rename_i hless
        refine ⟨data, rfl, .refl _, h.ordered (.inr ?_)⟩
        exact above_of_some hx hy (Bool.eq_false_iff.mpr hless)

theorem exceeded_spec (compare : T → T → Bool) (data : List T) {target : Nat} (htarget : target < data.length)
    (child : Nat) : ∃ b, exceeded compare data data.length target child = some b ∧
      (b = false → Above compare (data[·]?) target child) ∧
      (b = true → child < data.length ∧
        ∃ x y, data[target]? = some x ∧ data[child]? = some y ∧ compare x y = true) := by
  have hx := List.getElem?_eq_getElem htarget
  unfold exceeded
  split
  · rename_i hchild
    have hy := List.getElem?_eq_getElem hchild
    refine ⟨compare data[target] data[child], by rw [hx, hy]; rfl, ?_, ?_⟩
    · exact fun hfalse => above_of_some hx hy hfalse
    · exact fun htrue => ⟨hchild, _, _, hx, hy, htrue⟩
  · rename_i hchild
    refine ⟨false, rfl, fun _ => above_of_none ?_, nofun⟩
    exact List.getElem?_eq_none (Nat.le_of_not_lt hchild)

theorem retarget_spec (hc : StrictWeak compare) (data : List T) {target : Nat}
    (htarget : target < data.length) (child : Nat) :
    ∃ t, retarget compare data data.length target child = some t ∧ t < data.length ∧
      Above compare (data[·]?) t target ∧ Above compare (data[·]?) t child ∧
      (t = target ∨ t = child ∧
        ∃ x y, data[target]? = some x ∧ data[t]? = some y ∧ compare x y = true) := by
  obtain ⟨b, hb, hfalse, htrue⟩ := exceeded_spec compare data htarget child
  rw [retarget, hb]
  cases b with
  | false => exact ⟨target, rfl, htarget, above_self hc target, hfalse rfl, .inl rfl⟩
  | true =>
    obtain ⟨hchild, x, y, hx, hy, hless⟩ := htrue rfl
    refine ⟨child, rfl, hchild, ?_, above_self hc child, .inr ⟨rfl, x, y, hx, hy, hless⟩⟩
    exact above_of_some hy hx (hc.asymm hless)

theorem heapifyDown_spec (hc : StrictWeak compare) {data : List T} {lo index : Nat}
    (hindex : index < data.length) (hlo : lo ≤ index)
    (h : Sinking compare (data[·]?) lo index) :
    ∃ data', heapifyDown compare data.length data index = some data' ∧ data'.Perm data ∧
      OrderedFrom compare (data'[·]?) lo := by
  induction hn : data.length - index using Nat.strong_induction_on generalizing data index with
  | _ n ih =>
    obtain ⟨t₁, ht₁, hlt₁, hself₁, hleft, hcase₁⟩ :=
      retarget_spec hc data hindex (2 * index + 1)
    obtain ⟨t, ht, hlt, hself, hright, hcase⟩ := retarget_spec hc data hlt₁ (2 * index + 2)
    have hsome : ∀ i, i < data.length → (data[i]?).isSome := by
      intro i hi
      rw [List.getElem?_eq_getElem hi]
      rfl
    have hchildren : ∀ i, 0 < i → parent i = index → Above compare (data[·]?) t i := by
      intro i hi hp
      rcases (parent_eq_iff hi).mp hp with rfl | rfl
      · exact hself.trans hc hleft (hsome t₁ hlt₁)
      · exact hright
    rw [heapifyDown]
    simp only [ht₁, ht, Option.bind_eq_bind, Option.bind_some]
    split
    · rename_i heq
      subst heq
      exact ⟨data, rfl, .refl _, h.ordered hchildren⟩
    · rename_i hne
      have hless : index < t ∧ parent t = index ∧
          ∃ x y, data[index]? = some x ∧ data[t]? = some y ∧ compare x y = true := by
        rcases hcase with rfl | ⟨rfl, y, z, hy, hz, hyz⟩
        · rcases hcase₁ with rfl | ⟨rfl, hless⟩
          · exact absurd rfl hne
          · exact ⟨by omega, by unfold parent; omega, hless⟩
        · refine ⟨by omega, by unfold parent; omega, ?_⟩
          rcases hcase₁ with rfl | ⟨rfl, x, y', hx, hy', hxy⟩
          · exact ⟨y, z, hy, hz, hyz⟩
          · rw [hy] at hy'
            cases hy'
            exact ⟨x, z, hx, hz, hc.trans hxy hyz⟩
      obtain ⟨hgt, hparent, x, y, hx, hy, hxy⟩ := hless
      obtain ⟨data₁, hexchange, hperm, hat⟩ := exchange_eq hindex hlt
      have hsinking : Sinking compare (data₁[·]?) lo t := by
        rw [hat]
        exact h.swap hc (by omega) hparent hlo hx hy hxy fun i hi hp _ => hchildren i hi hp
      obtain ⟨data', hdata', hperm', hordered⟩ := ih (data₁.length - t)
        (by rw [hperm.length_eq]; omega) (by rw [hperm.length_eq]; exact hlt) (by omega)
        hsinking rfl
      refine ⟨data', ?_, hperm'.trans hperm, hordered⟩
      rw [if_pos ⟨hgt, hlt⟩, hexchange, Option.bind_some, ← hperm.length_eq]
      exact hdata'

theorem heapifyFrom_spec (hc : StrictWeak compare) {data : List T} {i : Nat}
    (hi : i ≤ data.length) (h : OrderedFrom compare (data[·]?) i) :
    ∃ data', heapifyFrom compare data i = some data' ∧ data'.Perm data ∧
      OrderedFrom compare (data'[·]?) 0 := by
  induction i generalizing data with
  | zero => exact ⟨data, rfl, .refl _, h⟩
  | succ i ih =>
    obtain ⟨data₁, hdown, hperm, hordered⟩ := heapifyDown_spec hc (by omega) (Nat.le_refl i) h.sinking
    obtain ⟨data', hrest, hperm', hordered'⟩ := ih (by rw [hperm.length_eq]; omega) hordered
    refine ⟨data', ?_, hperm'.trans hperm, hordered'⟩
    rw [heapifyFrom, hdown]
    exact hrest

theorem heapify_spec (hc : StrictWeak compare) (data : List T) :
    ∃ data', heapify compare data = some data' ∧ data'.Perm data ∧
      OrderedFrom compare (data'[·]?) 0 := by
  have hleaves : OrderedFrom compare (data[·]?) (data.length / 2) := by
    intro i hi hp x _ y hy
    have hlt := (List.getElem?_eq_some_iff.mp hy).1
    unfold parent at hp
    omega
  unfold heapify
  split
  · rename_i hsmall
    refine ⟨data, rfl, .refl _, ?_⟩
    intro i hi _ x _ y hy
    have hlt := (List.getElem?_eq_some_iff.mp hy).1
    omega
  · exact heapifyFrom_spec hc (Nat.div_le_self _ _) hleaves

/-- The check accepts what is in heap order from a turn on, and nothing else. -/
theorem validFrom_spec (compare : T → T → Bool) (data : List T) {turns i : Nat}
    (hturns : i + turns = data.length) :
    ∃ b, validFrom compare data turns i = some b ∧
      (b = true ↔ OrderedFrom compare (data[·]?) i) := by
  induction turns generalizing i with
  | zero =>
    refine ⟨true, rfl, fun _ => ?_, fun _ => rfl⟩
    intro j hj hp
    have := parent_lt hj
    exact above_of_none (List.getElem?_eq_none (by omega))
  | succ turns ih =>
    have hi : i < data.length := by omega
    obtain ⟨left, hleft, hfalse₁, htrue₁⟩ := exceeded_spec compare data hi (2 * i + 1)
    obtain ⟨right, hright, hfalse₂, htrue₂⟩ := exceeded_spec compare data hi (2 * i + 2)
    obtain ⟨b, hb, hiff⟩ := ih (i := i + 1) (by omega)
    have hbad : ∀ {child}, 0 < child → parent child = i →
        (∃ x y, data[i]? = some x ∧ data[child]? = some y ∧ compare x y = true) →
        ¬ OrderedFrom compare (data[·]?) i := by
      rintro child hchild hp ⟨x, y, hx, hy, hxy⟩ hordered
      have habove := hordered child hchild (by omega)
      rw [hp] at habove
      rw [habove x hx y hy] at hxy
      cases hxy
    rw [validFrom, hleft]
    simp only [Option.bind_eq_bind, Option.bind_some]
    cases left with
    | true =>
      refine ⟨false, rfl, nofun, fun hordered => absurd hordered ?_⟩
      exact hbad (Nat.succ_pos _) (by unfold parent; omega) (htrue₁ rfl).2
    | false =>
      rw [hright]
      simp only [Option.bind_some]
      cases right with
      | true =>
        refine ⟨false, rfl, nofun, fun hordered => absurd hordered ?_⟩
        exact hbad (Nat.succ_pos _) (by unfold parent; omega) (htrue₂ rfl).2
      | false =>
        refine ⟨b, hb, hiff.trans ⟨?_, ?_⟩⟩
        · intro h j hj hp
          by_cases hpi : parent j = i
          · rw [hpi]
            rcases (parent_eq_iff hj).mp hpi with rfl | rfl
            · exact hfalse₁ rfl
            · exact hfalse₂ rfl
          · exact h j hj (by omega)
        · exact fun h j hj hp => h j hj (by omega)

end Sifting

section Refinement

theorem isValid_iff (compare : T → T → Bool) (h : Heap T) : ∃ b, h.isValid compare = some b ∧
    (b = true ↔ OrderedFrom compare (h.data[·]?) 0) :=
  validFrom_spec compare h.data (Nat.zero_add _)

/-- Data in heap order represent a queue. -/
theorem represents_of_ordered (hc : StrictWeak compare) {data : List T}
    (h : OrderedFrom compare (data[·]?) 0) : ∃ q : Queue compare, Represents ⟨data⟩ q := by
  cases data with
  | nil => exact ⟨.nil, h, rfl, rfl⟩
  | cons v tail =>
    have hdense : ∀ i j : Nat, i ≤ j → ((v :: tail)[j]?).isSome → ((v :: tail)[i]?).isSome := by
      intro i j hij hj
      obtain ⟨x, hx⟩ := Option.isSome_iff_exists.mp hj
      have hlt := Nat.lt_of_le_of_lt hij (List.getElem?_eq_some_iff.mp hx).1
      rw [List.getElem?_eq_getElem hlt]
      rfl
    have hgreatest : ∀ u ∈ (tail : Multiset T), compare v u = false := by
      intro u hu
      obtain ⟨i, hi⟩ := List.mem_iff_getElem?.mp (Multiset.mem_coe.mp hu)
      exact h.above hc hdense (i + 1) v rfl u hi
    exact ⟨.front v tail hgreatest, h, rfl, rfl⟩

/-- A permutation in heap order represents a queue with the same bag. -/
theorem represents_of_perm (hc : StrictWeak compare) {data : List T} {bag : Multiset T}
    (h : OrderedFrom compare (data[·]?) 0) (hbag : (data : Multiset T) = bag) :
    ∃ q : Queue compare, Represents ⟨data⟩ q ∧ q.bag = bag := by
  obtain ⟨q, hq⟩ := represents_of_ordered hc h
  exact ⟨q, hq, hq.bag.symm.trans hbag⟩

variable {h : Heap T} {q : Queue compare}

theorem Represents.push (hr : Represents h q) (hc : StrictWeak compare) (v : T) :
    ∃ (h' : Heap T) (q' : Queue compare), h.push compare v = some h' ∧ Represents h' q' ∧
      q'.bag = v ::ₘ q.bag := by
  have hlast : (h.data ++ [v]).length - 1 = h.data.length := by simp
  have hrising : Rising compare ((h.data ++ [v])[·]?) h.data.length := by
    apply hr.ordered.rising
    · exact fun i hi => List.getElem?_eq_none (Nat.le_of_lt hi)
    · intro i hi
      rcases Nat.lt_or_gt_of_ne hi with hlt | hgt
      · exact List.getElem?_append_left hlt
      · rw [List.getElem?_eq_none (Nat.le_of_lt hgt)]
        apply List.getElem?_eq_none
        rw [List.length_append, List.length_singleton]
        exact hgt
  obtain ⟨data', hup, hperm, hordered⟩ := heapifyUp_spec hc (by simp) hrising
  have hbag : (data' : Multiset T) = v ::ₘ q.bag := by
    rw [← hr.bag, Multiset.cons_coe, Multiset.coe_eq_coe]
    exact hperm.trans (List.perm_append_singleton v _)
  obtain ⟨q', hq', hbag'⟩ := represents_of_perm hc hordered hbag
  refine ⟨⟨data'⟩, q', ?_, hq', hbag'⟩
  rw [Heap.push, hlast, hup]
  rfl

/-- What is left of the data when the front is exchanged with the end and dropped. -/
theorem drop_front (v : T) (tail : List T) :
    ∃ data, exchange (v :: tail) 0 ((v :: tail).length - 1) = some data ∧
      data.dropLast.Perm tail ∧
      ∀ i, 0 < i → data.dropLast[i]? = (v :: tail)[i]? ∨ data.dropLast[i]? = none := by
  have hlast : (v :: tail).length - 1 < (v :: tail).length := by simp
  obtain ⟨data, hexchange, hperm, hat⟩ := exchange_eq (Nat.succ_pos tail.length) hlast
  have hend : data[tail.length]? = some v := by
    have := congrFun hat tail.length
    simpa [swapped_right] using this
  have hlen : data.length = tail.length + 1 := hperm.length_eq
  have hsplit : data = data.dropLast ++ [v] := by
    have hne : data ≠ [] := List.ne_nil_of_length_pos (by omega)
    have hgetLast : data.getLast hne = v := by
      rw [List.getLast_eq_getElem]
      have := (List.getElem?_eq_some_iff.mp hend).2
      simpa [hlen] using this
    rw [← hgetLast, List.dropLast_append_getLast]
  refine ⟨data, hexchange, ?_, ?_⟩
  · rw [hsplit] at hperm
    exact List.perm_cons _ |>.mp ((List.perm_append_singleton v _).symm.trans hperm)
  · intro i hi
    by_cases hlt : i < tail.length
    · left
      have hat' := congrFun hat i
      rw [swapped_other (by omega) (by simp; omega)] at hat'
      rw [List.getElem?_dropLast, if_pos (by omega)]
      exact hat'
    · right
      apply List.getElem?_eq_none
      rw [List.length_dropLast]
      omega

theorem Represents.pop {v : T} {rest : Multiset T} {greatest} (hc : StrictWeak compare)
    (hr : Represents h (.front v rest greatest : Queue compare)) :
    ∃ (h' : Heap T) (q' : Queue compare), h.pop compare = some (.ok h') ∧ Represents h' q' ∧
      q'.bag = rest := by
  obtain ⟨tail, hdata⟩ := List.head?_eq_some_iff.mp hr.front
  have htail : (tail : Multiset T) = rest := by
    have := hr.bag
    rw [hdata] at this
    exact Multiset.cons_inj_right v |>.mp this
  obtain ⟨data, hexchange, hperm, hat⟩ := drop_front v tail
  have hordered := hr.ordered
  rw [hdata] at hordered
  have hpop : h.pop compare = if data.dropLast.isEmpty then some (.ok ⟨data.dropLast⟩)
      else (heapifyDown compare data.dropLast.length data.dropLast 0).map fun data => .ok ⟨data⟩ := by
    rw [Heap.pop, Heap.empty, hdata, List.isEmpty_cons, hexchange]
    split
    · contradiction
    · simp only [Option.bind_eq_bind, Option.bind_some]
      split
      · rfl
      · rw [Option.map_eq_bind]
        rfl
  rw [hpop]
  split
  · rename_i hempty
    rw [List.isEmpty_iff] at hempty
    have hnil : rest = 0 := by
      rw [← htail, ← Multiset.coe_eq_coe.mpr hperm, hempty]
      rfl
    refine ⟨⟨data.dropLast⟩, .nil, rfl, ⟨?_, ?_, ?_⟩, hnil.symm⟩
    · rw [hempty]
      exact fun i _ _ => above_of_none rfl
    · rw [hempty]
      rfl
    · rw [hempty]
      rfl
  · rename_i hempty
    have hpos : 0 < data.dropLast.length := by
      rw [List.length_pos_iff]
      simpa using hempty
    obtain ⟨data', hdown, hperm', hordered'⟩ :=
      heapifyDown_spec hc hpos (Nat.le_refl 0) (hordered.replaced hat)
    obtain ⟨q', hq', hbag'⟩ := represents_of_perm hc hordered'
      ((Multiset.coe_eq_coe.mpr (hperm'.trans hperm)).trans htail)
    refine ⟨⟨data'⟩, q', ?_, hq', hbag'⟩
    rw [hdown]
    rfl

theorem Represents.empty_eq (hr : Represents h q) : h.empty = q.front?.isNone := by
  rw [Heap.empty, ← hr.front]
  cases h.data <;> rfl

theorem Represents.step (hr : Represents h q) (hc : StrictWeak compare) (op : Op T) :
    ∃ h' answer q', Heap.step compare h op = some (h', answer) ∧ Serves q op answer q' ∧
      Represents h' q' := by
  cases op with
  | push v =>
    obtain ⟨h', q', hpush, hq', hbag⟩ := hr.push hc v
    refine ⟨h', _, q', ?_, ⟨rfl, hbag⟩, hq'⟩
    rw [Heap.step, hpush]
    rfl
  | emplace v =>
    obtain ⟨h', q', hpush, hq', hbag⟩ := hr.push hc v
    refine ⟨h', _, q', ?_, ⟨rfl, hbag⟩, hq'⟩
    rw [Heap.step, Heap.emplace, hpush]
    rfl
  | pop =>
    cases q with
    | nil =>
      refine ⟨h, _, .nil, ?_, ⟨rfl, rfl⟩, hr⟩
      rw [Heap.step, Heap.pop, hr.empty_eq]
      rfl
    | front v rest greatest =>
      obtain ⟨h', q', hpop, hq', hbag⟩ := hr.pop hc
      refine ⟨h', _, q', ?_, ⟨rfl, hbag⟩, hq'⟩
      rw [Heap.step, hpop]
      rfl
  | top =>
    cases hq : q.front? with
    | none =>
      refine ⟨h, .error "Heap is empty", q, ?_, ⟨rfl, by rw [hq]⟩, hr⟩
      rw [Heap.step, Heap.top, hr.empty_eq, hq]
      rfl
    | some v =>
      refine ⟨h, .ok (.value v), q, ?_, ⟨rfl, by rw [hq]⟩, hr⟩
      have hfront := hr.front
      rw [hq, List.head?_eq_getElem?] at hfront
      rw [Heap.step, Heap.top, hr.empty_eq, hq, hfront]
      rfl
  | size =>
    refine ⟨h, _, q, rfl, ⟨?_, rfl⟩, hr⟩
    rw [← hr.bag]
    rfl
  | empty =>
    refine ⟨h, _, q, rfl, ⟨?_, rfl⟩, hr⟩
    rw [hr.empty_eq]
  | clear =>
    refine ⟨_, _, .nil, rfl, ⟨rfl, rfl⟩, ?_, rfl, rfl⟩
    exact fun i _ _ => above_of_none rfl
  | isValid =>
    obtain ⟨b, hb, hiff⟩ := isValid_iff compare h
    obtain rfl := hiff.mpr hr.ordered
    refine ⟨h, _, q, ?_, ⟨rfl, rfl⟩, hr⟩
    rw [Heap.step, hb]
    rfl

theorem Represents.run (hr : Represents h q) (hc : StrictWeak compare) (ops : List (Op T)) :
    ∃ h' answers q', Run.exec (Heap.step compare) h ops = some (h', answers) ∧
      ServesAll q ops answers q' ∧ Represents h' q' := by
  induction ops generalizing h q with
  | nil => exact ⟨h, [], q, rfl, ⟨rfl, rfl⟩, hr⟩
  | cons op ops ih =>
    obtain ⟨h₁, answer, q₁, hstep, hserves, hr₁⟩ := hr.step hc op
    obtain ⟨h', answers, q', hrun, hall, hr'⟩ := ih hr₁
    refine ⟨h', answer :: answers, q', ?_, ⟨answer, answers, q₁, rfl, hserves, hall⟩, hr'⟩
    rw [Run.exec_cons hstep, hrun]
    rfl

/-- A heap made of any range answers any calls as a priority queue with its entries. -/
theorem heap_refines (compare : T → T → Bool) (hc : StrictWeak compare) (range : List T)
    (ops : List (Op T)) : ∃ (h h' : Heap T) (q q' : Queue compare) (answers : _),
      create compare range = some h ∧ q.bag = range ∧
      Run.exec (step compare) h ops = some (h', answers) ∧ ServesAll q ops answers q' ∧
      Represents h' q' := by
  obtain ⟨data, hheapify, hperm, hordered⟩ := heapify_spec hc range
  obtain ⟨q, hq, hbag⟩ := represents_of_perm hc hordered (Multiset.coe_eq_coe.mpr hperm)
  obtain ⟨h', answers, q', hrun, hall, hr'⟩ := hq.run hc ops
  refine ⟨⟨data⟩, h', q, q', answers, ?_, hbag, hrun, hall, hr'⟩
  rw [create, hheapify]
  rfl

/-- With a comparison that does not tell numbers apart by their last digit. -/
theorem heap_refines_tens : ∃ (h h' : Heap Nat)
    (q q' : Queue fun a b : Nat => decide (a / 10 < b / 10)) (answers : _),
      create (fun a b => decide (a / 10 < b / 10)) [15, 12, 31] = some h ∧
      q.bag = ([15, 12, 31] : List Nat) ∧
      Run.exec (step fun a b => decide (a / 10 < b / 10)) h [.pop, .push 18, .top] =
        some (h', answers) ∧ ServesAll q [.pop, .push 18, .top] answers q' ∧ Represents h' q' := by
  apply heap_refines
  constructor <;> intros <;> simp only [decide_eq_true_eq, decide_eq_false_iff_not] at * <;> omega

end Refinement

end Heap

end Cppforge.Heaps
