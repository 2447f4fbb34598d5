import Mathlib.Data.List.Basic

namespace Ordered

/-- A comparison functor that is a strict weak order. Keys that neither precedes
the other are equivalent and need not be equal. -/
structure StrictWeak (lt : κ → κ → Bool) : Prop where
  irrefl (a : κ) : lt a a = false
  trans {a b c : κ} : lt a b = true → lt b c = true → lt a c = true
  split {a c : κ} (b : κ) : lt a c = true → lt a b = true ∨ lt b c = true

/-- Where an element of key `x` lies relative to a probe `k`. -/
def cut (lt : κ → κ → Bool) (k x : κ) : Ordering :=
  if lt x k then .lt else if lt k x then .gt else .eq

/-- Replace the first element at the cut, or insert the new one there. -/
def upsert (c : α → Ordering) (f : α → α) (new : α) : List α → List α
  | [] => [new]
  | e :: es =>
    match c e with
    | .lt => e :: upsert c f new es
    | .eq => f e :: es
    | .gt => new :: e :: es

def erase (c : α → Ordering) (l : List α) : List α := l.filter (fun e => c e != .eq)

def lookup (c : α → Ordering) (l : List α) : Option α := l.find? (fun e => c e == .eq)

section Comparison
variable {lt : κ → κ → Bool}

theorem StrictWeak.asymm (h : StrictWeak lt) {a b : κ} (hab : lt a b = true) : lt b a = false := by
  cases hba : lt b a with
  | false => rfl
  | true =>
    have := h.trans hab hba
    rw [h.irrefl a] at this
    cases this

/-- Nothing precedes an element that does not precede something later. -/
theorem StrictWeak.lt_of_lt_of_le (h : StrictWeak lt) {a b c : κ} (hab : lt a b = true)
    (hcb : lt c b = false) : lt a c = true := by
  rcases h.split c hab with hac | hcb'
  · exact hac
  · rw [hcb] at hcb'
    cases hcb'

theorem StrictWeak.lt_of_le_of_lt (h : StrictWeak lt) {a b c : κ} (hba : lt b a = false)
    (hbc : lt b c = true) : lt a c = true := by
  rcases h.split a hbc with hba' | hac
  · rw [hba] at hba'
    cases hba'
  · exact hac

theorem StrictWeak.le_trans (h : StrictWeak lt) {a b c : κ} (hba : lt b a = false)
    (hcb : lt c b = false) : lt c a = false := by
  cases hca : lt c a with
  | false => rfl
  | true =>
    have := h.lt_of_lt_of_le hca hba
    rw [hcb] at this
    cases this

theorem cut_eq_lt : cut lt k x = .lt ↔ lt x k = true := by
  unfold cut
  split
  · simp_all
  · split <;> simp_all

theorem cut_eq_gt (h : StrictWeak lt) : cut lt k x = .gt ↔ lt k x = true := by
  unfold cut
  split
  · rename_i hx
    simp [h.asymm hx]
  · split <;> simp_all

theorem cut_eq_eq : cut lt k x = .eq ↔ lt x k = false ∧ lt k x = false := by
  unfold cut
  split
  · simp_all
  · split <;> simp_all

theorem cut_self (h : StrictWeak lt) : cut lt k k = .eq :=
  cut_eq_eq.mpr ⟨h.irrefl k, h.irrefl k⟩

theorem cut_eq_comm : cut lt a b = .eq ↔ cut lt b a = .eq := by
  rw [cut_eq_eq, cut_eq_eq]
  exact And.comm

/-- Equivalent probes cut alike. -/
theorem cut_congr (h : StrictWeak lt) (hk : cut lt a b = .eq) : cut lt a = cut lt b := by
  obtain ⟨hba, hab⟩ := cut_eq_eq.mp hk
  funext x
  cases hx : cut lt b x with
  | lt => exact cut_eq_lt.mpr (h.lt_of_lt_of_le (cut_eq_lt.mp hx) hab)
  | gt => exact (cut_eq_gt h).mpr (h.lt_of_le_of_lt hba ((cut_eq_gt h).mp hx))
  | eq =>
    obtain ⟨hxb, hbx⟩ := cut_eq_eq.mp hx
    exact cut_eq_eq.mpr ⟨h.le_trans hba hxb, h.le_trans hbx hab⟩

end Comparison

section Cuts
variable {c : α → Ordering} {f : α → α} {new : α}

theorem upsert_append_left (A B : List α) (hA : ∀ e ∈ A, c e = .lt) :
    upsert c f new (A ++ B) = A ++ upsert c f new B := by
  induction A with
  | nil => rfl
  | cons e A ih =>
    simp only [List.cons_append, upsert, hA e List.mem_cons_self]
    rw [ih (fun x hx => hA x (List.mem_cons_of_mem _ hx))]

theorem upsert_append_right (A B : List α) (hB : ∀ e ∈ B, c e = .gt) :
    upsert c f new (A ++ B) = upsert c f new A ++ B := by
  induction A with
  | nil =>
    cases B with
    | nil => rfl
    | cons e B => simp [upsert, hB e List.mem_cons_self]
  | cons e A ih =>
    simp only [List.cons_append, upsert]
    split
    · rw [ih, List.cons_append]
    · rfl
    · rfl

theorem erase_append (A B : List α) : erase c (A ++ B) = erase c A ++ erase c B :=
  List.filter_append A B

theorem erase_eq_self (A : List α) (hA : ∀ e ∈ A, c e ≠ .eq) : erase c A = A :=
  List.filter_eq_self.mpr (fun e he => by simpa using hA e he)

theorem lookup_eq_none (A : List α) (hA : ∀ e ∈ A, c e ≠ .eq) : lookup c A = none :=
  List.find?_eq_none.mpr (fun e he => by simpa using hA e he)

theorem lookup_append (A B : List α) : lookup c (A ++ B) = (lookup c A).or (lookup c B) :=
  List.find?_append

/-- The three operations on a sequence that hits the cut once. -/
theorem upsert_hit {A B : List α} (hA : ∀ x ∈ A, c x = .lt) (he : c e = .eq) :
    upsert c f new (A ++ e :: B) = A ++ f e :: B := by
  rw [upsert_append_left A _ hA]
  simp only [upsert, he]

theorem lookup_hit {A B : List α} (hA : ∀ x ∈ A, c x ≠ .eq) (he : c e = .eq) :
    lookup c (A ++ e :: B) = some e := by
  rw [lookup_append, lookup_eq_none A hA]
  simp [lookup, he]

theorem erase_hit {A B : List α} (hA : ∀ x ∈ A, c x ≠ .eq) (he : c e = .eq)
    (hB : ∀ x ∈ B, c x ≠ .eq) : erase c (A ++ e :: B) = A ++ B := by
  rw [erase_append, erase_eq_self A hA]
  have hcons : erase c (e :: B) = erase c B := by simp [erase, he]
  rw [hcons, erase_eq_self B hB]

/-- Insertion at a cut that nothing hits. -/
theorem upsert_gap {A B : List α} (hA : ∀ x ∈ A, c x = .lt) (hB : ∀ x ∈ B, c x = .gt) :
    upsert c f new (A ++ B) = A ++ new :: B := by
  rw [upsert_append_right A B hB, ← List.append_nil A, upsert_append_left A [] hA]
  simp [upsert]

theorem mem_of_lookup (h : lookup c A = some e) : e ∈ A ∧ c e = .eq :=
  ⟨List.mem_of_find?_eq_some h, by simpa using List.find?_some h⟩

/-- What is read back at the cut just written, through any view that both the
inserted and the replaced element agree on. -/
theorem lookup_upsert_self (A : List α) (g : α → β) (hn : c new = .eq)
    (hf : ∀ e, c e = .eq → c (f e) = .eq) (hg : ∀ e, g (f e) = g new) :
    (lookup c (upsert c f new A)).map g = some (g new) := by
  induction A with
  | nil => simp [upsert, lookup, hn]
  | cons e A ih =>
    unfold upsert
    split
    · rename_i he
      simpa [lookup, he] using ih
    · rename_i he
      simp [lookup, hf e he, hg]
    · simp [lookup, hn]

/-- Writing at one cut leaves the answers at every other cut alone. -/
theorem lookup_upsert_other {d : α → Ordering} (A : List α) (hn : d new ≠ .eq)
    (hf : ∀ e, c e = .eq → d e ≠ .eq ∧ d (f e) ≠ .eq) :
    lookup d (upsert c f new A) = lookup d A := by
  induction A with
  | nil => simp [upsert, lookup, hn]
  | cons e A ih =>
    unfold upsert
    split
    · simp only [lookup, List.find?_cons] at ih ⊢
      rw [ih]
    · rename_i he
      simp [lookup, hf e he]
    · simp [lookup, hn]

theorem lookup_erase_self (A : List α) : lookup c (erase c A) = none :=
  lookup_eq_none _ (fun _ he => by simpa using (List.mem_filter.mp he).2)

theorem lookup_erase_other {d : α → Ordering} (A : List α) (hd : ∀ e, c e = .eq → d e ≠ .eq) :
    lookup d (erase c A) = lookup d A := by
  induction A with
  | nil => rfl
  | cons e A ih =>
    by_cases he : c e = .eq
    · have hne := hd e he
      simp only [lookup, erase] at ih
      simp [lookup, erase, he, hne, ih]
    · simp only [lookup, erase] at ih
      simp [lookup, erase, he, List.find?_cons, ih]

theorem mem_upsert (A : List α) (hx : x ∈ upsert c f new A) :
    x = new ∨ x ∈ A ∨ ∃ e ∈ A, c e = .eq ∧ x = f e := by
  induction A with
  | nil =>
    simp only [upsert, List.mem_singleton] at hx
    exact .inl hx
  | cons e A ih =>
    unfold upsert at hx
    split at hx
    · rcases List.mem_cons.mp hx with rfl | hx
      · exact .inr (.inl List.mem_cons_self)
      · rcases ih hx with h | h | ⟨e', he, h⟩
        · exact .inl h
        · exact .inr (.inl (List.mem_cons_of_mem _ h))
        · exact .inr (.inr ⟨e', List.mem_cons_of_mem _ he, h⟩)
    · rename_i he
      rcases List.mem_cons.mp hx with rfl | hx
      · exact .inr (.inr ⟨e, List.mem_cons_self, he, rfl⟩)
      · exact .inr (.inl (List.mem_cons_of_mem _ hx))
    · rcases List.mem_cons.mp hx with rfl | hx
      · exact .inl rfl
      · exact .inr (.inl hx)

end Cuts

/-- Writing at the cut of its own key keeps a sequence in key order. -/
theorem upsert_pairwise {lt : κ → κ → Bool} (h : StrictWeak lt) (key : α → κ) {k : κ}
    (f : α → α) (new : α) (hk : key new = k) (hf : ∀ e, key (f e) = key e) (A : List α)
    (hs : A.Pairwise (fun a b => lt (key a) (key b) = true)) :
    (upsert (fun e => cut lt k (key e)) f new A).Pairwise
      (fun a b => lt (key a) (key b) = true) := by
  induction A with
  | nil => simp [upsert]
  | cons e A ih =>
    obtain ⟨he, hA⟩ := List.pairwise_cons.mp hs
    unfold upsert
    split
    · rename_i hc
      refine List.pairwise_cons.mpr ⟨?_, ih hA⟩
      intro x hx
      rcases mem_upsert A hx with rfl | hx | ⟨y, hy, _, rfl⟩
      · rw [hk]
        exact cut_eq_lt.mp hc
      · exact he x hx
      · rw [hf]
        exact he y hy
    · refine List.pairwise_cons.mpr ⟨?_, hA⟩
      intro x hx
      rw [hf]
      exact he x hx
    · rename_i hc
      have hke := (cut_eq_gt h).mp hc
      refine List.pairwise_cons.mpr ⟨?_, hs⟩
      intro x hx
      rw [hk]
      rcases List.mem_cons.mp hx with rfl | hx
      · exact hke
      · exact h.trans hke (he x hx)

section Keyed
variable {lt : κ → κ → Bool} (key : α → κ)

/-- A sequence in key order around a probe. -/
theorem exists_cut (h : StrictWeak lt) (k : κ) {l : List α}
    (hs : l.Pairwise (fun a b => lt (key a) (key b) = true)) :
    (∃ A e B, l = A ++ e :: B ∧ (∀ x ∈ A, cut lt k (key x) = .lt) ∧ cut lt k (key e) = .eq ∧
      ∀ x ∈ B, cut lt k (key x) = .gt) ∨
    ∃ A B, l = A ++ B ∧ (∀ x ∈ A, cut lt k (key x) = .lt) ∧ ∀ x ∈ B, cut lt k (key x) = .gt := by
  induction l with
  | nil => exact .inr ⟨[], [], rfl, by simp, by simp⟩
  | cons e l ih =>
    obtain ⟨he, hl⟩ := List.pairwise_cons.mp hs
    cases hc : cut lt k (key e) with
    | lt =>
      rcases ih hl with ⟨A, e', B, rfl, hA, he', hB⟩ | ⟨A, B, rfl, hA, hB⟩
      · exact .inl ⟨e :: A, e', B, rfl, List.forall_mem_cons.mpr ⟨hc, hA⟩, he', hB⟩
      · exact .inr ⟨e :: A, B, rfl, List.forall_mem_cons.mpr ⟨hc, hA⟩, hB⟩
    | eq =>
      refine .inl ⟨[], e, l, rfl, by simp, hc, ?_⟩
      intro x hx
      exact (cut_eq_gt h).mpr (h.lt_of_le_of_lt (cut_eq_eq.mp hc).1 (he x hx))
    | gt =>
      refine .inr ⟨[], e :: l, rfl, by simp, List.forall_mem_cons.mpr ⟨hc, ?_⟩⟩
      intro x hx
      exact (cut_eq_gt h).mpr (h.trans ((cut_eq_gt h).mp hc) (he x hx))

theorem ne_eq_of_lt {c : α → Ordering} {A : List α} (h : ∀ x ∈ A, c x = .lt) :
    ∀ x ∈ A, c x ≠ .eq := by
  intro x hx
  rw [h x hx]
  exact Ordering.noConfusion

theorem ne_eq_of_gt {c : α → Ordering} {A : List α} (h : ∀ x ∈ A, c x = .gt) :
    ∀ x ∈ A, c x ≠ .eq := by
  intro x hx
  rw [h x hx]
  exact Ordering.noConfusion

theorem lookup_gap {c : α → Ordering} {A B : List α} (hA : ∀ x ∈ A, c x = .lt)
    (hB : ∀ x ∈ B, c x = .gt) : lookup c (A ++ B) = none := by
  rw [lookup_append, lookup_eq_none A (ne_eq_of_lt hA), lookup_eq_none B (ne_eq_of_gt hB)]
  rfl

/-- In a sorted list what comes before a key comes first. -/
theorem while_lt (h : StrictWeak lt) (k : κ) {l : List α}
    (hs : l.Pairwise (fun a b => lt (key a) (key b) = true)) :
    l.takeWhile (fun e => lt (key e) k) = l.filter (fun e => lt (key e) k) ∧
      l.dropWhile (fun e => lt (key e) k) = l.filter (fun e => !lt (key e) k) := by
  induction hs with
  | nil => exact ⟨rfl, rfl⟩
  | @cons e l hfirst hs ih =>
    obtain ⟨htake, hdrop⟩ := ih
    by_cases he : lt (key e) k = true
    · simp [he, htake, hdrop]
    · have hall : ∀ x ∈ l, lt (key x) k = false := by
        intro x hx
        cases hxk : lt (key x) k with
        | false => rfl
        | true => exact absurd (h.trans (hfirst x hx) hxk) he
      have hnone : l.filter (fun e => lt (key e) k) = [] :=
        List.filter_eq_nil_iff.mpr (fun x hx => by simp [hall x hx])
      have hevery : l.filter (fun e => !lt (key e) k) = l :=
        List.filter_eq_self.mpr (fun x hx => by simp [hall x hx])
      simp [he, hnone, hevery]

theorem length_upsert (h : StrictWeak lt) (k : κ) (f : α → α) (new : α) {l : List α}
    (hs : l.Pairwise (fun a b => lt (key a) (key b) = true)) :
    (upsert (fun e => cut lt k (key e)) f new l).length =
      if (lookup (fun e => cut lt k (key e)) l).isSome then l.length else l.length + 1 := by
  rcases exists_cut key h k hs with ⟨A, e, B, rfl, hA, he, _⟩ | ⟨A, B, rfl, hA, hB⟩
  · rw [upsert_hit hA he, lookup_hit (ne_eq_of_lt hA) he]
    simp
  · rw [upsert_gap hA hB, lookup_gap hA hB]
    simp
    omega

theorem length_erase (h : StrictWeak lt) (k : κ) {l : List α}
    (hs : l.Pairwise (fun a b => lt (key a) (key b) = true)) :
    l.length = if (lookup (fun e => cut lt k (key e)) l).isSome
      then (erase (fun e => cut lt k (key e)) l).length + 1
      else (erase (fun e => cut lt k (key e)) l).length := by
  rcases exists_cut key h k hs with ⟨A, e, B, rfl, hA, he, hB⟩ | ⟨A, B, rfl, hA, hB⟩
  · rw [lookup_hit (ne_eq_of_lt hA) he, erase_hit (ne_eq_of_lt hA) he (ne_eq_of_gt hB)]
    simp
    omega
  · rw [erase_append, lookup_gap hA hB, erase_eq_self A (ne_eq_of_lt hA),
      erase_eq_self B (ne_eq_of_gt hB)]
    rfl

theorem erase_pairwise {c : α → Ordering} {l : List α}
    (hs : l.Pairwise (fun a b => lt (key a) (key b) = true)) :
    (erase c l).Pairwise (fun a b => lt (key a) (key b) = true) :=
  List.Pairwise.filter _ hs

/-- What is read at one probe after a write at another. -/
theorem lookup_upsert_key (h : StrictWeak lt) {k : κ} (k' : κ) (f : α → α) {new : α} (l : List α)
    (g : α → β) (hnew : key new = k) (hf : ∀ e, key (f e) = key e) (hg : ∀ e, g (f e) = g new) :
    (lookup (fun e => cut lt k' (key e)) (upsert (fun e => cut lt k (key e)) f new l)).map g =
      if cut lt k' k = .eq then some (g new)
      else (lookup (fun e => cut lt k' (key e)) l).map g := by
  by_cases hk : cut lt k' k = .eq
  · rw [if_pos hk, cut_congr h hk]
    refine lookup_upsert_self l g ?_ ?_ hg
    · simp only [hnew]
      exact cut_self h
    · intro e he
      simp only [hf]
      exact he
  · rw [if_neg hk, lookup_upsert_other l]
    · simp only [hnew]
      exact hk
    · intro e he
      have hne : cut lt k' (key e) ≠ .eq := by
        intro hke
        apply hk
        rw [cut_congr h hke]
        exact cut_eq_comm.mp he
      simp only [hf]
      exact ⟨hne, hne⟩

theorem lookup_erase_key (h : StrictWeak lt) (k k' : κ) (l : List α) :
    lookup (fun e => cut lt k' (key e)) (erase (fun e => cut lt k (key e)) l) =
      if cut lt k' k = .eq then none else lookup (fun e => cut lt k' (key e)) l := by
  by_cases hk : cut lt k' k = .eq
  · rw [if_pos hk, cut_congr h hk]
    exact lookup_erase_self l
  · rw [if_neg hk]
    refine lookup_erase_other l ?_
    intro e he hke
    apply hk
    rw [cut_congr h hke]
    exact cut_eq_comm.mp he

end Keyed

/-- A strict total order, as a comparison function. -/
class StrictTotal {κ : Type} (lt : κ → κ → Bool) : Prop where
  weak : StrictWeak lt
  eq_of_not_lt {a b : κ} : lt a b = false → lt b a = false → a = b

section Total
variable {κ : Type} {lt : κ → κ → Bool} [StrictTotal lt]

theorem cut_eq_iff {a b : κ} : cut lt a b = .eq ↔ a = b := by
  constructor
  · intro h
    obtain ⟨hba, hab⟩ := cut_eq_eq.mp h
    exact StrictTotal.eq_of_not_lt hab hba
  · intro h
    subst h
    exact cut_self StrictTotal.weak

end Total

/-- The comparison of a linear order. -/
theorem strictTotal_of_lt {κ : Type} [LT κ] [DecidableLT κ] (irrefl : ∀ a : κ, ¬ a < a)
    (trans : ∀ a b c : κ, a < b → b < c → a < c) (total : ∀ a b : κ, ¬ a < b → ¬ b < a → a = b) :
    StrictTotal (fun a b : κ => decide (a < b)) where
  weak := by
    refine ⟨fun a => decide_eq_false (irrefl a), ?_, ?_⟩
    · intro a b c hab hbc
      exact decide_eq_true (trans a b c (of_decide_eq_true hab) (of_decide_eq_true hbc))
    · intro a c b hac
      have hac := of_decide_eq_true hac
      by_cases hab : a < b
      · exact .inl (decide_eq_true hab)
      · right
        by_cases hba : b < a
        · exact decide_eq_true (trans b a c hba hac)
        · rw [← total a b hab hba]
          exact decide_eq_true hac
  eq_of_not_lt hab hba := total _ _ (of_decide_eq_false hab) (of_decide_eq_false hba)

/-- A map with its bindings in strictly increasing key order. -/
@[ext]
structure SortedMap {κ : Type} (lt : κ → κ → Bool) (β : Type) where
  entries : List (κ × β)
  sorted : entries.Pairwise (fun a b => lt a.1 b.1 = true)
deriving DecidableEq

namespace SortedMap
variable {κ β : Type} {lt : κ → κ → Bool}

def empty : SortedMap lt β := ⟨[], .nil⟩

def find (m : SortedMap lt β) (k : κ) : Option β :=
  (lookup (fun e => cut lt k e.1) m.entries).map Prod.snd

def assign [StrictTotal lt] (m : SortedMap lt β) (k : κ) (v : β) : SortedMap lt β where
  entries := upsert (fun e => cut lt k e.1) (fun e => (e.1, v)) (k, v) m.entries
  sorted := upsert_pairwise StrictTotal.weak Prod.fst (fun e => (e.1, v)) (k, v) rfl
    (fun _ => rfl) m.entries m.sorted

def erase (m : SortedMap lt β) (k : κ) : SortedMap lt β where
  entries := Ordered.erase (fun e => cut lt k e.1) m.entries
  sorted := erase_pairwise Prod.fst m.sorted

def filter (m : SortedMap lt β) (p : κ × β → Bool) : SortedMap lt β :=
  ⟨m.entries.filter p, m.sorted.filter p⟩

/-- The first binding at or after a key. -/
def lowerBound (m : SortedMap lt β) (k : κ) : Option (κ × β) :=
  m.entries.find? (fun e => !lt e.1 k)

/-- The first binding at or after a key, or the first of all where there is none. -/
def successor (m : SortedMap lt β) (k : κ) : Option (κ × β) :=
  (m.lowerBound k).or m.entries.head?

theorem successor_eq_none {m : SortedMap lt β} {k : κ} (h : m.successor k = none) :
    m.entries = [] := by
  rw [successor, Option.or_eq_none_iff] at h
  exact List.head?_eq_none_iff.mp h.2

/-- Dropping bindings other than the successor leaves it the successor. -/
theorem successor_filter {m : SortedMap lt β} {k : κ} {e : κ × β} {p : κ × β → Bool}
    (h : m.successor k = some e) (hp : p e = true) : (m.filter p).successor k = some e := by
  unfold successor lowerBound at h ⊢
  simp only [filter, List.find?_filter, List.head?_filter]
  cases hf : m.entries.find? (fun e => !lt e.1 k) with
  | some e' =>
    rw [hf] at h
    cases h
    obtain ⟨hq, A, B, he, hA⟩ := List.find?_eq_some_iff_append.mp hf
    have hfound : m.entries.find? (fun a => decide (p a = true ∧ (!lt a.1 k) = true)) = some e := by
      refine List.find?_eq_some_iff_append.mpr ⟨decide_eq_true ⟨hp, hq⟩, A, B, he, ?_⟩
      intro a ha
      have hlt : lt a.1 k = true := by simpa using hA a ha
      simp [hlt]
    rw [hfound]
    rfl
  | none =>
    rw [hf] at h
    have hnone : m.entries.find? (fun a => decide (p a = true ∧ (!lt a.1 k) = true)) = none := by
      rw [List.find?_eq_none] at hf ⊢
      intro a ha
      have hlt : lt a.1 k = true := by simpa using hf a ha
      simp [hlt]
    cases hm : m.entries with
    | nil => simp [hm] at h
    | cons a l =>
      rw [hm] at h
      cases h
      rw [hm] at hnone
      rw [hnone]
      simp [hp]

/-- The bindings before a key and those at or after it, as the index of the first of these cuts
them. -/
theorem cut_findIdx (h : StrictWeak lt) (m : SortedMap lt β) (k : κ) :
    m.entries.take (m.entries.findIdx (fun e => !lt e.1 k)) =
        m.entries.filter (fun e => lt e.1 k) ∧
      m.entries.drop (m.entries.findIdx (fun e => !lt e.1 k)) =
        m.entries.filter (fun e => !lt e.1 k) := by
  obtain ⟨htake, hdrop⟩ := while_lt Prod.fst h k m.sorted
  rw [← htake, ← hdrop, List.takeWhile_eq_take_findIdx_not, List.dropWhile_eq_drop_findIdx_not]
  exact ⟨rfl, rfl⟩

theorem find_empty (k : κ) : (empty : SortedMap lt β).find k = none := rfl

section Lookup
variable [StrictTotal lt] [DecidableEq κ]

theorem find_assign (m : SortedMap lt β) (k k' : κ) (v : β) :
    (m.assign k v).find k' = if k' = k then some v else m.find k' := by
  have h := lookup_upsert_key Prod.fst (StrictTotal.weak : StrictWeak lt) k' (fun e : κ × β => (e.1, v)) m.entries
    Prod.snd (show ((k, v) : κ × β).1 = k from rfl) (fun _ => rfl) (fun _ => rfl)
  simp only [cut_eq_iff] at h
  exact h

theorem find_erase (m : SortedMap lt β) (k k' : κ) :
    (m.erase k).find k' = if k' = k then none else m.find k' := by
  have h := lookup_erase_key Prod.fst (StrictTotal.weak : StrictWeak lt) k k' m.entries
  simp only [cut_eq_iff] at h
  unfold find erase
  rw [h]
  by_cases hk : k' = k <;> simp [hk]

end Lookup

section Ext
variable [StrictTotal lt]

theorem find_eq_some_iff (m : SortedMap lt β) (k : κ) (v : β) :
    m.find k = some v ↔ (k, v) ∈ m.entries := by
  constructor
  · intro h
    obtain ⟨e, he, hv⟩ := Option.map_eq_some_iff.mp h
    obtain ⟨hmem, hcut⟩ := mem_of_lookup he
    rw [cut_eq_iff.mp hcut, ← hv]
    exact hmem
  · intro h
    obtain ⟨A, B, he⟩ := List.append_of_mem h
    have hs := m.sorted
    rw [he, List.pairwise_append] at hs
    have hA : ∀ x ∈ A, cut lt k x.1 ≠ .eq := by
      intro x hx hc
      have hlt := hs.2.2 x hx (k, v) List.mem_cons_self
      rw [← cut_eq_iff.mp hc, (StrictTotal.weak : StrictWeak lt).irrefl] at hlt
      cases hlt
    rw [find, he, lookup_hit hA (cut_self StrictTotal.weak)]
    rfl

theorem ext_find {m m' : SortedMap lt β} (h : ∀ k, m.find k = m'.find k) : m = m' := by
  have hnodup : ∀ m : SortedMap lt β, m.entries.Nodup := by
    intro m
    refine m.sorted.imp ?_
    intro a b hab he
    rw [he, (StrictTotal.weak : StrictWeak lt).irrefl] at hab
    cases hab
  have hperm : m.entries.Perm m'.entries := by
    refine (List.perm_ext_iff_of_nodup (hnodup m) (hnodup m')).mpr ?_
    intro e
    rw [← find_eq_some_iff m e.1 e.2, ← find_eq_some_iff m' e.1 e.2, h]
  refine SortedMap.ext (hperm.eq_of_pairwise ?_ m.sorted m'.sorted)
  intro a b _ _ hab hba
  rw [(StrictTotal.weak : StrictWeak lt).asymm hab] at hba
  cases hba

theorem find_filter (m : SortedMap lt β) (p : κ × β → Bool) (k : κ) :
    (m.filter p).find k = (m.find k).filter (fun v => p (k, v)) := by
  apply Option.ext
  intro v
  rw [find_eq_some_iff, filter, List.mem_filter, ← find_eq_some_iff, Option.filter_eq_some_iff]

end Ext

end SortedMap

end Ordered
