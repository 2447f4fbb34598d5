import Mathlib.Logic.Function.Basic
import Mathlib.Data.List.Basic

namespace Chain

variable {α : Type} {prev next prev' next' : α → Option α} {p n : Option α} {A B L : List α}
  {a b s : α}

/-- The cells `L` are linked both ways, from `p` on the left to `n` on the right. -/
def Linked (prev next : α → Option α) (p : Option α) : List α → Option α → Prop
  | [], _ => True
  | a :: L, n => prev a = p ∧ next a = L.head?.or n ∧ Linked prev next (some a) L n

theorem linked_append : Linked prev next p (A ++ B) n ↔
    Linked prev next p A (B.head?.or n) ∧ Linked prev next (A.getLast?.or p) B n := by
  induction A generalizing p with
  | nil => simp [Linked]
  | cons a A ih =>
    have hlast : (a :: A).getLast?.or p = A.getLast?.or (some a) := by
      rw [List.getLast?_cons]
      cases A.getLast? <;> rfl
    simp only [List.cons_append, Linked, ih, hlast, List.head?_append, Option.or_assoc]
    constructor
    · intro ⟨hp, hn, hA, hB⟩
      exact ⟨⟨hp, hn, hA⟩, hB⟩
    · intro ⟨⟨hp, hn, hA⟩, hB⟩
      exact ⟨hp, hn, hA, hB⟩

/-- The list around one of its cells. -/
theorem linked_mid : Linked prev next p (A ++ a :: B) n ↔ Linked prev next p A (some a) ∧
    prev a = A.getLast?.or p ∧ next a = B.head?.or n ∧ Linked prev next (some a) B n := by
  rw [linked_append]
  simp [Linked]

/-- Only the links of the cells themselves matter. -/
theorem Linked.congr (h : Linked prev next p L n)
    (hsame : ∀ a ∈ L, prev' a = prev a ∧ next' a = next a) : Linked prev' next' p L n := by
  induction L generalizing p with
  | nil => trivial
  | cons a L ih =>
    obtain ⟨hp, hn, hL⟩ := h
    obtain ⟨hp', hn'⟩ := hsame a List.mem_cons_self
    exact ⟨hp'.trans hp, hn'.trans hn, ih hL (fun x hx => hsame x (List.mem_cons_of_mem _ hx))⟩

/-- A list whose first cell has got another neighbour on the left. -/
theorem Linked.front (h : Linked prev next p (b :: B) n) {q : Option α} (hb : prev' b = q)
    (hnext : next' b = next b) (hsame : ∀ a ∈ B, prev' a = prev a ∧ next' a = next a) :
    Linked prev' next' q (b :: B) n := by
  obtain ⟨_, hn, hB⟩ := h
  exact ⟨hb, hnext.trans hn, hB.congr hsame⟩

variable [DecidableEq α]

/-- A write to a field of the cell a pointer refers to, if it refers to one. -/
def writeAt (field : α → Option α) (at_ : Option α) (x : Option α) : α → Option α :=
  match at_ with
  | none => field
  | some a => Function.update field a x

/-- `s` linked in behind `a`. -/
theorem Linked.insert (h : Linked prev next p (A ++ a :: B) none) (hd : (A ++ a :: B).Nodup)
    (hs : s ∉ A ++ a :: B) :
    Linked (writeAt (Function.update prev s (some a)) (next a) (some s))
      (Function.update (Function.update next s (next a)) a (some s)) p (A ++ a :: s :: B) none := by
  obtain ⟨hA, hp, hn, hB⟩ := linked_mid.mp h
  simp only [List.nodup_append, List.nodup_cons, List.mem_append, List.mem_cons, not_or] at hd hs
  obtain ⟨-, ⟨haB, hBd⟩, hAB⟩ := hd
  obtain ⟨hsA, hsa, hsB⟩ := hs
  have haA : ∀ x ∈ A, x ≠ a := fun x hx => hAB x hx a (.inl rfl)
  cases B with
  | nil =>
    simp only [List.head?_nil, Option.none_or] at hn
    rw [hn]
    refine linked_mid.mpr ⟨hA.congr ?_, ?_, ?_, ?_⟩
    · intro x hx
      have hxs : x ≠ s := fun he => hsA (he ▸ hx)
      simp [writeAt, Function.update, haA x hx, hxs]
    · simp [writeAt, Function.update, Ne.symm hsa, hp]
    · simp
    · refine ⟨by simp [writeAt], ?_, trivial⟩
      simp [Function.update, hsa]
  | cons b B =>
    simp only [List.head?_cons, Option.some_or] at hn
    simp only [List.mem_cons, not_or] at haB hsB
    rw [hn]
    have hbA : ∀ x ∈ A, x ≠ b := fun x hx => hAB x hx b (.inr List.mem_cons_self)
    obtain ⟨hbB, -⟩ := List.nodup_cons.mp hBd
    refine linked_mid.mpr ⟨hA.congr ?_, ?_, ?_, ?_⟩
    · intro x hx
      have hxs : x ≠ s := fun he => hsA (he ▸ hx)
      simp [writeAt, Function.update, haA x hx, hxs, hbA x hx]
    · simp [writeAt, Function.update, Ne.symm hsa, haB.1, hp]
    · simp
    · refine ⟨by simp [writeAt, Function.update, hsB.1], by simp [Function.update, hsa], ?_⟩
      refine hB.front (by simp [writeAt]) (by simp [Function.update, Ne.symm haB.1, Ne.symm hsB.1]) ?_
      intro x hx
      have hxs : x ≠ s := fun he => hsB.2 (he ▸ hx)
      have hxa : x ≠ a := fun he => haB.2 (he ▸ hx)
      have hxb : x ≠ b := fun he => hbB (he ▸ hx)
      simp [writeAt, Function.update, hxs, hxa, hxb]

/-- `b` taken out behind `a`. -/
theorem Linked.remove (h : Linked prev next p (A ++ a :: b :: B) none)
    (hd : (A ++ a :: b :: B).Nodup) :
    Linked (writeAt prev (next b) (some a)) (Function.update next a (next b)) p (A ++ a :: B)
      none := by
  obtain ⟨hA, hp, -, -, hn, hB⟩ := linked_mid.mp h
  simp only [List.nodup_append, List.nodup_cons, List.mem_cons, not_or] at hd
  obtain ⟨-, ⟨⟨-, haB⟩, hbB, hBd⟩, hAB⟩ := hd
  have haA : ∀ x ∈ A, x ≠ a := fun x hx => hAB x hx a (.inl rfl)
  cases B with
  | nil =>
    simp only [List.head?_nil, Option.none_or] at hn
    rw [hn]
    refine linked_mid.mpr ⟨hA.congr ?_, hp, by simp, trivial⟩
    intro x hx
    simp [writeAt, Function.update, haA x hx]
  | cons c B =>
    simp only [List.head?_cons, Option.some_or] at hn
    simp only [List.mem_cons, not_or] at haB
    rw [hn]
    have hcA : ∀ x ∈ A, x ≠ c := fun x hx => hAB x hx c (.inr (.inr List.mem_cons_self))
    obtain ⟨hcB, -⟩ := List.nodup_cons.mp hBd
    refine linked_mid.mpr ⟨hA.congr ?_, ?_, by simp, ?_⟩
    · intro x hx
      simp [writeAt, Function.update, haA x hx, hcA x hx]
    · simp [writeAt, Function.update, haB.1, hp]
    · refine hB.front (by simp [writeAt]) (by simp [Function.update, Ne.symm haB.1]) ?_
      intro x hx
      have hxa : x ≠ a := fun he => haB.2 (he ▸ hx)
      have hxc : x ≠ c := fun he => hcB (he ▸ hx)
      simp [writeAt, Function.update, hxa, hxc]

end Chain
