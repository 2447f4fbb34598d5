import Mathlib.Data.List.Nodup
import Mathlib.Logic.Relation
import Mathlib.Algebra.Order.Group.Int

/-! Strongly connected components: numbers that never grow along an edge, and the stack of a
depth-first search of which the next component is a top part. -/

namespace Components
open Relation

variable {α : Type} {E : α → α → Prop} {S : α → Prop} {num index index' : α → Int}
  {new stack grey : List α} {u v x y : α}

/-- The nodes in `S` have the number of their component. -/
structure Numbered (E : α → α → Prop) (S : α → Prop) (num : α → Int) : Prop where
  closed : ∀ x y, S x → E x y → S y ∧ num y ≤ num x
  joined : ∀ x y, S x → S y → num x = num y → ReflTransGen E x y

namespace Numbered

theorem reach (h : Numbered E S num) (hx : S x) (hr : ReflTransGen E x y) :
    S y ∧ num y ≤ num x := by
  induction hr with
  | refl => exact ⟨hx, le_rfl⟩
  | tail _ he ih =>
    obtain ⟨hy, hle⟩ := h.closed _ _ ih.1 he
    exact ⟨hy, hle.trans ih.2⟩

theorem eq_iff (h : Numbered E S num) (hx : S x) (hy : S y) :
    num x = num y ↔ ReflTransGen E x y ∧ ReflTransGen E y x := by
  constructor
  · intro heq
    exact ⟨h.joined x y hx hy heq, h.joined y x hy hx heq.symm⟩
  · rintro ⟨hxy, hyx⟩
    exact le_antisymm (h.reach hy hyx).2 (h.reach hx hxy).2

/-- A component whose edges lead to itself and to what is numbered takes a number above all. -/
theorem add {C S' : α → Prop} {num' : α → Int} {c : Int} (h : Numbered E S num)
    (hS : ∀ x, S' x ↔ S x ∨ C x) (hC : ∀ x, C x → num' x = c)
    (hold : ∀ x, S x → ¬ C x ∧ num' x = num x ∧ num x < c)
    (hout : ∀ x y, C x → E x y → C y ∨ S y) (hjoin : ∀ x y, C x → C y → ReflTransGen E x y) :
    Numbered E S' num' := by
  constructor
  · intro x y hx he
    rw [hS]
    rcases (hS x).mp hx with hx | hx
    · obtain ⟨hy, hle⟩ := h.closed x y hx he
      refine ⟨.inl hy, ?_⟩
      rw [(hold x hx).2.1, (hold y hy).2.1]
      exact hle
    · rcases hout x y hx he with hy | hy
      · exact ⟨.inr hy, by rw [hC x hx, hC y hy]⟩
      · refine ⟨.inl hy, ?_⟩
        rw [hC x hx, (hold y hy).2.1]
        exact (hold y hy).2.2.le
  · intro x y hx hy heq
    rcases (hS x).mp hx with hx | hx <;> rcases (hS y).mp hy with hy | hy
    · exact h.joined x y hx hy (by rwa [(hold x hx).2.1, (hold y hy).2.1] at heq)
    · have hlt := (hold x hx).2
      rw [hC y hy] at heq
      omega
    · have hlt := (hold y hy).2
      rw [hC x hx] at heq
      omega
    · exact hjoin x y hx hy

end Numbered

/-- What waits on the stack for its component: every node reaches one in progress that is not
above it, and every node in progress reaches what is above. -/
structure Waiting (E : α → α → Prop) (index : α → Int) (stack grey : List α) : Prop where
  sorted : stack.Pairwise fun x y => index y < index x
  held : ∀ z ∈ grey, z ∈ stack
  back : ∀ x ∈ stack, ∃ z ∈ grey, index z ≤ index x ∧ ReflTransGen E x z
  ahead : ∀ z ∈ grey, ∀ x ∈ stack, index z ≤ index x → ReflTransGen E z x

namespace Waiting

theorem nil : Waiting E index [] [] := by
  refine ⟨.nil, fun z hz => hz, ?_, ?_⟩ <;> exact fun z hz => by cases hz

theorem nodup (h : Waiting E index stack grey) : stack.Nodup :=
  h.sorted.imp fun hlt => ne_of_apply_ne index hlt.ne'

/-- With nothing in progress nothing waits. -/
theorem eq_nil (h : Waiting E index stack []) : stack = [] := by
  refine List.eq_nil_iff_forall_not_mem.mpr ?_
  intro x hx
  obtain ⟨z, hz, _⟩ := h.back x hx
  cases hz

theorem congr (h : Waiting E index stack grey) (heq : ∀ x ∈ stack, index' x = index x) :
    Waiting E index' stack grey := by
  refine ⟨?_, h.held, ?_, ?_⟩
  · refine h.sorted.imp_of_mem ?_
    intro x y hx hy hlt
    rwa [heq x hx, heq y hy]
  · intro x hx
    obtain ⟨z, hz, hle, hr⟩ := h.back x hx
    exact ⟨z, hz, by rwa [heq z (h.held z hz), heq x hx], hr⟩
  · intro z hz x hx hle
    rw [heq z (h.held z hz), heq x hx] at hle
    exact h.ahead z hz x hx hle

theorem push (h : Waiting E index stack grey) (htop : ∀ x ∈ stack, index x < index u)
    (hlead : ∀ z ∈ grey, ReflTransGen E z u) : Waiting E index (u :: stack) (u :: grey) := by
  refine ⟨h.sorted.cons htop, ?_, ?_, ?_⟩
  · intro z hz
    rcases List.mem_cons.mp hz with rfl | hz
    · exact List.mem_cons_self
    · exact List.mem_cons_of_mem u (h.held z hz)
  · intro x hx
    rcases List.mem_cons.mp hx with rfl | hx
    · exact ⟨x, List.mem_cons_self, le_rfl, .refl⟩
    · obtain ⟨z, hz, hle, hr⟩ := h.back x hx
      exact ⟨z, List.mem_cons_of_mem u hz, hle, hr⟩
  · intro z hz x hx hle
    rcases List.mem_cons.mp hz with rfl | hzg
    · rcases List.mem_cons.mp hx with rfl | hx
      · exact .refl
      · exact absurd (htop x hx) (not_lt.mpr hle)
    · rcases List.mem_cons.mp hx with rfl | hx
      · exact hlead z hzg
      · exact h.ahead z hzg x hx hle

theorem below (h : Waiting E index (new ++ u :: stack) grey) (hx : x ∈ stack) :
    index x < index u :=
  List.rel_of_pairwise_cons (List.pairwise_append.mp h.sorted).2.1 hx

theorem above (h : Waiting E index (new ++ u :: stack) grey) (hx : x ∈ new) :
    index u < index x :=
  (List.pairwise_append.mp h.sorted).2.2 x hx u List.mem_cons_self

/-- A node that reaches one below it on the stack is done with and waits on. -/
theorem settle (h : Waiting E index stack (u :: grey)) (hy : y ∈ stack) (hlt : index y < index u)
    (hr : ReflTransGen E u y) : Waiting E index stack grey := by
  refine ⟨h.sorted, fun z hz => h.held z (List.mem_cons_of_mem u hz), ?_,
    fun z hz => h.ahead z (List.mem_cons_of_mem u hz)⟩
  have hother : ∀ {z}, z ∈ u :: grey → index z < index u → z ∈ grey := by
    intro z hz hlt
    rcases List.mem_cons.mp hz with rfl | hz
    · exact absurd hlt (lt_irrefl _)
    · exact hz
  intro x hx
  obtain ⟨z, hz, hle, hxz⟩ := h.back x hx
  rcases List.mem_cons.mp hz with rfl | hz
  · obtain ⟨z', hz', hle', hyz⟩ := h.back y hy
    exact ⟨z', hother hz' (hle'.trans_lt hlt), (hle'.trans_lt hlt).le.trans hle,
      hxz.trans (hr.trans hyz)⟩
  · exact ⟨z, hz, hle, hxz⟩

theorem pop (h : Waiting E index (new ++ u :: stack) (u :: grey)) (hgrey : ∀ z ∈ grey, z ∈ stack) :
    Waiting E index stack grey := by
  have hin : ∀ {x}, x ∈ stack → x ∈ new ++ u :: stack := fun hx =>
    List.mem_append_right new (List.mem_cons_of_mem u hx)
  refine ⟨(List.pairwise_append.mp h.sorted).2.1.of_cons, hgrey, ?_, ?_⟩
  · intro x hx
    obtain ⟨z, hz, hle, hr⟩ := h.back x (hin hx)
    rcases List.mem_cons.mp hz with rfl | hz
    · exact absurd (h.below hx) (not_lt.mpr hle)
    · exact ⟨z, hz, hle, hr⟩
  · intro z hz x hx
    exact h.ahead z (List.mem_cons_of_mem u hz) x (hin hx)

/-- The top part of the stack down to `u` is a component if no edge leads further down. -/
theorem component (h : Waiting E index (new ++ u :: stack) (u :: grey))
    (hgrey : ∀ z ∈ grey, z ∈ stack) (hS : ∀ x y, S x → E x y → S y) (hapart : ∀ x ∈ stack, ¬ S x)
    (hout : ∀ x y, x ∈ new ++ [u] → E x y → y ∈ new ++ [u] ∨ S y) :
    ∀ x y, x ∈ new ++ [u] → y ∈ new ++ [u] → ReflTransGen E x y := by
  have hin : ∀ {x}, x ∈ new ++ [u] → x ∈ new ++ u :: stack := by
    intro x hx
    rcases List.mem_append.mp hx with hx | hx
    · exact List.mem_append_left _ hx
    · exact List.mem_append_right new (List.mem_singleton.mp hx ▸ List.mem_cons_self)
  have hindex : ∀ {x}, x ∈ new ++ [u] → index u ≤ index x := by
    intro x hx
    rcases List.mem_append.mp hx with hx | hx
    · exact (h.above hx).le
    · rw [List.mem_singleton.mp hx]
  have hstay : ∀ {x y}, x ∈ new ++ [u] → ReflTransGen E x y → y ∈ new ++ [u] ∨ S y := by
    intro x y hx hr
    induction hr with
    | refl => exact .inl hx
    | tail _ he ih =>
      rcases ih with hy | hy
      · exact hout _ _ hy he
      · exact .inr (hS _ _ hy he)
  intro x y hx hy
  obtain ⟨z, hz, _, hxz⟩ := h.back x (hin hx)
  have huy : ReflTransGen E u y := h.ahead u List.mem_cons_self y (hin hy) (hindex hy)
  rcases List.mem_cons.mp hz with rfl | hz
  · exact hxz.trans huy
  · -- a node in progress further down cannot be reached
    rcases hstay hx hxz with hzt | hzS
    · exact absurd (h.below (hgrey z hz)) (not_lt.mpr (hindex hzt))
    · exact absurd hzS (hapart z (hgrey z hz))

end Waiting

end Components
