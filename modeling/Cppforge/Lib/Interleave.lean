import Mathlib.Logic.Function.Basic
import Mathlib.Algebra.Group.Nat.Defs
import Mathlib.Algebra.BigOperators.Group.Finset.Piecewise

namespace Interleave

section Threads
variable {I S L E G : Type} [DecidableEq I]

/-- Threads with local states over one shared state. -/
structure Config (I S L : Type) where
  shared : S
  locals : I → L

variable (step : S → L → E → S × L)

/-- One step of one thread. -/
def act (c : Config I S L) (m : I × E) : Config I S L :=
  let next := step c.shared (c.locals m.1) m.2
  ⟨next.1, Function.update c.locals m.1 next.2⟩

/-- What a thread's step leaves as it is, is as it was for all threads. -/
theorem field_update {β : Type} (field : L → β) (f : I → L) {i : I} {l : L}
    (h : field l = field (f i)) (j : I) : field (Function.update f i l j) = field (f j) := by
  by_cases hj : j = i
  · subst hj
    rw [Function.update_self, h]
  · rw [Function.update_of_ne hj]

def run (c : Config I S L) (moves : List (I × E)) : Config I S L := moves.foldl (act step) c

/-- Every step of a run is taken from a configuration that allows it. -/
def allowedRun (allowed : Config I S L → I × E → Bool) (c : Config I S L) : List (I × E) → Bool
  | [] => true
  | m :: moves => allowed c m && allowedRun allowed (act step c m) moves

theorem run_append (step : S → L → E → S × L) (c : Config I S L) (moves more : List (I × E)) :
    run step c (moves ++ more) = run step (run step c moves) more := List.foldl_append ..

theorem allowedRun_append {step : S → L → E → S × L} {allowed : Config I S L → I × E → Bool}
    {c : Config I S L} {moves more : List (I × E)} :
    allowedRun step allowed c (moves ++ more) = true ↔
      allowedRun step allowed c moves = true ∧
        allowedRun step allowed (run step c moves) more = true := by
  induction moves generalizing c with
  | nil => simp [allowedRun, run]
  | cons m moves ih =>
    simp only [List.cons_append, allowedRun, Bool.and_eq_true, ih, and_assoc]
    rfl

/-- A proof outline: what holds of the shared state and a ghost state, what holds
where a thread stands, and what a thread relies on from the steps of the others. -/
structure Outline (I S L G : Type) where
  inv : S → G → Prop
  here : I → L → S → G → Prop
  rely : I → S → G → S → G → Prop
  stable : ∀ {i l s g s' g'}, here i l s g → rely i s g s' g' → here i l s' g'

namespace Outline
variable (o : Outline I S L G)

def Holds (c : Config I S L) (g : G) : Prop :=
  o.inv c.shared g ∧ ∀ i, o.here i (c.locals i) c.shared g

/-- What a thread's step from `(s, g)` to local state `l` and shared state `s'` owes. -/
def Owes (i : I) (s : S) (g : G) (l : L) (s' : S) (g' : G) : Prop :=
  o.inv s' g' ∧ o.here i l s' g' ∧ ∀ j, j ≠ i → o.rely j s g s' g'

variable {o}

theorem Holds.act {step : S → L → E → S × L} {c : Config I S L} {g g' : G} {m : I × E}
    (h : o.Holds c g)
    (howes : o.Owes m.1 c.shared g (step c.shared (c.locals m.1) m.2).2
      (step c.shared (c.locals m.1) m.2).1 g') :
    o.Holds (Interleave.act step c m) g' := by
  obtain ⟨hinv, hhere, hrely⟩ := howes
  refine ⟨hinv, ?_⟩
  intro j
  by_cases hj : j = m.1
  · subst hj
    simpa [Interleave.act] using hhere
  · simp only [Interleave.act, Function.update_of_ne hj]
    exact o.stable (h.2 j) (hrely j hj)

theorem Holds.run {step : S → L → E → S × L} {allowed : Config I S L → I × E → Bool}
    (hstep : ∀ c g m, o.Holds c g → allowed c m = true → ∃ g', o.Owes m.1 c.shared g
      (step c.shared (c.locals m.1) m.2).2 (step c.shared (c.locals m.1) m.2).1 g')
    {c : Config I S L} {g : G} (h : o.Holds c g) (moves : List (I × E))
    (hmoves : allowedRun step allowed c moves = true) :
    ∃ g', o.Holds (Interleave.run step c moves) g' := by
  induction moves generalizing c g with
  | nil => exact ⟨g, h⟩
  | cons m moves ih =>
    simp only [allowedRun, Bool.and_eq_true] at hmoves
    obtain ⟨hm, hrest⟩ := hmoves
    obtain ⟨g', howes⟩ := hstep c g m h hm
    exact ih (h.act howes) hrest

/-- A log in the ghost state grows at its end only. -/
theorem Holds.grows {step : S → L → E → S × L} {allowed : Config I S L → I × E → Bool}
    {A : Type} {log : G → List A}
    (hstep : ∀ c g m, o.Holds c g → allowed c m = true → ∃ g', log g <+: log g' ∧
      o.Owes m.1 c.shared g (step c.shared (c.locals m.1) m.2).2
        (step c.shared (c.locals m.1) m.2).1 g')
    {c : Config I S L} {g : G} (h : o.Holds c g) (moves : List (I × E))
    (hmoves : allowedRun step allowed c moves = true) :
    ∃ g', log g <+: log g' ∧ o.Holds (Interleave.run step c moves) g' := by
  induction moves generalizing c g with
  | nil => exact ⟨g, List.prefix_rfl, h⟩
  | cons m moves ih =>
    simp only [allowedRun, Bool.and_eq_true] at hmoves
    obtain ⟨hm, hrest⟩ := hmoves
    obtain ⟨g₁, hlater₁, howes⟩ := hstep c g m h hm
    obtain ⟨g₂, hlater₂, h₂⟩ := ih (h.act howes) hrest
    exact ⟨g₂, hlater₁.trans hlater₂, h₂⟩

/-- The log at some point of a run, and later. -/
theorem Holds.extends {step : S → L → E → S × L} {allowed : Config I S L → I × E → Bool}
    {A : Type} {log : G → List A}
    (hstep : ∀ c g m, o.Holds c g → allowed c m = true → ∃ g', log g <+: log g' ∧
      o.Owes m.1 c.shared g (step c.shared (c.locals m.1) m.2).2
        (step c.shared (c.locals m.1) m.2).1 g')
    {c : Config I S L} {g : G} (h : o.Holds c g) {moves more : List (I × E)}
    (hmoves : allowedRun step allowed c (moves ++ more) = true) :
    ∃ g₁ g₂, log g₁ <+: log g₂ ∧ o.Holds (Interleave.run step c moves) g₁ ∧
      o.Holds (Interleave.run step c (moves ++ more)) g₂ := by
  obtain ⟨hfirst, hmore⟩ := allowedRun_append.mp hmoves
  obtain ⟨g₁, -, h₁⟩ := h.grows hstep moves hfirst
  obtain ⟨g₂, hlater, h₂⟩ := h₁.grows hstep more hmore
  exact ⟨g₁, g₂, hlater, h₁, run_append step c moves more ▸ h₂⟩

end Outline

/-- Of a history, the other threads' parts stay. -/
theorem history_others {A : Type} {history : List (I × A)} {i j : I} {a : A} (hj : j ≠ i) :
    (history ++ [(i, a)]).filter (fun e => e.1 = j) = history.filter (fun e => e.1 = j) := by
  simp [List.filter_append, Ne.symm hj]

end Threads

section Tags

/-- A pointer packed with a counter that every successful exchange increments. -/
structure Tagged where
  ptr : Nat
  tag : Nat
deriving DecidableEq

/-- What a word may have become by the steps of other threads. -/
def Advances (w w' : Tagged) : Prop := w' = w ∨ w'.tag = w.tag + 1

/-- A copy of a word taken earlier: the word is unchanged or has a later tag. -/
def Copied (w copy : Tagged) : Prop := w = copy ∨ copy.tag < w.tag

variable {w w' copy : Tagged}

theorem Copied.self (w : Tagged) : Copied w w := .inl rfl

theorem Copied.advances (h : Copied w copy) (ha : Advances w w') : Copied w' copy := by
  rcases ha with rfl | ha
  · exact h
  · right
    rcases h with rfl | h <;> omega

/-- A copy that is current after a step was current before it, and the word stayed. -/
theorem Copied.current (h : Copied w copy) (ha : Advances w w') (he : w' = copy) :
    w = copy ∧ w' = w := by
  rcases ha with rfl | ha
  · exact ⟨he, rfl⟩
  · subst he
    rcases h with rfl | h <;> omega

/-- What a word keeps of it: the pointer and some low bits of the counter. -/
def Tagged.packed (bits : Nat) (w : Tagged) : Nat × Nat := (w.ptr, w.tag % 2 ^ bits)

/-- A copy is current if the packed words agree and the counter has not gone round since. -/
theorem Copied.of_packed {bits : Nat} (h : Copied w copy) (he : w.packed bits = copy.packed bits)
    (hround : w.tag < copy.tag + 2 ^ bits) : w = copy := by
  rcases h with h | hlt
  · exact h
  · have hmod : w.tag % 2 ^ bits = copy.tag % 2 ^ bits := congrArg Prod.snd he
    have hdiff : (w.tag - copy.tag) % 2 ^ bits = 0 := Nat.sub_mod_eq_zero_of_mod_eq hmod
    rw [Nat.mod_eq_of_lt (by omega)] at hdiff
    omega

end Tags

end Interleave

/-! Threads that wait on condition variables: how many are of a kind, and what a
notification does to those that wait. -/

namespace Monitor
open Interleave

variable {I L : Type}

section Tally
variable [Fintype I] {p q : L → Bool} {f : I → L}

/-- The number of threads whose local state is of a kind. -/
def tally (p : L → Bool) (f : I → L) : Nat := ∑ i, (p (f i)).toNat

theorem tally_update [DecidableEq I] (p : L → Bool) (f : I → L) (i : I) (l : L) :
    tally p (Function.update f i l) + (p (f i)).toNat = tally p f + (p l).toNat := by
  have hnew := Finset.add_sum_erase Finset.univ
    (fun j => (p (Function.update f i l j)).toNat) (Finset.mem_univ i)
  have hold := Finset.add_sum_erase Finset.univ (fun j => (p (f j)).toNat) (Finset.mem_univ i)
  have hrest : ∑ j ∈ Finset.univ.erase i, (p (Function.update f i l j)).toNat
      = ∑ j ∈ Finset.univ.erase i, (p (f j)).toNat := by
    refine Finset.sum_congr rfl ?_
    intro j hj
    rw [Function.update_of_ne (Finset.ne_of_mem_erase hj)]
  rw [hrest] at hnew
  simp only [Function.update_self] at hnew
  simp only [tally]
  omega

theorem tally_eq_card (p : L → Bool) (f : I → L) :
    tally p f = (Finset.univ.filter fun i => p (f i) = true).card := by
  rw [Finset.card_filter]
  refine Finset.sum_congr rfl ?_
  intro i _
  cases p (f i) <;> rfl

/-- Different threads of a kind are no more than there are. -/
theorem length_le_tally {waiting : List I} (hnodup : waiting.Nodup)
    (h : ∀ i ∈ waiting, p (f i) = true) : waiting.length ≤ tally p f := by
  classical
  rw [tally_eq_card, ← List.toFinset_card_of_nodup hnodup]
  refine Finset.card_le_card ?_
  intro i hi
  simpa using h i (List.mem_toFinset.mp hi)

/-- A list of all threads of a kind is no shorter than there are. -/
theorem tally_le_length {waiting : List I} (h : ∀ i, p (f i) = true → i ∈ waiting) :
    tally p f ≤ waiting.length := by
  classical
  rw [tally_eq_card]
  refine (Finset.card_le_card ?_).trans (List.toFinset_card_le waiting)
  intro i hi
  exact List.mem_toFinset.mpr (h i (by simpa using hi))

end Tally

section Waiting

/-- `notify_one`: one of the waiting threads goes on, whichever. -/
def notifyOne (waiting : List I) (choice : Nat) : List I :=
  waiting.eraseIdx (choice % waiting.length)

variable {waiting : List I}

theorem notifyOne_sublist (waiting : List I) (choice : Nat) :
    (notifyOne waiting choice).Sublist waiting := List.eraseIdx_sublist _ _

theorem length_notifyOne (h : waiting ≠ []) (choice : Nat) :
    (notifyOne waiting choice).length + 1 = waiting.length := by
  have hpos := List.length_pos_iff.mpr h
  rw [notifyOne, List.length_eraseIdx_of_lt (Nat.mod_lt _ hpos)]
  omega

variable [DecidableEq I] {waiting' : List I} {f : I → L} {i : I} {l : L}

/-- Those that sleep are listed once each, whether the thread of a step goes to sleep or others are
let go. -/
theorem sleepers_next (sleeps : L → Prop) (hnodup : waiting.Nodup)
    (hasleep : ∀ j ∈ waiting, sleeps (f j))
    (hstep : waiting'.Sublist waiting ∨
      ¬ sleeps (f i) ∧ sleeps l ∧ waiting' = waiting ++ [i])
    (hleft : waiting'.Sublist waiting → i ∈ waiting' → sleeps l) :
    waiting'.Nodup ∧ ∀ j ∈ waiting', sleeps (Function.update f i l j) := by
  suffices h : waiting'.Nodup ∧ (i ∈ waiting' → sleeps l) ∧
      ∀ j, j ≠ i → j ∈ waiting' → sleeps (f j) from
    ⟨h.1, (Function.forall_update_iff f fun j l => j ∈ waiting' → sleeps l).mpr h.2⟩
  rcases hstep with hsub | ⟨hawake, hsleeps, rfl⟩
  · exact ⟨hnodup.sublist hsub, hleft hsub, fun j _ hj => hasleep j (hsub.subset hj)⟩
  · refine ⟨?_, fun _ => hsleeps, ?_⟩
    · apply hnodup.append (List.nodup_singleton i)
      exact List.disjoint_singleton.mpr fun hi => hawake (hasleep i hi)
    · intro j hji hj
      rw [List.mem_append, List.mem_singleton] at hj
      exact hasleep j (hj.resolve_right hji)

end Waiting

section Ledger
variable {K A : Type} [DecidableEq K] [DecidableEq I] {key : I → K} {entries : List (K × A)}
  {field : L → List A} {f : I → L} {i : I} {l : L} {a : A}

/-- Each thread knows its own part of a ledger, also when one adds an entry. -/
theorem own_append (hkey : Function.Injective key)
    (h : ∀ j, (entries.filter fun e => e.1 = key j).map Prod.snd = field (f j))
    (hl : field l = field (f i) ++ [a]) (j : I) :
    ((entries ++ [(key i, a)]).filter fun e => e.1 = key j).map Prod.snd =
      field (Function.update f i l j) := by
  by_cases hj : j = i
  · subst hj
    simp [h, hl]
  · have hne : key i ≠ key j := fun he => hj (hkey he).symm
    simp [h, Function.update_of_ne hj, hne]

end Ledger

end Monitor
