import Mathlib.Data.List.Basic
import Mathlib.Logic.Function.Basic

namespace Run

variable {σ μ ι : Type} {step : σ → ι → Option σ} {effect : μ → ι → μ} {Rel : σ → μ → Prop}

/-- All steps meet a condition on the state before. -/
def Along (step : σ → ι → Option σ) (Ok : σ → ι → Prop) : σ → List ι → Prop
  | _, [] => True
  | s, op :: ops => Ok s op ∧ ∀ s', step s op = some s' → Along step Ok s' ops

/-- Steps that succeed and follow their effect on a model, where they meet a condition,
make runs that do. -/
theorem Along.follows {Ok : σ → ι → Prop}
    (h : ∀ s m op, Rel s m → Ok s op → ∃ s', step s op = some s' ∧ Rel s' (effect m op))
    {ops : List ι} {s : σ} {m : μ} (hok : Along step Ok s ops) (hs : Rel s m) :
    ∃ s', ops.foldlM step s = some s' ∧ Rel s' (ops.foldl effect m) := by
  induction ops generalizing s m with
  | nil => exact ⟨s, rfl, hs⟩
  | cons op ops ih =>
    obtain ⟨s₁, hstep, hs₁⟩ := h s m op hs hok.1
    obtain ⟨s', hrun, hs'⟩ := ih (hok.2 s₁ hstep) hs₁
    refine ⟨s', ?_, hs'⟩
    rw [List.foldlM_cons, hstep, Option.bind_eq_bind, Option.bind_some]
    exact hrun

instance Along.decidable {Ok : σ → ι → Prop} [∀ s op, Decidable (Ok s op)] :
    ∀ s ops, Decidable (Along step Ok s ops)
  | _, [] => isTrue trivial
  | s, op :: ops =>
    have : ∀ s', Decidable (Along step Ok s' ops) := fun s' => Along.decidable s' ops
    inferInstanceAs (Decidable (Ok s op ∧ ∀ s' ∈ step s op, Along step Ok s' ops))

theorem Along.keeps {Ok : σ → ι → Prop} {Inv : σ → Prop}
    (h : ∀ s op, Inv s → Ok s op → ∃ s', step s op = some s' ∧ Inv s') {ops : List ι} {s : σ}
    (hok : Along step Ok s ops) (hs : Inv s) : ∃ s', ops.foldlM step s = some s' ∧ Inv s' :=
  @Along.follows σ Unit ι step (fun _ _ => ()) (fun s _ => Inv s) Ok (fun s _ op => h s op) ops s ()
    hok hs

theorem along_of_mem {Ok : σ → ι → Prop} {ops : List ι} (h : ∀ op ∈ ops, ∀ s, Ok s op) (s : σ) :
    Along step Ok s ops := by
  induction ops generalizing s with
  | nil => trivial
  | cons op ops ih =>
    refine ⟨h op List.mem_cons_self s, ?_⟩
    intro s' _
    exact ih (fun op hop => h op (List.mem_cons_of_mem _ hop)) s'

theorem along_true (ops : List ι) (s : σ) : Along step (fun _ _ => True) s ops :=
  along_of_mem (fun _ _ _ => trivial) s

/-- Steps that succeed and follow their effect on a model make runs that do. -/
theorem follows (h : ∀ s m op, Rel s m → ∃ s', step s op = some s' ∧ Rel s' (effect m op))
    (ops : List ι) {s : σ} {m : μ} (hs : Rel s m) :
    ∃ s', ops.foldlM step s = some s' ∧ Rel s' (ops.foldl effect m) :=
  (along_true ops s).follows (fun s m op hrel _ => h s m op hrel) hs

/-- Steps that succeed and keep an invariant make runs that do. -/
theorem keeps {Inv : σ → Prop} (h : ∀ s op, Inv s → ∃ s', step s op = some s' ∧ Inv s')
    (ops : List ι) {s : σ} (hs : Inv s) : ∃ s', ops.foldlM step s = some s' ∧ Inv s' :=
  @follows σ Unit ι step (fun _ _ => ()) (fun s _ => Inv s) (fun s _ op => h s op) ops s () hs

section Results
variable {ρ : Type} (step : σ → ι → Option (σ × ρ)) (spec : μ → ι → μ × ρ)

/-- Steps with results, one after the other. -/
def exec : σ → List ι → Option (σ × List ρ)
  | s, [] => some (s, [])
  | s, op :: ops => do
    let (s, r) ← step s op
    let (s, rs) ← exec s ops
    return (s, r :: rs)

/-- The same on the model. -/
def execModel : μ → List ι → μ × List ρ
  | m, [] => (m, [])
  | m, op :: ops =>
    let (m, r) := spec m op
    let (m, rs) := execModel m ops
    (m, r :: rs)

/-- After every step of the run the results are those of the model, and the state
represents the model's. -/
def Refines (Rep : σ → μ → Prop) (s : σ) (m : μ) (ops : List ι) : Prop :=
  ∀ done, done <+: ops → ∃ s', exec step s done = some (s', (execModel spec m done).2) ∧
    Rep s' (execModel spec m done).1

/-- All steps of the run meet a condition on the state before. -/
def Meets (Ok : σ → ι → Prop) : σ → List ι → Prop
  | _, [] => True
  | s, op :: ops => Ok s op ∧ ∀ s' r, step s op = some (s', r) → Meets Ok s' ops

variable {step spec} {Rep Inv : σ → μ → Prop} {Ok : σ → ι → Prop} {s s₁ : σ} {m : μ} {op : ι}
  {ops : List ι}

instance Meets.decidable [∀ s op, Decidable (Ok s op)] : ∀ s ops, Decidable (Meets step Ok s ops)
  | _, [] => isTrue trivial
  | s, op :: ops =>
    have : ∀ s', Decidable (Meets step Ok s' ops) := fun s' => Meets.decidable s' ops
    decidable_of_iff (Ok s op ∧ ∀ next ∈ step s op, Meets step Ok next.1 ops)
      (and_congr_right' ⟨fun h s' r hstep => h (s', r) hstep, fun h next hstep => h next.1 next.2 hstep⟩)

theorem exec_cons {r : ρ} (hstep : step s op = some (s₁, r)) :
    exec step s (op :: ops) = (exec step s₁ ops).map fun last => (last.1, r :: last.2) := by
  cases hrun : exec step s₁ ops with
  | none => simp [exec, hstep, hrun]
  | some last => simp [exec, hstep, hrun]

theorem exec_append {more : List ι} {rs : List ρ} (hrun : exec step s ops = some (s₁, rs)) :
    exec step s (ops ++ more) = (exec step s₁ more).map fun last => (last.1, rs ++ last.2) := by
  induction ops generalizing s rs with
  | nil =>
    rw [exec, Option.some.injEq, Prod.mk.injEq] at hrun
    obtain ⟨rfl, rfl⟩ := hrun
    simp
  | cons op ops ih =>
    cases hstep : step s op with
    | none => simp [exec, hstep] at hrun
    | some next =>
      rw [exec_cons hstep, Option.map_eq_some_iff] at hrun
      obtain ⟨⟨s', rs'⟩, hrest, heq⟩ := hrun
      rw [Prod.mk.injEq] at heq
      obtain ⟨rfl, rfl⟩ := heq
      rw [List.cons_append, exec_cons hstep, ih hrest, Option.map_map]
      rfl

theorem length_exec {rs : List ρ} (hrun : exec step s ops = some (s₁, rs)) :
    rs.length = ops.length := by
  induction ops generalizing s rs with
  | nil =>
    rw [exec, Option.some.injEq, Prod.mk.injEq] at hrun
    rw [← hrun.2]
    rfl
  | cons op ops ih =>
    cases hstep : step s op with
    | none => simp [exec, hstep] at hrun
    | some next =>
      rw [exec_cons hstep, Option.map_eq_some_iff] at hrun
      obtain ⟨⟨s', rs'⟩, hrest, heq⟩ := hrun
      rw [Prod.mk.injEq] at heq
      obtain ⟨rfl, rfl⟩ := heq
      rw [List.length_cons, List.length_cons, ih hrest]

/-- Steps that succeed and keep an invariant make runs that do, whatever their results. -/
theorem exec_keeps {P : σ → Prop} (h : ∀ s op, P s → ∃ s' r, step s op = some (s', r) ∧ P s')
    (ops : List ι) (hs : P s) : ∃ s' rs, exec step s ops = some (s', rs) ∧ P s' := by
  induction ops generalizing s with
  | nil => exact ⟨s, [], rfl, hs⟩
  | cons op ops ih =>
    obtain ⟨s₁, r, hstep, hs₁⟩ := h s op hs
    obtain ⟨s', rs, hrun, hs'⟩ := ih hs₁
    exact ⟨s', r :: rs, by rw [exec_cons hstep, hrun, Option.map_some], hs'⟩

/-- What every step keeps, where it succeeds, holds wherever a run ends. -/
theorem exec_inv {P : σ → Prop} (h : ∀ s op s' r, P s → step s op = some (s', r) → P s')
    {rs : List ρ} (hrun : exec step s ops = some (s₁, rs)) (hs : P s) : P s₁ := by
  induction ops generalizing s rs with
  | nil =>
    cases hrun
    exact hs
  | cons op ops ih =>
    obtain ⟨⟨s', r⟩, hstep, hrun⟩ := Option.bind_eq_some_iff.mp hrun
    obtain ⟨⟨s'', rs'⟩, hrest, hrun⟩ := Option.bind_eq_some_iff.mp hrun
    cases hrun
    exact ih hrest (h s op s' r hs hstep)

/-- Steps that follow the model make runs that do, results included. -/
theorem exec_follows (h : ∀ s m op, Inv s m →
      ∃ s', step s op = some (s', (spec m op).2) ∧ Inv s' (spec m op).1)
    (ops : List ι) (hinv : Inv s m) :
    ∃ s', exec step s ops = some (s', (execModel spec m ops).2) ∧
      Inv s' (execModel spec m ops).1 := by
  induction ops generalizing s m with
  | nil => exact ⟨s, rfl, hinv⟩
  | cons op ops ih =>
    obtain ⟨s₁, hstep, hinv₁⟩ := h s m op hinv
    obtain ⟨s', hrun, hinv'⟩ := ih hinv₁
    exact ⟨s', by simp [exec, hstep, hrun, execModel], hinv'⟩

theorem refines_cons (hrep : Rep s m) (hstep : step s op = some (s₁, (spec m op).2)) :
    Refines step spec Rep s m (op :: ops) ↔ Refines step spec Rep s₁ (spec m op).1 ops := by
  constructor
  · intro hall done hdone
    obtain ⟨s', hrun, hs'⟩ := hall (op :: done) (List.cons_prefix_cons.mpr ⟨rfl, hdone⟩)
    simp only [exec, hstep, Option.bind_eq_bind, Option.bind_some, execModel] at hrun
    cases hr : exec step s₁ done with
    | none =>
      rw [hr] at hrun
      cases hrun
    | some r =>
      rw [hr] at hrun
      simp only [Option.bind_some, Option.pure_def, Option.some.injEq, Prod.mk.injEq,
        List.cons.injEq, true_and] at hrun
      obtain ⟨rfl, hrs⟩ := hrun
      exact ⟨r.1, by rw [← hrs], hs'⟩
  · intro hall done hdone
    rcases List.prefix_cons_iff.mp hdone with rfl | ⟨done, rfl, hrest⟩
    · exact ⟨s, rfl, hrep⟩
    · obtain ⟨s', hrun, hs'⟩ := hall done hrest
      exact ⟨s', by simp [exec, hstep, hrun, execModel], hs'⟩

/-- Steps that follow the model under the condition make runs that do. -/
theorem Meets.refines (hrep : ∀ s m, Inv s m → Rep s m)
    (hok : ∀ s m op, Inv s m → Ok s op →
      ∃ s', step s op = some (s', (spec m op).2) ∧ Inv s' (spec m op).1)
    (hmeets : Meets step Ok s ops) (hinv : Inv s m) : Refines step spec Rep s m ops := by
  induction ops generalizing s m with
  | nil =>
    intro done hdone
    rw [List.prefix_nil.mp hdone]
    exact ⟨s, rfl, hrep s m hinv⟩
  | cons op ops ih =>
    obtain ⟨s₁, hstep, hinv₁⟩ := hok s m op hinv hmeets.1
    rw [refines_cons (hrep s m hinv) hstep]
    exact ih (hmeets.2 s₁ _ hstep) hinv₁

/-- Where a step follows the model exactly under the condition, so does a run. -/
theorem refines_iff (hrep : ∀ s m, Inv s m → Rep s m)
    (hok : ∀ s m op, Inv s m → Ok s op →
      ∃ s', step s op = some (s', (spec m op).2) ∧ Inv s' (spec m op).1)
    (hbad : ∀ s m op, Inv s m → ¬ Ok s op → ∀ s', step s op = some (s', (spec m op).2) →
      ¬ Rep s' (spec m op).1)
    (ops : List ι) (hinv : Inv s m) :
    Refines step spec Rep s m ops ↔ Meets step Ok s ops := by
  refine ⟨?_, fun hmeets => hmeets.refines hrep hok hinv⟩
  intro hall
  induction ops generalizing s m with
  | nil => trivial
  | cons op ops ih =>
    by_cases hop : Ok s op
    · obtain ⟨s₁, hstep, hinv₁⟩ := hok s m op hinv hop
      refine ⟨hop, ?_⟩
      intro s' r hstep'
      rw [hstep, Option.some.injEq, Prod.mk.injEq] at hstep'
      rw [refines_cons (hrep s m hinv) hstep] at hall
      exact hstep'.1 ▸ ih hinv₁ hall
    · obtain ⟨s', hrun, hs'⟩ := hall [op] (List.cons_prefix_cons.mpr ⟨rfl, List.nil_prefix⟩)
      cases hstep : step s op with
      | none => simp [exec, hstep] at hrun
      | some r =>
        simp only [exec, hstep, Option.bind_eq_bind, Option.bind_some, Option.pure_def,
          execModel, Option.some.injEq, Prod.mk.injEq, List.cons.injEq, and_true] at hrun
        refine absurd hs' (hbad s m op hinv hop s' ?_)
        rw [hstep, ← hrun.1, ← hrun.2]

end Results

section Safety
variable {ρ : Type} {step : σ → ι → Option (σ × ρ)} {P Inv : σ → Prop} {Ok : σ → ι → Prop}
  {s s₁ : σ} {op : ι} {r : ρ} {ops : List ι}

/-- The run does not stop, and every state it reaches has a property. -/
def Stays (step : σ → ι → Option (σ × ρ)) (P : σ → Prop) (s : σ) (ops : List ι) : Prop :=
  ∀ done, done <+: ops → ∃ s' rs, exec step s done = some (s', rs) ∧ P s'

theorem stays_cons (hs : P s) (hstep : step s op = some (s₁, r)) :
    Stays step P s (op :: ops) ↔ Stays step P s₁ ops := by
  constructor
  · intro hall done hdone
    obtain ⟨s', rs, hrun, hs'⟩ := hall (op :: done) (List.cons_prefix_cons.mpr ⟨rfl, hdone⟩)
    rw [exec_cons hstep, Option.map_eq_some_iff] at hrun
    obtain ⟨last, hlast, heq⟩ := hrun
    rw [Prod.mk.injEq] at heq
    exact ⟨last.1, last.2, hlast, heq.1 ▸ hs'⟩
  · intro hall done hdone
    rcases List.prefix_cons_iff.mp hdone with rfl | ⟨done, rfl, hrest⟩
    · exact ⟨s, [], rfl, hs⟩
    · obtain ⟨s', rs, hrun, hs'⟩ := hall done hrest
      exact ⟨s', r :: rs, by rw [exec_cons hstep, hrun, Option.map_some], hs'⟩

/-- Where a step keeps the property exactly under the condition, so does a run. -/
theorem stays_iff (hinv : ∀ s, Inv s → P s)
    (hok : ∀ s op, Inv s → Ok s op → ∃ s' r, step s op = some (s', r) ∧ Inv s')
    (hbad : ∀ s op, Inv s → ¬ Ok s op → ∀ s' r, step s op = some (s', r) → ¬ P s')
    (ops : List ι) (hs : Inv s) : Stays step P s ops ↔ Meets step Ok s ops := by
  induction ops generalizing s with
  | nil =>
    refine ⟨fun _ => trivial, ?_⟩
    intro _ done hdone
    rw [List.prefix_nil.mp hdone]
    exact ⟨s, [], rfl, hinv s hs⟩
  | cons op ops ih =>
    by_cases hop : Ok s op
    · obtain ⟨s₁, r, hstep, hs₁⟩ := hok s op hs hop
      rw [stays_cons (hinv s hs) hstep, ih hs₁, Meets]
      constructor
      · intro hmeets
        refine ⟨hop, ?_⟩
        intro s' r' hstep'
        rw [hstep, Option.some.injEq, Prod.mk.injEq] at hstep'
        exact hstep'.1 ▸ hmeets
      · intro hmeets
        exact hmeets.2 s₁ r hstep
    · constructor
      · intro hall
        obtain ⟨s', rs, hrun, hs'⟩ := hall [op] (List.cons_prefix_cons.mpr ⟨rfl, List.nil_prefix⟩)
        cases hstep : step s op with
        | none => simp [exec, hstep] at hrun
        | some next =>
          rw [exec_cons hstep, exec, Option.map_some, Option.some.injEq, Prod.mk.injEq] at hrun
          exact absurd (hrun.1 ▸ hs') (hbad s op hs hop next.1 next.2 hstep)
      · intro hmeets
        exact absurd hmeets.1 hop

end Safety

section Variables
variable {X A B : Type} [DecidableEq X] {R : A → B → Prop} {s : X → A} {m : X → B} {a : A} {b : B}

/-- What holds of all variables does after an assignment that keeps it. -/
theorem each_update (h : ∀ y, R (s y) (m y)) (hab : R a b) (x y : X) :
    R (Function.update s x a y) (Function.update m x b y) := by
  by_cases hy : y = x
  · simpa [hy] using hab
  · simpa [hy] using h y

end Variables

end Run

/-! Stores filled and emptied in turn, and the order in which the values go through them. -/

namespace Phases

variable {σ ι ρ α P G : Type} {step : σ → ι → Option (σ × ρ)} {given taken : ι → ρ → List α}
  {put : P → ι} {get : G → ι} {turn back : ι} {Writing Reading : σ → List α → Prop}
  {s s₁ s' : σ} {op : ι} {r : ρ} {ops more : List ι} {q : List α}

/-- The values that calls move, told from their results. -/
def moved (f : ι → ρ → List α) (ops : List ι) (rs : List ρ) : List α :=
  (ops.zip rs).flatMap fun call => f call.1 call.2

/-- The calls of a phase: puts, the turn, gets, and the way back. -/
def calls (put : P → ι) (get : G → ι) (turn back : ι) (phase : List P × List G) : List ι :=
  phase.1.map put ++ turn :: (phase.2.map get ++ [back])

theorem moved_append {f : ι → ρ → List α} {rs rs' : List ρ} (h : rs.length = ops.length) :
    moved f (ops ++ more) (rs ++ rs') = moved f ops rs ++ moved f more rs' := by
  rw [moved, List.zip_append h.symm, List.flatMap_append]
  rfl

/-- A run, with the values given and taken by its calls. -/
def Moves (step : σ → ι → Option (σ × ρ)) (given taken : ι → ρ → List α) (s : σ) (ops : List ι)
    (s' : σ) (ins outs : List α) : Prop :=
  ∃ rs, Run.exec step s ops = some (s', rs) ∧ moved given ops rs = ins ∧ moved taken ops rs = outs

theorem Moves.nil : Moves step given taken s [] s [] [] := ⟨[], rfl, rfl, rfl⟩

theorem Moves.cons {ins outs : List α} (hstep : step s op = some (s₁, r))
    (h : Moves step given taken s₁ ops s' ins outs) :
    Moves step given taken s (op :: ops) s' (given op r ++ ins) (taken op r ++ outs) := by
  obtain ⟨rs, hrun, rfl, rfl⟩ := h
  exact ⟨r :: rs, by rw [Run.exec_cons hstep, hrun, Option.map_some], rfl, rfl⟩

theorem Moves.append {ins outs ins' outs' : List α} (h : Moves step given taken s ops s₁ ins outs)
    (hmore : Moves step given taken s₁ more s' ins' outs') :
    Moves step given taken s (ops ++ more) s' (ins ++ ins') (outs ++ outs') := by
  obtain ⟨rs, hrun, rfl, rfl⟩ := h
  obtain ⟨rs', hrun', rfl, rfl⟩ := hmore
  have hlen := Run.length_exec hrun
  exact ⟨rs ++ rs', by rw [Run.exec_append hrun, hrun', Option.map_some], moved_append hlen,
    moved_append hlen⟩

/-- While it is written a store takes values behind those it has, and while it is read it gives
up those in front. -/
structure Fifo (step : σ → ι → Option (σ × ρ)) (given taken : ι → ρ → List α) (put : P → ι)
    (get : G → ι) (turn back : ι) (Writing Reading : σ → List α → Prop) : Prop where
  put : ∀ s q p, Writing s q →
    ∃ s' r, step s (put p) = some (s', r) ∧ Writing s' (q ++ given (put p) r) ∧
      taken (put p) r = []
  get : ∀ s q g, Reading s q →
    ∃ s' r rest, step s (get g) = some (s', r) ∧ Reading s' rest ∧ q = taken (get g) r ++ rest ∧
      given (get g) r = []
  turn : ∀ s q, Writing s q →
    ∃ s' r, step s turn = some (s', r) ∧ Reading s' q ∧ given turn r = [] ∧ taken turn r = []
  back : ∀ s q, Reading s q →
    ∃ s' r, step s back = some (s', r) ∧ Writing s' q ∧ given back r = [] ∧ taken back r = []

variable (h : Fifo step given taken put get turn back Writing Reading)

include h in
theorem Fifo.puts (ps : List P) (hs : Writing s q) :
    ∃ s' ins, Moves step given taken s (ps.map put) s' ins [] ∧ Writing s' (q ++ ins) := by
  induction ps generalizing s q with
  | nil => exact ⟨s, [], Moves.nil, by rwa [List.append_nil]⟩
  | cons p ps ih =>
    obtain ⟨s₁, r, hstep, hs₁, htaken⟩ := h.put s q p hs
    obtain ⟨s', ins, hmoves, hs'⟩ := ih hs₁
    refine ⟨s', given (put p) r ++ ins, ?_, by rwa [← List.append_assoc]⟩
    have hcons := hmoves.cons hstep
    rwa [htaken] at hcons

include h in
theorem Fifo.gets (gs : List G) (hs : Reading s q) :
    ∃ s' outs rest, Moves step given taken s (gs.map get) s' [] outs ∧ Reading s' rest ∧
      q = outs ++ rest := by
  induction gs generalizing s q with
  | nil => exact ⟨s, [], q, Moves.nil, hs, rfl⟩
  | cons g gs ih =>
    obtain ⟨s₁, r, rest₁, hstep, hs₁, hq, hgiven⟩ := h.get s q g hs
    obtain ⟨s', outs, rest, hmoves, hs', hrest⟩ := ih hs₁
    refine ⟨s', taken (get g) r ++ outs, rest, ?_, hs', by rw [hq, hrest, List.append_assoc]⟩
    have hcons := hmoves.cons hstep
    rwa [hgiven] at hcons

include h in
theorem Fifo.phase (phase : List P × List G) (hs : Writing s q) :
    ∃ s' ins outs rest, Moves step given taken s (calls put get turn back phase) s' ins outs ∧
      Writing s' rest ∧ q ++ ins = outs ++ rest := by
  obtain ⟨s₁, ins, hputs, hs₁⟩ := h.puts phase.1 hs
  obtain ⟨s₂, r, hturn, hs₂, hgiven, htaken⟩ := h.turn s₁ _ hs₁
  obtain ⟨s₃, outs, rest, hgets, hs₃, hq⟩ := h.gets phase.2 hs₂
  obtain ⟨s', r', hback, hs', hgiven', htaken'⟩ := h.back s₃ rest hs₃
  have hend : Moves step given taken s' [] s' [] [] := Moves.nil
  have hlast := hend.cons hback
  have hall := hputs.append ((hgets.append hlast).cons hturn)
  rw [hgiven, htaken, hgiven', htaken'] at hall
  simp only [List.nil_append, List.append_nil] at hall
  exact ⟨s', ins, outs, rest, hall, hs', hq⟩

include h in
/-- Phase after phase, what has been taken and what is left is what was given, in its order. -/
theorem Fifo.run (phases : List (List P × List G)) (hs : Writing s q) :
    ∃ s' ins outs rest,
      Moves step given taken s (phases.flatMap (calls put get turn back)) s' ins outs ∧
      Writing s' rest ∧ q ++ ins = outs ++ rest := by
  induction phases generalizing s q with
  | nil => exact ⟨s, [], [], q, Moves.nil, hs, List.append_nil q⟩
  | cons phase phases ih =>
    obtain ⟨s₁, ins₁, outs₁, rest₁, hmoves₁, hs₁, hq₁⟩ := h.phase phase hs
    obtain ⟨s', ins, outs, rest, hmoves, hs', hq⟩ := ih hs₁
    refine ⟨s', ins₁ ++ ins, outs₁ ++ outs, rest, hmoves₁.append hmoves, hs', ?_⟩
    calc q ++ (ins₁ ++ ins) = outs₁ ++ rest₁ ++ ins := by rw [← List.append_assoc, hq₁]
      _ = outs₁ ++ outs ++ rest := by rw [List.append_assoc, hq, List.append_assoc]

end Phases

namespace Undo

variable {S V : Type} [DecidableEq S] {σ τ : S → V} {s : S}

/-- The recorded values are put back, the one recorded last first. -/
def rollback (τ : S → V) (trail : List (S × V)) : S → V :=
  trail.foldr (fun e τ => Function.update τ e.1 e.2) τ

end Undo
