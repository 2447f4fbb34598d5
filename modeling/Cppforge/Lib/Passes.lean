import Cppforge.Lib.Walks

/-! Relaxations of all edges of a graph, in passes one after the other. What they find is told by
walks that take their edges in the order in which these are gone through; the nodes in front of
each other after all passes may or may not lead back to a start. -/

structure Arc (α : Type) where
  source : α
  target : α
  weight : Int

/-- The arcs of a pass in order, the nodes labelled in front of the first, and a label that is
none. -/
structure Passes (α : Type) where
  arcs : List (Arc α)
  start : α → Prop
  bound : Int

namespace Passes
open Walks Function

variable {α : Type} {P : Passes α} {s u v x y : α} {a : Arc α} {p q : List α} {w c : Int}
  {t T T' : Nat} {ts : List Nat}

def HasArc (P : Passes α) (u v : α) (c : Int) : Prop := ⟨u, v, c⟩ ∈ P.arcs

/-- The arc of a turn; each pass goes through the same ones. -/
def arcAt (P : Passes α) (t : Nat) : Option (Arc α) := P.arcs[t % P.arcs.length]?

theorem hasArc_of_arcAt (h : P.arcAt t = some a) : P.HasArc a.source a.target a.weight :=
  List.mem_of_getElem? h

section Walks

/-- The nodes of a walk back to a start, all parts of which from there on weigh less than the
bound. -/
inductive Low (P : Passes α) : List α → α → Int → Prop
  | start {s : α} (hs : P.start s) : Low P [s] s 0
  | step {u v : α} {p : List α} {w c : Int} (h : Low P p u w) (he : P.HasArc u v c)
      (hlow : w + c < P.bound) : Low P (v :: p) v (w + c)

/-- Such a walk with the turns at which it takes its arcs, the last one first. -/
inductive Taken (P : Passes α) : List Nat → List α → α → Int → Prop
  | start {s : α} (hs : P.start s) : Taken P [] [s] s 0
  | take {ts : List Nat} {p : List α} {w : Int} {t : Nat} {a : Arc α} (h : Taken P ts p a.source w)
      (hlater : ∀ t' ∈ ts, t' < t) (ha : P.arcAt t = some a) (hlow : w + a.weight < P.bound) :
      Taken P (t :: ts) (a.target :: p) a.target (w + a.weight)

theorem Low.head (h : P.Low p v w) : p.head? = some v := by
  cases h <;> rfl

theorem Low.walk (h : P.Low p v w) : ∃ s, P.start s ∧ Walk P.HasArc s p.reverse v w := by
  induction h with
  | @start s hs => exact ⟨s, hs, .nil s⟩
  | step _ he _ ih =>
    obtain ⟨s, hs, hwalk⟩ := ih
    refine ⟨s, hs, ?_⟩
    rw [List.reverse_cons]
    exact hwalk.snoc he

theorem Taken.low (h : P.Taken ts p v w) : P.Low p v w := by
  induction h with
  | start hs => exact .start hs
  | take _ _ ha hlow ih => exact ih.step (hasArc_of_arcAt ha) hlow

theorem Taken.length (h : P.Taken ts p v w) : p.length = ts.length + 1 := by
  induction h with
  | start => rfl
  | take _ _ _ _ ih => rw [List.length_cons, ih, List.length_cons]

theorem Taken.decreasing (h : P.Taken (t :: ts) p v w) : ∀ t' ∈ ts, t' < t := by
  cases h with
  | take _ hlater _ _ => exact hlater

/-- The turns tell the walk. -/
theorem Taken.unique {p' : List α} {w' : Int} (h : P.Taken ts p v w) (h' : P.Taken ts p' v w') :
    p = p' ∧ w = w' := by
  induction h generalizing p' w' with
  | start =>
    cases h' with
    | start => exact ⟨rfl, rfl⟩
  | take _ _ ha _ ih =>
    generalize hv : Arc.target _ = v' at h'
    cases h' with
    | take h₁ _ ha₁ _ =>
      cases Option.some.inj (ha.symm.trans ha₁)
      obtain ⟨rfl, rfl⟩ := ih h₁
      exact ⟨rfl, rfl⟩

/-- A walk of so many arcs is taken in as many passes. -/
theorem Low.taken (h : P.Low p v w) :
    ∃ ts, P.Taken ts p v w ∧ ∀ t ∈ ts, t < ts.length * P.arcs.length := by
  induction h with
  | start hs => exact ⟨[], .start hs, by simp⟩
  | @step u v p w c h he hlow ih =>
    obtain ⟨ts, htaken, hbefore⟩ := ih
    obtain ⟨i, hi, hget⟩ := List.getElem_of_mem he
    have hat : P.arcAt (ts.length * P.arcs.length + i) = some ⟨u, v, c⟩ := by
      rw [arcAt, Nat.mul_add_mod_of_lt hi, List.getElem?_eq_getElem hi, hget]
    refine ⟨_ :: ts, .take htaken ?_ hat hlow, ?_⟩
    · intro t ht
      exact (hbefore t ht).trans_le (Nat.le_add_right _ i)
    · intro t ht
      rw [List.length_cons, Nat.succ_mul]
      rcases List.mem_cons.mp ht with rfl | ht
      · exact Nat.add_lt_add_left hi _
      · exact (hbefore t ht).trans_le (Nat.le_add_right _ _)

/-- A walk up to one of its nodes, and the rest of it. -/
theorem Taken.upTo (h : P.Taken ts p v w) (hx : x ∈ p) : ∃ ts' q w' r, ts' <:+ ts ∧ q <:+ p ∧
    P.Taken ts' q x w' ∧ Walk P.HasArc x r v (w - w') := by
  induction h with
  | start hs =>
    obtain rfl := List.mem_singleton.mp hx
    exact ⟨[], [x], 0, [x], List.suffix_rfl, List.suffix_rfl, .start hs, .nil x⟩
  | @take ts p w t a h hlater ha hlow ih =>
    rcases List.mem_cons.mp hx with rfl | hx
    · refine ⟨t :: ts, _ :: p, w + a.weight, [a.target], List.suffix_rfl, List.suffix_rfl,
        .take h hlater ha hlow, ?_⟩
      rw [Int.sub_self]
      exact .nil a.target
    · obtain ⟨ts', q, w', r, hts, hq, hfront, hrest⟩ := ih hx
      refine ⟨ts', q, w', r ++ [a.target], hts.trans (List.suffix_cons t ts),
        hq.trans (List.suffix_cons a.target p), hfront, ?_⟩
      have hweight : w + a.weight - w' = w - w' + a.weight := by omega
      rw [hweight]
      exact hrest.snoc (hasArc_of_arcAt ha)

theorem Low.upTo (h : P.Low p v w) (hx : x ∈ p) : ∃ q w' r, q <:+ p ∧ P.Low q x w' ∧
    Walk P.HasArc x r v (w - w') := by
  obtain ⟨ts, htaken, _⟩ := h.taken
  obtain ⟨_, q, w', r, _, hq, hfront, hrest⟩ := htaken.upTo hx
  exact ⟨q, w', r, hq, hfront.low, hrest⟩

/-- Without negative cycles no node is needed twice. -/
theorem Low.simple (hcycle : ∀ p x w, P.Low p x w → ∀ q c, Walk P.HasArc x q x c → 0 ≤ c)
    (h : P.Low p v w) : ∃ q w', P.Low q v w' ∧ q.Nodup ∧ w' ≤ w := by
  induction h with
  | start hs => exact ⟨_, 0, .start hs, List.nodup_singleton _, le_refl 0⟩
  | @step u v p w c h he hlow ih =>
    obtain ⟨q, w', hq, hnodup, hle⟩ := ih
    by_cases hv : v ∈ q
    · obtain ⟨q', w'', r, hsuffix, hfront, hrest⟩ := hq.upTo hv
      have hround := hcycle _ _ _ hfront _ _ (hrest.snoc he)
      exact ⟨q', w'', hfront, hnodup.sublist hsuffix.sublist, by omega⟩
    · exact ⟨v :: q, w' + c, hq.step he (by omega), List.nodup_cons.mpr ⟨hv, hnodup⟩, by omega⟩

/-- The last arc of a walk. -/
theorem Taken.last (h : P.Taken (t :: ts) p v w) : ∃ a q w', P.arcAt t = some a ∧ a.target = v ∧
    p = v :: q ∧ P.Taken ts q a.source w' ∧ w = w' + a.weight ∧ w' + a.weight < P.bound := by
  cases h with
  | take h _ ha hlow => exact ⟨_, _, _, ha, rfl, rfl, h, rfl, hlow⟩

theorem Taken.before_succ (h : P.Taken ts p v w) (hT : ∀ t ∈ ts, t < T + 1) :
    (∀ t ∈ ts, t < T) ∨ ∃ ts', ts = T :: ts' ∧ ∀ t ∈ ts', t < T := by
  cases ts with
  | nil => exact .inl (by simp)
  | cons t ts =>
    obtain ⟨ht, _⟩ := List.forall_mem_cons.mp hT
    have hdec := h.decreasing
    rcases Nat.lt_succ_iff_lt_or_eq.mp ht with hlt | rfl
    · refine .inl (List.forall_mem_cons.mpr ⟨hlt, ?_⟩)
      intro t' ht'
      exact (hdec t' ht').trans hlt
    · exact .inr ⟨ts, rfl, hdec⟩

end Walks

section Firsts

/-- The last arc is taken at an earlier turn, or at the same and the one before it earlier, and so
on. -/
def Earlier : List Nat → List Nat → Prop := List.Lex (· < ·)

theorem earlier_cons {t' : Nat} {ts' : List Nat} :
    Earlier (t :: ts) (t' :: ts') ↔ t < t' ∨ t = t' ∧ Earlier ts ts' := List.cons_lex_cons_iff

theorem not_earlier_nil : ¬ Earlier ts [] := List.not_lex_nil

theorem eq_of_not_earlier {ts' : List Nat} (h : ¬ Earlier ts ts') (h' : ¬ Earlier ts' ts) :
    ts = ts' :=
  List.lex_trichotomous (fun _ _ hlt hgt => by omega) h' h

/-- Of the walks that are taken before a turn the lightest, and of these the earliest. -/
structure First (P : Passes α) (T : Nat) (ts : List Nat) (p : List α) (v : α) (w : Int) : Prop where
  taken : P.Taken ts p v w
  before : ∀ t ∈ ts, t < T
  lightest : ∀ ts' p' w', P.Taken ts' p' v w' → (∀ t ∈ ts', t < T) → w ≤ w'
  earliest : ∀ ts' p', P.Taken ts' p' v w → (∀ t ∈ ts', t < T) → ¬ Earlier ts' ts

theorem First.unique {ts' : List Nat} {p' : List α} {w' : Int} (h : P.First T ts p v w)
    (h' : P.First T ts' p' v w') : ts = ts' ∧ p = p' ∧ w = w' := by
  have hle := h.lightest ts' p' w' h'.taken h'.before
  have hge := h'.lightest ts p w h.taken h.before
  obtain rfl : w = w' := by omega
  obtain rfl := eq_of_not_earlier (h'.earliest ts p h.taken h.before)
    (h.earliest ts' p' h'.taken h'.before)
  exact ⟨rfl, h.taken.unique h'.taken⟩

/-- It stays the first for as long as there is no lighter one. -/
theorem First.later (h : P.First T ts p v w) (hTT : T ≤ T')
    (hleast : ∀ ts' p' w', P.Taken ts' p' v w' → (∀ t ∈ ts', t < T') → w ≤ w') :
    P.First T' ts p v w := by
  refine ⟨h.taken, fun t ht => (h.before t ht).trans_le hTT, hleast, ?_⟩
  intro ts' p' h' _ hearlier
  cases ts with
  | nil => exact not_earlier_nil hearlier
  | cons t ts =>
    have ht := h.before t List.mem_cons_self
    refine h.earliest ts' p' h' ?_ hearlier
    cases ts' with
    | nil => simp
    | cons t' ts' =>
      have ht' : t' < T := by
        rcases earlier_cons.mp hearlier with hlt | ⟨rfl, _⟩ <;> omega
      refine List.forall_mem_cons.mpr ⟨ht', ?_⟩
      intro t₁ ht₁
      exact (h'.decreasing t₁ ht₁).trans ht'

/-- In front of the last arc it is the first at that turn. -/
theorem First.last (h : P.First T (t :: ts) p v w) : ∃ a q w', P.arcAt t = some a ∧ a.target = v ∧
    p = v :: q ∧ P.First t ts q a.source w' ∧ w = w' + a.weight := by
  obtain ⟨a, q, w', ha, rfl, hp, htaken, rfl, hlow⟩ := h.taken.last
  have ht := h.before t List.mem_cons_self
  have hnew : ∀ {ts₁ : List Nat}, (∀ t' ∈ ts₁, t' < t) → ∀ t' ∈ t :: ts₁, t' < T := by
    intro ts₁ hbefore
    exact List.forall_mem_cons.mpr ⟨ht, fun t' ht' => (hbefore t' ht').trans ht⟩
  refine ⟨a, q, w', ha, rfl, hp, ⟨htaken, h.taken.decreasing, ?_, ?_⟩, rfl⟩
  · intro ts₁ p₁ w₁ h₁ hbefore
    by_contra hlt
    have hle := h.lightest (t :: ts₁) _ _ (.take h₁ hbefore ha (by omega)) (hnew hbefore)
    omega
  · intro ts₁ p₁ h₁ hbefore hearlier
    exact h.earliest (t :: ts₁) _ (.take h₁ hbefore ha hlow) (hnew hbefore)
      (earlier_cons.mpr (.inr ⟨rfl, hearlier⟩))

end Firsts

section Runs
variable {d : α → Int} {prev : α → Option α}

/-- What relaxations before a turn have found: the weights of the first walks, and the nodes in
front of their last. -/
structure Finds (P : Passes α) (T : Nat) (d : α → Int) (prev : α → Option α) : Prop where
  found : ∀ v, d v ≠ P.bound → d v < P.bound ∧ ∃ ts p, P.First T ts (v :: p) v (d v) ∧
    prev v = p.head?
  missed : ∀ v, d v = P.bound → prev v = none ∧ ∀ ts p w, P.Taken ts p v w → ∃ t ∈ ts, T ≤ t

theorem Finds.lightest {ts : List Nat} (h : P.Finds T d prev) (h' : P.Taken ts p v w)
    (hT : ∀ t ∈ ts, t < T) :
    d v < P.bound ∧ d v ≤ w := by
  by_cases hv : d v = P.bound
  · obtain ⟨t, ht, hge⟩ := (h.missed v hv).2 ts p w h'
    have := hT t ht
    omega
  · obtain ⟨hlt, ts₁, p₁, hfirst, _⟩ := h.found v hv
    exact ⟨hlt, hfirst.lightest ts p w h' hT⟩

theorem Finds.le_bound (h : P.Finds T d prev) (v : α) : d v ≤ P.bound := by
  by_cases hv : d v = P.bound
  · exact hv.le
  · exact (h.found v hv).1.le

/-- A walk that is taken before the next turn is taken before this one, or ends with its arc. -/
theorem Finds.before_succ {ts : List Nat} (h : P.Finds T d prev) (ha : P.arcAt T = some a)
    (h' : P.Taken ts p v w) (hT : ∀ t ∈ ts, t < T + 1) :
    (∀ t ∈ ts, t < T) ∨ a.target = v ∧ d a.source < P.bound ∧ d a.source + a.weight ≤ w ∧
      w < P.bound ∧ ∃ ts', ts = T :: ts' := by
  rcases h'.before_succ hT with hbefore | ⟨ts', rfl, hts'⟩
  · exact .inl hbefore
  · obtain ⟨b, q, w', hb, hv, _, htaken, rfl, hlow⟩ := h'.last
    obtain rfl := Option.some.inj (ha.symm.trans hb)
    obtain ⟨hbound, hle⟩ := h.lightest htaken hts'
    exact .inr ⟨hv, hbound, by omega, hlow, ts', rfl⟩

theorem Finds.keep (h : P.Finds T d prev) (ha : P.arcAt T = some a)
    (hkeep : d a.source = P.bound ∨ d a.target ≤ d a.source + a.weight) :
    P.Finds (T + 1) d prev := by
  have hle : ∀ {ts p v w}, P.Taken ts p v w → (∀ t ∈ ts, t < T + 1) → d v < P.bound ∧ d v ≤ w := by
    intro ts p v w h' hT
    rcases h.before_succ ha h' hT with hbefore | ⟨rfl, hbound, hless, hlow, _⟩
    · exact h.lightest h' hbefore
    · rcases hkeep with hkeep | hkeep <;> omega
  constructor
  · intro v hv
    obtain ⟨hlt, ts, p, hfirst, hprev⟩ := h.found v hv
    exact ⟨hlt, ts, p, hfirst.later (Nat.le_succ T) fun _ _ _ h' hT => (hle h' hT).2, hprev⟩
  · intro v hv
    refine ⟨(h.missed v hv).1, ?_⟩
    intro ts p w h'
    by_contra hnot
    push Not at hnot
    have := hle h' hnot
    omega

/-- Without an arc there is no walk of this turn. -/
theorem Finds.idle (h : P.Finds T d prev) (ha : P.arcAt T = none) : P.Finds (T + 1) d prev := by
  have hbefore : ∀ {ts p v w}, P.Taken ts p v w → (∀ t ∈ ts, t < T + 1) → ∀ t ∈ ts, t < T := by
    intro ts p v w h' hT
    rcases h'.before_succ hT with hbefore | ⟨ts', rfl, _⟩
    · exact hbefore
    · obtain ⟨b, _, _, hb, _⟩ := h'.last
      rw [ha] at hb
      cases hb
  constructor
  · intro v hv
    obtain ⟨hlt, ts, p, hfirst, hprev⟩ := h.found v hv
    refine ⟨hlt, ts, p, hfirst.later (Nat.le_succ T) ?_, hprev⟩
    intro ts' p' w' h' hT
    exact hfirst.lightest ts' p' w' h' (hbefore h' hT)
  · intro v hv
    refine ⟨(h.missed v hv).1, ?_⟩
    intro ts p w h'
    by_contra hnot
    push Not at hnot
    have := h.lightest h' (hbefore h' hnot)
    omega

/-- A relaxation that lowers a label. -/
theorem Finds.lower [DecidableEq α] (h : P.Finds T d prev) (ha : P.arcAt T = some a)
    (hsource : d a.source ≠ P.bound) (hless : d a.source + a.weight < d a.target) :
    P.Finds (T + 1) (update d a.target (d a.source + a.weight))
      (update prev a.target (some a.source)) := by
  have hold : ∀ x, x ≠ a.target →
      update d a.target (d a.source + a.weight) x = d x := fun x hx => update_of_ne hx ..
  have holdPrev : ∀ x, x ≠ a.target →
      update prev a.target (some a.source) x = prev x := fun x hx => update_of_ne hx ..
  have hbound := h.le_bound a.target
  have hle : ∀ {ts p v w}, P.Taken ts p v w → (∀ t ∈ ts, t < T + 1) →
      update d a.target (d a.source + a.weight) v < P.bound ∧
        update d a.target (d a.source + a.weight) v ≤ w := by
    intro ts p v w h' hT
    rcases h.before_succ ha h' hT with hbefore | ⟨rfl, _, hnew, _, _⟩
    · have hw := h.lightest h' hbefore
      by_cases hv : v = a.target
      · subst hv
        rw [update_self]
        omega
      · rwa [hold v hv]
    · rw [update_self]
      exact ⟨by omega, hnew⟩
  constructor
  · intro v hv
    by_cases hva : v = a.target
    · subst hva
      obtain ⟨_, ts, p, hfirst, _⟩ := h.found a.source hsource
      rw [update_self, update_self]
      refine ⟨by omega, T :: ts, a.source :: p, ⟨?_, ?_, ?_, ?_⟩, rfl⟩
      · exact .take hfirst.taken hfirst.before ha (by omega)
      · refine List.forall_mem_cons.mpr ⟨Nat.lt_succ_self T, ?_⟩
        exact fun t ht => (hfirst.before t ht).trans (Nat.lt_succ_self T)
      · intro ts' p' w' h' hT
        have := (hle h' hT).2
        rwa [update_self] at this
      · intro ts' p' h' hT hearlier
        rcases h'.before_succ hT with hbefore | ⟨ts₁, rfl, hts₁⟩
        · have := h.lightest h' hbefore
          omega
        · rcases earlier_cons.mp hearlier with hlt | ⟨_, hrest⟩
          · exact absurd hlt (Nat.lt_irrefl T)
          · obtain ⟨b, q, w', hb, _, _, htaken, hw, _⟩ := h'.last
            obtain rfl := Option.some.inj (ha.symm.trans hb)
            obtain rfl : d a.source = w' := by omega
            exact hfirst.earliest ts₁ q htaken hts₁ hrest
    · rw [hold v hva] at hv ⊢
      rw [holdPrev v hva]
      obtain ⟨hlt, ts, p, hfirst, hprev⟩ := h.found v hv
      refine ⟨hlt, ts, p, hfirst.later (Nat.le_succ T) ?_, hprev⟩
      intro ts' p' w' h' hT
      have := (hle h' hT).2
      rwa [hold v hva] at this
  · intro v hv
    have hva : v ≠ a.target := by
      rintro rfl
      rw [update_self] at hv
      omega
    rw [hold v hva] at hv
    refine ⟨(holdPrev v hva).trans (h.missed v hv).1, ?_⟩
    intro ts p w h'
    by_contra hnot
    push Not at hnot
    have := hle h' hnot
    rw [hold v hva] at this
    omega

/-- In front of the first turn the starts have the label 0, and all others none. -/
theorem finds_zero (hb : 0 < P.bound) (hstart : ∀ v, P.start v → d v = 0)
    (hother : ∀ v, ¬ P.start v → d v = P.bound) (hprev : ∀ v, prev v = none) :
    P.Finds 0 d prev := by
  have hlen : ∀ {ts : List Nat}, (∀ t ∈ ts, t < 0) → ts = [] := by
    intro ts hts
    exact List.eq_nil_iff_forall_not_mem.mpr fun t ht => Nat.not_lt_zero t (hts t ht)
  constructor
  · intro v hv
    have hs : P.start v := by
      by_contra hs
      exact hv (hother v hs)
    rw [hstart v hs]
    refine ⟨hb, [], [], ⟨.start hs, by simp, ?_, ?_⟩, hprev v⟩
    · intro ts' p' w' h' hT
      obtain rfl := hlen hT
      cases h' with
      | start => exact le_refl 0
    · exact fun ts' p' _ _ => not_earlier_nil
  · intro v hv
    refine ⟨hprev v, ?_⟩
    intro ts p w h'
    cases h' with
    | start hs =>
      rw [hstart v hs] at hv
      omega
    | take => exact ⟨_, List.mem_cons_self, Nat.zero_le _⟩

/-- After so many passes no walk of as many arcs weighs less than the label. -/
theorem Finds.le_low {K : Nat} (h : P.Finds (K * P.arcs.length) d prev) (hlow : P.Low p v w)
    (hp : p.length ≤ K + 1) : d v < P.bound ∧ d v ≤ w := by
  obtain ⟨ts, htaken, hbefore⟩ := hlow.taken
  refine h.lightest htaken ?_
  intro t ht
  have hlen := htaken.length
  exact (hbefore t ht).trans_le (Nat.mul_le_mul_right _ (by omega))

/-- Without negative cycles so many passes are enough for all walks. -/
theorem Finds.le_of_cycles {K : Nat} (h : P.Finds (K * P.arcs.length) d prev)
    (hcard : ∀ p : List α, p.Nodup → p.length ≤ K + 1)
    (hcycle : ∀ p x w, P.Low p x w → ∀ q c, Walk P.HasArc x q x c → 0 ≤ c) (hlow : P.Low p v w) :
    d v < P.bound ∧ d v ≤ w := by
  obtain ⟨q, w', hsimple, hnodup, hle⟩ := hlow.simple hcycle
  have hleast := h.le_low hsimple (hcard q hnodup)
  exact ⟨hleast.1, hleast.2.trans hle⟩

end Runs

variable {K : Nat} {d : α → Int} {prev : α → Option α}

section Chains

/-- The nodes in front of each other, from a node on until there is none. -/
inductive Ends (prev : α → Option α) : List α → α → Prop
  | stop {v : α} (hv : prev v = none) : Ends prev [v] v
  | next {u v : α} {p : List α} (hv : prev v = some u) (h : Ends prev p u) : Ends prev (v :: p) v

theorem Ends.unique (h : Ends prev p v) (h' : Ends prev q v) : p = q := by
  induction h generalizing q with
  | stop hv =>
    cases h' with
    | stop => rfl
    | next hv' _ =>
      rw [hv] at hv'
      cases hv'
  | next hv _ ih =>
    cases h' with
    | stop hv' =>
      rw [hv] at hv'
      cases hv'
    | next hv' h' =>
      obtain rfl := Option.some.inj (hv.symm.trans hv')
      rw [ih h']

theorem Ends.of_mem (h : Ends prev p v) (hx : x ∈ p) : ∃ q, q <:+ p ∧ Ends prev q x := by
  induction h with
  | stop hv =>
    obtain rfl := List.mem_singleton.mp hx
    exact ⟨_, List.suffix_rfl, .stop hv⟩
  | next hv h ih =>
    rcases List.mem_cons.mp hx with rfl | hx
    · exact ⟨_, List.suffix_rfl, .next hv h⟩
    · obtain ⟨q, hq, hends⟩ := ih hx
      exact ⟨q, hq.trans (List.suffix_cons _ _), hends⟩

/-- A chain that ends has no node twice. -/
theorem Ends.nodup (h : Ends prev p v) : p.Nodup := by
  induction h with
  | stop => exact List.nodup_singleton _
  | next hv h ih =>
    refine List.nodup_cons.mpr ⟨?_, ih⟩
    intro hmem
    obtain ⟨q, hq, hends⟩ := h.of_mem hmem
    obtain rfl := hends.unique (.next hv h)
    have := hq.length_le
    rw [List.length_cons] at this
    omega

end Chains

section Lightest

/-- A node with a label is a start, or has the node in front of it on its first walk. -/
theorem Finds.back (h : P.Finds T d prev) (hv : d v ≠ P.bound) :
    (P.First T [] [v] v (d v) ∧ prev v = none) ∨
      ∃ t ts a q w', P.First T (t :: ts) (v :: q) v (d v) ∧ P.arcAt t = some a ∧ a.target = v ∧
        P.First t ts q a.source w' ∧ d v = w' + a.weight ∧ prev v = some a.source ∧
        t < T ∧ d a.source < P.bound ∧ d a.source ≤ w' := by
  obtain ⟨_, ts, p, hfirst, hprev⟩ := h.found v hv
  cases ts with
  | nil =>
    obtain rfl := List.length_eq_zero_iff.mp (Nat.succ.inj hfirst.taken.length)
    exact .inl ⟨hfirst, hprev⟩
  | cons t ts =>
    obtain ⟨a, q, w', ha, ht, hq, hlast, hw⟩ := hfirst.last
    obtain rfl := (List.cons.inj hq).2
    rw [hlast.taken.low.head] at hprev
    have hlt := hfirst.before t List.mem_cons_self
    have hle := h.lightest hlast.taken fun t' ht' => (hlast.before t' ht').trans hlt
    exact .inr ⟨t, ts, a, p, w', hfirst, ha, ht, hlast, hw, hprev, hlt, hle⟩

end Lightest

section Latest

/-- Nodes led to, one in front of the other. -/
def Leads (prev : α → Option α) : α → α → Prop := Relation.ReflTransGen fun x y => prev x = some y

end Latest

end Passes
