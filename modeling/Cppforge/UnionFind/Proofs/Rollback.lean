import Cppforge.UnionFind.UnionSet

namespace Cppforge.UnionFind.UnionSetWithRollback
open Function Forest

variable {n : Nat} {s s' t : UnionSetWithRollback n} {x y a b : Fin n} {i j id : Nat}
  {change : ChangeRecord n} {rest : List (ChangeRecord n)}

section Undoing

theorem rollback_self (h : s.snapshot ≤ id) : s.rollback id = s := by
  rw [rollback]
  cases hh : s.history with
  | nil => rfl
  | cons change rest =>
    rw [snapshot, hh, List.length_cons] at h
    rw [undoTo, if_neg (by omega)]

theorem rollback_undo (hh : s.history = change :: rest) (hid : id ≤ rest.length) :
    s.rollback id = (s.undo change rest).rollback id := by
  rw [rollback, hh, undoTo, if_pos (by omega)]
  rfl

theorem snapshot_rollback (s : UnionSetWithRollback n) (id : Nat) :
    (s.rollback id).snapshot = min id s.snapshot := by
  cases hh : s.history with
  | nil =>
    have hlen : s.snapshot = 0 := by simp [snapshot, hh]
    rw [rollback_self (by omega)]
    omega
  | cons change rest =>
    have hlen : s.snapshot = rest.length + 1 := by simp [snapshot, hh]
    by_cases hid : id ≤ rest.length
    · rw [rollback_undo hh hid, snapshot_rollback]
      change min id rest.length = _
      omega
    · rw [rollback_self (by omega)]
      omega
termination_by s.history.length
decreasing_by
  rw [hh]
  exact Nat.lt_succ_self _

/-- Going back in two steps is going back once. -/
theorem rollback_rollback (s : UnionSetWithRollback n) (hij : i ≤ j) :
    (s.rollback j).rollback i = s.rollback i := by
  cases hh : s.history with
  | nil =>
    have hlen : s.snapshot = 0 := by simp [snapshot, hh]
    rw [rollback_self (s := s) (by omega)]
  | cons change rest =>
    by_cases hj : j ≤ rest.length
    · rw [rollback_undo hh hj, rollback_undo hh (hij.trans hj)]
      exact rollback_rollback _ hij
    · have hlen : s.snapshot = rest.length + 1 := by simp [snapshot, hh]
      rw [rollback_self (s := s) (by omega)]
termination_by s.history.length
decreasing_by
  rw [hh]
  exact Nat.lt_succ_self _

theorem attach_undo (hpos : 0 < s.setCount) :
    (s.attach a b).countDown.undo ⟨a, s.parent a, none⟩ s.history = s := by
  cases s with
  | mk parent rank history setCount =>
    have hcount : setCount - 1 + 1 = setCount := Nat.sub_add_cancel hpos
    simp [undo, attach, countDown, hcount]

theorem rollback_attach (hpos : 0 < s.setCount) (hid : id ≤ s.snapshot) :
    (s.attach a b).countDown.rollback id = s.rollback id := by
  have hback := rollback_undo (s := (s.attach a b).countDown) rfl hid
  rw [hback, attach_undo hpos]

theorem raiseRank_undo (node : Fin n) :
    (s.raiseRank node).countDown.undo ⟨node, s.parent node, some (s.rank node)⟩ s.history =
      s.countDown := by
  simp [undo, raiseRank, countDown]

theorem rollback_raiseRank (node : Fin n) (hid : id ≤ s.snapshot) :
    (s.raiseRank node).countDown.rollback id = s.countDown.rollback id := by
  have hback := rollback_undo (s := (s.raiseRank node).countDown) rfl hid
  rw [hback, raiseRank_undo]

end Undoing

/-- A union that was asked for, and the snapshot of that moment until it is committed. -/
structure Union (n : Nat) where
  x : Fin n
  y : Fin n
  mark : Option Nat

/-- The unions that going back to a snapshot does not undo. -/
def before (id : Nat) (m : List (Union n)) : List (Union n) := m.filter fun u => u.mark.all (· < id)

/-- The unions not undone. -/
def effect (s : UnionSetWithRollback n) (m : List (Union n)) : Op n → List (Union n)
  | .unionSets x y => m ++ [⟨x, y, some s.snapshot⟩]
  | .find _ => m
  | .connected _ _ => m
  | .snapshot => m
  | .rollback id => before id m
  | .commit => m.map fun u => { u with mark := none }
  | .clear => []

def United (m : List (Union n)) (x y : Fin n) : Prop := ∃ mark, ⟨x, y, mark⟩ ∈ m

def track (p : UnionSetWithRollback n × List (Union n)) (op : Op n) :
    Option (UnionSetWithRollback n × List (Union n)) :=
  (p.1.step op).map fun s => (s, effect p.1 p.2 op)

/-- The parents are the classes of the unions, and the roots are counted. -/
structure Good (s : UnionSetWithRollback n) (m : List (Union n)) : Prop where
  forest : Represents s.parent (United m)
  count : s.setCount = (Finset.univ.filter fun x => s.parent x = x).card

/-- This holds of the state and of every state it can go back to. -/
structure Tracks (s : UnionSetWithRollback n) (m : List (Union n)) : Prop where
  good : Good s m
  back (id : Nat) (hid : id ≤ s.snapshot) : Good (s.rollback id) (before id m)
  marks : ∀ u ∈ m, ∀ k, u.mark = some k → k ≤ s.snapshot

variable {m : List (Union n)} {u : Union n} {k : Nat}

section Finding

theorem find_some (h : Root s.parent x a) : s.find x = some a := by
  obtain ⟨l, hp⟩ := h
  refine hp.climb (fun _ _ => rfl) ?_
  have hlen := hp.length_lt (fun y _ => Finset.mem_univ (s.parent y)) (Finset.mem_univ x)
  rwa [Finset.card_univ, Fintype.card_fin] at hlen

theorem Good.find (h : Good s m) (x : Fin n) : ∃ a, s.find x = some a ∧ Root s.parent x a := by
  obtain ⟨a, ha⟩ := h.forest.rooted x
  exact ⟨a, find_some ha, ha⟩

theorem Good.connected (h : Good s m) (x y : Fin n) :
    ∃ b, s.connected x y = some b ∧ (b = true ↔ Relation.EqvGen (United m) x y) := by
  obtain ⟨rx, hx, hrx⟩ := h.find x
  obtain ⟨ry, hy, hry⟩ := h.find y
  refine ⟨rx == ry, by simp [UnionSetWithRollback.connected, hx, hy], ?_⟩
  rw [beq_iff_eq, ← h.forest.linked, linked_iff hrx hry]

theorem good_initial : Good (initial n) [] := by
  refine ⟨represents_id.congr (by simp [United]), ?_⟩
  simp [initial]

end Finding

section Uniting

theorem united_append : United (m ++ [u]) a b ↔ United m a b ∨ a = u.x ∧ b = u.y := by
  simp only [United, List.mem_append, List.mem_singleton, exists_or]
  refine or_congr_right ⟨?_, ?_⟩
  · rintro ⟨mark, rfl⟩
    exact ⟨rfl, rfl⟩
  · rintro ⟨rfl, rfl⟩
    exact ⟨u.mark, rfl⟩

theorem Good.again (h : Good s m) (hx : Root s.parent u.x a) (hy : Root s.parent u.y a) :
    Good s (m ++ [u]) :=
  ⟨(h.forest.again ⟨a, hx, hy⟩).congr fun _ _ => united_append.symm, h.count⟩

/-- One root is attached to the other. -/
theorem Good.attach (h : Good s m) (hx : Root s.parent u.x a) (hy : Root s.parent u.y b)
    (hab : a ≠ b) :
    Good (s.attach a b).countDown (m ++ [u]) ∧ Good (s.attach b a).countDown (m ++ [u]) := by
  refine ⟨⟨(h.forest.link hx hy hab).congr fun _ _ => united_append.symm, ?_⟩,
    ⟨(h.forest.link_back hx hy hab).congr fun _ _ => united_append.symm, ?_⟩⟩
  · exact (congrArg (· - 1) h.count).trans (card_roots_link hx.is_root hab).symm
  · exact (congrArg (· - 1) h.count).trans (card_roots_link hy.is_root hab.symm).symm

theorem Good.setCount_pos (h : Good s m) (ha : s.parent a = a) : 0 < s.setCount := by
  rw [h.count]
  exact Finset.card_pos.mpr ⟨a, by simp [ha]⟩

theorem before_self (h : ∀ u ∈ m, ∀ k, u.mark = some k → k < id) : before id m = m := by
  refine List.filter_eq_self.mpr ?_
  intro u hu
  cases hk : u.mark with
  | none => rfl
  | some k => simpa using h u hu k hk

theorem before_append (hu : u.mark = some k) (hid : id ≤ k) : before id (m ++ [u]) = before id m := by
  have hnot : ¬ k < id := by omega
  simp [before, List.filter_append, hu, hnot]

theorem before_before (hij : i ≤ j) : before i (before j m) = before i m := by
  rw [before, before, List.filter_filter]
  refine List.filter_congr ?_
  intro u _
  cases u.mark with
  | none => rfl
  | some k =>
    simp only [Option.all_some, Bool.and_eq_left_iff_imp, decide_eq_true_eq]
    omega

/-- A union leads to a state from which one can go back as far as before. -/
theorem Tracks.grow (h : Tracks s m) (hu : u.mark = some s.snapshot) (hlen : s.snapshot ≤ t.snapshot)
    (hold : ∀ id ≤ s.snapshot, t.rollback id = s.rollback id)
    (hnew : ∀ id, s.snapshot < id → Good (t.rollback id) (m ++ [u])) (hgood : Good t (m ++ [u])) :
    Tracks t (m ++ [u]) := by
  have hmarks : ∀ v ∈ m ++ [u], ∀ k, v.mark = some k → k ≤ s.snapshot := by
    intro v hv k hk
    rcases List.mem_append.mp hv with hv | hv
    · exact h.marks v hv k hk
    · rw [List.mem_singleton.mp hv, hu, Option.some.injEq] at hk
      exact hk.ge
  refine ⟨hgood, ?_, fun v hv k hk => (hmarks v hv k hk).trans hlen⟩
  intro id _
  by_cases hid : id ≤ s.snapshot
  · rw [hold id hid, before_append hu hid]
    exact h.back id hid
  · rw [before_self fun v hv k hk => (hmarks v hv k hk).trans_lt (by omega)]
    exact hnew id (by omega)

theorem Tracks.attach (h : Tracks s m) (hu : u.mark = some s.snapshot) (ha : s.parent a = a)
    (hgood : Good (s.attach a b).countDown (m ++ [u])) :
    Tracks (s.attach a b).countDown (m ++ [u]) := by
  have hpos := h.good.setCount_pos ha
  refine h.grow hu (Nat.le_succ _) (fun id => rollback_attach hpos) ?_ hgood
  intro id hid
  rw [rollback_self (show s.snapshot + 1 ≤ id from hid)]
  exact hgood

theorem Tracks.attach_raise (h : Tracks s m) (hu : u.mark = some s.snapshot) (ha : s.parent a = a)
    (node : Fin n) (hgood : Good (s.attach a b).countDown (m ++ [u])) :
    Tracks ((s.attach a b).raiseRank node).countDown (m ++ [u]) := by
  have hpos := h.good.setCount_pos ha
  have hsame : ∀ id ≤ s.snapshot + 1, ((s.attach a b).raiseRank node).countDown.rollback id =
      (s.attach a b).countDown.rollback id := fun id hid => rollback_raiseRank node hid
  have hraised : Good ((s.attach a b).raiseRank node).countDown (m ++ [u]) :=
    ⟨hgood.forest, hgood.count⟩
  refine h.grow hu (show s.snapshot ≤ s.snapshot + 2 by omega) ?_ ?_ hraised
  · intro id hid
    rw [hsame id (by omega), rollback_attach hpos hid]
  · intro id hid
    by_cases hmid : id ≤ s.snapshot + 1
    · rw [hsame id hmid, rollback_self (show s.snapshot + 1 ≤ id from hid)]
      exact hgood
    · rw [rollback_self (show s.snapshot + 2 ≤ id by omega)]
      exact hraised

theorem Tracks.unionSets (h : Tracks s m) (x y : Fin n) :
    ∃ t r, s.unionSets x y = some (t, r) ∧ Tracks t (m ++ [⟨x, y, some s.snapshot⟩]) ∧
      s.snapshot ≤ t.snapshot ∧ ∀ id ≤ s.snapshot, t.rollback id = s.rollback id := by
  obtain ⟨rx, hx, hrx⟩ := h.good.find x
  obtain ⟨ry, hy, hry⟩ := h.good.find y
  by_cases hsame : rx = ry
  · subst hsame
    refine ⟨s, false, by simp [UnionSetWithRollback.unionSets, hx, hy], ?_, le_refl _,
      fun _ _ => rfl⟩
    have hagain : Good s (m ++ [⟨x, y, some s.snapshot⟩]) := h.good.again hrx hry
    refine h.grow rfl (le_refl _) (fun _ _ => rfl) ?_ hagain
    intro id hid
    rw [rollback_self hid.le]
    exact hagain
  · have hpos := h.good.setCount_pos hrx.is_root
    obtain ⟨hunder, hover⟩ := h.good.attach (u := ⟨x, y, some s.snapshot⟩) hrx hry hsame
    by_cases hless : s.rank rx < s.rank ry
    · exact ⟨_, true, by simp [UnionSetWithRollback.unionSets, hx, hy, hsame, hless],
        h.attach rfl hrx.is_root hunder, Nat.le_succ _, fun id => rollback_attach hpos⟩
    · by_cases hmore : s.rank ry < s.rank rx
      · exact ⟨_, true, by simp [UnionSetWithRollback.unionSets, hx, hy, hsame, hless, hmore],
          h.attach rfl hry.is_root hover, Nat.le_succ _, fun id => rollback_attach hpos⟩
      · refine ⟨_, true, by simp [UnionSetWithRollback.unionSets, hx, hy, hsame, hless, hmore],
          h.attach_raise rfl hry.is_root rx hover, show s.snapshot ≤ s.snapshot + 2 by omega, ?_⟩
        intro id hid
        have hraise := rollback_raiseRank (s := s.attach ry rx) rx
          (show id ≤ s.snapshot + 1 by omega)
        rw [hraise, rollback_attach hpos hid]

end Uniting

section Steps

theorem united_commit :
    United (m.map fun u => { u with mark := none }) a b ↔ United m a b := by
  simp only [United, List.mem_map, Union.mk.injEq]
  constructor
  · rintro ⟨_, u, hu, rfl, rfl, _⟩
    exact ⟨u.mark, hu⟩
  · rintro ⟨mark, hu⟩
    exact ⟨none, _, hu, rfl, rfl, rfl⟩

theorem Tracks.rollback (h : Tracks s m) (id : Nat) : Tracks (s.rollback id) (before id m) := by
  by_cases hid : id ≤ s.snapshot
  · have hlen : (s.rollback id).snapshot = id := by rw [snapshot_rollback, Nat.min_eq_left hid]
    refine ⟨h.back id hid, ?_, ?_⟩
    · intro j hj
      rw [hlen] at hj
      rw [rollback_rollback s hj, before_before hj]
      exact h.back j (hj.trans hid)
    · intro u hu k hk
      have hlt : k < id := by simpa [hk] using (List.mem_filter.mp hu).2
      rw [hlen]
      exact hlt.le
  · rw [rollback_self (by omega), before_self fun u hu k hk => (h.marks u hu k hk).trans_lt (by omega)]
    exact h

theorem Tracks.commit (h : Tracks s m) :
    Tracks s.commit (m.map fun u => { u with mark := none }) := by
  have hgood : Good s.commit (m.map fun u => { u with mark := none }) :=
    ⟨h.good.forest.congr fun _ _ => united_commit.symm, h.good.count⟩
  have hmarks : ∀ u ∈ m.map fun u => { u with mark := none }, u.mark = none := by simp
  refine ⟨hgood, ?_, ?_⟩
  · intro id hid
    rw [before_self fun u hu k hk => by simp [hmarks u hu] at hk]
    exact hgood
  · intro u hu k hk
    simp [hmarks u hu] at hk

theorem tracks_initial : Tracks (initial n) [] :=
  ⟨good_initial, fun _ _ => good_initial, by simp⟩

theorem Tracks.step (h : Tracks s m) (op : Op n) :
    ∃ t, s.step op = some t ∧ Tracks t (effect s m op) := by
  cases op with
  | unionSets x y =>
    obtain ⟨t, r, hunion, ht, _⟩ := h.unionSets x y
    exact ⟨t, by simp [UnionSetWithRollback.step, hunion], ht⟩
  | find x =>
    obtain ⟨a, ha, _⟩ := h.good.find x
    exact ⟨s, by simp [UnionSetWithRollback.step, ha], h⟩
  | connected x y =>
    obtain ⟨b, hb, _⟩ := h.good.connected x y
    exact ⟨s, by simp [UnionSetWithRollback.step, hb], h⟩
  | snapshot => exact ⟨s, rfl, h⟩
  | rollback id => exact ⟨_, rfl, h.rollback id⟩
  | commit => exact ⟨_, rfl, h.commit⟩
  | clear => exact ⟨_, rfl, tracks_initial⟩

theorem Tracks.run (h : Tracks s m) (ops : List (Op n)) :
    ∃ t m', ops.foldlM track (s, m) = some (t, m') ∧ Tracks t m' := by
  induction ops generalizing s m with
  | nil => exact ⟨s, m, rfl, h⟩
  | cons op ops ih =>
    obtain ⟨s₁, hstep, h₁⟩ := h.step op
    obtain ⟨t, m', hrun, ht⟩ := ih h₁
    exact ⟨t, m', by simpa [track, hstep] using hrun, ht⟩

/-- The operation leaves what is recorded up to a snapshot. -/
def Op.Keeps (id : Nat) : Op n → Prop
  | .rollback j => id ≤ j
  | .commit => False
  | .clear => False
  | _ => True

/-- Such an operation leads to a state from which one goes back to the same state. -/
theorem Tracks.keeps (h : Tracks s m) {op : Op n} (hop : op.Keeps id) (hid : id ≤ s.snapshot) :
    ∃ t, s.step op = some t ∧ Tracks t (effect s m op) ∧ id ≤ t.snapshot ∧
      t.rollback id = s.rollback id := by
  cases op with
  | unionSets x y =>
    obtain ⟨t, r, hunion, ht, hlen, hback⟩ := h.unionSets x y
    exact ⟨t, by simp [UnionSetWithRollback.step, hunion], ht, hid.trans hlen, hback id hid⟩
  | find x =>
    obtain ⟨a, ha, _⟩ := h.good.find x
    exact ⟨s, by simp [UnionSetWithRollback.step, ha], h, hid, rfl⟩
  | connected x y =>
    obtain ⟨b, hb, _⟩ := h.good.connected x y
    exact ⟨s, by simp [UnionSetWithRollback.step, hb], h, hid, rfl⟩
  | snapshot => exact ⟨s, rfl, h, hid, rfl⟩
  | rollback j =>
    refine ⟨_, rfl, h.rollback j, ?_, rollback_rollback s hop⟩
    rw [snapshot_rollback]
    exact le_min hop hid
  | commit => exact hop.elim
  | clear => exact hop.elim

theorem Tracks.run_keeps (h : Tracks s m) {later : List (Op n)}
    (hkeeps : ∀ op ∈ later, op.Keeps id) (hid : id ≤ s.snapshot) :
    ∃ t, later.foldlM UnionSetWithRollback.step s = some t ∧ t.rollback id = s.rollback id := by
  induction later generalizing s m with
  | nil => exact ⟨s, rfl, rfl⟩
  | cons op later ih =>
    obtain ⟨s₁, hstep, h₁, hid₁, hback₁⟩ := h.keeps (hkeeps op List.mem_cons_self) hid
    obtain ⟨t, hrun, hback⟩ := ih h₁ (fun o ho => hkeeps o (List.mem_cons_of_mem op ho)) hid₁
    exact ⟨t, by simpa [hstep] using hrun, hback.trans hback₁⟩

end Steps

/-- A snapshot of a reachable state brings the whole state back. `find` ends, `connected` is
the closure of the unions not undone, and the roots are counted. -/
theorem rollback_restores {maxIndex : Nat} {s₀ : UnionSetWithRollback n}
    (hs₀ : create maxIndex n = .ok s₀) (ops : List (Op n)) :
    ∃ s m, ops.foldlM track (s₀, []) = some (s, m) ∧
      (∀ later : List (Op n), (∀ op ∈ later, op.Keeps s.snapshot) →
        ∃ t, later.foldlM UnionSetWithRollback.step s = some t ∧ t.rollback s.snapshot = s) ∧
      (∀ x, ∃ r, s.find x = some r ∧ s.parent r = r) ∧
      (∀ x y, ∃ b, s.connected x y = some b ∧ (b = true ↔ Relation.EqvGen (United m) x y)) ∧
      s.setCount = (Finset.univ.filter fun x => s.parent x = x).card := by
  have hinitial : s₀ = initial n := by
    unfold create at hs₀
    split at hs₀
    · cases hs₀
    · split at hs₀
      · cases hs₀
      · exact (Except.ok.inj hs₀).symm
  subst hinitial
  obtain ⟨s, m, hrun, h⟩ := tracks_initial.run ops
  refine ⟨s, m, hrun, ?_, ?_, h.good.connected, h.good.count⟩
  · intro later hkeeps
    obtain ⟨t, hlater, hback⟩ := h.run_keeps hkeeps (le_refl s.snapshot)
    exact ⟨t, hlater, hback.trans (rollback_self (le_refl _))⟩
  · intro x
    obtain ⟨r, hfind, hroot⟩ := h.good.find x
    exact ⟨r, hfind, hroot.is_root⟩

theorem rollback_restores_three :
    ∃ s m, [Op.unionSets 0 1, .snapshot, .unionSets 1 2, .rollback 1].foldlM track
        ((initial 3, []) : UnionSetWithRollback 3 × List (Union 3)) = some (s, m) ∧
      ∀ later : List (Op 3), (∀ op ∈ later, op.Keeps s.snapshot) →
        ∃ t, later.foldlM UnionSetWithRollback.step s = some t ∧ t.rollback s.snapshot = s := by
  have hcreate : create 255 3 = .ok (initial 3) := rfl
  obtain ⟨s, m, hrun, hback, _⟩ := rollback_restores hcreate
    [Op.unionSets 0 1, .snapshot, .unionSets 1 2, .rollback 1]
  exact ⟨s, m, hrun, hback⟩

end Cppforge.UnionFind.UnionSetWithRollback
