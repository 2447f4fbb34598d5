import Cppforge.Cache.Proofs.Coherence

namespace Cppforge.Cache.MultiLevelCache
open Recency

variable {K V S : Type} [DecidableEq K] {capacity : Nat} {c : MultiLevelCache K V S}
  {backend : IL2CacheBackend K V S} {store : S} {Stores : S → (K → Option V) → Prop}
  {m : K → Option V} {items : List (K × V)} {key k : K} {value w : V} {op : Op K V}

/-- The calls that put, remove or clear a key. -/
def Writes (key : K) : Op K V → Prop
  | .get _ => False
  | .put k _ => k = key
  | .remove k => k = key
  | .clear => True

/-- Whatever calls follow that do not write the key, getting it gives the value or nothing. -/
def Served (c : MultiLevelCache K V S) (key : K) (value : V) : Prop :=
  ∀ more : List (Op K V), (∀ op ∈ more, ¬ Writes key op) →
    ∃ c' c'' found, more.foldlM step c = some c' ∧ c'.get key = some (c'', found) ∧
      (found = none ∨ found = some value)

/-- The second level takes the value, or has no other for the key. -/
def Clean (c : MultiLevelCache K V S) (key : K) (value : V) : Prop :=
  match c.l2Backend with
  | none => True
  | some (backend, store) =>
    (backend.put store key value).2 = true ∨ (backend.get store key).2 = none ∨
      (backend.get store key).2 = some value

/-- There are no more keys than the first level takes. -/
def Fits (K : Type) (capacity : Nat) : Prop := ∀ keys : List K, keys.Nodup → keys.length ≤ capacity

section Items

theorem lookup_put_self (capacity : Nat) (items : List (K × V)) (key : K) (value : V) :
    (apply capacity items (.put key value)).1.lookup key = some value := by
  cases hl : items.lookup key <;> simp [apply, hl]

theorem lookup_put_ne (hne : k ≠ key)
    (h : (apply capacity items (.put key value)).1.lookup k = some w) :
    items.lookup k = some w := by
  have hpart : Part items fun k => items.lookup k := fun _ _ hk => hk
  have hk := hpart.put capacity key value k w h
  rw [Function.update_of_ne hne] at hk
  exact hk

/-- What the first level has for a key came from one of the two levels. -/
theorem lookup_promoted (h : (promoted capacity items m key).lookup k = some w) :
    items.lookup k = some w ∨ m k = some w := by
  have hpart : Part items fun k => items.lookup k := fun _ _ hk => hk
  have hgot := hpart.get capacity key
  unfold promoted at h
  split at h
  · rename_i value hnone hm
    by_cases hk : k = key
    · subst hk
      rw [lookup_put_self] at h
      exact .inr (hm.trans h)
    · exact .inl (lookup_put_ne hk h)
  · exact .inl (hgot k w h)

theorem Levels.nodup (h : Levels Stores backend capacity c items m) :
    (items.map Prod.fst).Nodup := by
  have hkeys := h.first.indexed.keys
  rw [← h.first.pairs, List.map_map]
  exact hkeys

/-- No key has to go where all keys fit. -/
theorem lookup_put_fits (hfits : Fits K capacity) (hnodup : (items.map Prod.fst).Nodup)
    (hne : k ≠ key) (h : items.lookup k = some w) :
    (apply capacity items (.put key value)).1.lookup k = some w := by
  cases hl : items.lookup key with
  | some v => simpa [apply, hl, List.lookup_cons, beq_false_of_ne hne, lookup_drop, hne] using h
  | none =>
    have hnew : key ∉ items.map Prod.fst := by
      intro hmem
      obtain ⟨i, hi, heq⟩ := List.mem_map.mp hmem
      exact ne_of_lookup hl hi heq
    have hroom := hfits (key :: items.map Prod.fst) (List.nodup_cons.mpr ⟨hnew, hnodup⟩)
    rw [List.length_cons, List.length_map] at hroom
    simpa [apply, hl, show items.length < capacity by omega, List.lookup_cons,
      beq_false_of_ne hne] using h

theorem lookup_promoted_fits (hfits : Fits K capacity) (hnodup : (items.map Prod.fst).Nodup)
    (h : items.lookup k = some w) : (promoted capacity items m key).lookup k = some w := by
  unfold promoted
  split
  · rename_i value hnone hm
    have hne : k ≠ key := by
      intro heq
      rw [heq, hnone] at h
      cases h
    exact lookup_put_fits hfits hnodup hne h
  · cases hl : items.lookup key with
    | none => simpa [apply, hl] using h
    | some v =>
      by_cases hk : k = key
      · subst hk
        rw [hl] at h
        simpa [apply, hl] using h
      · simpa [apply, hl, List.lookup_cons, beq_false_of_ne hk, lookup_drop, hk] using h

/-- A key put comes before those put last. -/
theorem put_prefix {front : List K} (hfront : front <+: items.map Prod.fst) (hnew : key ∉ front)
    (hlen : front.length < capacity) (value : V) :
    key :: front <+: ((apply capacity items (.put key value)).1).map Prod.fst := by
  cases hl : items.lookup key with
  | some v =>
    have hself : front.filter (fun k => decide (k ≠ key)) = front := by
      apply List.filter_eq_self.mpr
      intro k hk
      apply decide_eq_true
      rintro rfl
      exact hnew hk
    have hkept := hfront.filter fun k => decide (k ≠ key)
    rw [hself, List.filter_map] at hkept
    simp only [apply, hl, List.map_cons]
    exact List.cons_prefix_cons.mpr ⟨rfl, hkept⟩
  | none =>
    simp only [apply, hl, List.map_cons]
    refine List.cons_prefix_cons.mpr ⟨rfl, ?_⟩
    split
    · exact hfront
    · rename_i hfull
      rw [List.map_dropLast, List.dropLast_eq_take, List.prefix_take_iff, List.length_map]
      exact ⟨hfront, by omega⟩

end Items

section Runs

/-- What a call leaves of the value of a key that it does not write. -/
structure Leaves (capacity : Nat) (key : K) (items : List (K × V)) (m : K → Option V)
    (items' : List (K × V)) (m' : K → Option V) : Prop where
  second : m' key = m key
  first : ∀ w, items'.lookup key = some w → items.lookup key = some w ∨ m key = some w
  fits : Fits K capacity → ∀ w, items.lookup key = some w → items'.lookup key = some w

theorem Levels.call (hpos : 1 ≤ capacity) (hfaulty : Faulty backend Stores)
    (h : Levels Stores backend capacity c items m) (op : Op K V) :
    ∃ c' items' m', step c op = some c' ∧ Levels Stores backend capacity c' items' m' ∧
      ∀ key, ¬ Writes key op → Leaves capacity key items m items' m' := by
  cases op with
  | get k =>
    obtain ⟨c', hget, hc'⟩ := h.get hpos hfaulty k
    refine ⟨c', _, m, by simp [MultiLevelCache.step, hget], hc', ?_⟩
    intro key _
    exact ⟨rfl, fun w => lookup_promoted, fun hfits w => lookup_promoted_fits hfits h.nodup⟩
  | put k v =>
    obtain ⟨c', store, _, _, hput, hc'⟩ := h.put hpos hfaulty k v
    refine ⟨c', _, _, by simp [MultiLevelCache.step, hput], hc', ?_⟩
    intro key hnot
    have hne : key ≠ k := fun heq => hnot heq.symm
    exact ⟨written_ne hne, fun w hw => .inl (lookup_put_ne hne hw),
      fun hfits w => lookup_put_fits hfits h.nodup hne⟩
  | remove k =>
    obtain ⟨c', removed, hremove, hc'⟩ := h.remove hfaulty k
    refine ⟨c', _, _, by simp [MultiLevelCache.step, hremove], hc', ?_⟩
    intro key hnot
    have hne : key ≠ k := fun heq => hnot heq.symm
    have hlookup : (drop k items).lookup key = items.lookup key := by rw [lookup_drop, if_neg hne]
    exact ⟨Function.update_of_ne hne _ _, fun w hw => .inl (hlookup ▸ hw),
      fun _ w hw => hlookup ▸ hw⟩
  | clear => exact ⟨c.clear, _, _, rfl, h.clear hfaulty, fun key hnot => absurd trivial hnot⟩

/-- What holds of the levels after a call that does not write the key, if it did before, holds
after any such calls. -/
theorem Levels.run (hpos : 1 ≤ capacity) (hfaulty : Faulty backend Stores)
    {P : List (K × V) → (K → Option V) → Prop}
    (hkeeps : ∀ items m items' m', Leaves capacity key items m items' m' → P items m → P items' m')
    (h : Levels Stores backend capacity c items m) (hP : P items m) {more : List (Op K V)}
    (hmore : ∀ op ∈ more, ¬ Writes key op) :
    ∃ c' items' m', more.foldlM MultiLevelCache.step c = some c' ∧
      Levels Stores backend capacity c' items' m' ∧ P items' m' := by
  have hstep : ∀ (c : MultiLevelCache K V S) op,
      (∃ items m, Levels Stores backend capacity c items m ∧ P items m) → ¬ Writes key op →
      ∃ c', step c op = some c' ∧
        ∃ items m, Levels Stores backend capacity c' items m ∧ P items m := by
    intro c op hc hnot
    obtain ⟨items, m, hc, hP⟩ := hc
    obtain ⟨c', items', m', hstep, hc', hleaves⟩ := hc.call hpos hfaulty op
    exact ⟨c', hstep, items', m', hc', hkeeps _ _ _ _ (hleaves key hnot) hP⟩
  have hok : Run.Along step (fun _ op => ¬ Writes key op) c more :=
    Run.along_of_mem (fun op hop _ => hmore op hop) c
  obtain ⟨c', hrun, items', m', hc', hP'⟩ := hok.keeps hstep ⟨items, m, h, hP⟩
  exact ⟨c', items', m', hrun, hc', hP'⟩

/-- Other keys put until the first level has no room for more. -/
theorem Levels.fill (hpos : 1 ≤ capacity) (hfaulty : Faulty backend Stores) (value : V) :
    ∀ (others front : List K) {c : MultiLevelCache K V S} {items : List (K × V)}
      {m : K → Option V}, Levels Stores backend capacity c items m → others.Nodup →
      (∀ k ∈ others, k ∉ front) → front <+: items.map Prod.fst →
      front.length + others.length ≤ capacity → key ∉ others →
      ∃ c' items' m', (others.map fun k => Op.put k value).foldlM MultiLevelCache.step c = some c' ∧
        Levels Stores backend capacity c' items' m' ∧ m' key = m key ∧
        others.reverse ++ front <+: items'.map Prod.fst
  | [], front, c, items, m, h, _, _, hfront, _, _ => ⟨c, items, m, rfl, h, rfl, hfront⟩
  | k :: others, front, c, items, m, h, hnodup, hnot, hfront, hlen, hkey => by
    rw [List.nodup_cons] at hnodup
    rw [List.length_cons] at hlen
    rw [List.mem_cons, not_or] at hkey
    obtain ⟨c₁, store, _, _, hput, h₁⟩ := h.put hpos hfaulty k value
    have hroom : front.length < capacity := by omega
    have hfront₁ := put_prefix hfront (hnot k List.mem_cons_self) hroom value
    have hnot₁ : ∀ j ∈ others, j ∉ k :: front := by
      intro j hj hmem
      rcases List.mem_cons.mp hmem with rfl | hmem
      · exact hnodup.1 hj
      · exact hnot j (List.mem_cons_of_mem _ hj) hmem
    have hlen₁ : (k :: front).length + others.length ≤ capacity := by
      rw [List.length_cons]
      omega
    obtain ⟨c', items', m', hrun, h', hm', hprefix⟩ := Levels.fill hpos hfaulty value others
      (k :: front) h₁ hnodup.2 hnot₁ hfront₁ hlen₁ hkey.2
    refine ⟨c', items', m', ?_, h', hm'.trans (written_ne hkey.1), ?_⟩
    · rw [List.map_cons, List.foldlM_cons, MultiLevelCache.step, hput, Option.map_some]
      exact hrun
    · rw [List.reverse_cons, List.append_assoc, List.singleton_append]
      exact hprefix

/-- Where the second level kept an older value, the key comes back with it once the others have
pushed it out of the first. -/
theorem Levels.stale (hpos : 1 ≤ capacity) (hfaulty : Faulty backend Stores)
    (h : Levels Stores backend capacity c items m) (hkeys : ¬ Fits K capacity)
    (hm : m key = some w) (value : V) :
    ∃ more : List (Op K V), (∀ op ∈ more, ¬ Writes key op) ∧
      ∃ c' c'', more.foldlM MultiLevelCache.step c = some c' ∧ c'.get key = some (c'', some w) := by
  unfold Fits at hkeys
  push Not at hkeys
  obtain ⟨keys, hnodup, hlen⟩ := hkeys
  have hothers : capacity ≤ (keys.erase key).length := by
    have herase := List.le_length_erase (a := key) (l := keys)
    omega
  have hkey : key ∉ (keys.erase key).take capacity := fun hmem =>
    hnodup.not_mem_erase (List.mem_of_mem_take hmem)
  have hlength : ((keys.erase key).take capacity).length = capacity := by
    rw [List.length_take]
    omega
  obtain ⟨c', items', m', hrun, h', hm', hprefix⟩ := Levels.fill hpos hfaulty value
    ((keys.erase key).take capacity) [] h ((hnodup.erase key).sublist (List.take_sublist _ _))
    (fun _ _ => List.not_mem_nil) List.nil_prefix
    (by rw [hlength]; exact Nat.le_of_eq (Nat.zero_add _))
    hkey
  refine ⟨((keys.erase key).take capacity).map fun k => .put k value, ?_, c', ?_⟩
  · intro op hop
    obtain ⟨k, hk, rfl⟩ := List.mem_map.mp hop
    intro heq
    exact hkey (heq ▸ hk)
  · -- The others fill the first level, so the key is not there.
    have hall : ((keys.erase key).take capacity).reverse = items'.map Prod.fst := by
      rw [List.append_nil] at hprefix
      apply hprefix.eq_of_length_le
      rw [List.length_reverse, List.length_map, hlength]
      exact h'.first.room
    have habsent : items'.lookup key = none := by
      apply lookup_absent
      rw [← hall, List.mem_reverse]
      exact hkey
    obtain ⟨c'', hget, _⟩ := h'.get hpos hfaulty key
    rw [habsent, hm', hm] at hget
    exact ⟨c'', hrun, hget⟩

/-- A key that the levels hold with no other value. -/
theorem Levels.served (hpos : 1 ≤ capacity) (hfaulty : Faulty backend Stores)
    (h : Levels Stores backend capacity c items m)
    (hitems : ∀ w, items.lookup key = some w → w = value) (hm : ∀ w, m key = some w → w = value) :
    Served c key value := by
  intro more hmore
  have hkeeps : ∀ items m items' m', Leaves capacity key items m items' m' →
      (∀ w, items.lookup key = some w ∨ m key = some w → w = value) →
      ∀ w, items'.lookup key = some w ∨ m' key = some w → w = value := by
    intro items m items' m' hleaves hP w hw
    rw [hleaves.second] at hw
    rcases hw with hw | hw
    · exact hP w (hleaves.first w hw)
    · exact hP w (.inr hw)
  obtain ⟨c', items', m', hrun, h', hP'⟩ := h.run hpos hfaulty hkeeps
    (fun w hw => hw.elim (hitems w) (hm w)) hmore
  obtain ⟨c'', hget, _⟩ := h'.get hpos hfaulty key
  refine ⟨c', c'', _, hrun, hget, ?_⟩
  cases hl : items'.lookup key with
  | some w => exact .inr (congrArg some (hP' w (.inl hl)))
  | none =>
    cases hk : m' key with
    | none => exact .inl rfl
    | some w => exact .inr (congrArg some (hP' w (.inr hk)))

/-- A key that stays in the first level. -/
theorem Levels.served_fits (hpos : 1 ≤ capacity) (hfaulty : Faulty backend Stores)
    (h : Levels Stores backend capacity c items m) (hfits : Fits K capacity)
    (hitems : items.lookup key = some value) : Served c key value := by
  intro more hmore
  have hkeeps : ∀ items m items' m', Leaves capacity key items m items' m' →
      items.lookup key = some value → items'.lookup key = some value :=
    fun items m items' m' hleaves => hleaves.fits hfits value
  obtain ⟨c', items', m', hrun, h', hitems'⟩ := h.run hpos hfaulty hkeeps hitems hmore
  obtain ⟨c'', hget, _⟩ := h'.get hpos hfaulty key
  rw [hitems'] at hget
  exact ⟨c', c'', _, hrun, hget, .inr rfl⟩

end Runs

/-- After any calls, a put that reports success is the last word on its key exactly where the
second level takes the value or has no other, or no key ever has to leave the first. -/
theorem put_served_iff (hpos : 1 ≤ capacity) (hfaulty : Faulty backend Stores)
    (hstore : Stores store m) :
    ∃ c, create capacity (some (backend, store)) = .ok c ∧
      ∀ (ops : List (Op K V)) (key : K) (value : V), ∃ c₁ c₂, ops.foldlM step c = some c₁ ∧
        c₁.put key value = some (c₂, true) ∧
        (Served c₂ key value ↔ Clean c₁ key value ∨ Fits K capacity) := by
  obtain ⟨c, hcreate, hc⟩ := create_levels backend hpos hstore
  refine ⟨c, hcreate, ?_⟩
  intro ops key value
  have hcalls : ∀ (c : MultiLevelCache K V S) op,
      (∃ items m, Levels Stores backend capacity c items m) →
      ∃ c', step c op = some c' ∧ ∃ items m, Levels Stores backend capacity c' items m := by
    intro c op hc
    obtain ⟨items, m, hc⟩ := hc
    obtain ⟨c', items', m', hstep, hc', _⟩ := hc.call hpos hfaulty op
    exact ⟨c', hstep, items', m', hc'⟩
  obtain ⟨c₁, hrun, items₁, m₁, h₁⟩ := Run.keeps hcalls ops ⟨[], m, hc⟩
  obtain ⟨c₂, store₁, hl2, hstore₁, hput, h₂⟩ := h₁.put hpos hfaulty key value
  refine ⟨c₁, c₂, hrun, hput, ?_⟩
  have hself := lookup_put_self capacity items₁ key value
  have hvalue := (hfaulty.get store₁ m₁ key hstore₁).2
  simp only [Clean, hl2, hvalue]
  constructor
  · intro hserved
    by_contra hnot
    push Not at hnot
    obtain ⟨⟨hfails, hsome, hother⟩, hkeys⟩ := hnot
    obtain ⟨w, hw⟩ := Option.ne_none_iff_exists'.mp hsome
    have hold : written backend store₁ m₁ key value key = some w := by
      rw [written, if_neg hfails, hw]
    obtain ⟨more, hmore, c', c'', hrun', hget⟩ := h₂.stale hpos hfaulty hkeys hold value
    obtain ⟨c₃, c₄, found, hrun₃, hget₃, hfound⟩ := hserved more hmore
    rw [hrun', Option.some.injEq] at hrun₃
    rw [← hrun₃, hget, Option.some.injEq, Prod.mk.injEq] at hget₃
    rw [← hget₃.2, ← hw] at hfound
    exact hfound.elim hsome hother
  · intro hclean
    rcases hclean with hclean | hfits
    · have hitems : ∀ w, (apply capacity items₁ (.put key value)).1.lookup key = some w →
          w = value := by
        intro w hw
        rw [hself, Option.some.injEq] at hw
        exact hw.symm
      refine h₂.served hpos hfaulty hitems ?_
      intro w hw
      unfold written at hw
      split at hw
      · rw [Function.update_self, Option.some.injEq] at hw
        exact hw.symm
      · rename_i hfails
        rcases hclean with hok | hnone | hsame
        · exact absurd hok hfails
        · rw [hnone] at hw
          cases hw
        · rw [hsame, Option.some.injEq] at hw
          exact hw.symm
    · exact h₂.served_fits hpos hfaulty hfits hself

/-- A map as the second level, where `fails` tells which of the puts do. -/
def failingBackend (fails : Nat → Bool) : IL2CacheBackend K V ((K → Option V) × Nat) where
  get s key := (s, s.1 key)
  put s key value :=
    if fails s.2 then ((s.1, s.2 + 1), false)
    else ((Function.update s.1 key (some value), s.2 + 1), true)
  remove s key := ((Function.update s.1 key none, s.2), (s.1 key).isSome)
  clear s := (fun _ => none, s.2)

theorem failingBackend_faulty (fails : Nat → Bool) :
    Faulty (failingBackend fails : IL2CacheBackend K V _) fun s m => s.1 = m := by
  constructor
  · rintro s _ key rfl
    exact ⟨rfl, rfl⟩
  · rintro s _ key value rfl
    cases hfails : fails s.2 <;> simp [failingBackend, hfails]
  · rintro s _ key rfl
    rfl
  · rintro s _ rfl
    rfl

/-- The second write of a key fails, and the key leaves a first level of one entry. -/
theorem failed_put_served : ∃ c c₁ c₂ : MultiLevelCache Nat Nat _,
    create 1 (some (failingBackend fun n => n == 1, fun _ => none, 0)) = .ok c ∧
    [.put 1 5].foldlM step c = some c₁ ∧ c₁.put 1 6 = some (c₂, true) ∧
    ([.put 2 7].foldlM step c₂).map (fun c' => (c'.get 1).map Prod.snd) = some (some (some 5)) :=
  ⟨_, _, _, rfl, rfl, rfl, rfl⟩

/-- The same calls with writes that all succeed. -/
theorem put_served_iff_reliable : ∃ c c₁ c₂ : MultiLevelCache Nat Nat _,
    create 1 (some (failingBackend fun _ => false, fun _ => none, 0)) = .ok c ∧
    [.put 1 5].foldlM step c = some c₁ ∧ c₁.put 1 6 = some (c₂, true) ∧
    (Served c₂ 1 6 ↔ Clean c₁ 1 6 ∨ Fits Nat 1) := by
  obtain ⟨c, hcreate, hputs⟩ := put_served_iff (K := Nat) (V := Nat) (Nat.le_refl 1)
    (failingBackend_faulty fun _ => false) rfl
  obtain ⟨c₁, c₂, hrun, hput, hiff⟩ := hputs [.put 1 5] 1 6
  exact ⟨c, c₁, c₂, hcreate, hrun, hput, hiff⟩

end Cppforge.Cache.MultiLevelCache
