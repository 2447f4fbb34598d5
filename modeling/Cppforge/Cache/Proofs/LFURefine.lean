import Cppforge.Cache.Caches

namespace Cppforge.Cache.LFUCache
variable {K V : Type} {c c' : LFUCache K V} {items : Recency K V} {i : Node K V}
  {it : Nat}

section Relation

/-- The least frequency of the entries, 0 if there are none. -/
def Least (items : Recency K V) (m : Nat) : Prop :=
  (items = [] ∧ m = 0) ∨ ((∃ j ∈ items, j.freq = m) ∧ ∀ j ∈ items, m ≤ j.freq)

/-- The frequency lists hold the entries, each list in order of recency. -/
structure Lists (c : LFUCache K V) (items : Recency K V) : Prop where
  nodes : ∀ f, (c.freqList f).map c.nodes = (items.filter (fun i => i.freq = f)).map some
  nonempty : ∀ f, c.freqListMap.lookup f ≠ some []
  below : ∀ f, ∀ a ∈ c.freqList f, a < c.fresh
  unique : (items.map Node.key).Nodup
  positive : ∀ i ∈ items, 0 < i.freq

/-- `key_map_` leads to the nodes of the frequency lists, by their keys. -/
def Keys [DecidableEq K] (c : LFUCache K V) : Prop :=
  ∀ k a, c.keyMap.lookup k = some a ↔
    ∃ i, c.nodes a = some i ∧ i.key = k ∧ a ∈ c.freqList i.freq

structure Refines [DecidableEq K] (c : LFUCache K V) (items : Recency K V) : Prop
    extends Lists c items where
  keys : Keys c
  least : Least items c.minFreq
  room : items.length ≤ c.capacity

theorem Lists.at_node (h : Lists c items) {f : Nat} (ha : it ∈ c.freqList f) :
    ∃ i ∈ items, i.freq = f ∧ c.nodes it = some i := by
  have hmem : c.nodes it ∈ (c.freqList f).map c.nodes := List.mem_map_of_mem ha
  rw [h.nodes] at hmem
  obtain ⟨i, hi, he⟩ := List.mem_map.mp hmem
  obtain ⟨hi, hf⟩ := List.mem_filter.mp hi
  exact ⟨i, hi, by simpa using hf, he.symm⟩

theorem Lists.of_item (h : Lists c items) (hi : i ∈ items) :
    ∃ a ∈ c.freqList i.freq, c.nodes a = some i := by
  have hmem : some i ∈ (c.freqList i.freq).map c.nodes := by
    rw [h.nodes]
    exact List.mem_map_of_mem (List.mem_filter.mpr ⟨hi, by simp⟩)
  exact List.mem_map.mp hmem

theorem Lists.nodup (h : Lists c items) (f : Nat) : (c.freqList f).Nodup := by
  have hitems : ((c.freqList f).map c.nodes).Nodup := by
    rw [h.nodes]
    exact (((List.Nodup.of_map _ h.unique).filter _).map fun _ _ he => Option.some.inj he)
  exact List.Nodup.of_map _ hitems

theorem same_key {j : Node K V} (hu : (items.map Node.key).Nodup) (hi : i ∈ items)
    (hj : j ∈ items) (hk : i.key = j.key) : i = j :=
  List.inj_on_of_nodup_map hu hi hj hk

variable [DecidableEq K]

theorem keys_iff (h : Lists c items) (hk : Keys c) (k : K) :
    (∃ a, c.keyMap.lookup k = some a) ↔ ∃ i ∈ items, i.key = k := by
  constructor
  · intro ⟨a, ha⟩
    obtain ⟨i, hn, hik, hf⟩ := (hk k a).mp ha
    obtain ⟨j, hj, _, hj'⟩ := h.at_node hf
    rw [hn] at hj'
    cases hj'
    exact ⟨i, hj, hik⟩
  · intro ⟨i, hi, hik⟩
    obtain ⟨a, ha, hn⟩ := h.of_item hi
    exact ⟨a, (hk k a).mpr ⟨i, hn, hik, ha⟩⟩

/-- `size()` counts the entries. -/
theorem size_eq (h : Lists c items) (hk : Keys c) : c.size = items.length := by
  have hperm : c.keyMap.keys.Perm (items.map Node.key) := by
    refine (List.perm_ext_iff_of_nodup c.keyMap.keys_nodup h.unique).mpr ?_
    intro k
    rw [← AList.mem_keys, ← AList.lookup_isSome, Option.isSome_iff_exists, keys_iff h hk,
      List.mem_map]
  rw [size, hperm.length_eq, List.length_map]

theorem Keys.unique (hk : Keys c) {a b : Nat} {i j : Node K V} (ha : c.nodes a = some i)
    (ha' : a ∈ c.freqList i.freq) (hb : c.nodes b = some j) (hb' : b ∈ c.freqList j.freq)
    (he : i.key = j.key) : a = b := by
  have h₁ := (hk i.key a).mpr ⟨i, ha, rfl, ha'⟩
  have h₂ := (hk i.key b).mpr ⟨j, hb, he.symm, hb'⟩
  rw [h₁] at h₂
  exact Option.some.inj h₂

end Relation

section Detach

theorem freqList_insert (m : AList (fun _ : Nat => List Nat)) (f g : Nat) (l : List Nat) :
    ((m.insert f l).lookup g).getD [] = if g = f then l else (m.lookup g).getD [] := by
  by_cases hg : g = f
  · subst hg
    simp
  · rw [AList.lookup_insert_ne hg, if_neg hg]

theorem Lists.not_mem (h : Lists c items) (hn : c.nodes it = some i) {f : Nat} (hf : f ≠ i.freq) :
    it ∉ c.freqList f := by
  intro hmem
  obtain ⟨j, _, hj, hn'⟩ := h.at_node hmem
  rw [hn] at hn'
  cases hn'
  exact hf hj.symm

/-- Taking the node of an entry out of its list, whether or not `key_map_` still leads there. -/
theorem eraseNode_spec (h : Lists c items) (hit : it ∈ c.freqList i.freq)
    (hn : c.nodes it = some i) :
    ∃ c', c.eraseNode i.freq it = some c' ∧
      (∀ f, c'.freqList f = (c.freqList f).erase it) ∧
      c'.nodes = Function.update c.nodes it none ∧
      (∀ f, f ≠ i.freq → c'.freqListMap.lookup f = c.freqListMap.lookup f) ∧
      c'.freqListMap.lookup i.freq = some (c'.freqList i.freq) ∧
      c'.keyMap = c.keyMap ∧ c'.minFreq = c.minFreq ∧ c'.capacity = c.capacity ∧
      c'.fresh = c.fresh := by
  refine ⟨_, if_pos hit, ?_, rfl, ?_, ?_, rfl, rfl, rfl, rfl⟩
  · intro f
    rw [freqList, freqList_insert]
    by_cases hf : f = i.freq
    · rw [if_pos hf, hf]
    · rw [if_neg hf, List.erase_of_not_mem (h.not_mem hn hf)]
      rfl
  · intro f hf
    exact AList.lookup_insert_ne hf
  · simp [freqList]

theorem eraseNode_minFreq {f : Nat} (h : c.eraseNode f it = some c') : c'.minFreq = c.minFreq := by
  unfold eraseNode at h
  split at h
  · cases h
    rfl
  · cases h

theorem map_erase_nodes {l : List Nat} (hd : l.Nodup) :
    (l.erase it).map (Function.update c.nodes it none) = (l.erase it).map c.nodes := by
  refine List.map_congr_left ?_
  intro a ha
  have hne : a ≠ it := ((List.Nodup.mem_erase_iff hd).mp ha).1
  rw [Function.update_of_ne hne]

/-- Every list of the map has entries. -/
theorem Lists.keys_freq (h : Lists c items) (f : Nat) :
    f ∈ c.freqListMap.keys ↔ ∃ j ∈ items, j.freq = f := by
  rw [← AList.mem_keys, ← AList.lookup_isSome]
  constructor
  · intro hsome
    obtain ⟨l, hl⟩ := Option.isSome_iff_exists.mp hsome
    cases l with
    | nil => exact absurd hl (h.nonempty f)
    | cons a l =>
      have ha : a ∈ c.freqList f := by
        rw [freqList, hl]
        exact List.mem_cons_self
      obtain ⟨j, hj, hjf, _⟩ := h.at_node ha
      exact ⟨j, hj, hjf⟩
  · intro ⟨j, hj, hjf⟩
    obtain ⟨a, ha, _⟩ := h.of_item hj
    rw [hjf, freqList] at ha
    cases hl : c.freqListMap.lookup f with
    | some l => rfl
    | none =>
      rw [hl] at ha
      cases ha

theorem removeEmptyFreqList_of_ne {f : Nat} (h : c.freqListMap.lookup f ≠ some []) :
    c.removeEmptyFreqList f = c := by
  unfold removeEmptyFreqList
  split
  · rename_i he
    exact absurd he h
  · rfl

/-- The frequencies the map still has lists for are those of the entries. -/
theorem least_of_keys {keys : List Nat} (hk : ∀ f, f ∈ keys ↔ ∃ j ∈ items, j.freq = f) :
    Least items (keys.min?.getD 0) := by
  cases hm : keys.min? with
  | none =>
    rw [List.min?_eq_none_iff] at hm
    left
    refine ⟨List.eq_nil_iff_forall_not_mem.mpr ?_, rfl⟩
    intro j hj
    have := (hk j.freq).mpr ⟨j, hj, rfl⟩
    rw [hm] at this
    cases this
  | some m =>
    obtain ⟨hmem, hle⟩ := List.min?_eq_some_iff.mp hm
    exact .inr ⟨(hk m).mp hmem, fun j hj => hle _ ((hk _).mpr ⟨j, hj, rfl⟩)⟩

variable [DecidableEq K]

/-- The entries of one frequency around an entry. -/
theorem drop_split {F A B : Recency K V} (hu : (F.map Node.key).Nodup) (hF : F = A ++ i :: B) :
    Recency.drop F i.key = A ++ B := by
  subst hF
  have hne : ∀ j ∈ A ++ B, j.key ≠ i.key := by
    intro j hj he
    rw [List.map_append, List.map_cons] at hu
    obtain ⟨_, hB, hAB⟩ := List.nodup_append.mp hu
    rcases List.mem_append.mp hj with hj | hj
    · exact hAB _ (List.mem_map_of_mem hj) i.key List.mem_cons_self he
    · exact (List.nodup_cons.mp hB).1 (he ▸ List.mem_map_of_mem hj)
  rw [Recency.drop, List.filter_append, List.filter_cons]
  simp only [ne_eq, not_true_eq_false, decide_false, Bool.false_eq_true, if_false]
  rw [← List.filter_append]
  exact List.filter_eq_self.mpr (fun j hj => by simpa using hne j hj)

/-- The list of an entry's frequency without its node. -/
theorem erased_list (h : Lists c items) (hit : it ∈ c.freqList i.freq)
    (hn : c.nodes it = some i) :
    ((c.freqList i.freq).erase it).map c.nodes =
      ((items.drop i.key).filter (fun j => j.freq = i.freq)).map some := by
  obtain ⟨A, B, hL⟩ := List.append_of_mem hit
  have hnodup := h.nodup i.freq
  have hnodes := h.nodes i.freq
  rw [hL] at hnodup hnodes ⊢
  have hA : it ∉ A := by
    intro hm
    exact (List.nodup_append.mp hnodup).2.2 it hm it List.mem_cons_self rfl
  rw [List.map_append, List.map_cons, hn, eq_comm] at hnodes
  obtain ⟨A', R, hF, hA', hR⟩ := List.map_eq_append_iff.mp hnodes
  obtain ⟨i', B', hR', hi', hB'⟩ := List.map_eq_cons_iff.mp hR
  cases hi'
  have hunique : ((items.filter (fun j => j.freq = i.freq)).map Node.key).Nodup :=
    h.unique.sublist (List.filter_sublist.map _)
  have hdrop : (items.drop i.key).filter (fun j => j.freq = i.freq) =
      Recency.drop (items.filter (fun j => j.freq = i.freq)) i.key := List.filter_comm _ _ _
  rw [List.erase_append_right _ hA, List.erase_cons_head, hdrop,
    drop_split hunique (hR' ▸ hF), List.map_append, List.map_append, hA', hB']

theorem drop_freq_ne (hu : (items.map Node.key).Nodup) (hi : i ∈ items) {f : Nat}
    (hf : f ≠ i.freq) : (items.drop i.key).filter (fun j => j.freq = f) =
      items.filter (fun j => j.freq = f) := by
  rw [Recency.drop, List.filter_filter]
  refine List.filter_congr ?_
  intro j hj
  by_cases hjf : j.freq = f
  · have hne : j.key ≠ i.key := by
      intro he
      rw [same_key hu hj hi he] at hjf
      exact hf hjf.symm
    simp [hjf, hne]
  · simp [hjf]

theorem mem_drop {j : Node K V} {k : K} : j ∈ items.drop k ↔ j ∈ items ∧ j.key ≠ k := by
  simp [Recency.drop]

/-- The least frequency after an entry has gone, from what is left at its frequency. -/
theorem least_drop (hu : (items.map Node.key).Nodup) (hi : i ∈ items) {m m' : Nat}
    (hl : Least items m) (hsame : i.freq ≠ m ∨ (∃ j ∈ items.drop i.key, j.freq = i.freq) → m' = m)
    (hnew : i.freq = m → (∀ j ∈ items.drop i.key, j.freq ≠ i.freq) →
      Least (items.drop i.key) m') : Least (items.drop i.key) m' := by
  rcases hl with ⟨hnil, _⟩ | ⟨⟨j, hj, hjm⟩, hall⟩
  · rw [hnil] at hi
    cases hi
  · by_cases hif : i.freq = m
    · by_cases hleft : ∃ j ∈ items.drop i.key, j.freq = i.freq
      · rw [hsame (.inr hleft)]
        obtain ⟨j', hj', hf'⟩ := hleft
        exact .inr ⟨⟨j', hj', hf'.trans hif⟩, fun x hx => hall x (mem_drop.mp hx).1⟩
      · exact hnew hif (fun j hj he => hleft ⟨j, hj, he⟩)
    · rw [hsame (.inl hif)]
      have hne : j.key ≠ i.key := by
        intro he
        rw [same_key hu hj hi he] at hjm
        exact hif hjm
      exact .inr ⟨⟨j, mem_drop.mpr ⟨hj, hne⟩, hjm⟩, fun x hx => hall x (mem_drop.mp hx).1⟩

/-- An entry's node leaves the lists: `erase` and `remove_empty_freq_list`. -/
theorem detach_spec (h : Lists c items) (hl : Least items c.minFreq)
    (hit : it ∈ c.freqList i.freq) (hn : c.nodes it = some i) :
    ∃ c₁, c.eraseNode i.freq it = some c₁ ∧
      Lists (c₁.removeEmptyFreqList i.freq) (items.drop i.key) ∧
      Least (items.drop i.key) (c₁.removeEmptyFreqList i.freq).minFreq ∧
      (∀ f, (c₁.removeEmptyFreqList i.freq).freqList f = (c.freqList f).erase it) ∧
      (c₁.removeEmptyFreqList i.freq).nodes = Function.update c.nodes it none ∧
      (c₁.removeEmptyFreqList i.freq).keyMap = c.keyMap ∧
      (c₁.removeEmptyFreqList i.freq).capacity = c.capacity := by
  obtain ⟨c₁, herase, hlists, hnodes, hother, hown, hkeys, hmin, hcap, hfresh⟩ :=
    eraseNode_spec h hit hn
  obtain ⟨i', hi, _, hn'⟩ := h.at_node hit
  rw [hn] at hn'
  cases hn'
  have hmap : ∀ f, (c₁.freqList f).map c₁.nodes =
      ((items.drop i.key).filter (fun j => j.freq = f)).map some := by
    intro f
    rw [hlists, hnodes, map_erase_nodes (h.nodup f)]
    by_cases hf : f = i.freq
    · rw [hf]
      exact erased_list h hit hn
    · rw [List.erase_of_not_mem (h.not_mem hn hf), drop_freq_ne h.unique hi hf]
      exact h.nodes f
  have hempty : c₁.freqList i.freq = [] ↔ ∀ j ∈ items.drop i.key, j.freq ≠ i.freq := by
    rw [← List.map_eq_nil_iff, hmap, List.map_eq_nil_iff, List.filter_eq_nil_iff]
    simp
  refine ⟨c₁, herase, ?_⟩
  have hcommon : ∀ c' : LFUCache K V, (∀ f, c'.freqList f = c₁.freqList f) →
      c'.nodes = c₁.nodes → c'.fresh = c₁.fresh → (∀ f, c'.freqListMap.lookup f ≠ some []) →
      Lists c' (items.drop i.key) := by
    intro c' hl' hn' hf' hne
    refine ⟨?_, hne, ?_, ?_, ?_⟩
    · intro f
      rw [hl', hn', hmap]
    · intro f a ha
      rw [hl', hlists] at ha
      rw [hf', hfresh]
      exact h.below f a (List.mem_of_mem_erase ha)
    · exact h.unique.sublist (List.filter_sublist.map _)
    · exact fun j hj => h.positive j (mem_drop.mp hj).1
  by_cases hnil : c₁.freqList i.freq = []
  · rw [hnil] at hown
    have heq : c₁.removeEmptyFreqList i.freq = { c₁ with
        freqListMap := c₁.freqListMap.erase i.freq
        minFreq := if i.freq = c₁.minFreq then (c₁.freqListMap.erase i.freq).keys.min?.getD 0
          else c₁.minFreq } := by
      simp [removeEmptyFreqList, hown]
    have hsame : ∀ f, (c₁.removeEmptyFreqList i.freq).freqList f = c₁.freqList f := by
      intro f
      rw [heq]
      by_cases hf : f = i.freq
      · rw [hf, hnil]
        simp [freqList]
      · simp [freqList, AList.lookup_erase_ne hf]
    have hkept : Lists (c₁.removeEmptyFreqList i.freq) (items.drop i.key) := by
      refine hcommon _ hsame (by rw [heq]) (by rw [heq]) ?_
      intro f
      rw [heq]
      by_cases hf : f = i.freq
      · rw [hf]
        simp only [AList.lookup_erase]
        exact nofun
      · simp only [AList.lookup_erase_ne hf, hother f hf]
        exact h.nonempty f
    refine ⟨hkept, ?_, fun f => (hsame f).trans (hlists f), by rw [heq]; exact hnodes,
      by rw [heq]; exact hkeys, by rw [heq]; exact hcap⟩
    refine least_drop h.unique hi hl ?_ ?_
    · intro hor
      rcases hor with hne | ⟨j, hj, hjf⟩
      · simp only [heq, hmin, if_neg hne]
      · exact absurd hjf (hempty.mp hnil j hj)
    · intro hif _
      have hkeysfreq := hkept.keys_freq
      simp only [heq] at hkeysfreq ⊢
      rw [hmin, if_pos hif]
      exact least_of_keys hkeysfreq
  · have heq : c₁.removeEmptyFreqList i.freq = c₁ := by
      apply removeEmptyFreqList_of_ne
      rw [hown]
      exact fun he => hnil (Option.some.inj he)
    rw [heq]
    refine ⟨hcommon c₁ (fun _ => rfl) rfl rfl ?_, ?_, hlists, hnodes, hkeys, hcap⟩
    · intro f
      by_cases hf : f = i.freq
      · rw [hf, hown]
        exact fun he => hnil (Option.some.inj he)
      · rw [hother f hf]
        exact h.nonempty f
    · refine least_drop h.unique hi hl (fun _ => hmin) ?_
      intro _ hgone
      exact absurd (hempty.mpr hgone) hnil

end Detach

section Attach

theorem Lists.nodes_fresh (h : Lists c items) (f : Nat) (node : Node K V) :
    (c.freqList f).map (Function.update c.nodes c.fresh (some node)) =
      (c.freqList f).map c.nodes := by
  refine List.map_congr_left ?_
  intro a ha
  rw [Function.update_of_ne (Nat.ne_of_lt (h.below f a ha))]

variable [DecidableEq K]

/-- A new node in front of its list. -/
theorem pushFront_lists (h : Lists c items) (hnew : ∀ j ∈ items, j.key ≠ i.key)
    (hpos : 0 < i.freq) : Lists (c.pushFront i) (i :: items) := by
  have hlist : ∀ f, (c.pushFront i).freqList f =
      if f = i.freq then c.fresh :: c.freqList i.freq else c.freqList f :=
    fun f => freqList_insert _ _ _ _
  refine ⟨?_, ?_, ?_, ?_, ?_⟩
  · intro f
    rw [hlist]
    by_cases hf : f = i.freq
    · subst hf
      rw [if_pos rfl, List.map_cons, List.filter_cons_of_pos (by simp), List.map_cons, ← h.nodes]
      simp only [pushFront, Function.update_self]
      rw [h.nodes_fresh]
    · rw [if_neg hf, List.filter_cons_of_neg (by simpa using Ne.symm hf), ← h.nodes]
      exact h.nodes_fresh f i
  · intro f
    by_cases hf : f = i.freq
    · subst hf
      simp [pushFront]
    · simp only [pushFront, AList.lookup_insert_ne hf]
      exact h.nonempty f
  · intro f a ha
    rw [hlist] at ha
    by_cases hf : f = i.freq
    · rw [if_pos hf] at ha
      rcases List.mem_cons.mp ha with rfl | ha
      · exact Nat.lt_succ_self _
      · exact Nat.lt_succ_of_lt (h.below _ a ha)
    · rw [if_neg hf] at ha
      exact Nat.lt_succ_of_lt (h.below f a ha)
  · refine List.nodup_cons.mpr ⟨?_, h.unique⟩
    intro hmem
    obtain ⟨j, hj, hk⟩ := List.mem_map.mp hmem
    exact hnew j hj hk
  · intro j hj
    rcases List.mem_cons.mp hj with rfl | hj
    · exact hpos
    · exact h.positive j hj

/-- `key_map_` after the new node, if it was right for every other key before. -/
theorem pushFront_keys (h : Lists c items) (hnew : ∀ j ∈ items, j.key ≠ i.key)
    (hk : ∀ k a, k ≠ i.key → (c.keyMap.lookup k = some a ↔
      ∃ j, c.nodes a = some j ∧ j.key = k ∧ a ∈ c.freqList j.freq)) : Keys (c.pushFront i) := by
  have hlist : ∀ f, (c.pushFront i).freqList f =
      if f = i.freq then c.fresh :: c.freqList i.freq else c.freqList f :=
    fun f => freqList_insert _ _ _ _
  have hmem : ∀ a f, a ∈ (c.pushFront i).freqList f ↔
      (a = c.fresh ∧ f = i.freq) ∨ a ∈ c.freqList f := by
    intro a f
    rw [hlist]
    by_cases hf : f = i.freq
    · simp [hf]
    · simp [hf]
  have hnode : ∀ a f, a ∈ c.freqList f → (c.pushFront i).nodes a = c.nodes a :=
    fun a f ha => Function.update_of_ne (Nat.ne_of_lt (h.below f a ha)) _ _
  intro k a
  by_cases hki : k = i.key
  · subst hki
    have hlookup : (c.pushFront i).keyMap.lookup i.key = some c.fresh := by simp [pushFront]
    rw [hlookup]
    constructor
    · intro he
      cases he
      exact ⟨i, by simp [pushFront], rfl, (hmem _ _).mpr (.inl ⟨rfl, rfl⟩)⟩
    · intro ⟨j, hn, hjk, ha⟩
      rcases (hmem _ _).mp ha with ⟨rfl, _⟩ | ha
      · rfl
      · rw [hnode a _ ha] at hn
        obtain ⟨j', hj', _, hn'⟩ := h.at_node ha
        rw [hn] at hn'
        cases hn'
        exact absurd hjk (hnew j hj')
  · have hlookup : (c.pushFront i).keyMap.lookup k = c.keyMap.lookup k :=
      AList.lookup_insert_ne hki
    rw [hlookup, hk k a hki]
    constructor
    · intro ⟨j, hn, hjk, ha⟩
      exact ⟨j, (hnode a _ ha).trans hn, hjk, (hmem _ _).mpr (.inr ha)⟩
    · intro ⟨j, hn, hjk, ha⟩
      rcases (hmem _ _).mp ha with ⟨rfl, _⟩ | ha
      · have hi : (c.pushFront i).nodes c.fresh = some i := by simp [pushFront]
        rw [hi] at hn
        cases hn
        exact absurd hjk.symm hki
      · exact ⟨j, (hnode a _ ha).symm.trans hn, hjk, ha⟩

end Attach

section Operations

/-- The least frequency once an entry has come. -/
theorem least_cons {m : Nat} (hl : Least items m) (hpos : ∀ j ∈ items, 0 < j.freq)
    (hm : 0 < i.freq) :
    Least (i :: items) (if m = 0 ∨ i.freq < m then i.freq else m) := by
  right
  rcases hl with ⟨hnil, hzero⟩ | ⟨⟨j, hj, hjm⟩, hall⟩
  · rw [if_pos (.inl hzero), hnil]
    simp
  · have hm' : m ≠ 0 := by
      have := hpos j hj
      omega
    by_cases hlt : i.freq < m
    · rw [if_pos (.inr hlt)]
      refine ⟨⟨i, List.mem_cons_self, rfl⟩, ?_⟩
      intro x hx
      rcases List.mem_cons.mp hx with rfl | hx
      · exact Nat.le_refl _
      · exact Nat.le_trans (Nat.le_of_lt hlt) (hall x hx)
    · rw [if_neg (by omega)]
      refine ⟨⟨j, List.mem_cons_of_mem _ hj, hjm⟩, ?_⟩
      intro x hx
      rcases List.mem_cons.mp hx with rfl | hx
      · exact Nat.le_of_not_lt hlt
      · exact hall x hx

/-- Only the frequencies count for the least one. -/
theorem Least.congr {items' : Recency K V} {m : Nat} (h : Least items m)
    (hf : items'.map Node.freq = items.map Node.freq) : Least items' m := by
  have hmem : ∀ P : Nat → Prop, (∃ j ∈ items, P j.freq) ↔ ∃ j ∈ items', P j.freq := by
    intro P
    have h₁ : (∃ j ∈ items, P j.freq) ↔ ∃ f ∈ items.map Node.freq, P f := by simp
    have h₂ : (∃ j ∈ items', P j.freq) ↔ ∃ f ∈ items'.map Node.freq, P f := by simp
    rw [h₁, h₂, hf]
  rcases h with ⟨hnil, hm⟩ | ⟨hex, hall⟩
  · left
    rw [hnil, List.map_nil, List.map_eq_nil_iff] at hf
    exact ⟨hf, hm⟩
  · right
    refine ⟨(hmem (· = m)).mp hex, ?_⟩
    intro j hj
    apply Nat.le_of_not_lt
    intro hlt
    obtain ⟨x, hx, hxm⟩ := (hmem (· < m)).mpr ⟨j, hj, hlt⟩
    exact absurd (hall x hx) (Nat.not_le_of_lt hxm)

/-- The list of the least frequency holds the candidates for eviction. -/
theorem victim_list {m : Nat} (hl : Least items m) :
    items.victim = (items.filter (fun i => i.freq = m)).getLast? := by
  rcases hl with ⟨hnil, _⟩ | ⟨⟨j, hj, hjm⟩, hall⟩
  · rw [hnil]
    rfl
  · rw [Recency.victim]
    congr 1
    refine List.filter_congr ?_
    intro i hi
    rw [Bool.eq_iff_iff]
    simp only [List.all_eq_true, decide_eq_true_eq]
    constructor
    · intro hle
      exact Nat.le_antisymm (hjm ▸ hle j hj) (hall i hi)
    · intro he
      rw [he]
      exact hall

/-- The victim is accessed least often, and nothing as rarely accessed is older. -/
theorem victim_split {v : Node K V} (hv : items.victim = some v) :
    ∃ A B, items = A ++ v :: B ∧ (∀ i ∈ A, v.freq ≤ i.freq) ∧ ∀ i ∈ B, v.freq < i.freq := by
  obtain ⟨ys, hys⟩ := List.getLast?_eq_some_iff.mp hv
  obtain ⟨l₁, l₂, hitems, _, hl₂⟩ := List.filter_eq_append_iff.mp hys
  obtain ⟨A, B, hAB, _, hpv, hB⟩ := List.filter_eq_cons_iff.mp hl₂
  have hleast : ∀ j ∈ items, v.freq ≤ j.freq := by simpa using hpv
  have hsplit : items = (l₁ ++ A) ++ v :: B := by rw [hitems, hAB, List.append_assoc]
  refine ⟨l₁ ++ A, B, hsplit, ?_, ?_⟩
  · intro i hi
    exact hleast i (hsplit ▸ List.mem_append_left _ hi)
  · intro i hi
    have hmem : i ∈ items := hsplit ▸ List.mem_append_right _ (List.mem_cons_of_mem _ hi)
    refine Nat.lt_of_le_of_ne (hleast i hmem) ?_
    intro he
    have hnot := List.filter_eq_nil_iff.mp hB i hi
    apply hnot
    simpa [← he] using hleast

/-- The lists do not depend on `key_map_` and `min_freq_`. -/
theorem Lists.with_index (h : Lists c items) (keyMap : AList (fun _ : K => Nat)) (minFreq : Nat) :
    Lists { c with keyMap := keyMap, minFreq := minFreq } items :=
  ⟨h.nodes, h.nonempty, h.below, h.unique, h.positive⟩

variable [DecidableEq K]

/-- A node of an entry: where `key_map_` leads for its key. -/
theorem Refines.at_key (h : Refines c items) {k : K} (hk : c.keyMap.lookup k = some it) :
    ∃ i ∈ items, i.key = k ∧ c.nodes it = some i ∧ it ∈ c.freqList i.freq := by
  obtain ⟨i, hn, hik, hit⟩ := (h.keys k it).mp hk
  obtain ⟨j, hj, _, hn'⟩ := h.at_node hit
  rw [hn] at hn'
  cases hn'
  exact ⟨i, hj, hik, hn, hit⟩

theorem find_item (hu : (items.map Node.key).Nodup) (hi : i ∈ items) :
    items.find? (fun j => j.key = i.key) = some i := by
  cases hf : items.find? (fun j => j.key = i.key) with
  | none =>
    have := List.find?_eq_none.mp hf i hi
    simp at this
  | some j =>
    have hj := List.mem_of_find?_eq_some hf
    have hk := List.find?_some hf
    rw [same_key hu hj hi (by simpa using hk)]

theorem Refines.no_item (h : Refines c items) {k : K} (hk : c.keyMap.lookup k = none) :
    ∀ i ∈ items, i.key ≠ k := by
  intro i hi he
  obtain ⟨a, ha⟩ := (keys_iff h.toLists h.keys k).mpr ⟨i, hi, he⟩
  rw [hk] at ha
  cases ha

theorem find_no_item {k : K} (hk : ∀ i ∈ items, i.key ≠ k) :
    items.find? (fun j => j.key = k) = none :=
  List.find?_eq_none.mpr (fun j hj => by simpa using hk j hj)

/-- After a node has left the lists `key_map_` is right for the other keys. -/
theorem keys_detached (h : Lists c items) (hk : Keys c) (hn : c.nodes it = some i)
    (hlists : ∀ f, c'.freqList f = (c.freqList f).erase it)
    (hnodes : c'.nodes = Function.update c.nodes it none) {k : K} (hki : k ≠ i.key) (a : Nat) :
    c.keyMap.lookup k = some a ↔
      ∃ j, c'.nodes a = some j ∧ j.key = k ∧ a ∈ c'.freqList j.freq := by
  rw [hk k a]
  constructor
  · intro ⟨j, hj, hjk, ha⟩
    have hne : a ≠ it := by
      intro he
      rw [he, hn] at hj
      cases hj
      exact hki hjk.symm
    refine ⟨j, ?_, hjk, ?_⟩
    · rw [hnodes, Function.update_of_ne hne, hj]
    · rw [hlists]
      exact (List.mem_erase_of_ne hne).mpr ha
  · intro ⟨j, hj, hjk, ha⟩
    rw [hlists] at ha
    have hne : a ≠ it := ((List.Nodup.mem_erase_iff (h.nodup _)).mp ha).1
    rw [hnodes, Function.update_of_ne hne] at hj
    exact ⟨j, hj, hjk, List.mem_of_mem_erase ha⟩

/-- If `key_map_` is right for the other keys, it is right once the missing key is erased. -/
theorem keys_erased {k : K} {m : AList (fun _ : K => Nat)} (h : Lists c (items.drop k))
    (hk : ∀ k' a, k' ≠ k → (m.lookup k' = some a ↔
      ∃ j, c.nodes a = some j ∧ j.key = k' ∧ a ∈ c.freqList j.freq)) (hm : c.keyMap = m.erase k) :
    Keys c := by
  intro k' a
  rw [hm]
  by_cases hkk : k' = k
  · subst hkk
    rw [AList.lookup_erase]
    constructor
    · exact nofun
    · intro ⟨j, hj, hjk, ha⟩
      obtain ⟨j', hj', _, hn'⟩ := h.at_node ha
      rw [hj] at hn'
      cases hn'
      exact absurd hjk (mem_drop.mp hj').2
  · rw [AList.lookup_erase_ne hkk]
    exact hk k' a hkk

theorem length_drop (hu : (items.map Node.key).Nodup) (hi : i ∈ items) :
    (items.drop i.key).length + 1 = items.length := by
  obtain ⟨A, B, hAB⟩ := List.append_of_mem hi
  rw [drop_split hu hAB, hAB]
  simp [Nat.add_assoc]

/-- `update_frequency` counts an access. -/
theorem updateFrequency_spec (h : Refines c items) (hi : i ∈ items)
    (hit : it ∈ c.freqList i.freq) (hn : c.nodes it = some i) :
    ∃ c', c.updateFrequency it = some c' ∧ Refines c' (items.touch i) ∧
      c'.capacity = c.capacity := by
  obtain ⟨c₁, herase, hlists, hleast, hfl, hnodes, hkeys, hcap⟩ :=
    detach_spec h.toLists h.least hit hn
  set c₂ := c₁.removeEmptyFreqList i.freq with hc₂
  have hnew : ∀ j ∈ items.drop i.key, j.key ≠ i.key := fun j hj => (mem_drop.mp hj).2
  have hpush := pushFront_lists (i := { i with freq := i.freq + 1 }) hlists hnew
    (Nat.succ_pos _)
  have hkpush := pushFront_keys (i := { i with freq := i.freq + 1 }) hlists hnew (by
    intro k a hki
    rw [hkeys]
    exact keys_detached h.toLists h.keys hn hfl hnodes hki a)
  have hmin := least_cons (i := { i with freq := i.freq + 1 }) hleast hlists.positive
    (Nat.succ_pos _)
  have hlen : (items.touch i).length ≤ c.capacity := by
    have := length_drop h.unique hi
    have := h.room
    simp only [Recency.touch, List.length_cons]
    omega
  have heq : c.updateFrequency it =
      some { c₂.pushFront { i with freq := i.freq + 1 } with
        minFreq := if c₂.minFreq = 0 ∨ i.freq + 1 < c₂.minFreq then i.freq + 1
          else c₂.minFreq } := by
    simp only [updateFrequency, hn, herase, Option.bind_eq_bind, Option.bind_some, ← hc₂]
    by_cases hlt : c₂.minFreq = 0 ∨ i.freq + 1 < c₂.minFreq
    · simp only [if_pos hlt]
      exact if_pos hlt
    · simp only [if_neg hlt]
      exact if_neg hlt
  exact ⟨_, heq, ⟨hpush.with_index _ _, hkpush, hmin, hcap ▸ hlen⟩, hcap⟩

/-- The entry of a key gets a new value. -/
def overwrite (key : K) (value : V) (j : Node K V) : Node K V :=
  if j.key = key then { j with value := value } else j

@[simp] theorem overwrite_key (key : K) (value : V) (j : Node K V) :
    (overwrite key value j).key = j.key := by
  unfold overwrite
  split <;> rfl

@[simp] theorem overwrite_freq (key : K) (value : V) (j : Node K V) :
    (overwrite key value j).freq = j.freq := by
  unfold overwrite
  split <;> rfl

theorem overwrite_drop (items : Recency K V) (key : K) (value : V) :
    Recency.drop (items.map (overwrite key value)) key = items.drop key := by
  rw [Recency.drop, List.filter_map, Recency.drop]
  have hcongr : ((fun i : Node K V => decide (i.key ≠ key)) ∘ overwrite key value) =
      fun i => decide (i.key ≠ key) := by
    funext j
    simp
  rw [hcongr]
  conv_rhs => rw [← List.map_id (items.filter fun i => decide (i.key ≠ key))]
  refine List.map_congr_left ?_
  intro j hj
  have hne : j.key ≠ key := by simpa using (List.mem_filter.mp hj).2
  exact if_neg hne

theorem overwrite_filter (items : Recency K V) (key : K) (value : V) (f : Nat) :
    (items.map (overwrite key value)).filter (fun j => j.freq = f) =
      (items.filter (fun j => j.freq = f)).map (overwrite key value) := by
  rw [List.filter_map]
  congr 1
  refine List.filter_congr ?_
  intro j _
  simp

/-- The new value of a stored key is written into its node first. -/
theorem overwrite_spec (h : Refines c items) (hit : it ∈ c.freqList i.freq)
    (hn : c.nodes it = some i) (value : V) :
    Refines { c with nodes := Function.update c.nodes it (some { i with value := value }) }
      (items.map (overwrite i.key value)) := by
  have hnode : ∀ a f, a ∈ c.freqList f →
      Function.update c.nodes it (some { i with value := value }) a =
        (c.nodes a).map (overwrite i.key value) := by
    intro a f ha
    by_cases hne : a = it
    · rw [hne, Function.update_self, hn]
      simp [overwrite]
    · obtain ⟨j, _, hjf, hj⟩ := h.at_node ha
      have hkey : j.key ≠ i.key := by
        intro he
        exact hne (h.keys.unique hj (hjf ▸ ha) hn hit he)
      rw [Function.update_of_ne hne, hj]
      simp [overwrite, hkey]
  refine ⟨⟨?_, h.nonempty, h.below, ?_, ?_⟩, ?_, h.least.congr ?_, ?_⟩
  · intro f
    have hmap := congrArg (List.map (Option.map (overwrite i.key value))) (h.nodes f)
    rw [List.map_map, List.map_map] at hmap
    rw [overwrite_filter, List.map_map]
    exact (List.map_congr_left (fun a ha => hnode a f ha)).trans hmap
  · simpa [Function.comp_def] using h.unique
  · intro j hj
    obtain ⟨x, hx, rfl⟩ := List.mem_map.mp hj
    simpa using h.positive x hx
  · intro k a
    rw [h.keys k a]
    constructor
    · intro ⟨j, hj, hjk, ha⟩
      refine ⟨overwrite i.key value j, (hnode a _ ha).trans (by rw [hj]; rfl), ?_, ?_⟩
      · rw [overwrite_key, hjk]
      · rw [overwrite_freq]
        exact ha
    · intro ⟨j', hj', hjk, ha⟩
      obtain ⟨j, hj, rfl⟩ := Option.map_eq_some_iff.mp ((hnode a _ ha).symm.trans hj')
      rw [overwrite_key] at hjk
      rw [overwrite_freq] at ha
      exact ⟨j, hj, hjk, ha⟩
  · simp [Function.comp_def]
  · rw [List.length_map]
    exact h.room

theorem get_spec (h : Refines c items) (capacity : Nat) (k : K) :
    ∃ c', c.apply (.get k) = some (c', (items.apply capacity (.get k)).2) ∧
      Refines c' (items.apply capacity (.get k)).1 ∧ c'.capacity = c.capacity := by
  cases hk : c.keyMap.lookup k with
  | none =>
    simp only [Recency.apply, find_no_item (h.no_item hk)]
    exact ⟨c, by simp [apply, get, getImpl, hk], h, rfl⟩
  | some it =>
    obtain ⟨i, hi, rfl, hn, hit⟩ := h.at_key hk
    obtain ⟨c', hup, href, hcap⟩ := updateFrequency_spec h hi hit hn
    simp only [Recency.apply, find_item h.unique hi]
    exact ⟨c', by simp [apply, get, getImpl, hk, hn, hup], href, hcap⟩

theorem remove_spec (h : Refines c items) (capacity : Nat) (k : K) :
    ∃ c', c.apply (.remove k) = some (c', (items.apply capacity (.remove k)).2) ∧
      Refines c' (items.apply capacity (.remove k)).1 ∧ c'.capacity = c.capacity := by
  cases hk : c.keyMap.lookup k with
  | none =>
    have hno := h.no_item hk
    have hdrop : items.drop k = items :=
      List.filter_eq_self.mpr (fun j hj => by simpa using hno j hj)
    have hany : items.any (fun i => i.key = k) = false := by simpa using hno
    simp only [Recency.apply, hdrop, hany]
    exact ⟨c, by simp [apply, remove, hk], h, rfl⟩
  | some it =>
    obtain ⟨i, hi, rfl, hn, hit⟩ := h.at_key hk
    obtain ⟨c₁, herase, hlists, hleast, hfl, hnodes, hkeys, hcap⟩ :=
      detach_spec h.toLists h.least hit hn
    set c₂ := c₁.removeEmptyFreqList i.freq with hc₂
    have hany : items.any (fun j => j.key = i.key) = true :=
      List.any_eq_true.mpr ⟨i, hi, by simp⟩
    have heq : c.apply (.remove i.key) =
        some ({ c₂ with keyMap := c₂.keyMap.erase i.key }, .flag true) := by
      simp only [apply, remove, hk, hn, herase, Option.bind_eq_bind, Option.bind_some, ← hc₂]
      rfl
    simp only [Recency.apply, hany]
    refine ⟨_, heq, ⟨hlists.with_index _ _, ?_, hleast, ?_⟩, hcap⟩
    · apply keys_erased (hlists.with_index _ _) (m := c.keyMap)
      · intro k' a hne
        exact keys_detached h.toLists h.keys hn hfl hnodes hne a
      · simp only [hkeys]
    · have hlen := length_drop h.unique hi
      have hroom := h.room
      simp only [hcap]
      omega

theorem evictLfuItem_spec (h : Refines c items) (hne : items ≠ []) :
    ∃ v c', v ∈ items ∧ items.victim = some v ∧ c.evictLfuItem = some (c', true) ∧
      Refines c' (items.drop v.key) ∧ c'.capacity = c.capacity := by
  have hlist := h.nodes c.minFreq
  obtain ⟨⟨j, hj, hjm⟩, _⟩ := h.least.resolve_left (fun hnil => hne hnil.1)
  obtain ⟨a, ha, _⟩ := h.of_item hj
  rw [hjm] at ha
  have hsome : (c.freqList c.minFreq).getLast? ≠ none := by
    rw [Ne, List.getLast?_eq_none_iff]
    exact List.ne_nil_of_mem ha
  obtain ⟨it, hlast⟩ := Option.ne_none_iff_exists'.mp hsome
  have hit := List.mem_of_getLast? hlast
  obtain ⟨v, hv, hvm, hn⟩ := h.at_node hit
  have hvictim : items.victim = some v := by
    have := congrArg List.getLast? hlist
    rw [List.getLast?_map, List.getLast?_map, ← victim_list h.least, hlast] at this
    simpa [hn] using this.symm
  obtain ⟨c₁, herase, hlists, hleast, hfl, hnodes, hkeys, hcap⟩ :=
    detach_spec (h.with_index (c.keyMap.erase v.key) c.minFreq) h.least
      (show it ∈ c.freqList v.freq from hvm ▸ hit) hn
  set c₂ := c₁.removeEmptyFreqList v.freq with hc₂
  have hfound : c.freqListMap.lookup c.minFreq = some (c.freqList c.minFreq) := by
    cases hl : c.freqListMap.lookup c.minFreq with
    | none =>
      rw [freqList, hl] at ha
      cases ha
    | some l => rw [freqList, hl]; rfl
  have heq : c.evictLfuItem = some (c₂, true) := by
    have hmin := (eraseNode_minFreq herase).trans hvm.symm
    rw [hvm] at herase
    simp only [evictLfuItem, hfound, hlast, Option.bind_eq_bind, Option.bind_some, hn, herase, hmin]
    rfl
  refine ⟨v, c₂, hv, hvictim, heq, ⟨hlists, ?_, hleast, ?_⟩, hcap⟩
  · apply keys_erased hlists (m := c.keyMap)
    · intro k' a hne
      exact keys_detached h.toLists h.keys hn hfl hnodes hne a
    · exact hkeys
  · have hlen := length_drop h.unique hv
    have hroom := h.room
    rw [hcap]
    exact Nat.le_trans (by omega) hroom

theorem insertNew_spec (h : Refines c items) {k : K} (hk : ∀ i ∈ items, i.key ≠ k) (value : V)
    (hroom : items.length < c.capacity) :
    Refines (c.insertNew k value) (⟨k, value, 1⟩ :: items) := by
  have hpush := pushFront_lists (i := ⟨k, value, 1⟩) h.toLists hk Nat.one_pos
  refine ⟨hpush.with_index _ _, ?_, .inr ⟨⟨_, List.mem_cons_self, rfl⟩, ?_⟩, hroom⟩
  · apply pushFront_keys (i := ⟨k, value, 1⟩) h.toLists hk
    intro k' a _
    exact h.keys k' a
  · intro j hj
    exact hpush.positive j hj

/-- A new key into a full cache: the entry of the victim goes. -/
theorem put_full (h : Refines c items) {k : K} (hk : c.keyMap.lookup k = none) (value : V)
    (hfull : c.capacity ≤ items.length) (hpos : 0 < c.capacity) :
    ∃ v c', v ∈ items ∧ items.victim = some v ∧ c.put k value = some (c', true) ∧
      Refines c' (⟨k, value, 1⟩ :: items.drop v.key) ∧ c'.capacity = c.capacity := by
  have hne : items ≠ [] := by
    intro hnil
    rw [hnil] at hfull
    exact absurd hfull (Nat.not_le_of_lt hpos)
  obtain ⟨v, c₁, hv, hvictim, hevict, href, hcap⟩ := evictLfuItem_spec h hne
  have hsize : c.capacity ≤ c.size := size_eq h.toLists h.keys ▸ hfull
  refine ⟨v, c₁.insertNew k value, hv, hvictim, ?_, insertNew_spec href ?_ value ?_, hcap⟩
  · simp [put, hk, if_pos hsize, hevict]
  · intro i hi
    exact h.no_item hk i (mem_drop.mp hi).1
  · have hlen := length_drop h.unique hv
    have hroom := h.room
    rw [hcap]
    omega

theorem put_spec (h : Refines c items) (hpos : 0 < c.capacity) (k : K) (value : V) :
    ∃ c', c.apply (.put k value) = some (c', (items.apply c.capacity (.put k value)).2) ∧
      Refines c' (items.apply c.capacity (.put k value)).1 ∧ c'.capacity = c.capacity := by
  cases hk : c.keyMap.lookup k with
  | none =>
    simp only [Recency.apply, find_no_item (h.no_item hk)]
    by_cases hfull : c.capacity ≤ items.length
    · obtain ⟨v, c', _, hvictim, hput, href, hcap⟩ := put_full h hk value hfull hpos
      simp only [if_pos hfull, hvictim]
      exact ⟨c', by simp [apply, hput], href, hcap⟩
    · have hsize : ¬ c.capacity ≤ c.size := size_eq h.toLists h.keys ▸ hfull
      simp only [if_neg hfull]
      refine ⟨c.insertNew k value, by simp [apply, put, hk, if_neg hsize], ?_, rfl⟩
      exact insertNew_spec h (h.no_item hk) value (Nat.lt_of_not_le hfull)
  | some it =>
    obtain ⟨i, hi, rfl, hn, hit⟩ := h.at_key hk
    have hwritten := overwrite_spec h hit hn value
    have hmem : { i with value := value } ∈ items.map (overwrite i.key value) :=
      List.mem_map.mpr ⟨i, hi, if_pos rfl⟩
    obtain ⟨c', hup, href, hcap⟩ := updateFrequency_spec hwritten hmem hit (Function.update_self ..)
    simp only [Recency.apply, find_item h.unique hi]
    refine ⟨c', by simp [apply, put, hk, hn, hup], ?_, hcap⟩
    rw [Recency.touch, overwrite_drop] at href
    exact href

end Operations

section Runs
variable [DecidableEq K]

theorem clear_spec (c : LFUCache K V) : Refines c.clear [] := by
  refine ⟨⟨fun f => rfl, fun f => nofun, ?_, List.nodup_nil, nofun⟩, ?_, .inl ⟨rfl, rfl⟩,
    Nat.zero_le _⟩
  · intro f a ha
    cases ha
  · intro k a
    constructor
    · exact nofun
    · intro ⟨_, _, _, ha⟩
      cases ha

/-- Every call does to the entries what the specification says. -/
theorem apply_spec (h : Refines c items) (hpos : 0 < c.capacity) (op : Op K V) :
    ∃ c', c.apply op = some (c', (items.apply c.capacity op).2) ∧
      Refines c' (items.apply c.capacity op).1 ∧ c'.capacity = c.capacity := by
  cases op with
  | get k => exact get_spec h c.capacity k
  | put k value => exact put_spec h hpos k value
  | remove k => exact remove_spec h c.capacity k
  | clear => exact ⟨c.clear, rfl, clear_spec c, rfl⟩

theorem run_spec (h : Refines c items) (hpos : 0 < c.capacity) (ops : List (Op K V)) :
    ∃ c', c.run ops = some (c', (Recency.run c.capacity items ops).2) ∧
      Refines c' (Recency.run c.capacity items ops).1 ∧ c'.capacity = c.capacity := by
  induction ops generalizing c items with
  | nil => exact ⟨c, rfl, h, rfl⟩
  | cons op ops ih =>
    obtain ⟨c₁, happly, href, hcap⟩ := apply_spec h hpos op
    obtain ⟨c₂, hrun, href₂, hcap₂⟩ := ih href (hcap ▸ hpos)
    rw [hcap] at hrun href₂
    refine ⟨c₂, ?_, href₂, hcap₂.trans hcap⟩
    simp [run, happly, hrun, Recency.run]

/-- From an empty cache every sequence of calls is the least frequently used policy: the entries
and the results are those of the specification, the indexes agree, the size is bounded, and a new
key takes the place of the entry used least often, the oldest of those. -/
theorem run_lfu (capacity : Int) (hcap : 1 ≤ capacity) (ops : List (Op K V)) :
    ∃ c₀ c : LFUCache K V, ∃ items : Recency K V, ∃ results : List (Result V),
      create capacity = some c₀ ∧ c₀.run ops = some (c, results) ∧
      Recency.run capacity.toNat [] ops = (items, results) ∧
      Refines c items ∧ c.size = items.length ∧ (c.size : Int) ≤ capacity ∧
      ∀ key value, c.contains key = false → (c.size : Int) = capacity →
        ∃ c' A v B, c.put key value = some (c', true) ∧ items = A ++ v :: B ∧
          (∀ i ∈ A, v.freq ≤ i.freq) ∧ (∀ i ∈ B, v.freq < i.freq) ∧
          Refines c' (⟨key, value, 1⟩ :: (A ++ B)) := by
  have hcreate : create capacity =
      some (⟨fun _ => none, 0, ∅, ∅, capacity.toNat, 0⟩ : LFUCache K V) :=
    if_neg (by omega)
  have hpos : 0 < capacity.toNat := by omega
  obtain ⟨c, hrun, href, hc⟩ := run_spec
    (clear_spec (⟨fun _ => none, 0, ∅, ∅, capacity.toNat, 0⟩ : LFUCache K V)) hpos ops
  have hsize := size_eq href.toLists href.keys
  have hroom := href.room
  simp only [clear] at hrun href hc hsize hroom
  refine ⟨_, c, _, _, hcreate, hrun, rfl, href, hsize, by omega, ?_⟩
  intro key value hnew hfull
  have hkey : c.keyMap.lookup key = none := by simpa [contains] using hnew
  obtain ⟨v, c', _, hvictim, hput, href', _⟩ := put_full href hkey value (by omega) (by omega)
  obtain ⟨A, B, hAB, hA, hB⟩ := victim_split hvictim
  rw [drop_split href.unique hAB] at href'
  exact ⟨c', A, v, B, hput, hAB, hA, hB, href'⟩

theorem run_lfu_two : ∃ c₀ c : LFUCache Nat Nat, ∃ results,
    create 2 = some c₀ ∧
      c₀.run [.put 1 10, .put 2 20, .get 1, .put 3 30] = some (c, results) ∧
      Refines c [⟨3, 30, 1⟩, ⟨1, 10, 2⟩] := by
  obtain ⟨c₀, c, items, results, hcreate, hrun, hspec, href, _⟩ :=
    run_lfu 2 (by decide) [.put 1 10, .put 2 20, .get 1, .put 3 30]
  refine ⟨c₀, c, results, hcreate, hrun, ?_⟩
  cases hspec
  exact href

end Runs

end Cppforge.Cache.LFUCache
