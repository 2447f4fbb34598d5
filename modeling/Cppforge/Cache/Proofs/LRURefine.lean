import Cppforge.Cache.Caches

namespace Cppforge.Cache.LRUCache
open Recency

variable {K V : Type} {capacity a : Nat} {c : LRUCache K V} {items : List (K × V)}
  {C D : List (Nat × K × V)} {key : K} {v : V} {p : K × V}

section Nodes

theorem deref_mid (h : c.cacheList = C ++ (a, p) :: D) (hC : a ∉ C.map Prod.fst) :
    c.deref a = some p := by
  rw [deref, h]
  exact lookup_mid hC

theorem eraseNode_mid (h : c.cacheList = C ++ (a, p) :: D) (hC : a ∉ C.map Prod.fst)
    (hD : a ∉ D.map Prod.fst) : c.eraseNode a = some { c with cacheList := C ++ D } := by
  simp [eraseNode, deref_mid h hC, h, drop_mid hC hD]

theorem moveToFront_mid (h : c.cacheList = C ++ (a, p) :: D) (hC : a ∉ C.map Prod.fst)
    (hD : a ∉ D.map Prod.fst) :
    c.moveToFront a = some { c with cacheList := (a, p) :: (C ++ D) } := by
  cases C with
  | nil =>
    obtain ⟨cells, fresh, index, capacity⟩ := c
    obtain rfl : cells = (a, p) :: D := h
    simp [moveToFront]
  | cons node C =>
    have hne : ¬ node.1 = a := fun heq => hC (heq ▸ List.mem_cons_self)
    have hhead : ¬ c.cacheList.head?.map Prod.fst = some a := by simp [h, hne]
    simp [moveToFront, hhead, deref_mid h hC, eraseNode_mid h hC hD]

theorem assign_mid (h : c.cacheList = C ++ (a, key, v) :: D) (hC : a ∉ C.map Prod.fst)
    (hD : a ∉ D.map Prod.fst) (value : V) :
    c.assign a value = some { c with cacheList := C ++ (a, key, value) :: D } := by
  have hkept : ∀ cells : List (Nat × K × V), a ∉ cells.map Prod.fst →
      cells.map (fun node => if node.1 = a then (node.1, node.2.1, value) else node) = cells := by
    intro cells hcells
    have hsame : ∀ node ∈ cells,
        (if node.1 = a then (node.1, node.2.1, value) else node) = id node := fun node hnode =>
      if_neg fun heq : node.1 = a => hcells (heq ▸ List.mem_map_of_mem hnode)
    rw [List.map_congr_left hsame, List.map_id]
  simp [assign, deref_mid h hC, h, hkept C hC, hkept D hD]

end Nodes

section Steps
variable [DecidableEq K]

/-- The nodes are the items in order, indexed by their keys, at most as many as the capacity. -/
structure Holds (limit : Nat) (c : LRUCache K V) (items : List (K × V)) : Prop where
  indexed : Indexed c.cacheMap c.cacheList
  pairs : c.cacheList.map Prod.snd = items
  fresh : ∀ node ∈ c.cacheList, node.1 < c.fresh
  capacity : c.capacity = limit
  room : items.length ≤ limit

theorem create_holds (h : 1 ≤ capacity) :
    ∃ c : LRUCache K V, create capacity = .ok c ∧ Holds capacity c [] :=
  ⟨_, if_neg (by omega), indexed_nil, rfl, by simp, rfl, Nat.zero_le _⟩

theorem Holds.absent (h : Holds capacity c items) (hkey : c.cacheMap.lookup key = none) :
    key ∉ items.map Prod.fst := h.pairs ▸ h.indexed.items_absent hkey

/-- The node of a key, and the items around its own. -/
theorem Holds.split (h : Holds capacity c items) (hkey : c.cacheMap.lookup key = some a) :
    ∃ C v D, c.cacheList = C ++ (a, key, v) :: D ∧ a ∉ C.map Prod.fst ∧ a ∉ D.map Prod.fst ∧
      items.lookup key = some v ∧ drop key items = (C ++ D).map Prod.snd :=
  h.pairs ▸ h.indexed.items_split hkey

theorem Holds.room_mid (h : Holds capacity c items)
    (hsplit : c.cacheList = C ++ (a, key, v) :: D) : (C ++ D).length < capacity := by
  have hroom := h.room
  rw [← h.pairs, hsplit, List.length_map, List.length_append, List.length_cons] at hroom
  rw [List.length_append]
  omega

/-- The node of a key moves to the front, with another value or its own. -/
theorem Holds.touch (h : Holds capacity c items) (hsplit : c.cacheList = C ++ (a, key, v) :: D)
    (value : V) :
    Holds capacity { c with cacheList := (a, key, value) :: (C ++ D) }
      ((key, value) :: (C ++ D).map Prod.snd) := by
  have hindexed := h.indexed
  have hfresh := h.fresh
  rw [hsplit] at hindexed hfresh
  refine ⟨hindexed.touch value, rfl, ?_, h.capacity, ?_⟩
  · intro node hnode
    rcases List.mem_cons.mp hnode with rfl | hnode
    · exact hfresh (a, key, v) (by simp)
    · refine hfresh node ?_
      rw [List.mem_append, List.mem_cons]
      exact (List.mem_append.mp hnode).imp_right .inr
  · have hroom := h.room_mid hsplit
    rw [List.length_cons, List.length_map]
    omega

theorem Holds.forget (h : Holds capacity c items) (hsplit : c.cacheList = C ++ (a, key, v) :: D) :
    Holds capacity { c with cacheList := C ++ D, cacheMap := c.cacheMap.erase key }
      ((C ++ D).map Prod.snd) := by
  have hindexed := h.indexed
  have hfresh := h.fresh
  rw [hsplit] at hindexed hfresh
  refine ⟨hindexed.erase, rfl, ?_, h.capacity, ?_⟩
  · intro node hnode
    refine hfresh node ?_
    rw [List.mem_append, List.mem_cons]
    exact (List.mem_append.mp hnode).imp_right .inr
  · have hroom := h.room_mid hsplit
    rw [List.length_map]
    omega

/-- Before a new key the oldest node goes if the list is full. -/
theorem Holds.makeRoom (h : Holds capacity c items) (hpos : 1 ≤ capacity) :
    ∃ c', c.makeRoom = some c' ∧
      Holds capacity c' (if items.length < capacity then items else items.dropLast) ∧
      c'.cacheList.length < capacity ∧
      ∀ key, c.cacheMap.lookup key = none → c'.cacheMap.lookup key = none := by
  have hlen : c.cacheList.length = items.length := by
    rw [← h.pairs, List.length_map]
  by_cases hroom : items.length < capacity
  · have hnot : ¬ c.cacheList.length ≥ c.capacity := by
      rw [hlen, h.capacity]
      omega
    rw [if_pos hroom]
    exact ⟨c, if_neg hnot, h, hlen ▸ hroom, fun _ hkey => hkey⟩
  · have hge : c.cacheList.length ≥ c.capacity := by
      rw [hlen, h.capacity]
      omega
    have hne : c.cacheList ≠ [] := by
      apply List.ne_nil_of_length_pos
      omega
    obtain ⟨C, ⟨a, key, v⟩, hsplit⟩ :=
      (List.eq_nil_or_concat' c.cacheList).resolve_left hne
    have hforget := h.forget hsplit
    rw [List.append_nil] at hforget
    have hitems : items.dropLast = C.map Prod.snd := by
      rw [← h.pairs, hsplit, List.map_append, List.map_singleton, List.dropLast_concat]
    rw [if_neg hroom, hitems]
    refine ⟨_, ?_, hforget, ?_, ?_⟩
    · rw [LRUCache.makeRoom, if_pos hge, hsplit]
      simp
    · simpa using h.room_mid hsplit
    · intro k hk
      have hne : k ≠ key := by
        rintro rfl
        exact h.indexed.absent hk (by simp [hsplit])
      exact (AList.lookup_erase_ne hne).trans hk

theorem Holds.insert (h : Holds capacity c items) (hroom : c.cacheList.length < capacity)
    (hkey : c.cacheMap.lookup key = none) (value : V) :
    Holds capacity { c with
      cacheList := (c.fresh, key, value) :: c.cacheList
      fresh := c.fresh + 1
      cacheMap := c.cacheMap.insert key c.fresh } ((key, value) :: items) := by
  have hnew : c.fresh ∉ c.cacheList.map Prod.fst := by
    intro hmem
    obtain ⟨node, hnode, heq⟩ := List.mem_map.mp hmem
    exact absurd heq (Nat.ne_of_lt (h.fresh node hnode))
  refine ⟨h.indexed.insert hkey hnew value, by simp [h.pairs], ?_, h.capacity, ?_⟩
  · intro node hnode
    rcases List.mem_cons.mp hnode with rfl | hnode
    · exact Nat.lt_succ_self _
    · exact Nat.lt_succ_of_lt (h.fresh node hnode)
  · rw [← h.pairs, List.length_cons, List.length_map]
    exact hroom

theorem Holds.contains (h : Holds capacity c items) (key : K) :
    c.contains key = (items.lookup key).isSome := by
  rw [LRUCache.contains, ← h.pairs, h.indexed.isSome_lookup]

theorem get_follows (h : Holds capacity c items) (key : K) :
    ∃ c', c.get key = some (c', items.lookup key) ∧
      Holds capacity c' (Recency.apply capacity items (.get key)).1 := by
  cases hkey : c.cacheMap.lookup key with
  | none =>
    have hlookup := lookup_absent (h.absent hkey)
    exact ⟨c, by simp [get, hkey, hlookup], by simpa [Recency.apply, hlookup] using h⟩
  | some a =>
    obtain ⟨C, v, D, hsplit, hC, hD, hlookup, hdrop⟩ := h.split hkey
    refine ⟨{ c with cacheList := (a, key, v) :: (C ++ D) }, ?_, ?_⟩
    · simp [get, hkey, moveToFront_mid hsplit hC hD, deref, hlookup]
    · simpa [Recency.apply, hlookup, hdrop] using h.touch hsplit v

theorem put_follows (hpos : 1 ≤ capacity) (h : Holds capacity c items) (key : K) (value : V) :
    ∃ c', c.put key value = some (c', true) ∧
      Holds capacity c' (Recency.apply capacity items (.put key value)).1 := by
  cases hkey : c.cacheMap.lookup key with
  | none =>
    have hlookup := lookup_absent (h.absent hkey)
    obtain ⟨c₁, hroom, h₁, hlt, hkeep⟩ := h.makeRoom hpos
    refine ⟨_, by simp [put, hkey, hroom]; rfl, ?_⟩
    simpa [Recency.apply, hlookup] using h₁.insert hlt (hkeep key hkey) value
  | some a =>
    obtain ⟨C, v, D, hsplit, hC, hD, hlookup, hdrop⟩ := h.split hkey
    have hmove : LRUCache.moveToFront { c with cacheList := C ++ (a, key, value) :: D } a = _ :=
      moveToFront_mid rfl hC hD
    refine ⟨{ c with cacheList := (a, key, value) :: (C ++ D) }, ?_, ?_⟩
    · simp [put, hkey, assign_mid hsplit hC hD, hmove]
    · simpa [Recency.apply, hlookup, hdrop] using h.touch hsplit value

theorem remove_follows (h : Holds capacity c items) (key : K) :
    ∃ c', c.remove key = some (c', (items.lookup key).isSome) ∧
      Holds capacity c' (drop key items) := by
  cases hkey : c.cacheMap.lookup key with
  | none =>
    have hlookup := lookup_absent (h.absent hkey)
    have hdrop := drop_absent (h.absent hkey)
    exact ⟨c, by simp [remove, hkey, hlookup], by simpa [hdrop] using h⟩
  | some a =>
    obtain ⟨C, v, D, hsplit, hC, hD, hlookup, hdrop⟩ := h.split hkey
    refine ⟨{ c with cacheList := C ++ D, cacheMap := c.cacheMap.erase key }, ?_, ?_⟩
    · simp [remove, hkey, eraseNode_mid hsplit hC hD, hlookup]
    · simpa [hdrop] using h.forget hsplit

theorem Holds.clear (h : Holds capacity c items) : Holds capacity c.clear [] :=
  ⟨indexed_nil, rfl, by simp [LRUCache.clear], h.capacity, Nat.zero_le _⟩

theorem step_follows (hpos : 1 ≤ capacity) (c : LRUCache K V) (items : List (K × V))
    (op : Op K V) (h : Holds capacity c items) :
    ∃ c', step c op = some (c', (Recency.apply capacity items op).2) ∧
      Holds capacity c' (Recency.apply capacity items op).1 := by
  cases op with
  | get key =>
    obtain ⟨c', hget, hc'⟩ := get_follows h key
    refine ⟨c', ?_, hc'⟩
    cases hl : items.lookup key <;> simp [step, hget, Recency.apply, hl]
  | put key value =>
    obtain ⟨c', hput, hc'⟩ := put_follows hpos h key value
    refine ⟨c', ?_, hc'⟩
    cases hl : items.lookup key <;> simp [step, hput, Recency.apply, hl]
  | contains key => exact ⟨c, by simp [step, h.contains, Recency.apply], h⟩
  | remove key =>
    obtain ⟨c', hremove, hc'⟩ := remove_follows h key
    exact ⟨c', by simp [step, hremove, Recency.apply], hc'⟩
  | clear => exact ⟨c.clear, rfl, h.clear⟩

end Steps

end Cppforge.Cache.LRUCache
