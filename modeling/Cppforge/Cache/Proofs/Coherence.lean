import Cppforge.Cache.Caches
import Cppforge.Cache.Proofs.LRURefine
import Mathlib.Logic.Function.Basic

namespace Cppforge.Cache.MultiLevelCache
open Recency

variable {K V S : Type} [DecidableEq K] {capacity : Nat} {c : MultiLevelCache K V S}
  {backend : IL2CacheBackend K V S} {store : S} {Stores : S → (K → Option V) → Prop}
  {m : K → Option V} {items : List (K × V)} {key k : K} {value : V}

/-- A second level that is a map, where any write of a value may fail and then changes nothing. -/
structure Faulty (backend : IL2CacheBackend K V S) (Stores : S → (K → Option V) → Prop) :
    Prop where
  get : ∀ store m key, Stores store m →
    Stores (backend.get store key).1 m ∧ (backend.get store key).2 = m key
  put : ∀ store m key value, Stores store m →
    Stores (backend.put store key value).1
      (if (backend.put store key value).2 then Function.update m key (some value) else m)
  remove : ∀ store m key, Stores store m →
    Stores (backend.remove store key).1 (Function.update m key none)
  clear : ∀ store m, Stores store m → Stores (backend.clear store) fun _ => none

/-- What the two levels hold. -/
structure Levels (Stores : S → (K → Option V) → Prop) (backend : IL2CacheBackend K V S)
    (capacity : Nat) (c : MultiLevelCache K V S) (items : List (K × V)) (m : K → Option V) :
    Prop where
  first : LRUCache.Holds capacity c.l1Cache items
  second : ∃ store, c.l2Backend = some (backend, store) ∧ Stores store m

theorem create_levels (backend : IL2CacheBackend K V S) (h : 1 ≤ capacity)
    (hstore : Stores store m) :
    ∃ c : MultiLevelCache K V S, create capacity (some (backend, store)) = .ok c ∧
      Levels Stores backend capacity c [] m := by
  obtain ⟨l1, hcreate, hl1⟩ := LRUCache.create_holds (K := K) (V := V) h
  refine ⟨⟨l1, some (backend, store)⟩, ?_, hl1, store, rfl, hstore⟩
  rw [create, hcreate]
  rfl

section Calls

/-- The items of the first level after a key is got, which the second level may have to supply. -/
def promoted (capacity : Nat) (items : List (K × V)) (m : K → Option V) (key : K) :
    List (K × V) :=
  match items.lookup key, m key with
  | none, some value => (apply capacity items (.put key value)).1
  | _, _ => (apply capacity items (.get key)).1

theorem Levels.get (hpos : 1 ≤ capacity) (hfaulty : Faulty backend Stores)
    (h : Levels Stores backend capacity c items m) (key : K) :
    ∃ c', c.get key = some (c', (items.lookup key).or (m key)) ∧
      Levels Stores backend capacity c' (promoted capacity items m key) m := by
  obtain ⟨hl1, store, hl2, hstore⟩ := h
  obtain ⟨l1, hget, hl1'⟩ := LRUCache.get_follows hl1 key
  cases hlookup : items.lookup key with
  | some value =>
    refine ⟨⟨l1, c.l2Backend⟩, by simp [MultiLevelCache.get, hget, hlookup], ?_, store, hl2, hstore⟩
    simpa only [promoted, hlookup] using hl1'
  | none =>
    obtain ⟨hstore', hvalue⟩ := hfaulty.get store m key hstore
    have hpair : backend.get store key = ((backend.get store key).1, m key) := by rw [← hvalue]
    have hsame : (apply capacity items (.get key)).1 = items := by simp [apply, hlookup]
    cases hm : m key with
    | none =>
      rw [hm] at hpair
      refine ⟨⟨l1, some (backend, (backend.get store key).1)⟩, ?_, ?_, _, rfl, hstore'⟩
      · simp only [MultiLevelCache.get, hget, hlookup, hl2, Option.bind_eq_bind, Option.bind_some]
        rw [hpair]
        rfl
      · simpa only [promoted, hlookup, hm] using hl1'
    | some value =>
      rw [hm] at hpair
      rw [hsame] at hl1'
      obtain ⟨l1', hput, hl1''⟩ := LRUCache.put_follows hpos hl1' key value
      refine ⟨⟨l1', some (backend, (backend.get store key).1)⟩, ?_, ?_, _, rfl, hstore'⟩
      · simp only [MultiLevelCache.get, hget, hlookup, hl2, Option.bind_eq_bind, Option.bind_some]
        rw [hpair]
        simp [hput]
      · simpa only [promoted, hlookup, hm] using hl1''

/-- What the second level holds after a put that it may fail. -/
def written (backend : IL2CacheBackend K V S) (store : S) (m : K → Option V) (key : K) (value : V) :
    K → Option V :=
  if (backend.put store key value).2 then Function.update m key (some value) else m

theorem written_ne (hne : k ≠ key) : written backend store m key value k = m k := by
  unfold written
  split
  · exact Function.update_of_ne hne _ _
  · rfl

theorem Levels.put (hpos : 1 ≤ capacity) (hfaulty : Faulty backend Stores)
    (h : Levels Stores backend capacity c items m) (key : K) (value : V) :
    ∃ c' store, c.l2Backend = some (backend, store) ∧ Stores store m ∧
      c.put key value = some (c', true) ∧
      Levels Stores backend capacity c' (apply capacity items (.put key value)).1
        (written backend store m key value) := by
  obtain ⟨hl1, store, hl2, hstore⟩ := h
  obtain ⟨l1, hput, hl1'⟩ := LRUCache.put_follows hpos hl1 key value
  exact ⟨⟨l1, some (backend, (backend.put store key value).1)⟩, store, hl2, hstore,
    by simp [MultiLevelCache.put, hput, hl2], hl1', _, rfl, hfaulty.put store m key value hstore⟩

theorem Levels.remove (hfaulty : Faulty backend Stores)
    (h : Levels Stores backend capacity c items m) (key : K) :
    ∃ c' removed, c.remove key = some (c', removed) ∧
      Levels Stores backend capacity c' (drop key items) (Function.update m key none) := by
  obtain ⟨hl1, store, hl2, hstore⟩ := h
  obtain ⟨l1, hremove, hl1'⟩ := LRUCache.remove_follows hl1 key
  exact ⟨⟨l1, some (backend, (backend.remove store key).1)⟩, _,
    by simp [MultiLevelCache.remove, hremove, hl2]; rfl, hl1', _, rfl,
    hfaulty.remove store m key hstore⟩

theorem Levels.clear (hfaulty : Faulty backend Stores)
    (h : Levels Stores backend capacity c items m) :
    Levels Stores backend capacity c.clear [] fun _ => none := by
  obtain ⟨hl1, store, hl2, hstore⟩ := h
  exact ⟨hl1.clear, backend.clear store, by simp [MultiLevelCache.clear, hl2],
    hfaulty.clear store m hstore⟩

end Calls

end Cppforge.Cache.MultiLevelCache

namespace Cppforge.Cache.MultiLevelCache
open Recency

variable {K V S : Type} [DecidableEq K] {capacity : Nat} {c : MultiLevelCache K V S}
  {backend : IL2CacheBackend K V S} {store : S} {Stores : S → (K → Option V) → Prop}
  {m : K → Option V}

/-- What a call leaves of the value of a key. -/
def held (key : K) (value : Option V) : Op K V → Option V
  | .get _ => value
  | .put k v => if k = key then some v else value
  | .remove k => if k = key then none else value
  | .clear => none

/-- The value last put for a key that no later call took back. -/
def lastPut (ops : List (Op K V)) (key : K) : Option V := ops.foldl (held key) none

/-- A second level that is a map and never fails: `Stores store m` says that it holds `m`. -/
structure Reliable (backend : IL2CacheBackend K V S) (Stores : S → (K → Option V) → Prop) :
    Prop where
  get : ∀ store m key, Stores store m →
    Stores (backend.get store key).1 m ∧ (backend.get store key).2 = m key
  put : ∀ store m key value, Stores store m →
    Stores (backend.put store key value).1 (Function.update m key (some value)) ∧
      (backend.put store key value).2 = true
  remove : ∀ store m key, Stores store m →
    Stores (backend.remove store key).1 (Function.update m key none) ∧
      (backend.remove store key).2 = (m key).isSome
  clear : ∀ store m, Stores store m → Stores (backend.clear store) fun _ => none

/-- The second level holds the map and the first a part of it. -/
structure Coherent (Stores : S → (K → Option V) → Prop) (backend : IL2CacheBackend K V S)
    (capacity : Nat) (c : MultiLevelCache K V S) (m : K → Option V) : Prop where
  first : ∃ items, LRUCache.Holds capacity c.l1Cache items ∧ Part items m
  second : ∃ store, c.l2Backend = some (backend, store) ∧ Stores store m

/-- A second level that never fails is one that may. -/
theorem Reliable.faulty (h : Reliable backend Stores) : Faulty backend Stores where
  get := h.get
  put store m key value hstore := by
    obtain ⟨hstore', hok⟩ := h.put store m key value hstore
    rwa [if_pos hok]
  remove store m key hstore := (h.remove store m key hstore).1
  clear := h.clear

theorem Coherent.levels (h : Coherent Stores backend capacity c m) :
    ∃ items, Levels Stores backend capacity c items m ∧ Part items m := by
  obtain ⟨⟨items, hl1, hpart⟩, hl2⟩ := h
  exact ⟨items, ⟨hl1, hl2⟩, hpart⟩

theorem Levels.coherent {items : List (K × V)} (h : Levels Stores backend capacity c items m)
    (hpart : Part items m) : Coherent Stores backend capacity c m :=
  ⟨⟨items, h.first, hpart⟩, h.second⟩

theorem part_nil (m : K → Option V) : Part [] m := by
  intro key value hkey
  cases hkey

theorem create_coherent (h : 1 ≤ capacity) (hstore : Stores store fun _ => none) :
    ∃ c, create capacity (some (backend, store)) = .ok c ∧
      Coherent Stores backend capacity c fun _ => none := by
  obtain ⟨c, hcreate, hc⟩ := create_levels backend h hstore
  exact ⟨c, hcreate, hc.coherent (part_nil _)⟩

theorem part_promoted {items : List (K × V)} (h : Part items m) (key : K) :
    Part (promoted capacity items m key) m := by
  unfold promoted
  split
  · rename_i value _ hm
    have hself : Function.update m key (some value) = m := by
      rw [Function.update_eq_self_iff]
      exact hm.symm
    have hput := h.put capacity key value
    rwa [hself] at hput
  · exact h.get capacity key

/-- A key got from the second level is put into the first, where another may have to go. -/
theorem Coherent.get (hpos : 1 ≤ capacity) (hreliable : Reliable backend Stores)
    (h : Coherent Stores backend capacity c m) (key : K) :
    ∃ c', c.get key = some (c', m key) ∧ Coherent Stores backend capacity c' m := by
  obtain ⟨items, hlevels, hpart⟩ := h.levels
  obtain ⟨c', hget, hc'⟩ := hlevels.get hpos hreliable.faulty key
  have hvalue : (items.lookup key).or (m key) = m key := by
    cases hlookup : items.lookup key with
    | none => rfl
    | some value => exact (hpart key value hlookup).symm
  rw [hvalue] at hget
  exact ⟨c', hget, hc'.coherent (part_promoted hpart key)⟩

theorem Coherent.put (hpos : 1 ≤ capacity) (hreliable : Reliable backend Stores)
    (h : Coherent Stores backend capacity c m) (key : K) (value : V) :
    ∃ c', c.put key value = some (c', true) ∧
      Coherent Stores backend capacity c' (Function.update m key (some value)) := by
  obtain ⟨items, hlevels, hpart⟩ := h.levels
  obtain ⟨c', store, _, hstore, hput, hc'⟩ := hlevels.put hpos hreliable.faulty key value
  rw [written, if_pos (hreliable.put store m key value hstore).2] at hc'
  exact ⟨c', hput, hc'.coherent (hpart.put capacity key value)⟩

theorem Coherent.remove (hreliable : Reliable backend Stores)
    (h : Coherent Stores backend capacity c m) (key : K) :
    ∃ c' removed, c.remove key = some (c', removed) ∧
      Coherent Stores backend capacity c' (Function.update m key none) := by
  obtain ⟨items, hlevels, hpart⟩ := h.levels
  obtain ⟨c', removed, hremove, hc'⟩ := hlevels.remove hreliable.faulty key
  exact ⟨c', removed, hremove, hc'.coherent (hpart.drop key)⟩

theorem Coherent.clear (hreliable : Reliable backend Stores)
    (h : Coherent Stores backend capacity c m) :
    Coherent Stores backend capacity c.clear fun _ => none := by
  obtain ⟨items, hlevels, _⟩ := h.levels
  exact (hlevels.clear hreliable.faulty).coherent (part_nil _)

theorem Coherent.step (hpos : 1 ≤ capacity) (hreliable : Reliable backend Stores)
    (c : MultiLevelCache K V S) (m : K → Option V) (op : Op K V)
    (h : Coherent Stores backend capacity c m) :
    ∃ c', step c op = some c' ∧
      Coherent Stores backend capacity c' fun key => held key (m key) op := by
  cases op with
  | get key =>
    obtain ⟨c', hget, hc'⟩ := h.get hpos hreliable key
    exact ⟨c', by simp [MultiLevelCache.step, hget], hc'⟩
  | put key value =>
    obtain ⟨c', hput, hc'⟩ := h.put hpos hreliable key value
    refine ⟨c', by simp [MultiLevelCache.step, hput], ?_⟩
    convert hc' using 1
    funext k
    simp [held, Function.update_apply, eq_comm]
  | remove key =>
    obtain ⟨c', removed, hremove, hc'⟩ := h.remove hreliable key
    refine ⟨c', by simp [MultiLevelCache.step, hremove], ?_⟩
    convert hc' using 1
    funext k
    simp [held, Function.update_apply, eq_comm]
  | clear => exact ⟨c.clear, rfl, h.clear hreliable⟩

/-- After any calls a key has the value last put for it. -/
theorem get_coherent (hpos : 1 ≤ capacity) (hreliable : Reliable backend Stores)
    (hstore : Stores store fun _ => none) :
    ∃ c, create capacity (some (backend, store)) = .ok c ∧ ∀ (ops : List (Op K V)),
      ∃ c', ops.foldlM step c = some c' ∧
        ∀ key, ∃ c'', c'.get key = some (c'', lastPut ops key) := by
  obtain ⟨c, hcreate, hc⟩ := create_coherent hpos hstore
  refine ⟨c, hcreate, ?_⟩
  intro ops
  obtain ⟨c', hrun, hc'⟩ := Run.follows (Coherent.step hpos hreliable) ops hc
  refine ⟨c', hrun, ?_⟩
  intro key
  obtain ⟨c'', hget, _⟩ := hc'.get hpos hreliable key
  have hlast : ∀ (ops : List (Op K V)) (m : K → Option V),
      (ops.foldl (fun m op key => held key (m key) op) m) key = ops.foldl (held key) (m key) := by
    intro ops
    induction ops with
    | nil => exact fun _ => rfl
    | cons op ops ih => exact fun m => ih _
  exact ⟨c'', by rw [hget, hlast]; rfl⟩

/-- The second level that is the map itself. -/
def mapBackend : IL2CacheBackend K V (K → Option V) where
  get m key := (m, m key)
  put m key value := (Function.update m key (some value), true)
  remove m key := (Function.update m key none, (m key).isSome)
  clear _ := fun _ => none

theorem mapBackend_reliable : Reliable (mapBackend : IL2CacheBackend K V _) Eq := by
  constructor
  · rintro m _ key rfl
    exact ⟨rfl, rfl⟩
  · rintro m _ key value rfl
    exact ⟨rfl, rfl⟩
  · rintro m _ key rfl
    exact ⟨rfl, rfl⟩
  · rintro m _ rfl
    rfl

/-- A key evicted from a first level of one entry. -/
theorem get_coherent_evicted : ∃ c c' c'' : MultiLevelCache Nat Nat _,
    create 1 (some (mapBackend, fun _ => none)) = .ok c ∧
    [.put 1 5, .put 2 6].foldlM step c = some c' ∧ c'.get 1 = some (c'', some 5) := by
  obtain ⟨c, hcreate, hruns⟩ :=
    get_coherent (K := Nat) (V := Nat) (Nat.le_refl 1) mapBackend_reliable rfl
  obtain ⟨c', hrun, hgets⟩ := hruns [.put 1 5, .put 2 6]
  obtain ⟨c'', hget⟩ := hgets 1
  exact ⟨c, c', c'', hcreate, hrun, hget⟩

end Cppforge.Cache.MultiLevelCache
