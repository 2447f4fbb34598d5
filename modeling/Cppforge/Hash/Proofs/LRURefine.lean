import Cppforge.Cache.Proofs.LRURefine
import Cppforge.Hash.LRUCache
import Cppforge.Lib.Chain

namespace Cppforge.Hash.LRUCache
open Recency

variable {K V : Type} {nodes nodes₁ : Heap K V} {a b : Nat} {q : Option Nat} {L R : List Nat}
  {c : LRUCache K V} {capacity : Nat}

section Links

def prevOf (nodes : Heap K V) (a : Nat) : Option Nat := (nodes a).bind Node.prev

def nextOf (nodes : Heap K V) (a : Nat) : Option Nat := (nodes a).bind Node.next

/-- What a node holds. -/
def entry (nodes : Heap K V) (a : Nat) : Option (K × V) :=
  (nodes a).map fun node => (node.key, node.value)

theorem isSome_entry (nodes : Heap K V) (a : Nat) :
    (entry nodes a).isSome = (nodes a).isSome := Option.isSome_map

theorem next_eq (h : (entry nodes a).isSome = true) : next nodes a = some (nextOf nodes a) := by
  rw [isSome_entry, Option.isSome_iff_exists] at h
  obtain ⟨node, hnode⟩ := h
  simp [next, nextOf, hnode]

theorem prev_eq (h : (entry nodes a).isSome = true) : prev nodes a = some (prevOf nodes a) := by
  rw [isSome_entry, Option.isSome_iff_exists] at h
  obtain ⟨node, hnode⟩ := h
  simp [prev, prevOf, hnode]

/-- A write to a link changes no other link and nothing that the nodes hold. -/
theorem setPrev_spec (h : (entry nodes a).isSome = true) (q : Option Nat) :
    ∃ nodes', setPrev nodes (some a) q = some nodes' ∧
      prevOf nodes' = Function.update (prevOf nodes) a q ∧ nextOf nodes' = nextOf nodes ∧
      entry nodes' = entry nodes := by
  rw [isSome_entry, Option.isSome_iff_exists] at h
  obtain ⟨node, hnode⟩ := h
  refine ⟨Function.update nodes a (some { node with prev := q }), by simp [setPrev, hnode], ?_⟩
  refine ⟨?_, ?_, ?_⟩
  all_goals
    funext b
    by_cases hb : b = a
    · simp [prevOf, nextOf, entry, hb, hnode]
    · simp [prevOf, nextOf, entry, hb]

theorem setNext_spec (h : (entry nodes a).isSome = true) (q : Option Nat) :
    ∃ nodes', setNext nodes (some a) q = some nodes' ∧ prevOf nodes' = prevOf nodes ∧
      nextOf nodes' = Function.update (nextOf nodes) a q ∧ entry nodes' = entry nodes := by
  rw [isSome_entry, Option.isSome_iff_exists] at h
  obtain ⟨node, hnode⟩ := h
  refine ⟨Function.update nodes a (some { node with next := q }), by simp [setNext, hnode], ?_⟩
  refine ⟨?_, ?_, ?_⟩
  all_goals
    funext b
    by_cases hb : b = a
    · simp [prevOf, nextOf, entry, hb, hnode]
    · simp [prevOf, nextOf, entry, hb]

/-- A write to a value changes no link. -/
theorem assign_spec {k : K} {v : V} (h : entry c.nodes a = some (k, v)) (value : V) :
    ∃ nodes', c.assign a value = some { c with nodes := nodes' } ∧
      prevOf nodes' = prevOf c.nodes ∧ nextOf nodes' = nextOf c.nodes ∧
      entry nodes' = Function.update (entry c.nodes) a (some (k, value)) := by
  obtain ⟨node, hnode, hpair⟩ := Option.map_eq_some_iff.mp h
  obtain rfl : node.key = k := congrArg Prod.fst hpair
  refine ⟨Function.update c.nodes a (some { node with value }), by simp [assign, hnode], ?_⟩
  refine ⟨?_, ?_, ?_⟩
  all_goals
    funext b
    by_cases hb : b = a
    · simp [prevOf, nextOf, entry, hb, hnode]
    · simp [prevOf, nextOf, entry, hb]

/-- The heap's nodes `L` are linked both ways. -/
def Ring (nodes : Heap K V) (L : List Nat) : Prop :=
  Chain.Linked (prevOf nodes) (nextOf nodes) none L none ∧ L.Nodup ∧
    ∀ b ∈ L, (entry nodes b).isSome = true

/-- Writes to what the nodes hold leave the links. -/
theorem Ring.congr (h : Ring nodes L) (hprev : prevOf nodes₁ = prevOf nodes)
    (hnext : nextOf nodes₁ = nextOf nodes)
    (hlive : ∀ b ∈ L, (entry nodes b).isSome = true → (entry nodes₁ b).isSome = true) :
    Ring nodes₁ L := by
  refine ⟨?_, h.2.1, fun b hb => hlive b hb (h.2.2 b hb)⟩
  rw [hprev, hnext]
  exact h.1

/-- Only the nodes of the ring matter. -/
theorem Ring.frame (h : Ring nodes L) (hsame : ∀ b ∈ L, nodes₁ b = nodes b) : Ring nodes₁ L := by
  refine ⟨h.1.congr ?_, h.2.1, ?_⟩
  · intro b hb
    simp [prevOf, nextOf, hsame b hb]
  · intro b hb
    rw [isSome_entry, hsame b hb, ← isSome_entry]
    exact h.2.2 b hb

theorem addToHead_spec (h : Ring c.nodes (c.head :: R)) (hR : R ≠ [])
    (hnode : (entry c.nodes a).isSome = true) (hnew : a ∉ c.head :: R) :
    ∃ nodes', c.addToHead a = some { c with nodes := nodes' } ∧ entry nodes' = entry c.nodes ∧
      Ring nodes' (c.head :: a :: R) := by
  obtain ⟨hlinked, hnodup, hlive⟩ := h
  obtain ⟨first, R, rfl⟩ := List.exists_cons_of_ne_nil hR
  have hne : c.head ≠ a := fun heq => hnew (heq ▸ List.mem_cons_self)
  have hhead : (entry c.nodes c.head).isSome = true := hlive _ List.mem_cons_self
  have hfirst : nextOf c.nodes c.head = some first := (Chain.linked_mid (A := [])).mp hlinked |>.2.2.1
  obtain ⟨n₁, hset₁, hprev₁, hnext₁, hentry₁⟩ := setNext_spec hnode (some first)
  obtain ⟨n₂, hset₂, hprev₂, hnext₂, hentry₂⟩ :=
    setPrev_spec (hentry₁ ▸ hnode) (some c.head)
  have hsame₂ : entry n₂ = entry c.nodes := hentry₂.trans hentry₁
  have hfirst₂ : next n₂ c.head = some (some first) := by
    rw [next_eq (hsame₂ ▸ hhead), hnext₂, hnext₁, Function.update_of_ne hne, hfirst]
  have hlive₂ : (entry n₂ first).isSome = true := hsame₂ ▸ hlive first (by simp)
  obtain ⟨n₃, hset₃, hprev₃, hnext₃, hentry₃⟩ := setPrev_spec hlive₂ (some a)
  have hlive₃ : (entry n₃ c.head).isSome = true := hentry₃ ▸ hsame₂ ▸ hhead
  obtain ⟨n₄, hset₄, hprev₄, hnext₄, hentry₄⟩ := setNext_spec hlive₃ (some a)
  have hsame : entry n₄ = entry c.nodes := by
    rw [hentry₄, hentry₃, hsame₂]
  refine ⟨n₄, ?_, hsame, ?_, ?_, ?_⟩
  · simp [addToHead, next_eq hhead, hfirst, hset₁, hset₂, hfirst₂, hset₃, hset₄]
  · have hinsert := Chain.Linked.insert (A := []) hlinked hnodup hnew
    rw [hfirst] at hinsert
    rw [hprev₄, hprev₃, hprev₂, hprev₁, hnext₄, hnext₃, hnext₂, hnext₁]
    exact hinsert
  · rw [List.nodup_cons] at hnodup ⊢
    rw [List.mem_cons, not_or] at hnew
    refine ⟨?_, List.nodup_cons.mpr ⟨hnew.2, hnodup.2⟩⟩
    rw [List.mem_cons, not_or]
    exact ⟨hne, hnodup.1⟩
  · intro b hb
    rw [hsame]
    rcases List.mem_cons.mp hb with rfl | hb
    · exact hhead
    · rcases List.mem_cons.mp hb with rfl | hb
      · exact hnode
      · exact hlive b (List.mem_cons_of_mem _ hb)

theorem removeNode_spec (h : Ring c.nodes (L ++ a :: R)) (hL : L ≠ []) (hR : R ≠ []) :
    ∃ nodes', c.removeNode a = some { c with nodes := nodes' } ∧ entry nodes' = entry c.nodes ∧
      Ring nodes' (L ++ R) := by
  obtain ⟨hlinked, hnodup, hlive⟩ := h
  obtain ⟨right, R, rfl⟩ := List.exists_cons_of_ne_nil hR
  obtain ⟨L, left, rfl⟩ := (List.eq_nil_or_concat' L).resolve_left hL
  rw [List.append_assoc, List.singleton_append] at hlinked hnodup hlive ⊢
  have hleft : prevOf c.nodes a = some left := by
    have hmid := (Chain.linked_mid.mp hlinked).2.2.2
    exact hmid.1
  have hright : nextOf c.nodes a = some right := by
    have hmid := (Chain.linked_mid.mp hlinked).2.2.2
    exact hmid.2.1
  have hne : a ≠ left := by
    intro heq
    rw [List.nodup_append, List.nodup_cons] at hnodup
    exact hnodup.2.1.1 (heq ▸ List.mem_cons_self)
  have hnode := hlive a (by simp)
  obtain ⟨n₁, hset₁, hprev₁, hnext₁, hentry₁⟩ :=
    setNext_spec (hlive left (by simp)) (some right)
  have hright₁ : next n₁ a = some (some right) := by
    rw [next_eq (hentry₁ ▸ hnode), hnext₁, Function.update_of_ne hne, hright]
  have hleft₁ : prev n₁ a = some (some left) := by
    rw [prev_eq (hentry₁ ▸ hnode), hprev₁, hleft]
  have hlive₁ : (entry n₁ right).isSome = true := hentry₁ ▸ hlive right (by simp)
  obtain ⟨n₂, hset₂, hprev₂, hnext₂, hentry₂⟩ := setPrev_spec hlive₁ (some left)
  have hsame : entry n₂ = entry c.nodes := hentry₂.trans hentry₁
  refine ⟨n₂, ?_, hsame, ?_, ?_, ?_⟩
  · simp [removeNode, prev_eq hnode, next_eq hnode, hleft, hright, hset₁, hright₁, hleft₁, hset₂]
  · have hremove := hlinked.remove hnodup
    rw [hright] at hremove
    rw [hprev₂, hprev₁, hnext₂, hnext₁]
    exact hremove
  · refine hnodup.sublist ?_
    exact List.Sublist.append_left ((List.sublist_cons_self a _).cons_cons left) L
  · intro b hb
    rw [hsame]
    refine hlive b ?_
    simp only [List.mem_append, List.mem_cons] at hb ⊢
    tauto

end Links

section Invariant
variable {key : K} {v : V} {cells C D : List (Nat × K × V)}

/-- The addresses of the nodes, the sentinels included. -/
theorem mem_ring (head tail b : Nat) (value : V) :
    b ∈ head :: (((a, key, value) :: (C ++ D)).map Prod.fst ++ [tail]) ↔
      b ∈ head :: ((C ++ (a, key, v) :: D).map Prod.fst ++ [tail]) := by
  simp only [List.map_cons, List.map_append, List.mem_cons, List.mem_append, List.cons_append]
  tauto


/-- The cells that the map leads to, linked between the two sentinels in the order of their
last uses. Nothing else is alive. -/
structure Laid [DecidableEq K] (limit : Nat) (c : LRUCache K V) (cells : List (Nat × K × V)) :
    Prop where
  indexed : Indexed c.map cells
  ring : Ring c.nodes (c.head :: (cells.map Prod.fst ++ [c.tail]))
  entries : ∀ cell ∈ cells, entry c.nodes cell.1 = some cell.2
  live : ∀ a, (c.nodes a).isSome = true → a ∈ c.head :: (cells.map Prod.fst ++ [c.tail])
  fresh : ∀ a ∈ c.head :: (cells.map Prod.fst ++ [c.tail]), a < c.fresh
  size : c.size = cells.length
  capacity : c.capacity = limit
  room : cells.length ≤ limit

variable [DecidableEq K]

theorem create_laid [Inhabited K] [Inhabited V] (h : 1 ≤ capacity) :
    ∃ c : LRUCache K V, create capacity = .ok c ∧ Laid capacity c [] := by
  refine ⟨_, if_neg (by omega), indexed_nil, ⟨?_, by simp, ?_⟩, by simp, ?_, by simp, rfl, rfl,
    Nat.zero_le _⟩
  · exact ⟨rfl, rfl, rfl, rfl, trivial⟩
  · intro b hb
    simp only [List.map_nil, List.nil_append, List.mem_cons, List.not_mem_nil, or_false] at hb
    rcases hb with rfl | rfl
    · rfl
    · rfl
  · intro a ha
    simp only [initSentinels] at ha
    split at ha
    · simp [*]
    · split at ha
      · simp [*]
      · cases ha

theorem Laid.split_ring (h : Laid capacity c (C ++ (a, key, v) :: D)) :
    Ring c.nodes ((c.head :: C.map Prod.fst) ++ a :: (D.map Prod.fst ++ [c.tail])) ∧
      a ∉ c.head :: (C.map Prod.fst ++ (D.map Prod.fst ++ [c.tail])) := by
  have hring := h.ring
  rw [List.map_append, List.map_cons, List.append_assoc, List.cons_append] at hring
  refine ⟨hring, ?_⟩
  have hnodup := hring.2.1
  rw [← List.cons_append, List.nodup_middle, List.nodup_cons] at hnodup
  exact hnodup.1

/-- The node of a key moves to the head, where another value may have been written to it. -/
theorem Laid.touch (h : Laid capacity c (C ++ (a, key, v) :: D)) (value : V)
    (hprev : prevOf nodes₁ = prevOf c.nodes) (hnext : nextOf nodes₁ = nextOf c.nodes)
    (hentry : entry nodes₁ = Function.update (entry c.nodes) a (some (key, value))) :
    ∃ nodes', moveToHead { c with nodes := nodes₁ } a = some { c with nodes := nodes' } ∧
      entry nodes' a = some (key, value) ∧
      Laid capacity { c with nodes := nodes' } ((a, key, value) :: (C ++ D)) := by
  obtain ⟨hring, hnot⟩ := h.split_ring
  have hold : ∀ b ≠ a, entry nodes₁ b = entry c.nodes b := by
    intro b hb
    rw [hentry, Function.update_of_ne hb]
  have hhere : entry nodes₁ a = some (key, value) := by
    rw [hentry, Function.update_self]
  have hlive : ∀ b, (entry c.nodes b).isSome = true → (entry nodes₁ b).isSome = true := by
    intro b hb
    by_cases hba : b = a
    · simp [hba, hhere]
    · rwa [hold b hba]
  obtain ⟨n₂, hremove, hsame₂, hring₂⟩ := @removeNode_spec _ _ a _ _ { c with nodes := nodes₁ }
    (hring.congr hprev hnext fun b _ => hlive b) (List.cons_ne_nil _ _) (by simp)
  obtain ⟨n₃, hadd, hsame₃, hring₃⟩ := @addToHead_spec _ _ a _ { c with nodes := n₂ } hring₂
    (by simp) (by simp [hsame₂, hhere]) hnot
  have hsame : entry n₃ = entry nodes₁ := hsame₃.trans hsame₂
  refine ⟨n₃, by simp [moveToHead, hremove, hadd], by rw [hsame, hhere], h.indexed.touch value,
    ?_, ?_, ?_, ?_, ?_, h.capacity, ?_⟩
  · simpa using hring₃
  · intro cell hcell
    rw [hsame]
    rcases List.mem_cons.mp hcell with rfl | hcell
    · exact hhere
    · have hne : cell.1 ≠ a := by
        intro heq
        refine hnot (List.mem_cons_of_mem _ ?_)
        rw [← List.append_assoc, ← List.map_append]
        exact List.mem_append_left _ (heq ▸ List.mem_map_of_mem hcell)
      rw [hold _ hne]
      refine h.entries cell ?_
      rw [List.mem_append, List.mem_cons]
      exact (List.mem_append.mp hcell).imp_right .inr
  · intro b hb
    rw [mem_ring]
    apply h.live
    change (n₃ b).isSome = true at hb
    rw [← isSome_entry, hsame] at hb
    rw [← isSome_entry]
    by_cases hba : b = a
    · have hcell := h.entries (a, key, v) (by simp)
      simp [hba, hcell]
    · rwa [← hold b hba]
  · intro b hb
    exact h.fresh b ((mem_ring ..).mp hb)
  · rw [h.size]
    simp
    omega
  · have hroom := h.room
    simp at hroom ⊢
    omega

/-- The node of a key is unlinked and destroyed. -/
theorem Laid.forget (h : Laid capacity c (C ++ (a, key, v) :: D)) :
    ∃ nodes', c.removeNode a = some { c with nodes := nodes' } ∧
      (nodes' a).map Node.key = some key ∧
      Laid capacity { eraseKey { c with nodes := nodes' } key with size := c.size - 1 }
        (C ++ D) := by
  obtain ⟨hring, hnot⟩ := h.split_ring
  obtain ⟨n₂, hremove, hsame, hring₂⟩ := removeNode_spec hring (List.cons_ne_nil _ _) (by simp)
  have hhere : entry n₂ a = some (key, v) := by
    rw [hsame]
    exact h.entries (a, key, v) (by simp)
  have hlookup : c.map.lookup key = some a := (h.indexed.lookup key a).mpr ⟨v, by simp⟩
  have herase : eraseKey { c with nodes := n₂ } key =
      { c with map := c.map.erase key, nodes := Function.update n₂ a none } := by
    simp [eraseKey, hlookup]
  have hne : ∀ b ∈ c.head :: (C.map Prod.fst ++ (D.map Prod.fst ++ [c.tail])), b ≠ a :=
    fun b hb heq => hnot (heq ▸ hb)
  refine ⟨n₂, hremove, ?_, ?_⟩
  · obtain ⟨node, hnode, heq⟩ := Option.map_eq_some_iff.mp hhere
    rw [hnode]
    exact congrArg some (congrArg Prod.fst heq)
  rw [herase]
  have hrest : c.head :: ((C ++ D).map Prod.fst ++ [c.tail]) =
      c.head :: (C.map Prod.fst ++ (D.map Prod.fst ++ [c.tail])) := by
    rw [List.map_append, List.append_assoc]
  refine ⟨h.indexed.erase, ?_, ?_, ?_, ?_, ?_, h.capacity, ?_⟩
  · rw [hrest]
    exact Ring.frame hring₂ fun b hb => Function.update_of_ne (hne b hb) _ _
  · intro cell hcell
    have hmem : cell.1 ∈ c.head :: (C.map Prod.fst ++ (D.map Prod.fst ++ [c.tail])) := by
      rw [← hrest]
      exact List.mem_cons_of_mem _ (List.mem_append_left _ (List.mem_map_of_mem hcell))
    change entry (Function.update n₂ a none) cell.1 = some cell.2
    rw [entry, Function.update_of_ne (hne _ hmem), ← entry, hsame]
    refine h.entries cell ?_
    rw [List.mem_append, List.mem_cons]
    exact (List.mem_append.mp hcell).imp_right .inr
  · intro b hb
    change (Function.update n₂ a none b).isSome = true at hb
    by_cases hba : b = a
    · simp [hba] at hb
    · rw [Function.update_of_ne hba, ← isSome_entry, hsame, isSome_entry] at hb
      have hmem := (mem_ring c.head c.tail b v).mpr (h.live b hb)
      simpa [hba] using hmem
  · intro b hb
    refine h.fresh b ((mem_ring c.head c.tail b v).mp ?_)
    rw [List.map_cons, List.cons_append, List.mem_cons, List.mem_cons]
    exact (List.mem_cons.mp hb).imp_right .inr
  · rw [h.size]
    simp
  · have hroom := h.room
    simp at hroom ⊢
    omega

/-- Before a new key the node at the tail goes if the cache is full. -/
theorem Laid.makeRoom (h : Laid capacity c cells) (hpos : 1 ≤ capacity) :
    ∃ c', c.makeRoom = some c' ∧
      Laid capacity c' (if cells.length < capacity then cells else cells.dropLast) ∧
      (if cells.length < capacity then cells else cells.dropLast).length < capacity ∧
      ∀ key, c.map.lookup key = none → c'.map.lookup key = none := by
  by_cases hroom : cells.length < capacity
  · have hnot : ¬ c.size ≥ c.capacity := by
      rw [h.size, h.capacity]
      omega
    rw [if_pos hroom]
    exact ⟨c, if_neg hnot, h, hroom, fun _ hkey => hkey⟩
  · have hge : c.size ≥ c.capacity := by
      rw [h.size, h.capacity]
      omega
    have hne : cells ≠ [] := by
      apply List.ne_nil_of_length_pos
      omega
    obtain ⟨C, ⟨a, key, v⟩, rfl⟩ := (List.eq_nil_or_concat' cells).resolve_left hne
    obtain ⟨hring, hnot⟩ := h.split_ring
    obtain ⟨n₂, hremove, hkey, hlaid⟩ := h.forget
    have hlive : (entry c.nodes c.tail).isSome = true := hring.2.2 c.tail (by simp)
    have hlru : prev c.nodes c.tail = some (some a) := by
      have hlast := Chain.linked_mid.mp hring.1
      rw [prev_eq hlive]
      exact congrArg some hlast.2.2.2.1
    have hhead : ¬ (some a : Option Nat) = some c.head := by
      intro heq
      exact hnot (Option.some.inj heq ▸ List.mem_cons_self)
    obtain ⟨node, hnode, hkeyeq⟩ := Option.map_eq_some_iff.mp hkey
    rw [if_neg hroom, List.dropLast_concat]
    rw [List.append_nil] at hlaid
    refine ⟨_, ?_, hlaid, ?_, ?_⟩
    · rw [LRUCache.makeRoom, if_pos hge]
      simp [evictTail, hlru, hhead, hremove, hnode, hkeyeq]
    · have hlen := h.room
      rw [List.length_append, List.length_singleton] at hlen
      exact hlen
    · intro k hk
      have hlookup : c.map.lookup key = some a := (h.indexed.lookup key a).mpr ⟨v, by simp⟩
      have hne : k ≠ key := by
        rintro rfl
        rw [hlookup] at hk
        cases hk
      simp [eraseKey, hlookup, AList.lookup_erase_ne hne, hk]

/-- A new node is linked in behind the head. -/
theorem Laid.insert (h : Laid capacity c cells) (hroom : cells.length < capacity)
    (hkey : c.map.lookup key = none) (value : V) :
    ∃ c', (c.makeNode key value).addToHead c.fresh = some c' ∧
      Laid capacity { c' with map := c'.map.insert key c.fresh, size := c'.size + 1 }
        ((c.fresh, key, value) :: cells) := by
  have hnew : c.fresh ∉ c.head :: (cells.map Prod.fst ++ [c.tail]) := fun hmem =>
    absurd (h.fresh c.fresh hmem) (Nat.lt_irrefl _)
  have hold : ∀ b ∈ c.head :: (cells.map Prod.fst ++ [c.tail]), b ≠ c.fresh := fun b hb heq =>
    hnew (heq ▸ hb)
  have hring : Ring (c.makeNode key value).nodes (c.head :: (cells.map Prod.fst ++ [c.tail])) :=
    h.ring.frame fun b hb => Function.update_of_ne (hold b hb) _ _
  have hhere : entry (c.makeNode key value).nodes c.fresh = some (key, value) := by
    simp [entry, makeNode]
  obtain ⟨n₂, hadd, hsame, hring₂⟩ := @addToHead_spec _ _ c.fresh _ (c.makeNode key value) hring
    (by simp) (by simp [hhere]) hnew
  have hkept : ∀ b ≠ c.fresh, entry n₂ b = entry c.nodes b := by
    intro b hb
    rw [hsame]
    simp [entry, makeNode, hb]
  refine ⟨_, hadd, ?_, hring₂, ?_, ?_, ?_, ?_, h.capacity, hroom⟩
  · refine h.indexed.insert hkey ?_ value
    exact fun hmem => hnew (List.mem_cons_of_mem _ (List.mem_append_left _ hmem))
  · intro cell hcell
    rcases List.mem_cons.mp hcell with rfl | hcell
    · exact hsame ▸ hhere
    · have hmem := List.mem_append_left [c.tail] (List.mem_map_of_mem (f := Prod.fst) hcell)
      exact (hkept _ (hold _ (List.mem_cons_of_mem _ hmem))).trans (h.entries cell hcell)
  · intro b hb
    change (n₂ b).isSome = true at hb
    by_cases hbf : b = c.fresh
    · simp [hbf]
    · rw [← isSome_entry, hkept b hbf, isSome_entry] at hb
      have hmem := h.live b hb
      rw [List.map_cons, List.cons_append, List.mem_cons, List.mem_cons]
      exact (List.mem_cons.mp hmem).imp_right .inr
  · intro b hb
    rw [List.map_cons, List.cons_append, List.mem_cons, List.mem_cons] at hb
    have hlt : ∀ x ∈ c.head :: (cells.map Prod.fst ++ [c.tail]), x < c.fresh + 1 :=
      fun x hx => Nat.lt_succ_of_lt (h.fresh x hx)
    rcases hb with rfl | rfl | hb
    · exact hlt _ List.mem_cons_self
    · exact Nat.lt_succ_self _
    · exact hlt b (List.mem_cons_of_mem _ hb)
  · exact congrArg (· + 1) h.size

/-- The map owns the nodes of the cells. -/
theorem Laid.owned (h : Laid capacity c cells) (b : Nat) :
    b ∈ c.map.entries.map Sigma.snd ↔ b ∈ cells.map Prod.fst := by
  constructor
  · intro hb
    obtain ⟨⟨k, x⟩, hmem, rfl⟩ := List.mem_map.mp hb
    obtain ⟨value, hcell⟩ := (h.indexed.lookup k x).mp (AList.mem_lookup_iff.mpr hmem)
    exact List.mem_map_of_mem hcell
  · intro hb
    obtain ⟨⟨x, k, value⟩, hcell, rfl⟩ := List.mem_map.mp hb
    have hmem := AList.mem_lookup_iff.mp ((h.indexed.lookup k x).mpr ⟨value, hcell⟩)
    exact List.mem_map_of_mem hmem

theorem Laid.clear (h : Laid capacity c cells) :
    ∃ c', c.clear = some c' ∧ Laid capacity c' [] := by
  obtain ⟨hlinked, hnodup, hlive⟩ := h.ring
  have htail : nextOf c.nodes c.tail = none := by
    rw [← List.cons_append] at hlinked
    exact (Chain.linked_mid.mp hlinked).2.2.1
  rw [List.nodup_cons, List.nodup_append, List.mem_append, not_or] at hnodup
  obtain ⟨⟨hhead, hne⟩, _, _, hdisjoint⟩ := hnodup
  rw [List.mem_singleton] at hne
  have htailNot : c.tail ∉ cells.map Prod.fst := fun hmem =>
    hdisjoint c.tail hmem c.tail (List.mem_singleton_self _) rfl
  generalize hkept : (fun b => if b ∈ c.map.entries.map Sigma.snd then none else c.nodes b) = kept
  have hsame : ∀ b, b ∉ cells.map Prod.fst → kept b = c.nodes b := by
    intro b hb
    rw [← hkept]
    exact if_neg (mt (h.owned b).mp hb)
  have hgone : ∀ b ∈ cells.map Prod.fst, kept b = none := by
    intro b hb
    rw [← hkept]
    exact if_pos ((h.owned b).mpr hb)
  have hheadLive : (entry kept c.head).isSome = true := by
    rw [isSome_entry, hsame _ hhead, ← isSome_entry]
    exact hlive _ List.mem_cons_self
  have htailLive : (entry kept c.tail).isSome = true := by
    rw [isSome_entry, hsame _ htailNot, ← isSome_entry]
    exact hlive _ (by simp)
  obtain ⟨n₁, hset₁, hprev₁, hnext₁, hentry₁⟩ := setNext_spec hheadLive (some c.tail)
  obtain ⟨n₂, hset₂, hprev₂, hnext₂, hentry₂⟩ := setPrev_spec (hentry₁ ▸ htailLive) (some c.head)
  have hentry : entry n₂ = entry kept := hentry₂.trans hentry₁
  refine ⟨{ c with nodes := n₂, map := ∅, size := 0 }, ?_, indexed_nil, ⟨⟨?_, ?_, ?_, ?_, trivial⟩,
    by simpa using hne, ?_⟩, by simp, ?_, ?_, rfl, h.capacity, Nat.zero_le _⟩
  · simp only [LRUCache.clear, hkept, hset₁, hset₂, Option.bind_eq_bind, Option.bind_some,
      Option.pure_def]
  · rw [hprev₂, hprev₁, Function.update_of_ne hne, prevOf, hsame _ hhead]
    exact hlinked.1
  · rw [hnext₂, hnext₁, Function.update_self]
    rfl
  · rw [hprev₂, Function.update_self]
  · rw [hnext₂, hnext₁, Function.update_of_ne (Ne.symm hne), nextOf, hsame _ htailNot]
    exact htail
  · intro b hb
    rw [hentry]
    simp only [List.map_nil, List.nil_append, List.mem_cons, List.not_mem_nil, or_false] at hb
    rcases hb with rfl | rfl
    · exact hheadLive
    · exact htailLive
  · intro b hb
    change (n₂ b).isSome = true at hb
    rw [← isSome_entry, hentry, isSome_entry] at hb
    by_cases hmem : b ∈ cells.map Prod.fst
    · rw [hgone b hmem] at hb
      cases hb
    · rw [hsame b hmem] at hb
      have hring := h.live b hb
      rw [List.mem_cons, List.mem_append] at hring
      simpa [hmem] using hring
  · intro b hb
    simp only [List.map_nil, List.nil_append, List.mem_cons, List.not_mem_nil, or_false] at hb
    rcases hb with rfl | rfl
    · exact h.fresh _ List.mem_cons_self
    · exact h.fresh _ (by simp)

end Invariant

section Runs
variable [DecidableEq K] {items : List (K × V)} {key : K}

/-- The nodes between the sentinels are the items in order. -/
def Holds (limit : Nat) (c : LRUCache K V) (items : List (K × V)) : Prop :=
  ∃ cells, Laid limit c cells ∧ cells.map Prod.snd = items

theorem step_follows (hpos : 1 ≤ capacity) (c : LRUCache K V) (items : List (K × V))
    (op : Op K V) (h : Holds capacity c items) :
    ∃ c', step c op = some (c', (Recency.apply capacity items op).2) ∧
      Holds capacity c' (Recency.apply capacity items op).1 := by
  obtain ⟨cells, h, hitems⟩ := h
  have habsent : ∀ key, c.map.lookup key = none → key ∉ items.map Prod.fst := fun key hkey =>
    hitems ▸ h.indexed.items_absent hkey
  have hsplit : ∀ key a, c.map.lookup key = some a → ∃ C v D, cells = C ++ (a, key, v) :: D ∧
      items.lookup key = some v ∧ drop key items = (C ++ D).map Prod.snd := by
    intro key a hkey
    obtain ⟨C, v, D, hcells, _, _, hlookup, hdrop⟩ := h.indexed.items_split hkey
    exact ⟨C, v, D, hcells, hitems ▸ hlookup, hitems ▸ hdrop⟩
  cases op with
  | get key =>
    cases hkey : c.map.lookup key with
    | none =>
      have hlookup := lookup_absent (habsent key hkey)
      exact ⟨c, by simp [step, get, hkey, Recency.apply, hlookup], cells, h,
        by simp [Recency.apply, hlookup, hitems]⟩
    | some a =>
      obtain ⟨C, v, D, rfl, hlookup, hdrop⟩ := hsplit key a hkey
      have hown : entry c.nodes = Function.update (entry c.nodes) a (some (key, v)) :=
        (Function.update_eq_self_iff.mpr (h.entries (a, key, v) (by simp)).symm).symm
      obtain ⟨nodes', hmove, hhere, hlaid⟩ := h.touch v rfl rfl hown
      obtain ⟨node, hnode, hpair⟩ := Option.map_eq_some_iff.mp hhere
      have hvalue : node.value = v := congrArg Prod.snd hpair
      refine ⟨{ c with nodes := nodes' }, ?_, _, hlaid, ?_⟩
      · simp [step, get, hkey, hmove, hnode, hvalue, Recency.apply, hlookup]
      · simp [Recency.apply, hlookup, hdrop]
  | put key value =>
    cases hkey : c.map.lookup key with
    | none =>
      have hlookup := lookup_absent (habsent key hkey)
      obtain ⟨c₁, hroom, h₁, hlt, hkeep⟩ := h.makeRoom hpos
      obtain ⟨c₂, hadd, hlaid⟩ := h₁.insert hlt (hkeep key hkey) value
      refine ⟨_, ?_, _, hlaid, ?_⟩
      · simp [step, put, hkey, hroom, hadd, Recency.apply, hlookup]
      · have hlen : items.length = cells.length := by rw [← hitems, List.length_map]
        simp [Recency.apply, hlookup, apply_ite (List.map Prod.snd), List.map_dropLast, hitems, hlen]
    | some a =>
      obtain ⟨C, v, D, rfl, hlookup, hdrop⟩ := hsplit key a hkey
      obtain ⟨nodes₁, hassign, hprev, hnext, hentry⟩ :=
        assign_spec (h.entries (a, key, v) (by simp)) value
      obtain ⟨nodes', hmove, _, hlaid⟩ := h.touch value hprev hnext hentry
      refine ⟨{ c with nodes := nodes' }, ?_, _, hlaid, ?_⟩
      · simp [step, put, hkey, hassign, hmove, Recency.apply, hlookup]
      · simp [Recency.apply, hlookup, hdrop]
  | contains key =>
    refine ⟨c, ?_, cells, h, hitems⟩
    simp [step, contains, Recency.apply, ← hitems, h.indexed.isSome_lookup]
  | remove key =>
    cases hkey : c.map.lookup key with
    | none =>
      have hlookup := lookup_absent (habsent key hkey)
      exact ⟨c, by simp [step, erase, hkey, Recency.apply, hlookup], cells, h,
        hitems.trans (drop_absent (habsent key hkey)).symm⟩
    | some a =>
      obtain ⟨C, v, D, rfl, hlookup, hdrop⟩ := hsplit key a hkey
      obtain ⟨nodes', hremove, _, hlaid⟩ := h.forget
      refine ⟨_, ?_, _, hlaid, hdrop.symm⟩
      simp [step, erase, hkey, hremove, Recency.apply, hlookup]
  | clear =>
    obtain ⟨c', hclear, hlaid⟩ := h.clear
    exact ⟨c', by simp [step, hclear, Recency.apply], [], hlaid, rfl⟩

variable [Inhabited K] [Inhabited V]

/-- Both caches follow the list of the items in the order of their last uses, and so give the
same answers; in it a new key put into a full cache takes the place of the one used longest ago. -/
theorem run_lru_caches (capacity : Nat) (h : 1 ≤ capacity) (ops : List (Op K V)) :
    ∃ (c : LRUCache K V) (d : Cache.LRUCache K V),
      create capacity = .ok c ∧ Cache.LRUCache.create capacity = .ok d ∧
      Run.Refines step (Recency.apply capacity) (Holds capacity) c [] ops ∧
      Run.Refines Cache.LRUCache.step (Recency.apply capacity) (Cache.LRUCache.Holds capacity) d []
        ops ∧
      (Run.exec step c ops).map Prod.snd = (Run.exec Cache.LRUCache.step d ops).map Prod.snd ∧
      ∀ (done : List (Op K V)) key value, (contents capacity done).length = capacity →
        (contents capacity done).lookup key = none → ∃ kept oldest,
          contents capacity done = kept ++ [oldest] ∧
          (∀ i ∈ kept, age i.1 done < age oldest.1 done) ∧
          contents capacity (done ++ [.put key value]) = (key, value) :: kept := by
  obtain ⟨c, hc, hlaid⟩ := create_laid (K := K) (V := V) h
  obtain ⟨d, hd, hd₀⟩ := Cache.LRUCache.create_holds (K := K) (V := V) h
  have hc₀ : Holds capacity c [] := ⟨[], hlaid, rfl⟩
  have hfirst : Run.Refines step (Recency.apply capacity) (Holds capacity) c [] ops :=
    fun done _ => Run.exec_follows (step_follows h) done hc₀
  have hsecond : Run.Refines Cache.LRUCache.step (Recency.apply capacity)
      (Cache.LRUCache.Holds capacity) d [] ops :=
    fun done _ => Run.exec_follows (Cache.LRUCache.step_follows h) done hd₀
  refine ⟨c, d, hc, hd, hfirst, hsecond, ?_, ?_⟩
  · obtain ⟨c', hrun, _⟩ := hfirst ops (List.prefix_refl ops)
    obtain ⟨d', hrun', _⟩ := hsecond ops (List.prefix_refl ops)
    rw [hrun, hrun', Option.map_some, Option.map_some]
  · intro done key value hfull hnew
    exact put_evicts h hfull hnew

/-- With room for two, the third key takes the place of the one that was not got again. -/
theorem run_lru_caches_two :
    ∃ (c : LRUCache Nat Nat) (d : Cache.LRUCache Nat Nat),
      create 2 = .ok c ∧ Cache.LRUCache.create 2 = .ok d ∧
      Run.Refines step (Recency.apply 2) (Holds 2) c []
        [.put 1 10, .put 2 20, .get 1, .put 3 30, .get 2] ∧
      Run.Refines Cache.LRUCache.step (Recency.apply 2) (Cache.LRUCache.Holds 2) d []
        [.put 1 10, .put 2 20, .get 1, .put 3 30, .get 2] := by
  obtain ⟨c, d, hc, hd, hfirst, hsecond, _⟩ := run_lru_caches 2 (Nat.le_succ 1)
    ([.put 1 10, .put 2 20, .get 1, .put 3 30, .get 2] : List (Op Nat Nat))
  exact ⟨c, d, hc, hd, hfirst, hsecond⟩

end Runs

end Cppforge.Hash.LRUCache
