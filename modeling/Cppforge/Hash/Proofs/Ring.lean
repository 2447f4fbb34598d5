import Cppforge.Hash.ConsistentHash
import Mathlib.Data.List.Induction
import Cppforge.Lib.Picks

namespace Cppforge.Hash.ConsistentHash
open Bytes Ordered

section Replicas
variable (ring : SortedMap hashLess VNode) (node : Text)

theorem eraseReplicas_succ (count : Nat) :
    eraseReplicas ring node (count + 1) =
      (eraseReplicas ring node count).erase (hashVNode node count) := by
  simp [eraseReplicas, List.range_succ]

theorem placeReplicas_succ (count : Nat) :
    placeReplicas ring node (count + 1) =
      (placeReplicas ring node count).assign (hashVNode node count) ⟨node, count⟩ := by
  simp [placeReplicas, List.range_succ]

theorem find_eraseReplicas (count : Nat) (h : UInt64) (v : VNode) :
    (eraseReplicas ring node count).find h = some v ↔
      ring.find h = some v ∧ ∀ i < count, hashVNode node i ≠ h := by
  induction count with
  | zero => simp [eraseReplicas]
  | succ count ih =>
    rw [eraseReplicas_succ, SortedMap.find_erase]
    by_cases hh : h = hashVNode node count
    · rw [if_pos hh]
      constructor
      · intro hv
        cases hv
      · intro ⟨_, hall⟩
        exact absurd hh.symm (hall count (Nat.lt_succ_self _))
    · rw [if_neg hh, ih]
      constructor
      · intro ⟨hv, hall⟩
        refine ⟨hv, ?_⟩
        intro i hi
        rcases Nat.lt_succ_iff_lt_or_eq.mp hi with hi | rfl
        · exact hall i hi
        · exact Ne.symm hh
      · intro ⟨hv, hall⟩
        exact ⟨hv, fun i hi => hall i (Nat.lt_succ_of_lt hi)⟩

/-- What the ring holds after a node's replicas were placed, where they do not collide. -/
theorem find_placeReplicas (count : Nat)
    (hinj : ∀ i < count, ∀ j < count, hashVNode node i = hashVNode node j → i = j)
    (h : UInt64) (v : VNode) :
    (placeReplicas ring node count).find h = some v ↔
      (v.physicalNode = node ∧ v.index < count ∧ hashVNode node v.index = h) ∨
      (ring.find h = some v ∧ ∀ i < count, hashVNode node i ≠ h) := by
  induction count with
  | zero => simp [placeReplicas]
  | succ count ih =>
    have ih := ih (fun i hi j hj => hinj i (Nat.lt_succ_of_lt hi) j (Nat.lt_succ_of_lt hj))
    rw [placeReplicas_succ, SortedMap.find_assign]
    by_cases hh : h = hashVNode node count
    · rw [if_pos hh]
      constructor
      · intro hv
        cases hv
        exact .inl ⟨rfl, Nat.lt_succ_self _, hh.symm⟩
      · intro hv
        rcases hv with ⟨hn, hi, hv⟩ | ⟨_, hall⟩
        · have hindex := hinj v.index hi count (Nat.lt_succ_self _) (hv.trans hh)
          rw [← hn, ← hindex]
        · exact absurd hh.symm (hall count (Nat.lt_succ_self _))
    · rw [if_neg hh, ih]
      constructor
      · intro hv
        rcases hv with ⟨hn, hi, hv⟩ | ⟨hv, hall⟩
        · exact .inl ⟨hn, Nat.lt_succ_of_lt hi, hv⟩
        · refine .inr ⟨hv, ?_⟩
          intro i hi
          rcases Nat.lt_succ_iff_lt_or_eq.mp hi with hi | rfl
          · exact hall i hi
          · exact Ne.symm hh
      · intro hv
        rcases hv with ⟨hn, hi, hv⟩ | ⟨hv, hall⟩
        · rcases Nat.lt_succ_iff_lt_or_eq.mp hi with hi | hi
          · exact .inl ⟨hn, hi, hv⟩
          · rw [hi] at hv
            exact absurd hv.symm hh
        · exact .inr ⟨hv, fun i hi => hall i (Nat.lt_succ_of_lt hi)⟩

/-- What the ring may hold after a node's replicas were placed, collisions or not. -/
theorem find_placeReplicas_or {count : Nat} {h : UInt64} {v : VNode}
    (hv : (placeReplicas ring node count).find h = some v) :
    (v.physicalNode = node ∧ v.index < count ∧ hashVNode node v.index = h) ∨
      ring.find h = some v := by
  induction count with
  | zero => exact .inr hv
  | succ count ih =>
    rw [placeReplicas_succ, SortedMap.find_assign] at hv
    split at hv
    · rename_i hh
      cases hv
      exact .inl ⟨rfl, Nat.lt_succ_self _, hh.symm⟩
    · rcases ih hv with ⟨hn, hi, hv⟩ | hv
      · exact .inl ⟨hn, Nat.lt_succ_of_lt hi, hv⟩
      · exact .inr hv

end Replicas

section Image

/-- The replicas a call names. -/
def Op.replicas : Op → List (Text × Nat)
  | .addNode node virtualNodeCount =>
    (List.range (effectiveCount virtualNodeCount).toNat).map (fun i => (node, i))
  | _ => []

/-- No two replicas named by the calls have the same hash. -/
def Distinct (ops : List Op) : Prop :=
  ∀ a ∈ ops.flatMap Op.replicas, ∀ b ∈ ops.flatMap Op.replicas,
    hashVNode a.1 a.2 = hashVNode b.1 b.2 → a = b

instance (ops : List Op) : Decidable (Distinct ops) :=
  inferInstanceAs (Decidable (∀ a ∈ ops.flatMap Op.replicas, ∀ b ∈ ops.flatMap Op.replicas,
    hashVNode a.1 a.2 = hashVNode b.1 b.2 → a = b))

/-- The replicas of the registered nodes. -/
def Registered (c : ConsistentHash) (node : Text) (index : Nat) : Prop :=
  ∃ count, c.nodeVNodeCounts.find node = some count ∧ index < count.toNat

/-- Every entry of the ring is a replica of a registered node, at its own hash. -/
def Owned (c : ConsistentHash) : Prop :=
  ∀ h v, c.ring.find h = some v →
    Registered c v.physicalNode v.index ∧ hashVNode v.physicalNode v.index = h

/-- The ring is the image of the registry, whose replicas the calls have named. -/
structure Image (ops : List Op) (c : ConsistentHash) : Prop where
  ring : ∀ h v, c.ring.find h = some v ↔
    Registered c v.physicalNode v.index ∧ hashVNode v.physicalNode v.index = h
  named : ∀ node i, Registered c node i → (node, i) ∈ ops.flatMap Op.replicas

variable {ops : List Op} {c : ConsistentHash}

theorem image_empty : Image [] empty := by
  refine ⟨?_, ?_⟩
  · intro h v
    simp [empty, SortedMap.find_empty, Registered]
  · intro node i ⟨count, hc, _⟩
    simp [empty, SortedMap.find_empty] at hc

theorem Image.owned (hi : Image ops c) : Owned c := fun h v => (hi.ring h v).mp

/-- A node that is taken off leaves no entry behind. -/
theorem Owned.withoutReplicas (ho : Owned c) {node : Text} {h : UInt64} {v : VNode}
    (hv : (c.withoutReplicas node).find h = some v) :
    (Registered c v.physicalNode v.index ∧ v.physicalNode ≠ node) ∧
      hashVNode v.physicalNode v.index = h := by
  unfold ConsistentHash.withoutReplicas at hv
  cases hc : c.nodeVNodeCounts.find node with
  | none =>
    rw [hc] at hv
    obtain ⟨hr, hv⟩ := ho h v hv
    refine ⟨⟨hr, ?_⟩, hv⟩
    intro he
    obtain ⟨count, hcount, _⟩ := hr
    rw [he, hc] at hcount
    cases hcount
  | some count =>
    simp only [hc, find_eraseReplicas] at hv
    obtain ⟨hv, hall⟩ := hv
    obtain ⟨hr, hv⟩ := ho h v hv
    refine ⟨⟨hr, ?_⟩, hv⟩
    intro he
    obtain ⟨count', hcount, hlt⟩ := hr
    rw [he, hc] at hcount
    cases hcount
    exact hall v.index hlt (he ▸ hv)

theorem Image.withoutReplicas (hi : Image ops c) (hd : Distinct ops) (node : Text) (h : UInt64)
    (v : VNode) :
    (c.withoutReplicas node).find h = some v ↔
      (Registered c v.physicalNode v.index ∧ v.physicalNode ≠ node) ∧
        hashVNode v.physicalNode v.index = h := by
  refine ⟨hi.owned.withoutReplicas, ?_⟩
  intro ⟨⟨hr, hne⟩, hv⟩
  unfold ConsistentHash.withoutReplicas
  cases hc : c.nodeVNodeCounts.find node with
  | none => exact (hi.ring h v).mpr ⟨hr, hv⟩
  | some count =>
    refine (find_eraseReplicas _ _ _ h v).mpr ⟨(hi.ring h v).mpr ⟨hr, hv⟩, ?_⟩
    intro i hlt he
    -- the same hash would make it a replica of the node itself
    have hsame := hd _ (hi.named _ _ hr) _ (hi.named node i ⟨count, hc, hlt⟩) (hv.trans he.symm)
    exact hne (congrArg Prod.fst hsame)

theorem Distinct.prefix {ops ops' : List Op} (hd : Distinct (ops ++ ops')) : Distinct ops := by
  intro a ha b hb
  rw [Distinct, List.flatMap_append] at hd
  exact hd a (List.mem_append_left _ ha) b (List.mem_append_left _ hb)

theorem mem_replicas_append {ops : List Op} {node : Text} {i : Nat} (op : Op)
    (h : (node, i) ∈ ops.flatMap Op.replicas) : (node, i) ∈ (ops ++ [op]).flatMap Op.replicas := by
  rw [List.flatMap_append]
  exact List.mem_append_left _ h

theorem registered_addNode (node : Text) (virtualNodeCount : UInt32) (n : Text) (i : Nat) :
    Registered (c.addNode node virtualNodeCount) n i ↔
      (n = node ∧ i < (effectiveCount virtualNodeCount).toNat) ∨ (Registered c n i ∧ n ≠ node) := by
  unfold Registered addNode
  simp only [SortedMap.find_assign]
  by_cases hn : n = node <;> simp [hn]

theorem registered_removeNode (node : Text) (n : Text) (i : Nat) :
    Registered (c.removeNode node).1 n i ↔ Registered c n i ∧ n ≠ node := by
  unfold removeNode
  cases hc : c.nodeVNodeCounts.find node with
  | none =>
    constructor
    · intro hr
      refine ⟨hr, ?_⟩
      intro he
      obtain ⟨count, hcount, _⟩ := hr
      rw [he, hc] at hcount
      cases hcount
    · intro hr
      exact hr.1
  | some count =>
    unfold Registered
    simp only [SortedMap.find_erase]
    by_cases hn : n = node <;> simp [hn]

theorem Image.addNode (hi : Image ops c) (node : Text) (virtualNodeCount : UInt32)
    (hd : Distinct (ops ++ [.addNode node virtualNodeCount])) :
    Image (ops ++ [.addNode node virtualNodeCount]) (c.addNode node virtualNodeCount) := by
  have hnew : ∀ i < (effectiveCount virtualNodeCount).toNat,
      (node, i) ∈ (ops ++ [Op.addNode node virtualNodeCount]).flatMap Op.replicas := by
    intro i hlt
    rw [List.flatMap_append]
    refine List.mem_append_right _ ?_
    simpa [Op.replicas] using hlt
  have hinj : ∀ i < (effectiveCount virtualNodeCount).toNat,
      ∀ j < (effectiveCount virtualNodeCount).toNat,
      hashVNode node i = hashVNode node j → i = j :=
    fun i hi' j hj' he => congrArg Prod.snd (hd _ (hnew i hi') _ (hnew j hj') he)
  refine ⟨?_, ?_⟩
  · intro h v
    rw [registered_addNode]
    refine (find_placeReplicas _ _ _ hinj h v).trans ?_
    rw [hi.withoutReplicas hd.prefix node h v]
    constructor
    · intro hv
      rcases hv with ⟨hn, hlt, hv⟩ | ⟨⟨hr, hv⟩, _⟩
      · exact ⟨.inl ⟨hn, hlt⟩, hn ▸ hv⟩
      · exact ⟨.inr hr, hv⟩
    · intro ⟨hr, hv⟩
      rcases hr with ⟨hn, hlt⟩ | hr
      · exact .inl ⟨hn, hlt, hn ▸ hv⟩
      · refine .inr ⟨⟨hr, hv⟩, ?_⟩
        intro i hlt he
        have hsame := hd _ (mem_replicas_append _ (hi.named _ _ hr.1)) _ (hnew i hlt)
          (hv.trans he.symm)
        exact hr.2 (congrArg Prod.fst hsame)
  · intro n i hr
    rcases (registered_addNode node virtualNodeCount n i).mp hr with ⟨rfl, hlt⟩ | ⟨hr, _⟩
    · exact hnew i hlt
    · exact mem_replicas_append _ (hi.named n i hr)

theorem Image.removeNode (hi : Image ops c) (node : Text) (hd : Distinct ops) :
    Image (ops ++ [.removeNode node]) (c.removeNode node).1 := by
  refine ⟨?_, ?_⟩
  · intro h v
    rw [registered_removeNode, ← hi.withoutReplicas hd node h v, ConsistentHash.removeNode,
      ConsistentHash.withoutReplicas]
    cases c.nodeVNodeCounts.find node <;> rfl
  · intro n i hr
    exact mem_replicas_append _ (hi.named n i ((registered_removeNode node n i).mp hr).1)

theorem run_snoc (ops : List Op) (op : Op) : run (ops ++ [op]) = apply (run ops) op := by
  simp [run]

/-- Without collisions the ring is the image of the registry, whatever the history. -/
theorem image_run (ops : List Op) (hd : Distinct ops) : Image ops (run ops) := by
  induction ops using List.reverseRecOn with
  | nil => exact image_empty
  | append_singleton ops op ih =>
    have hi := ih hd.prefix
    rw [run_snoc]
    cases op with
    | addNode node virtualNodeCount => exact hi.addNode node virtualNodeCount hd
    | removeNode node => exact hi.removeNode node hd.prefix
    | clear =>
      refine ⟨image_empty.ring, ?_⟩
      intro n i hr
      obtain ⟨count, hc, _⟩ := hr
      simp [apply, clear, empty, SortedMap.find_empty] at hc

end Image

section Owned
variable {c : ConsistentHash}

theorem owned_empty : Owned empty := by
  intro h v hv
  simp [empty, SortedMap.find_empty] at hv

theorem Owned.addNode (ho : Owned c) (node : Text) (virtualNodeCount : UInt32) :
    Owned (c.addNode node virtualNodeCount) := by
  intro h v hv
  rw [registered_addNode]
  rcases find_placeReplicas_or _ _ hv with ⟨hn, hi, hv⟩ | hv
  · exact ⟨.inl ⟨hn, hi⟩, hn ▸ hv⟩
  · obtain ⟨hr, hv⟩ := ho.withoutReplicas hv
    exact ⟨.inr hr, hv⟩

theorem Owned.removeNode (ho : Owned c) (node : Text) : Owned (c.removeNode node).1 := by
  intro h v hv
  rw [registered_removeNode]
  refine ho.withoutReplicas ?_
  rw [ConsistentHash.removeNode] at hv
  rw [ConsistentHash.withoutReplicas]
  cases hc : c.nodeVNodeCounts.find node <;> simpa only [hc] using hv

/-- Whatever collides, no entry is left of a node that is not registered. -/
theorem owned_run (ops : List Op) : Owned (run ops) := by
  induction ops using List.reverseRecOn with
  | nil => exact owned_empty
  | append_singleton ops op ih =>
    rw [run_snoc]
    cases op with
    | addNode node virtualNodeCount => exact ih.addNode node virtualNodeCount
    | removeNode node => exact ih.removeNode node
    | clear => exact owned_empty

end Owned

section Disruption
variable {c c' : ConsistentHash} {node : Text} {key : Text}

/-- Only keys that the node owns are affected by its replicas. -/
theorem getNode_filter (h : c.ring = c'.ring.filter (fun e => e.2.physicalNode != node))
    (key : Text) : c'.getNode key = some node ∨ c.getNode key = c'.getNode key := by
  cases hs : c'.ring.successor (hashBytes key) with
  | none =>
    right
    have hnil : c.ring = c'.ring := by
      rw [h]
      refine SortedMap.ext ?_
      simp [SortedMap.filter, SortedMap.successor_eq_none hs]
    rw [getNode, getNode, hnil]
  | some e =>
    by_cases he : e.2.physicalNode = node
    · left
      rw [getNode, hs, Option.map_some, he]
    · right
      rw [getNode, getNode, h, SortedMap.successor_filter hs (by simpa using he), hs]

/-- The ring before a node came, or after it went, from the ring with it. -/
theorem ring_eq_filter {ops ops' : List Op} (hi : Image ops c) (hi' : Image ops' c')
    (hreg : ∀ n i, Registered c n i ↔ Registered c' n i ∧ n ≠ node) :
    c.ring = c'.ring.filter (fun e => e.2.physicalNode != node) := by
  refine SortedMap.ext_find ?_
  intro h
  apply Option.ext
  intro v
  rw [SortedMap.find_filter, Option.filter_eq_some_iff, hi.ring, hi'.ring, hreg]
  simp only [bne_iff_ne]
  exact and_right_comm

theorem registered_new {virtualNodeCount : UInt32} (hnew : c.nodeVNodeCounts.find node = none)
    (n : Text) (i : Nat) :
    Registered c n i ↔ Registered (c.addNode node virtualNodeCount) n i ∧ n ≠ node := by
  rw [registered_addNode]
  constructor
  · intro hr
    have hne : n ≠ node := by
      intro he
      obtain ⟨count, hcount, _⟩ := hr
      rw [he, hnew] at hcount
      cases hcount
    exact ⟨.inr ⟨hr, hne⟩, hne⟩
  · intro ⟨hr, hne⟩
    rcases hr with ⟨he, _⟩ | ⟨hr, _⟩
    · exact absurd he hne
    · exact hr

end Disruption

/-- A new node takes keys only for itself, a removed node gives up only its own, and the
ring depends on the registry alone. -/
theorem ring_history (ops : List Op) (hd : Distinct ops) :
    (∀ node count key, (run ops).nodeVNodeCounts.find node = none →
      Distinct (ops ++ [.addNode node count]) →
      ((run ops).addNode node count).getNode key ≠ (run ops).getNode key →
      ((run ops).addNode node count).getNode key = some node) ∧
    (∀ node key, ((run ops).removeNode node).1.getNode key ≠ (run ops).getNode key →
      (run ops).getNode key = some node) ∧
    ∀ ops', Distinct ops' → (run ops').nodeVNodeCounts = (run ops).nodeVNodeCounts →
      ∀ key, (run ops').getNode key = (run ops).getNode key ∧
        ∀ n, (run ops').getNodes key n = (run ops).getNodes key n := by
  have hi := image_run ops hd
  refine ⟨?_, ?_, ?_⟩
  · intro node count key hnew hd' hdiff
    have hfilter := ring_eq_filter hi (hi.addNode node count hd') (registered_new hnew)
    exact (getNode_filter hfilter key).resolve_right (fun he => hdiff he.symm)
  · intro node key hdiff
    have hfilter := ring_eq_filter (hi.removeNode node hd) hi (registered_removeNode node)
    exact (getNode_filter hfilter key).resolve_right hdiff
  · intro ops' hd' hsame key
    have hring : (run ops').ring = (run ops).ring := by
      refine SortedMap.ext_find ?_
      intro h
      apply Option.ext
      intro v
      rw [(image_run ops' hd').ring, hi.ring]
      simp only [Registered, hsame]
    exact ⟨by rw [getNode, getNode, hring], fun n => by rw [getNodes, getNodes, hring]⟩

/-- Nodes `a` and `b`, `a` added again with another count, `b` removed. -/
theorem ring_history_readded :
    (∀ key, ((run [.addNode [97] 2, .addNode [98] 0, .addNode [97] 4]).removeNode [98]).1.getNode
        key ≠ (run [.addNode [97] 2, .addNode [98] 0, .addNode [97] 4]).getNode key →
      (run [.addNode [97] 2, .addNode [98] 0, .addNode [97] 4]).getNode key = some [98]) ∧
    ∀ key, (run [.addNode [98] 3, .addNode [97] 4]).getNode key =
      (run [.addNode [97] 2, .addNode [98] 0, .addNode [97] 4]).getNode key := by
  obtain ⟨_, hremove, hhistory⟩ :=
    ring_history [.addNode [97] 2, .addNode [98] 0, .addNode [97] 4] (by decide +kernel)
  refine ⟨hremove [98], ?_⟩
  intro key
  exact (hhistory [.addNode [98] 3, .addNode [97] 4] (by decide +kernel) (by decide +kernel) key).1

open Firsts

variable {ring : List (UInt64 × VNode)} {c : ConsistentHash} {n start it : Nat}

section Walk

def owner (e : UInt64 × VNode) : Text := e.2.physicalNode

/-- The entries that a walk from index `it` meets until it is back at `start`. -/
def ahead (ring : List (UInt64 × VNode)) (start it : Nat) : List (UInt64 × VNode) :=
  if start ≤ it then ring.drop it ++ ring.take start else (ring.take start).drop it

/-- The index after `it`, with the first one after the last. -/
def around (ring : List (UInt64 × VNode)) (it : Nat) : Nat :=
  if it + 1 = ring.length then 0 else it + 1

theorem around_lt (hit : it < ring.length) : around ring it < ring.length := by
  rw [around]
  split <;> omega

theorem ahead_step (hs : start < ring.length) (hit : it < ring.length) :
    ahead ring start it = ring[it] ::
      if around ring it = start then [] else ahead ring start (around ring it) := by
  by_cases hle : start ≤ it
  · have hdrop : ring.drop it = ring[it] :: ring.drop (it + 1) := List.drop_eq_getElem_cons hit
    rw [ahead, if_pos hle, hdrop, List.cons_append]
    refine congrArg _ ?_
    by_cases hlast : it + 1 = ring.length
    · rw [around, if_pos hlast, hlast, List.drop_length, List.nil_append]
      by_cases hzero : start = 0
      · rw [if_pos hzero.symm, hzero, List.take_zero]
      · rw [if_neg (Ne.symm hzero), ahead, if_neg (by omega), List.drop_zero]
    · rw [around, if_neg hlast, if_neg (by omega), ahead, if_pos (by omega)]
  · have hlt : it < (ring.take start).length := by
      rw [List.length_take]
      omega
    have hdrop : (ring.take start).drop it = ring[it] :: (ring.take start).drop (it + 1) := by
      rw [List.drop_eq_getElem_cons hlt, List.getElem_take]
    have haround : around ring it = it + 1 := if_neg (by omega)
    rw [haround, ahead, if_neg hle, hdrop]
    refine congrArg _ ?_
    by_cases hback : it + 1 = start
    · rw [if_pos hback, hback, List.drop_eq_nil_iff, List.length_take]
      exact Nat.min_le_left _ _
    · rw [if_neg hback, ahead, if_neg (by omega)]

/-- The walk collects the owners it meets, each where it is met first. `met` are those before. -/
theorem collect_spec (hs : start < ring.length) {fuel : Nat} {met : List Text}
    (hit : it < ring.length) (hn : met.eraseDups.length < n)
    (hf : (ahead ring start it).length ≤ fuel) :
    collect ring n start fuel it met.eraseDups =
      some ((met ++ (ahead ring start it).map owner).eraseDups.take n) := by
  induction fuel generalizing it met with
  | zero =>
    rw [ahead_step hs hit] at hf
    exact absurd hf (Nat.not_succ_le_zero _)
  | succ fuel ih =>
    have hstep := ahead_step hs hit
    cases hentry : ring[it] with
    | mk h v =>
    have hget : ring[it]? = some (h, v) := by rw [List.getElem?_eq_getElem hit, hentry]
    have hnext : (if it + 1 = ring.length then 0 else it + 1) = around ring it := rfl
    -- what is collected with the owner of this entry
    have hresult : (if !met.eraseDups.contains v.physicalNode then
        met.eraseDups ++ [v.physicalNode] else met.eraseDups) =
        (met ++ [v.physicalNode]).eraseDups := by
      by_cases hold : v.physicalNode ∈ met
      · rw [eraseDups_old hold, if_neg (by simpa [List.mem_eraseDups] using hold)]
      · rw [eraseDups_new hold, if_pos (by simpa [List.mem_eraseDups] using hold)]
    rw [hentry] at hstep
    rw [hstep, List.length_cons] at hf
    simp only [collect, hget, Option.bind_eq_bind, Option.bind_some, hresult, hnext]
    have howners : (ahead ring start it).map owner = v.physicalNode ::
        (if around ring it = start then [] else ahead ring start (around ring it)).map owner := by
      rw [hstep]
      rfl
    rw [howners, List.append_cons met v.physicalNode (List.map owner _)]
    by_cases hstop : (!met.eraseDups.contains v.physicalNode &&
        decide (n ≤ (met ++ [v.physicalNode]).eraseDups.length)) = true
    · have hnew : v.physicalNode ∉ met := by
        simpa [List.mem_eraseDups] using (Bool.and_eq_true_iff.mp hstop).1
      have hfull := of_decide_eq_true (Bool.and_eq_true_iff.mp hstop).2
      have hlen : (met ++ [v.physicalNode]).eraseDups.length = n := by
        rw [eraseDups_new hnew, List.length_append, List.length_singleton] at hfull ⊢
        omega
      rw [if_pos hstop]
      exact congrArg some (take_eraseDups _ hlen).symm
    · have hroom : (met ++ [v.physicalNode]).eraseDups.length < n := by
        by_cases hold : v.physicalNode ∈ met
        · rwa [eraseDups_old hold]
        · simpa [List.mem_eraseDups, hold] using hstop
      rw [if_neg hstop]
      by_cases hback : around ring it = start
      · rw [if_pos hback, if_pos hback, List.map_nil, List.append_nil]
        exact congrArg some (List.take_of_length_le (Nat.le_of_lt hroom)).symm
      · rw [if_neg hback, if_neg hback]
        rw [if_neg hback] at hf
        exact ih (around_lt hit) hroom (Nat.le_of_succ_le_succ hf)

end Walk

section Nodes

/-- The owners of all entries clockwise from a key, those at or after its hash first. -/
def clockwise (c : ConsistentHash) (key : Text) : List Text :=
  (c.ring.entries.filter (fun e => !hashLess e.1 (hashBytes key)) ++
    c.ring.entries.filter (fun e => hashLess e.1 (hashBytes key))).map owner

theorem clockwise_perm (c : ConsistentHash) (key : Text) :
    (c.clockwise key).Perm (c.ring.entries.map owner) := by
  refine List.Perm.map _ (List.perm_append_comm.trans ?_)
  exact List.filter_append_perm _ _

theorem getNode_eq (c : ConsistentHash) (key : Text) : c.getNode key = (c.clockwise key).head? := by
  rw [getNode, SortedMap.successor, SortedMap.lowerBound, clockwise, List.head?_map,
    List.head?_append, List.head?_filter, List.head?_filter]
  cases hat : c.ring.entries.find? (fun e => !hashLess e.1 (hashBytes key)) with
  | some e => rfl
  | none =>
    rw [Option.none_or, Option.none_or]
    have hall : ∀ e ∈ c.ring.entries, hashLess e.1 (hashBytes key) = true := by
      simpa using List.find?_eq_none.mp hat
    cases hentries : c.ring.entries with
    | nil => rfl
    | cons e rest =>
      have hfirst : hashLess e.1 (hashBytes key) = true := hall e (by simp [hentries])
      simp [hfirst, owner]

/-- The nodes are the first `n` of the owners clockwise, repetitions left out. -/
theorem getNodes_eq (c : ConsistentHash) (key : Text) (n : UInt32) :
    c.getNodes key n = some ((c.clockwise key).eraseDups.take n.toNat) := by
  by_cases hnone : c.ring.entries.isEmpty = true ∨ n = 0
  · rw [getNodes, if_pos (by simpa using hnone)]
    rcases hnone with hempty | rfl
    · have hnil := List.isEmpty_iff.mp hempty
      simp [clockwise, hnil]
    · simp
  · rw [getNodes, if_neg (by simpa using hnone)]
    obtain ⟨hentries, hn⟩ := not_or.mp hnone
    have hlen : 0 < c.ring.entries.length := by
      rw [List.length_pos_iff]
      simpa using hentries
    have hpos : 0 < n.toNat := by
      rcases Nat.eq_zero_or_pos n.toNat with hzero | hpos
      · exact absurd (UInt32.toNat_inj.mp hzero) hn
      · exact hpos
    obtain ⟨htake, hdrop⟩ := c.ring.cut_findIdx StrictTotal.weak (hashBytes key)
    have hle : c.ring.entries.findIdx (fun e => !hashLess e.1 (hashBytes key)) ≤
        c.ring.entries.length := List.findIdx_le_length
    revert htake hdrop hle
    generalize c.ring.entries.findIdx (fun e => !hashLess e.1 (hashBytes key)) = lower
    intro htake hdrop hle
    -- the index past the last entry is that of the first one again
    obtain ⟨start, hstart, hlt, hahead⟩ : ∃ start,
        (if lower = c.ring.entries.length then 0 else lower) = start ∧
        start < c.ring.entries.length ∧
        ahead c.ring.entries start start = c.ring.entries.drop lower ++ c.ring.entries.take lower := by
      by_cases hpast : lower = c.ring.entries.length
      · exact ⟨0, if_pos hpast, hlen, by simp [ahead, hpast]⟩
      · exact ⟨lower, if_neg hpast, by omega, by simp [ahead]⟩
    have hwalk : collect c.ring.entries n.toNat start c.ring.entries.length start
        ([] : List Text).eraseDups =
        some (([] ++ (ahead c.ring.entries start start).map owner).eraseDups.take n.toNat) := by
      refine collect_spec hlt hlt hpos (Nat.le_of_eq ?_)
      rw [hahead, List.length_append, Nat.add_comm, ← List.length_append, List.take_append_drop]
    rw [hahead, htake, hdrop] at hwalk
    simp only [hstart]
    exact hwalk

/-- Whatever collides, the ring has entries of registered nodes only, and the nodes of a key are
the first so many of those met clockwise from it. -/
theorem ring_walk (ops : List Op) :
    (∀ e ∈ (run ops).ring.entries, Registered (run ops) e.2.physicalNode e.2.index) ∧
    ∀ key n, ∃ nodes, (run ops).getNodes key n = some nodes ∧
      nodes = ((run ops).clockwise key).eraseDups.take n.toNat ∧ nodes.Nodup ∧
      nodes.length = min n.toNat ((run ops).ring.entries.map owner).toFinset.card ∧
      (∀ node ∈ nodes, ((run ops).nodeVNodeCounts.find node).isSome = true) ∧
      nodes.head? = (if n = 0 then none else (run ops).getNode key) ∧
      ∀ m ≤ n, ∃ fewer, (run ops).getNodes key m = some fewer ∧ fewer <+: nodes := by
  have hregistered : ∀ e ∈ (run ops).ring.entries,
      Registered (run ops) e.2.physicalNode e.2.index := by
    intro e he
    exact (owned_run ops e.1 e.2 ((SortedMap.find_eq_some_iff _ _ _).mpr he)).1
  refine ⟨hregistered, ?_⟩
  intro key n
  refine ⟨_, getNodes_eq (run ops) key n, rfl, ?_, ?_, ?_, ?_, ?_⟩
  · exact (nodup_eraseDups _).sublist (List.take_sublist _ _)
  · rw [List.length_take, length_eraseDups, List.toFinset_eq_of_perm _ _ (clockwise_perm _ key)]
  · intro node hnode
    have hmem := List.mem_eraseDups.mp (List.mem_of_mem_take hnode)
    obtain ⟨e, he, rfl⟩ := List.mem_map.mp ((clockwise_perm _ key).mem_iff.mp hmem)
    obtain ⟨count, hcount, _⟩ := hregistered e he
    rw [owner, hcount]
    rfl
  · rw [List.head?_take, head?_eraseDups, getNode_eq]
    by_cases hn : n = 0
    · simp [hn]
    · have hpos : n.toNat ≠ 0 := fun hzero => hn (UInt32.toNat_inj.mp hzero)
      rw [if_neg hn, if_neg hpos]
  · intro m hm
    refine ⟨_, getNodes_eq (run ops) key m, ?_⟩
    exact List.take_prefix_take_left (UInt32.le_iff_toNat_le.mp hm)

end Nodes

end Cppforge.Hash.ConsistentHash
