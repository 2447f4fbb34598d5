import Cppforge.Concurrent.ConcurrentHashMap
import Cppforge.Lib.Splice
import Mathlib.Data.Nat.Bitwise

namespace Cppforge.Concurrent.ConcurrentHashMap
open KeyMap Splice

variable {K V : Type} {h : Hashing K} {segmentBits s : Nat} {seg seg' : Segment K V}
  {m : ConcurrentHashMap K V} {xs chain chain' rest : List (K × V)} {key : K} {value : V}
  {overloaded : Nat → Nat → Bool}

section Chains

theorem scan_eq (chain : List (K × V)) (key : K) : scan h chain key = lookup h chain key := by
  induction chain with
  | nil => rfl
  | cons cur next ih =>
    by_cases he : h.keyEqual cur.1 key = true
    · simp [scan, lookup, he]
    · simpa [scan, lookup, he] using ih

/-- Past the node of a key there is no other. -/
theorem lookup_next {cur : K × V} {next : List (K × V)} (hd : Distinct h (cur :: next))
    (he : h.keyEqual cur.1 key = true) : lookup h next key = none := by
  rw [lookup_none]
  intro p hp
  have hne := (List.pairwise_cons.mp hd).1 p hp
  rwa [h.congr he, h.comm] at hne

theorem assignNode_eq (hd : Distinct h chain) (value : V) :
    assignNode h chain key value =
      if (lookup h chain key).isSome then some (assign h chain key value).1 else none := by
  induction chain with
  | nil => rfl
  | cons cur next ih =>
    by_cases he : h.keyEqual cur.1 key = true
    · have hsame : next.map (fun p => if h.keyEqual p.1 key then (p.1, value) else p) = next := by
        conv_rhs => rw [← List.map_id next]
        refine List.map_congr_left ?_
        intro p hp
        simp [lookup_none.mp (lookup_next hd he) p hp]
      simp [assignNode, assign, lookup, he, hsame]
    · have hih := ih (List.pairwise_cons.mp hd).2
      have hlook : lookup h (cur :: next) key = lookup h next key := by simp [lookup, he]
      rw [assignNode, if_neg he, hih, hlook]
      cases hl : lookup h next key with
      | none => rfl
      | some p => simp [assign, hlook, hl, he]

theorem unlinkNode_eq (hd : Distinct h chain) (key : K) :
    unlinkNode h chain key =
      if (lookup h chain key).isSome then some (KeyMap.erase h chain key).1 else none := by
  induction chain with
  | nil => rfl
  | cons cur next ih =>
    by_cases he : h.keyEqual cur.1 key = true
    · have hsame := erase_absent (lookup_next hd he)
      simpa [unlinkNode, KeyMap.erase, lookup, he] using hsame.symm
    · have hih := ih (List.pairwise_cons.mp hd).2
      have hlook : lookup h (cur :: next) key = lookup h next key := by simp [lookup, he]
      rw [unlinkNode, if_neg he, hih, hlook]
      cases hl : lookup h next key with
      | none => rfl
      | some p => simp [KeyMap.erase, he]

end Chains

namespace Segment

/-- Every node of the buckets is where its hash says. -/
def BucketsPlaced (h : Hashing K) (segmentBits s capacity : Nat)
    (buckets : List (List (K × V))) : Prop :=
  ∀ i chain, buckets[i]? = some chain → ∀ p ∈ chain,
    segmentFor h segmentBits p.1 = s ∧ bucketIndex h segmentBits p.1 capacity = i

/-- Every node of a segment of index `s` is in the bucket that its hash selects, and the hash
selects the segment. -/
def Placed (h : Hashing K) (segmentBits s : Nat) (seg : Segment K V) : Prop :=
  BucketsPlaced h segmentBits s seg.capacity seg.buckets

structure Sound (h : Hashing K) (segmentBits s : Nat) (seg : Segment K V) : Prop where
  capacity : ∃ k, seg.capacity = 2 ^ k
  length : seg.buckets.length = seg.capacity
  size : seg.size = seg.pairs.length
  placed : seg.Placed h segmentBits s

theorem bucketIndex_lt (h : Hashing K) (segmentBits : Nat) (key : K) {capacity : Nat}
    (hc : ∃ k, capacity = 2 ^ k) : bucketIndex h segmentBits key capacity < capacity := by
  obtain ⟨k, rfl⟩ := hc
  rw [bucketIndex, bucketMask, if_neg (Nat.two_pow_pos k).ne', Nat.and_two_pow_sub_one_eq_mod]
  exact Nat.mod_lt _ (Nat.two_pow_pos k)

theorem BucketsPlaced.set {capacity i : Nat} {buckets : List (List (K × V))}
    (hb : BucketsPlaced h segmentBits s capacity buckets)
    (hchain : ∀ p ∈ chain',
      segmentFor h segmentBits p.1 = s ∧ bucketIndex h segmentBits p.1 capacity = i) :
    BucketsPlaced h segmentBits s capacity (buckets.set i chain') := by
  intro j chain hj p hp
  by_cases hij : i = j
  · subst hij
    have hi : i < buckets.length := by
      simpa using (List.getElem?_eq_some_iff.mp hj).1
    rw [List.getElem?_set_self hi, Option.some.injEq] at hj
    exact hchain p (hj ▸ hp)
  · rw [List.getElem?_set_ne hij] at hj
    exact hb j chain hj p hp

/-- Nodes moved to other buckets get where their hash says. -/
theorem relink_spec {capacity : Nat} (hc : ∃ k, capacity = 2 ^ k) {buckets : List (List (K × V))}
    (hlen : buckets.length = capacity) (hb : BucketsPlaced h segmentBits s capacity buckets)
    (hchain : ∀ p ∈ chain, segmentFor h segmentBits p.1 = s) :
    ∃ buckets', relink h segmentBits capacity buckets chain = some buckets' ∧
      buckets'.length = capacity ∧ BucketsPlaced h segmentBits s capacity buckets' ∧
      (buckets'.flatMap id).Perm (chain ++ buckets.flatMap id) := by
  induction chain generalizing buckets with
  | nil => exact ⟨buckets, rfl, hlen, hb, .refl _⟩
  | cons cur next ih =>
    have hlt := bucketIndex_lt h segmentBits cur.1 hc
    obtain ⟨old, hold⟩ : ∃ old, buckets[bucketIndex h segmentBits cur.1 capacity]? = some old :=
      ⟨_, List.getElem?_eq_getElem (hlen ▸ hlt)⟩
    obtain ⟨hcur, hnext⟩ := List.forall_mem_cons.mp hchain
    have hset : BucketsPlaced h segmentBits s capacity
        (buckets.set (bucketIndex h segmentBits cur.1 capacity) (cur :: old)) := by
      apply hb.set
      intro p hp
      rcases List.mem_cons.mp hp with rfl | hp
      · exact ⟨hcur, rfl⟩
      · exact hb _ _ hold p hp
    obtain ⟨buckets', hrun, hlen', hb', hperm⟩ := ih (by simpa using hlen) hset hnext
    refine ⟨buckets', by simp [relink, hold, hrun], hlen', hb', ?_⟩
    obtain ⟨others, hbefore, hflat, -⟩ := flatMap_set id hold
    calc (buckets'.flatMap id).Perm _ := hperm
      List.Perm _ (next ++ (cur :: (old ++ others))) := (hflat (cur :: old)).append_left next
      List.Perm _ (cur :: (next ++ (old ++ others))) := List.perm_middle
      List.Perm _ (cur :: (next ++ buckets.flatMap id)) := (hbefore.symm.append_left next).cons cur

theorem relinkAll_spec {capacity : Nat} (hc : ∃ k, capacity = 2 ^ k)
    {chains buckets : List (List (K × V))} (hlen : buckets.length = capacity)
    (hb : BucketsPlaced h segmentBits s capacity buckets)
    (hall : ∀ chain ∈ chains, ∀ p ∈ chain, segmentFor h segmentBits p.1 = s) :
    ∃ buckets', chains.foldlM (relink h segmentBits capacity) buckets = some buckets' ∧
      buckets'.length = capacity ∧ BucketsPlaced h segmentBits s capacity buckets' ∧
      (buckets'.flatMap id).Perm (chains.flatMap id ++ buckets.flatMap id) := by
  induction chains generalizing buckets with
  | nil => exact ⟨buckets, rfl, hlen, hb, .refl _⟩
  | cons chain chains ih =>
    obtain ⟨hchain, hchains⟩ := List.forall_mem_cons.mp hall
    obtain ⟨mid, hmid, hlen₁, hb₁, hperm₁⟩ := relink_spec hc hlen hb hchain
    obtain ⟨buckets', hrest, hlen', hb', hperm'⟩ := ih hlen₁ hb₁ hchains
    refine ⟨buckets', by simp [hmid, hrest], hlen', hb', ?_⟩
    calc (buckets'.flatMap id).Perm _ := hperm'
      List.Perm _ (chains.flatMap id ++ (chain ++ buckets.flatMap id)) := hperm₁.append_left _
      List.Perm _ (chain ++ (chains.flatMap id ++ buckets.flatMap id)) :=
        List.perm_append_comm_assoc _ _ _
      List.Perm _ ((chain :: chains).flatMap id ++ buckets.flatMap id) := by simp

theorem empty_placed (h : Hashing K) (segmentBits s capacity n : Nat) :
    BucketsPlaced (V := V) h segmentBits s capacity (List.replicate n []) := by
  intro i chain hi p hp
  have hnil := List.eq_of_mem_replicate (List.mem_of_getElem? hi)
  simp [hnil] at hp

theorem rehash_spec (hseg : Sound h segmentBits s seg) :
    ∃ seg', seg.rehash h segmentBits = some seg' ∧ Sound h segmentBits s seg' ∧
      seg'.pairs.Perm seg.pairs := by
  obtain ⟨k, hk⟩ := hseg.capacity
  have hc : ∃ j, seg.capacity * 2 = 2 ^ j := ⟨k + 1, by rw [hk, Nat.pow_succ]⟩
  have hall : ∀ chain ∈ seg.buckets, ∀ p ∈ chain, segmentFor h segmentBits p.1 = s := by
    intro chain hchain p hp
    obtain ⟨i, hi⟩ := List.mem_iff_getElem?.mp hchain
    exact (hseg.placed i chain hi p hp).1
  obtain ⟨buckets', hfold, hlen', hb', hperm⟩ :=
    relinkAll_spec hc (List.length_replicate ..) (empty_placed h segmentBits s _ _) hall
  have hpairs : (buckets'.flatMap id).Perm seg.pairs := by simpa [pairs] using hperm
  have hsize : seg.size = (buckets'.flatMap id).length := hseg.size.trans hpairs.length_eq.symm
  exact ⟨⟨buckets', seg.capacity * 2, seg.size⟩, by simp [rehash, hfold],
    ⟨hc, hlen', hsize, hb'⟩, hpairs⟩

/-- The chain of a key has all pairs of the segment that are equal to it. -/
theorem chain_at (hseg : Sound h segmentBits s seg) (key : K) :
    ∃ chain rest, seg.buckets[bucketIndex h segmentBits key seg.capacity]? = some chain ∧
      lookup h rest key = none ∧ seg.pairs.Perm (chain ++ rest) ∧
      ∀ chain', ((seg.buckets.set (bucketIndex h segmentBits key seg.capacity) chain').flatMap
        id).Perm (chain' ++ rest) := by
  have hlt := bucketIndex_lt h segmentBits key hseg.capacity
  obtain ⟨chain, hchain⟩ :
      ∃ chain, seg.buckets[bucketIndex h segmentBits key seg.capacity]? = some chain :=
    ⟨_, List.getElem?_eq_getElem (by rw [hseg.length]; exact hlt)⟩
  obtain ⟨rest, hbefore, hset, hrest⟩ := flatMap_set id hchain
  refine ⟨_, rest, hchain, ?_, hbefore, hset⟩
  rw [lookup_none]
  intro p hp
  obtain ⟨j, other, hj, hother, hp⟩ := hrest p hp
  refine Bool.eq_false_iff.mpr (fun he => hj ?_)
  rw [← (hseg.placed j other hother p hp).2, bucketIndex, bucketIndex, h.consistent _ _ he]

/-- Doing an operation on the chain of its key does it on the segment. -/
theorem Sound.edit (hseg : Sound h segmentBits s seg) {f : List (K × V) → List (K × V) × Bool}
    (hf : Local h key f) (hs : segmentFor h segmentBits key = s) (hd : Distinct h seg.pairs) :
    ∃ chain, seg.buckets[bucketIndex h segmentBits key seg.capacity]? = some chain ∧
      Distinct h chain ∧ lookup h chain key = lookup h seg.pairs key ∧
      (f chain).2 = (f seg.pairs).2 ∧
      ∀ n, n + chain.length = seg.size + (f chain).1.length →
        let seg' : Segment K V := ⟨seg.buckets.set (bucketIndex h segmentBits key seg.capacity)
          (f chain).1, seg.capacity, n⟩
        Sound h segmentBits s seg' ∧ seg'.pairs.Perm (f seg.pairs).1 := by
  obtain ⟨chain, rest, hchain, hrest, hpairs, hset⟩ := chain_at hseg key
  obtain ⟨hafter, hres⟩ := hf.part hd hpairs hrest (List.Perm.refl _)
  have hdistinct := hd.perm hpairs
  refine ⟨chain, hchain, (List.pairwise_append.mp hdistinct).1, ?_, hres, ?_⟩
  · rw [← lookup_append hrest]
    exact lookup_perm hd hpairs
  · intro n hn
    refine ⟨⟨hseg.capacity, by simpa using hseg.length, ?_, ?_⟩, (hset _).trans hafter⟩
    · have hcount := (hset (f chain).1).length_eq
      have hsize := hseg.size
      rw [hpairs.length_eq] at hsize
      simp only [pairs, List.length_append] at hcount hsize ⊢
      omega
    · apply hseg.placed.set
      intro p hp
      rcases hf.keys chain p hp with hp | ⟨q, hq, hp⟩
      · rw [hp]
        exact ⟨hs, rfl⟩
      · rw [← hp]
        exact hseg.placed _ chain hchain q hq

/-- What the part of a call under the lock does to a segment, as an operation on a finite map. -/
def Follows (h : Hashing K) (segmentBits s : Nat)
    (body : Segment K V → Option (Segment K V × Bool))
    (f : List (K × V) → List (K × V) × Bool) : Prop :=
  ∀ seg, Sound h segmentBits s seg → Distinct h seg.pairs →
    ∃ seg', body seg = some (seg', (f seg.pairs).2) ∧ Sound h segmentBits s seg' ∧
      seg'.pairs.Perm (f seg.pairs).1

/-- Before and after the rehash the nodes are where their hash says. -/
theorem insertNew_spec (hseg : Sound h segmentBits s seg) (hd : Distinct h seg.pairs)
    (hs : segmentFor h segmentBits key = s) (hk : lookup h seg.pairs key = none) (value : V)
    (overloaded : Nat → Nat → Bool) :
    ∃ linked rehashed, seg.link h segmentBits key value = some linked ∧
      Sound h segmentBits s linked ∧ linked.rehash h segmentBits = some rehashed ∧
      Sound h segmentBits s rehashed ∧ rehashed.pairs.Perm linked.pairs ∧
      linked.pairs.Perm ((key, value) :: seg.pairs) ∧
      seg.insertNew h segmentBits overloaded key value =
        some (if linked.needRehash overloaded then rehashed else linked, true) := by
  obtain ⟨chain, hchain, _, hlook, _, hedit⟩ := hseg.edit (local_insert h key value) hs hd
  rw [hk] at hlook
  simp only [KeyMap.insert, hlook, hk] at hedit
  obtain ⟨hlinked, hpairs⟩ := hedit (seg.size + 1) (by simp; omega)
  obtain ⟨rehashed, hrun, hrehashed, hperm⟩ := rehash_spec hlinked
  refine ⟨_, rehashed, by simp only [link, hchain]; rfl, hlinked, hrun, hrehashed, hperm, hpairs, ?_⟩
  simp only [insertNew, link, hchain, Option.bind_eq_bind, Option.bind_some, Option.pure_def, grow]
  split
  · simp [hrun]
  · rfl

theorem insertNew_sound (hseg : Sound h segmentBits s seg) (hd : Distinct h seg.pairs)
    (hs : segmentFor h segmentBits key = s) (hk : lookup h seg.pairs key = none) (value : V)
    (overloaded : Nat → Nat → Bool) :
    ∃ seg', seg.insertNew h segmentBits overloaded key value = some (seg', true) ∧
      Sound h segmentBits s seg' ∧ seg'.pairs.Perm ((key, value) :: seg.pairs) := by
  obtain ⟨linked, rehashed, _, hlinked, _, hrehashed, hperm, hpairs, hrun⟩ :=
    insertNew_spec hseg hd hs hk value overloaded
  refine ⟨_, hrun, ?_⟩
  split
  · exact ⟨hrehashed, hperm.trans hpairs⟩
  · exact ⟨hlinked, hpairs⟩

theorem insert_follows (hs : segmentFor h segmentBits key = s) (value : V)
    (overloaded : Nat → Nat → Bool) :
    Follows h segmentBits s (fun seg => seg.insert h segmentBits overloaded key value)
      (fun xs => KeyMap.insert h xs key value) := by
  intro seg hseg hd
  obtain ⟨chain, hchain, _, hlook, _, _⟩ := hseg.edit (local_insert h key value) hs hd
  cases hl : lookup h seg.pairs key with
  | none =>
    obtain ⟨seg', hrun, hseg', hpairs⟩ := insertNew_sound hseg hd hs hl value overloaded
    refine ⟨seg', ?_, hseg', ?_⟩
    · simp [insert, hchain, scan_eq, hlook, hl, hrun, KeyMap.insert]
    · simpa [KeyMap.insert, hl] using hpairs
  | some p =>
    refine ⟨seg, ?_, hseg, ?_⟩
    · simp [insert, hchain, scan_eq, hlook, hl, KeyMap.insert]
    · simp [KeyMap.insert, hl]

theorem insertOrAssign_follows (hs : segmentFor h segmentBits key = s) (value : V)
    (overloaded : Nat → Nat → Bool) :
    Follows h segmentBits s (fun seg => seg.insertOrAssign h segmentBits overloaded key value)
      (fun xs => assign h xs key value) := by
  intro seg hseg hd
  obtain ⟨chain, hchain, hdc, hlook, _, hedit⟩ := hseg.edit (local_assign h key value) hs hd
  cases hl : lookup h seg.pairs key with
  | none =>
    obtain ⟨seg', hrun, hseg', hpairs⟩ := insertNew_sound hseg hd hs hl value overloaded
    refine ⟨seg', ?_, hseg', ?_⟩
    · simp [insertOrAssign, hchain, assignNode_eq hdc, hlook, hl, hrun, assign]
    · simpa [assign, hl] using hpairs
  | some p =>
    have hcount : (assign h chain key value).1.length = chain.length := by
      simp [assign, hlook, hl]
    refine ⟨_, ?_, hedit seg.size (by omega)⟩
    simp [insertOrAssign, hchain, assignNode_eq hdc, hlook, hl, assign]

theorem erase_follows (hs : segmentFor h segmentBits key = s) :
    Follows (V := V) h segmentBits s (fun seg => seg.erase h segmentBits key)
      (fun xs => KeyMap.erase h xs key) := by
  intro seg hseg hd
  obtain ⟨chain, hchain, hdc, hlook, _, hedit⟩ := hseg.edit (local_erase h key) hs hd
  cases hl : lookup h seg.pairs key with
  | none =>
    refine ⟨seg, ?_, hseg, ?_⟩
    · simp [erase, hchain, unlinkNode_eq hdc, hlook, hl, KeyMap.erase]
    · rw [erase_absent hl]
  | some p =>
    obtain ⟨hp, he⟩ := (lookup_some hdc).mp (hlook.trans hl)
    obtain ⟨front, back, rfl⟩ := List.append_of_mem hp
    have hcount := (erase_perm hdc List.perm_middle he).length_eq
    have hsize : seg.size ≠ 0 := by
      intro hzero
      have hstored := ((lookup_some hd).mp hl).1
      rw [List.eq_nil_of_length_eq_zero (hseg.size.symm.trans hzero)] at hstored
      cases hstored
    refine ⟨_, ?_, hedit (seg.size - 1) ?_⟩
    · simp [erase, hchain, unlinkNode_eq hdc, hlook, hl, KeyMap.erase]
    · simp only [List.length_append, List.length_cons] at hcount ⊢
      omega

theorem find_eq (hseg : Sound h segmentBits s seg) (hd : Distinct h seg.pairs) (key : K) :
    seg.find h segmentBits key = some (lookup h seg.pairs key) := by
  obtain ⟨chain, rest, hchain, hrest, hpairs, _⟩ := chain_at hseg key
  simp only [find, hchain, Option.bind_eq_bind, Option.bind_some, Option.pure_def, scan_eq]
  rw [← lookup_append hrest, lookup_perm hd hpairs]

theorem clear_sound (hseg : Sound h segmentBits s seg) : Sound h segmentBits s seg.clear := by
  refine ⟨hseg.capacity, by simpa [clear] using hseg.length, by simp [clear, pairs], ?_⟩
  simp only [clear, Placed, List.map_const']
  exact empty_placed h segmentBits s seg.capacity _

end Segment

section Calls

/-- All segments hold their nodes where the hash says. -/
def Placed (h : Hashing K) (segmentBits : Nat) (m : ConcurrentHashMap K V) : Prop :=
  ∀ s (seg : Segment K V), m.segments[s]? = some seg → seg.Placed h segmentBits s

structure Holds (h : Hashing K) (segmentBits : Nat) (m : ConcurrentHashMap K V)
    (xs : List (K × V)) : Prop where
  length : m.segments.length = segmentCount segmentBits
  sound : ∀ s (seg : Segment K V), m.segments[s]? = some seg → seg.Sound h segmentBits s
  pairs : m.forEach.Perm xs
  distinct : Distinct h xs

theorem segmentFor_lt (h : Hashing K) (segmentBits : Nat) (key : K) :
    segmentFor h segmentBits key < segmentCount segmentBits := by
  rw [segmentFor, segmentCount, Nat.one_shiftLeft, Nat.and_two_pow_sub_one_eq_mod]
  exact Nat.mod_lt _ (Nat.two_pow_pos segmentBits)

/-- The segment of a key has all pairs of the map that are equal to it. -/
theorem Holds.segment_at (hm : Holds h segmentBits m xs) (key : K) :
    ∃ seg rest, m.segments[segmentFor h segmentBits key]? = some seg ∧
      seg.Sound h segmentBits (segmentFor h segmentBits key) ∧ Distinct h seg.pairs ∧
      lookup h rest key = none ∧ xs.Perm (seg.pairs ++ rest) ∧
      ∀ seg', ((m.segments.set (segmentFor h segmentBits key) seg').flatMap Segment.pairs).Perm
        (seg'.pairs ++ rest) := by
  obtain ⟨seg, hseg⟩ : ∃ seg, m.segments[segmentFor h segmentBits key]? = some seg :=
    ⟨_, List.getElem?_eq_getElem (by rw [hm.length]; exact segmentFor_lt h segmentBits key)⟩
  obtain ⟨rest, hbefore, hset, hrest⟩ := flatMap_set Segment.pairs hseg
  have hpairs : xs.Perm (seg.pairs ++ rest) := hm.pairs.symm.trans hbefore
  have hdistinct := hm.distinct.perm hpairs
  refine ⟨seg, rest, hseg, hm.sound _ seg hseg, (List.pairwise_append.mp hdistinct).1, ?_, hpairs,
    hset⟩
  rw [lookup_none]
  intro p hp
  obtain ⟨j, other, hj, hother, hp⟩ := hrest p hp
  obtain ⟨chain, hchain, hp⟩ := List.mem_flatMap.mp hp
  obtain ⟨i, hi⟩ := List.mem_iff_getElem?.mp hchain
  refine Bool.eq_false_iff.mpr (fun he => hj ?_)
  rw [← ((hm.sound j other hother).placed i chain hi p hp).1, segmentFor, segmentFor,
    h.consistent _ _ he]

theorem lockSegment_spec (hm : Holds h segmentBits m xs)
    {body : Segment K V → Option (Segment K V × Bool)} {f : List (K × V) → List (K × V) × Bool}
    (hf : Local h key f)
    (hbody : Segment.Follows h segmentBits (segmentFor h segmentBits key) body f) :
    ∃ m', m.lockSegment h segmentBits key body = some (m', (f xs).2) ∧
      Holds h segmentBits m' (f xs).1 := by
  obtain ⟨seg, rest, hseg, hsound, hd, hrest, hpairs, hset⟩ := hm.segment_at key
  obtain ⟨seg', hrun, hsound', hpairs'⟩ := hbody seg hsound hd
  obtain ⟨hafter, hres⟩ := hf.part hm.distinct hpairs hrest hpairs'
  refine ⟨{ m with segments := m.segments.set (segmentFor h segmentBits key) seg' }, ?_, ?_⟩
  · simp [lockSegment, hseg, hrun, hres]
  · refine ⟨by simpa using hm.length, ?_, (hset seg').trans hafter, hf.distinct xs hm.distinct⟩
    intro s other hs
    by_cases hsame : segmentFor h segmentBits key = s
    · subst hsame
      have hlt : segmentFor h segmentBits key < m.segments.length :=
        (List.getElem?_eq_some_iff.mp hseg).1
      rw [List.getElem?_set_self hlt, Option.some.injEq] at hs
      exact hs ▸ hsound'
    · rw [List.getElem?_set_ne hsame] at hs
      exact hm.sound s other hs

theorem create_holds (h : Hashing K) (segmentBits : Nat) (overloaded : Nat → Nat → Bool) :
    Holds (V := V) h segmentBits (create segmentBits overloaded) [] := by
  refine ⟨by simp [create], ?_, by simp [create, forEach, Segment.pairs], List.Pairwise.nil⟩
  intro s seg hs
  obtain rfl := List.eq_of_mem_replicate (List.mem_of_getElem? hs)
  refine ⟨⟨4, rfl⟩, List.length_replicate .., by simp [Segment.pairs], ?_⟩
  exact Segment.empty_placed h segmentBits s initialSegmentCapacity _

theorem clear_holds (hm : Holds h segmentBits m xs) : Holds h segmentBits m.clear [] := by
  refine ⟨by simpa [clear] using hm.length, ?_, ?_, List.Pairwise.nil⟩
  · intro s seg hs
    simp only [clear, List.getElem?_map, Option.map_eq_some_iff] at hs
    obtain ⟨old, hold, rfl⟩ := hs
    exact Segment.clear_sound (hm.sound s old hold)
  · simp [forEach, clear, Segment.pairs, Segment.clear, List.flatMap_map]

theorem apply_spec (hm : Holds h segmentBits m xs) (op : Op K V) :
    ∃ m', m.apply h segmentBits op = some (m', (applyMap h xs op).2) ∧
      Holds h segmentBits m' (applyMap h xs op).1 := by
  cases op with
  | insert key value =>
    exact lockSegment_spec hm (local_insert h key value)
      (Segment.insert_follows rfl value m.overloaded)
  | insertOrAssign key value =>
    exact lockSegment_spec hm (local_assign h key value)
      (Segment.insertOrAssign_follows rfl value m.overloaded)
  | erase key => exact lockSegment_spec hm (local_erase h key) (Segment.erase_follows rfl)
  | clear => exact ⟨m.clear, rfl, clear_holds hm⟩

theorem Holds.find_eq (hm : Holds h segmentBits m xs) (key : K) :
    m.get h segmentBits key = some ((lookup h xs key).map Prod.snd) ∧
      m.contains h segmentBits key = some (lookup h xs key).isSome := by
  obtain ⟨seg, rest, hseg, hsound, hd, hrest, hpairs, _⟩ := hm.segment_at key
  have hlook : lookup h seg.pairs key = lookup h xs key := by
    rw [← lookup_append hrest]
    exact lookup_perm hm.distinct hpairs
  have hfind := Segment.find_eq hsound hd key
  simp [get, contains, hseg, hfind, hlook]

theorem Holds.size_eq (hm : Holds h segmentBits m xs) : m.size = xs.length := by
  have hsizes : m.segments.map Segment.size = m.segments.map (fun seg => seg.pairs.length) := by
    refine List.map_congr_left ?_
    intro seg hseg
    obtain ⟨s, hs⟩ := List.mem_iff_getElem?.mp hseg
    exact (hm.sound s seg hs).size
  rw [size, hsizes, ← hm.pairs.length_eq, forEach, List.length_flatMap]

/-- A new key is linked in, and its segment is rehashed if it is overloaded; the nodes are
placed in between too. -/
theorem Holds.insert_new (hm : Holds h segmentBits m xs) (hk : lookup h xs key = none)
    (value : V) :
    ∃ seg linked rehashed, m.segments[segmentFor h segmentBits key]? = some seg ∧
      seg.link h segmentBits key value = some linked ∧
      linked.Placed h segmentBits (segmentFor h segmentBits key) ∧
      linked.rehash h segmentBits = some rehashed ∧
      rehashed.Placed h segmentBits (segmentFor h segmentBits key) ∧
      m.insert h segmentBits key value =
        some ({ m with
          segments := m.segments.set (segmentFor h segmentBits key)
            (if linked.needRehash m.overloaded then rehashed else linked) }, true) ∧
      m.insertOrAssign h segmentBits key value = m.insert h segmentBits key value := by
  obtain ⟨seg, rest, hseg, hsound, hd, hrest, hpairs, _⟩ := hm.segment_at key
  have hnone : lookup h seg.pairs key = none := by
    rw [← lookup_append hrest, ← hk]
    exact lookup_perm hm.distinct hpairs
  obtain ⟨linked, rehashed, hlink, hlinked, hrehash, hrehashed, _, _, hrun⟩ :=
    Segment.insertNew_spec hsound hd rfl hnone value m.overloaded
  obtain ⟨chain, hchain, hdc, hlook, _, _⟩ :=
    hsound.edit (local_insert h key value) rfl hd
  rw [hnone] at hlook
  refine ⟨seg, linked, rehashed, hseg, hlink, hlinked.placed, hrehash, hrehashed.placed, ?_, ?_⟩
  · simp [insert, lockSegment, hseg, Segment.insert, hchain, scan_eq, hlook, hrun]
  · simp [insertOrAssign, insert, lockSegment, hseg, Segment.insert, Segment.insertOrAssign, hchain,
      scan_eq, assignNode_eq hdc, hlook]

/-- Every run of calls does what it does on a finite map, and its nodes are placed. -/
theorem run_placed (h : Hashing K) (segmentBits : Nat) (overloaded : Nat → Nat → Bool)
    (ops : List (Op K V)) :
    ∃ m : ConcurrentHashMap K V,
      Run.exec (apply h segmentBits) (create segmentBits overloaded) ops =
        some (m, (Run.execModel (applyMap h) [] ops).2) ∧
      Distinct h (Run.execModel (applyMap h) [] ops).1 ∧
      (∀ key,
        m.get h segmentBits key =
          some ((lookup h (Run.execModel (applyMap h) [] ops).1 key).map Prod.snd) ∧
        m.contains h segmentBits key =
          some (lookup h (Run.execModel (applyMap h) [] ops).1 key).isSome) ∧
      m.size = (Run.execModel (applyMap h) [] ops).1.length ∧
      m.forEach.Perm (Run.execModel (applyMap h) [] ops).1 ∧
      m.Placed h segmentBits ∧
      ∀ key value, lookup h (Run.execModel (applyMap h) [] ops).1 key = none →
        ∃ seg linked rehashed, m.segments[segmentFor h segmentBits key]? = some seg ∧
          seg.link h segmentBits key value = some linked ∧
          linked.Placed h segmentBits (segmentFor h segmentBits key) ∧
          linked.rehash h segmentBits = some rehashed ∧
          rehashed.Placed h segmentBits (segmentFor h segmentBits key) ∧
          m.insert h segmentBits key value =
            some ({ m with
              segments := m.segments.set (segmentFor h segmentBits key)
                (if linked.needRehash m.overloaded then rehashed else linked) }, true) ∧
          m.insertOrAssign h segmentBits key value = m.insert h segmentBits key value := by
  have hstep : ∀ (m : ConcurrentHashMap K V) xs op, Holds h segmentBits m xs →
      ∃ m', m.apply h segmentBits op = some (m', (applyMap h xs op).2) ∧
        Holds h segmentBits m' (applyMap h xs op).1 := fun m xs op hm => apply_spec hm op
  obtain ⟨m, hrun, hm⟩ := Run.exec_follows hstep ops (create_holds h segmentBits overloaded)
  refine ⟨m, hrun, hm.distinct, hm.find_eq, hm.size_eq, hm.pairs, ?_, ?_⟩
  · exact fun s seg hs => (hm.sound s seg hs).placed
  · exact fun key value hk => hm.insert_new hk value

end Calls

section Moves
variable {calls : List (Call K V)} {c : Call K V}

theorem movedFrom_segments (other : ConcurrentHashMap K V) (i : Nat) :
    other.movedFrom.segments[i]? = none ∨ other.movedFrom.segments[i]? = some Segment.taken := by
  rw [movedFrom, List.getElem?_map]
  cases other.segments[i]? with
  | none => exact .inl rfl
  | some seg => exact .inr rfl

theorem movedFrom_lockSegment (other : ConcurrentHashMap K V) (key : K)
    (body : Segment K V → Option (Segment K V × Bool)) (hbody : body Segment.taken = none) :
    other.movedFrom.lockSegment h segmentBits key body = none := by
  rw [lockSegment]
  rcases movedFrom_segments other (segmentFor h segmentBits key) with hseg | hseg
  · rw [hseg]
    rfl
  · rw [hseg, Option.bind_eq_bind, Option.bind_some, hbody]
    rfl

/-- In a moved-from map every key leads to a bucket out of bounds. -/
theorem movedFrom_call (other : ConcurrentHashMap K V) (hc : c ≠ .forEach) :
    other.movedFrom.call h segmentBits c = none := by
  cases c with
  | insert key value =>
    have hlocked : other.movedFrom.insert h segmentBits key value = none :=
      movedFrom_lockSegment other key _ rfl
    rw [call, hlocked, Option.map_none]
  | insertOrAssign key value =>
    have hlocked : other.movedFrom.insertOrAssign h segmentBits key value = none :=
      movedFrom_lockSegment other key _ rfl
    rw [call, hlocked, Option.map_none]
  | erase key =>
    have hlocked : other.movedFrom.erase h segmentBits key = none :=
      movedFrom_lockSegment other key _ rfl
    rw [call, hlocked, Option.map_none]
  | get key =>
    rcases movedFrom_segments other (segmentFor h segmentBits key) with hseg | hseg
    · simp [call, get, hseg]
    · simp [call, get, hseg, Segment.find, Segment.taken]
  | contains key =>
    rcases movedFrom_segments other (segmentFor h segmentBits key) with hseg | hseg
    · simp [call, contains, hseg]
    · simp [call, contains, hseg, Segment.find, Segment.taken]
  | forEach => exact absurd rfl hc

theorem movedFrom_forEach (other : ConcurrentHashMap K V) : other.movedFrom.forEach = [] := by
  simp [forEach, movedFrom, Segment.pairs, Segment.taken]

theorem exec_forEach (hm : m.forEach = []) (hcalls : ∀ c ∈ calls, c = .forEach) :
    Run.exec (call h segmentBits) m calls = some (m, calls.map fun _ => .pairs []) := by
  induction calls with
  | nil => rfl
  | cons c calls ih =>
    obtain ⟨hc, hrest⟩ := List.forall_mem_cons.mp hcalls
    have hstep : m.call h segmentBits c = some (m, .pairs []) := by
      rw [hc, call, hm]
    rw [Run.exec_cons hstep, ih hrest]
    rfl

theorem movedFrom_exec (other : ConcurrentHashMap K V) {last : ConcurrentHashMap K V}
    {rs : List (Reply K V)}
    (hrun : Run.exec (call h segmentBits) other.movedFrom calls = some (last, rs)) :
    ∀ c ∈ calls, c = .forEach := by
  induction calls generalizing last rs with
  | nil => exact fun c hc => absurd hc List.not_mem_nil
  | cons c calls ih =>
    have hc : c = .forEach := by
      by_contra hne
      rw [Run.exec, movedFrom_call other hne] at hrun
      cases hrun
    have hstep : other.movedFrom.call h segmentBits c = some (other.movedFrom, .pairs []) := by
      rw [hc, call, movedFrom_forEach]
    rw [Run.exec_cons hstep] at hrun
    obtain ⟨next, hnext, -⟩ := Option.map_eq_some_iff.mp hrun
    exact List.forall_mem_cons.mpr ⟨hc, ih hnext⟩

/-- What a move leaves behind is a new map to `for_each` alone: every other call selects a bucket
of the array that is gone. -/
theorem movedFrom_asNew_iff (h : Hashing K) (segmentBits : Nat) (m : ConcurrentHashMap K V)
    (calls : List (Call K V)) :
    (BehavesAsNew h segmentBits m.moveConstruct.2 calls ∧
        ∀ target : ConcurrentHashMap K V,
          BehavesAsNew h segmentBits (target.moveAssign m).2 calls) ↔
      ∀ c ∈ calls, c = .forEach := by
  have hleft : BehavesAsNew h segmentBits m.movedFrom calls ↔ ∀ c ∈ calls, c = .forEach := by
    constructor
    · intro hnew
      obtain ⟨last, _, rs, _, hrun, -⟩ := hnew
      exact movedFrom_exec m hrun
    · intro hcalls
      have hfresh := (create_holds (V := V) h segmentBits m.overloaded).pairs
      refine ⟨_, _, _, _, exec_forEach (movedFrom_forEach m) hcalls,
        exec_forEach (List.Perm.eq_nil hfresh) hcalls, ?_⟩
      rw [List.forall₂_same]
      intro reply hreply
      obtain ⟨c, -, rfl⟩ := List.mem_map.mp hreply
      exact .pairs (.refl _)
  constructor
  · exact fun hnew => hleft.mp hnew.1
  · exact fun hcalls => ⟨hleft.mpr hcalls, fun _ => hleft.mpr hcalls⟩

/-- An empty map, moved from and asked for a key. -/
theorem movedFrom_get_lost :
    ¬ BehavesAsNew (Hashing.ofEq Nat.toUInt64) 4
      (create (K := Nat) (V := Nat) 4 defaultOverloaded).moveConstruct.2 [.get 5] := by
  intro hnew
  obtain ⟨_, _, _, _, hrun, -⟩ := hnew
  have hgone := movedFrom_exec _ hrun _ List.mem_cons_self
  cases hgone

end Moves

end Cppforge.Concurrent.ConcurrentHashMap
