import Cppforge.Lib.KeyMap
import Cppforge.Multiway.Trie
import Mathlib.Data.List.Lex

namespace Cppforge.Multiway.Trie
open List

variable {T : Type} {children : List (Σ _ : UInt8, Node T)} {node child : Node T} {value v : T}
  {isEnd : Bool} {c : UInt8} {key pre k : Key} {size : Nat}

namespace Node

/-- The node is the end of a key, or on the way to one. -/
def Alive (node : Node T) : Prop := node.isEnd = true ∨ node.children ≠ []

/-- The characters of siblings differ, and no node below is a dead branch. -/
inductive Sound : Node T → Prop
  | intro {children : List (Σ _ : UInt8, Node T)} {value : T} {isEnd : Bool}
      (distinct : children.NodupKeys) (alive : ∀ e ∈ children, e.2.Alive)
      (sound : ∀ e ∈ children, Sound e.2) : Sound (mk children value isEnd)

def lookup (node : Node T) (key : Key) : Option T :=
  (node.descend key).bind fun last => if last.isEnd then some last.value else none

theorem lookup_nil : (mk children value isEnd).lookup [] = if isEnd then some value else none := rfl

theorem lookup_cons : (mk children value isEnd).lookup (c :: key) =
    (children.dlookup c).bind (lookup · key) := by
  simp only [lookup, descend, Node.children]
  cases children.dlookup c with
  | none => rfl
  | some child => rfl

theorem lookup_empty [Inhabited T] : (empty : Node T).lookup key = none := by
  cases key with
  | nil => rfl
  | cons c key => rfl

theorem sound_empty [Inhabited T] : (empty : Node T).Sound :=
  .intro nodupKeys_nil (by simp) (by simp)

theorem Sound.down (h : Sound (mk children value isEnd)) (hc : children.dlookup c = some child) :
    child.Sound ∧ child.Alive := by
  cases h with
  | intro _ halive hsound =>
    have hmem := of_mem_dlookup hc
    exact ⟨hsound _ hmem, halive _ hmem⟩

theorem Sound.erase_child (h : Sound (mk children value isEnd)) (v : T) (last : Bool) :
    Sound (mk (children.kerase c) v last) := by
  cases h with
  | intro hd halive hsound =>
    have hsub := kerase_sublist c children
    exact .intro (hd.kerase c) (fun e he => halive e (hsub.subset he))
      (fun e he => hsound e (hsub.subset he))

theorem Sound.set_child (h : Sound (mk children value isEnd)) (hs : child.Sound) (ha : child.Alive) :
    Sound (mk (children.kinsert c child) value isEnd) := by
  cases h with
  | intro hd halive hsound =>
    have hsub := kerase_sublist c children
    refine .intro (kinsert_nodupKeys c child hd) ?_ ?_
    · intro e he
      rcases mem_cons.mp he with rfl | he
      · exact ha
      · exact halive e (hsub.subset he)
    · intro e he
      rcases mem_cons.mp he with rfl | he
      · exact hs
      · exact hsound e (hsub.subset he)

theorem Sound.with_end (h : Sound (mk children value isEnd)) (v : T) (last : Bool) :
    Sound (mk children v last) := by
  cases h with
  | intro hd halive hsound => exact .intro hd halive hsound

theorem descend_append (path rest : Key) (node : Node T) :
    node.descend (path ++ rest) = (node.descend path).bind (descend rest) := by
  induction path generalizing node with
  | nil => rfl
  | cons c path ih =>
    simp only [cons_append, descend]
    cases node.children.dlookup c with
    | none => rfl
    | some child => exact ih child

theorem lookup_append (node : Node T) (pre rest : Key) :
    node.lookup (pre ++ rest) = (node.descend pre).bind (lookup · rest) := by
  rw [lookup, descend_append]
  cases node.descend pre with
  | none => rfl
  | some last => rfl

theorem Sound.descend {last : Node T} (h : node.Sound) (hlast : node.descend k = some last) :
    last.Sound := by
  induction k generalizing node with
  | nil => exact Option.some.inj hlast ▸ h
  | cons c k ih =>
    cases node with
    | mk children value isEnd =>
      obtain ⟨child, hc, hdown⟩ := Option.bind_eq_some_iff.mp hlast
      exact ih (h.down hc).1 hdown

theorem Sound.descend_alive {last : Node T} (h : node.Sound) (hk : k ≠ [])
    (hlast : node.descend k = some last) : last.Alive := by
  obtain ⟨path, c, rfl⟩ := (eq_nil_or_concat' k).resolve_left hk
  rw [descend_append] at hlast
  obtain ⟨parent, hparent, hlast⟩ := Option.bind_eq_some_iff.mp hlast
  cases parent with
  | mk children value isEnd =>
    obtain ⟨child, hc, hchild⟩ := Option.bind_eq_some_iff.mp hlast
    exact Option.some.inj hchild ▸ ((h.descend hparent).down hc).2

section Insert
variable [Inhabited T]

theorem insert_alive : (node.insert value key).1.Alive := by
  cases node with
  | mk children v isEnd =>
    cases key with
    | nil => exact .inl rfl
    | cons c key => exact .inr (cons_ne_nil _ _)

theorem insert_sound (h : node.Sound) : (node.insert value key).1.Sound := by
  induction key generalizing node with
  | nil =>
    cases node with
    | mk children v isEnd => exact h.with_end value true
  | cons c key ih =>
    cases node with
    | mk children v isEnd =>
      refine h.set_child (ih ?_) insert_alive
      cases hc : children.dlookup c with
      | none => exact sound_empty
      | some child => exact (h.down hc).1

theorem lookup_insert :
    (node.insert value key).1.lookup k = if k = key then some value else node.lookup k := by
  induction key generalizing node k with
  | nil =>
    cases node with
    | mk children v isEnd =>
      cases k with
      | nil => rfl
      | cons c k => simp [insert, lookup_cons]
  | cons c key ih =>
    cases node with
    | mk children v isEnd =>
      cases k with
      | nil => simp [insert, lookup_nil]
      | cons d k =>
        simp only [insert, lookup_cons]
        by_cases hd : d = c
        · subst hd
          rw [dlookup_kinsert, Option.bind_some, ih]
          cases hc : children.dlookup d with
          | none => simp [lookup_empty]
          | some child => simp
        · simp [hd]

/-- `size_` grows exactly for a new key. -/
theorem insert_added : (node.insert value key).2 = (node.lookup key).isNone := by
  induction key generalizing node with
  | nil =>
    cases node with
    | mk children v isEnd => cases isEnd <;> rfl
  | cons c key ih =>
    cases node with
    | mk children v isEnd =>
      rw [insert, lookup_cons, ih]
      cases hc : children.dlookup c with
      | none => simp [lookup_empty]
      | some child => simp

end Insert

section Erase

theorem eraseHelper_size (h : node.lookup key ≠ none) :
    (node.eraseHelper key size).1.2 = size - 1 := by
  induction key generalizing node with
  | nil =>
    cases node with
    | mk children v isEnd =>
      cases isEnd with
      | false => exact absurd rfl h
      | true => rfl
  | cons c key ih =>
    cases node with
    | mk children v isEnd =>
      rw [lookup_cons] at h
      cases hc : children.dlookup c with
      | none => simp [hc] at h
      | some child =>
        rw [hc] at h
        simp only [eraseHelper, hc]
        split
        · exact ih h
        · exact ih h

/-- A node is pruned exactly when nothing is left in it. -/
theorem eraseHelper_prune (h : node.lookup key ≠ none) :
    (node.eraseHelper key size).2 = true ↔ ¬ (node.eraseHelper key size).1.1.Alive := by
  cases node with
  | mk children v isEnd =>
    cases key with
    | nil =>
      cases isEnd with
      | false => exact absurd rfl h
      | true => simp [eraseHelper, Alive, Node.isEnd, Node.children]
    | cons c key =>
      rw [lookup_cons] at h
      cases hc : children.dlookup c with
      | none => simp [hc] at h
      | some child =>
        simp only [eraseHelper, hc]
        split
        · simp [Alive, Node.isEnd, Node.children]
        · simp [Alive, Node.children]

theorem eraseHelper_sound (hs : node.Sound) (h : node.lookup key ≠ none) :
    (node.eraseHelper key size).1.1.Sound := by
  induction key generalizing node with
  | nil =>
    cases node with
    | mk children v isEnd =>
      cases isEnd with
      | false => exact hs
      | true => exact hs.with_end v false
  | cons c key ih =>
    cases node with
    | mk children v isEnd =>
      rw [lookup_cons] at h
      cases hc : children.dlookup c with
      | none => simp [hc] at h
      | some child =>
        rw [hc] at h
        simp only [eraseHelper, hc]
        split
        · exact hs.erase_child v isEnd
        · rename_i hprune
          rw [eraseHelper_prune h, not_not] at hprune
          exact hs.set_child (ih (hs.down hc).1 h) hprune

theorem lookup_of_not_alive (h : ¬ node.Alive) : node.lookup k = none := by
  cases node with
  | mk children v isEnd =>
    simp only [Alive, Node.isEnd, Node.children, not_or, Bool.not_eq_true, ne_eq, not_not] at h
    obtain ⟨rfl, rfl⟩ := h
    cases k with
    | nil => rfl
    | cons c k => rfl

theorem lookup_eraseHelper (hs : node.Sound) (h : node.lookup key ≠ none) :
    (node.eraseHelper key size).1.1.lookup k = if k = key then none else node.lookup k := by
  induction key generalizing node k with
  | nil =>
    cases node with
    | mk children v isEnd =>
      cases isEnd with
      | false => exact absurd rfl h
      | true =>
        cases k with
        | nil => rfl
        | cons c k => simp [eraseHelper, lookup_cons]
  | cons c key ih =>
    cases node with
    | mk children v isEnd =>
      rw [lookup_cons] at h
      cases hc : children.dlookup c with
      | none => simp [hc] at h
      | some child =>
        rw [hc] at h
        have hchild := fun k => ih (k := k) (hs.down hc).1 h
        cases k with
        | nil =>
          simp only [eraseHelper, hc]
          split <;> simp [lookup_nil]
        | cons d k =>
          simp only [eraseHelper, hc]
          by_cases hd : d = c
          · subst hd
            split
            · rename_i hprune
              rw [eraseHelper_prune h] at hprune
              cases hs with
              | intro hdistinct _ _ =>
                rw [lookup_cons, dlookup_kerase d hdistinct, lookup_cons, hc]
                simpa [lookup_of_not_alive hprune] using hchild k
            · rw [lookup_cons, dlookup_kinsert, lookup_cons, hc]
              simpa using hchild k
          · split
            · simp [lookup_cons, dlookup_kerase_ne hd, hd]
            · simp [lookup_cons, hd]

end Erase

section Collect

theorem collectChildren_eq (children : List (Σ _ : UInt8, Node T)) (pre : Key) :
    collectChildren children pre = children.flatMap fun e => e.2.collectKeys (pre ++ [e.1]) := by
  induction children with
  | nil => rfl
  | cons e rest ih => rw [collectChildren, ih, flatMap_cons]

/-- The keys below a node are those it holds, behind the prefix. -/
theorem mem_collectKeys (h : node.Sound) :
    k ∈ node.collectKeys pre ↔ ∃ rest, k = pre ++ rest ∧ node.lookup rest ≠ none := by
  induction h generalizing pre with
  | @intro children value isEnd hd halive hsound ih =>
    rw [collectKeys, collectChildren_eq, mem_append, mem_flatMap]
    constructor
    · rintro (hend | ⟨e, he, hk⟩)
      · cases isEnd with
        | false => simp at hend
        | true => exact ⟨[], by simpa using hend, by simp [lookup_nil]⟩
      · obtain ⟨rest, rfl, hrest⟩ := (ih e he).mp hk
        refine ⟨e.1 :: rest, by simp, ?_⟩
        rw [lookup_cons, mem_dlookup hd he]
        exact hrest
    · rintro ⟨rest, rfl, hrest⟩
      cases rest with
      | nil =>
        cases isEnd with
        | false => exact absurd rfl hrest
        | true => exact .inl (by simp)
      | cons c rest =>
        rw [lookup_cons] at hrest
        cases hc : children.dlookup c with
        | none => simp [hc] at hrest
        | some child =>
          rw [hc] at hrest
          have he := of_mem_dlookup hc
          exact .inr ⟨_, he, (ih _ he).mpr ⟨rest, by simp, hrest⟩⟩

theorem nodup_collectKeys (h : node.Sound) : (node.collectKeys pre).Nodup := by
  induction h generalizing pre with
  | @intro children value isEnd hd halive hsound ih =>
    rw [collectKeys, collectChildren_eq, nodup_append]
    refine ⟨by split <;> simp, ?_, ?_⟩
    · rw [nodup_flatMap]
      refine ⟨fun e he => ih e he, ?_⟩
      refine (nodupKeys_iff_pairwise.mp hd).imp_of_mem ?_
      intro e e' he he' hne k hk hk'
      obtain ⟨rest, rfl, _⟩ := (mem_collectKeys (hsound e he)).mp hk
      obtain ⟨rest', heq, _⟩ := (mem_collectKeys (hsound e' he')).mp hk'
      simp only [append_assoc, append_cancel_left_eq, cons_append, nil_append, cons.injEq] at heq
      exact hne heq.1
    · intro k hk k' hk' hkk
      obtain ⟨e, he, hk'⟩ := mem_flatMap.mp hk'
      obtain ⟨rest, rfl, _⟩ := (mem_collectKeys (hsound e he)).mp hk'
      split at hk
      · rw [mem_singleton.mp hk] at hkk
        simp at hkk
      · cases hk

end Collect

end Node

/-- A finite map from strings. -/
abbrev Entries (T : Type) := AList fun _ : Key => T

/-- What an operation does to the map. -/
def effect (m : Entries T) : Op T → Entries T
  | .insert key value => m.insert key value
  | .erase key => m.erase key
  | .clear => ∅

structure Represents (t : Trie T) (m : Entries T) : Prop where
  sound : t.root.Sound
  find (key : Key) : t.find key = m.lookup key
  size : t.size = m.keys.length

variable {t : Trie T} {m : Entries T}

theorem find_eq (t : Trie T) (key : Key) : t.find key = t.root.lookup key := rfl

theorem Represents.empty [Inhabited T] : Represents (create : Trie T) ∅ :=
  ⟨Node.sound_empty, fun _ => Node.lookup_empty, rfl⟩

theorem Represents.insert [Inhabited T] (h : Represents t m) (key : Key) (value : T) :
    Represents (t.insert key value) (m.insert key value) := by
  refine ⟨Node.insert_sound h.sound, ?_, ?_⟩
  · intro k
    have hfind : (t.insert key value).find k = if k = key then some value else t.find k :=
      Node.lookup_insert
    rw [hfind, h.find]
    by_cases hk : k = key
    · subst hk
      simp
    · simp [hk]
  · have hadded : (t.root.insert value key).2 = (m.lookup key).isNone := by
      rw [← h.find]
      exact Node.insert_added
    cases hkey : m.lookup key with
    | none =>
      rw [FiniteMap.length_insert_new value hkey]
      simp [Trie.insert, hadded, hkey, h.size]
    | some v =>
      rw [FiniteMap.length_insert_again value hkey]
      simp [Trie.insert, hadded, hkey, h.size]

theorem Represents.contains (h : Represents t m) (key : Key) :
    t.contains key = (m.lookup key).isSome := by
  rw [Trie.contains, h.find]

theorem Represents.erase (h : Represents t m) (key : Key) :
    Represents (t.erase key).1 (m.erase key) := by
  cases hkey : m.lookup key with
  | none =>
    have hsame : (t.erase key).1 = t := by simp [Trie.erase, h.contains, hkey]
    rw [hsame, FiniteMap.erase_absent hkey]
    exact h
  | some v =>
    have hfound : t.root.lookup key ≠ none := by
      rw [← find_eq, h.find, hkey]
      exact Option.some_ne_none v
    have herased : (t.erase key).1 =
        ⟨(t.root.eraseHelper key t.size).1.1, (t.root.eraseHelper key t.size).1.2⟩ := by
      simp [Trie.erase, h.contains, hkey]
    rw [herased]
    refine ⟨Node.eraseHelper_sound h.sound hfound, ?_, ?_⟩
    · intro k
      rw [find_eq, Node.lookup_eraseHelper h.sound hfound, ← find_eq, h.find]
      by_cases hk : k = key
      · rw [if_pos hk, hk, AList.lookup_erase]
      · rw [if_neg hk, AList.lookup_erase_ne hk]
    · exact (Node.eraseHelper_size hfound).trans (by rw [h.size, FiniteMap.length_erase hkey])

theorem Represents.step [Inhabited T] (h : Represents t m) (op : Op T) :
    Represents (t.step op) (effect m op) := by
  cases op with
  | insert key value => exact h.insert key value
  | erase key => exact h.erase key
  | clear => exact .empty

theorem Represents.run [Inhabited T] (h : Represents t m) (ops : List (Op T)) :
    Represents (ops.foldl Trie.step t) (ops.foldl effect m) := by
  induction ops generalizing t m with
  | nil => exact h
  | cons op ops ih => exact ih (h.step op)

theorem contains_iff (t : Trie T) (k : Key) : t.contains k = true ↔ t.root.lookup k ≠ none := by
  rw [Trie.contains, find_eq, Option.isSome_iff_ne_none]

theorem mem_startsWith (hs : t.root.Sound) :
    k ∈ t.startsWith pre ↔ t.contains k = true ∧ pre <+: k := by
  rw [contains_iff, Trie.startsWith]
  cases hpre : t.root.descend pre with
  | none =>
    refine ⟨fun hk => absurd hk not_mem_nil, ?_⟩
    rintro ⟨hk, rest, rfl⟩
    rw [Node.lookup_append, hpre] at hk
    exact absurd rfl hk
  | some node =>
    rw [Node.mem_collectKeys (hs.descend hpre)]
    constructor
    · rintro ⟨rest, rfl, hrest⟩
      refine ⟨?_, prefix_append pre rest⟩
      rw [Node.lookup_append, hpre]
      exact hrest
    · rintro ⟨hk, rest, rfl⟩
      rw [Node.lookup_append, hpre] at hk
      exact ⟨rest, rfl, hk⟩

theorem Represents.startsWith (h : Represents t m) (pre : Key) :
    (t.startsWith pre).Nodup ∧ ∀ key, key ∈ t.startsWith pre ↔ key ∈ m.keys ∧ pre <+: key := by
  refine ⟨?_, ?_⟩
  · rw [Trie.startsWith]
    cases hpre : t.root.descend pre with
    | none => exact nodup_nil
    | some node => exact Node.nodup_collectKeys (h.sound.descend hpre)
  · intro key
    rw [mem_startsWith h.sound, contains_iff, ← find_eq, h.find, ne_eq, AList.lookup_eq_none, not_not,
      AList.mem_keys]

/-- Whatever the operations, the trie is the finite map, and every node but the root ends
a key or leads to one. -/
theorem run_trie [Inhabited T] (ops : List (Op T)) :
    let t : Trie T := ops.foldl Trie.step create
    let m : Entries T := ops.foldl effect ∅
    (∀ key, t.find key = m.lookup key ∧ t.contains key = (m.lookup key).isSome) ∧
    t.size = m.keys.length ∧
    (∀ pre, (t.startsWith pre).Nodup ∧ ∀ key, key ∈ t.startsWith pre ↔ key ∈ m.keys ∧ pre <+: key) ∧
    ∀ path node, path ≠ [] → t.root.descend path = some node → node.isEnd = true ∨ node.children ≠ [] := by
  have h := Represents.empty.run ops
  refine ⟨fun key => ⟨h.find key, h.contains key⟩, h.size, h.startsWith, ?_⟩
  intro path node hpath hnode
  exact h.sound.descend_alive hpath hnode

section Orders
variable {node' : Node T} {c' : UInt8} {rest rest' : Key}

namespace Node

/-- The children of a node enumerated in another order. -/
inductive Shuffles : Node T → Node T → Prop
  | here {children children' : List (Σ _ : UInt8, Node T)} (value : T) (isEnd : Bool)
      (perm : children.Perm children') :
      Shuffles (mk children value isEnd) (mk children' value isEnd)
  | deeper {child child' : Node T} (before after : List (Σ _ : UInt8, Node T))
      (c : UInt8) (value : T) (isEnd : Bool) (h : Shuffles child child') :
      Shuffles (mk (before ++ ⟨c, child⟩ :: after) value isEnd)
        (mk (before ++ ⟨c, child'⟩ :: after) value isEnd)

/-- Every node enumerates its children by their characters. -/
inductive Ordered : Node T → Prop
  | intro {children : List (Σ _ : UInt8, Node T)} {value : T} {isEnd : Bool}
      (sorted : children.Pairwise fun e e' => e.1 < e'.1) (ordered : ∀ e ∈ children, Ordered e.2) :
      Ordered (mk children value isEnd)

theorem ordered_iff : Ordered (mk children value isEnd) ↔
    (children.Pairwise fun e e' => e.1 < e'.1) ∧ ∀ e ∈ children, e.2.Ordered := by
  constructor
  · intro hordered
    obtain ⟨sorted, ordered⟩ := hordered
    exact ⟨sorted, ordered⟩
  · intro hboth
    obtain ⟨sorted, ordered⟩ := hboth
    exact .intro sorted ordered

theorem Shuffles.alive (h : Shuffles node node') : node'.Alive ↔ node.Alive := by
  cases h with
  | here value isEnd perm =>
    simp only [Alive, Node.isEnd, Node.children, ne_eq, ← List.length_eq_zero_iff, perm.length_eq]
  | deeper before after c value isEnd h => simp [Alive, Node.isEnd, Node.children]

theorem Shuffles.sound (h : Shuffles node node') (hs : node.Sound) : node'.Sound := by
  induction h with
  | here value isEnd perm =>
    cases hs with
    | intro hd halive hsound =>
      exact .intro ((perm_nodupKeys perm).mp hd) (fun e he => halive e (perm.mem_iff.mpr he))
        (fun e he => hsound e (perm.mem_iff.mpr he))
  | @deeper child child' before after c value isEnd h ih =>
    cases hs with
    | intro hd halive hsound =>
      have hmem : (⟨c, child⟩ : Σ _ : UInt8, Node T) ∈ before ++ ⟨c, child⟩ :: after := by simp
      have hother : ∀ e ∈ before ++ ⟨c, child'⟩ :: after, e = ⟨c, child'⟩ ∨
          e ∈ before ++ ⟨c, child⟩ :: after := by
        intro e he
        simp only [mem_append, mem_cons] at he ⊢
        tauto
      refine .intro ?_ ?_ ?_
      · simpa [NodupKeys, List.keys] using hd
      · intro e he
        rcases hother e he with rfl | he
        · exact h.alive.mpr (halive _ hmem)
        · exact halive e he
      · intro e he
        rcases hother e he with rfl | he
        · exact ih (hsound _ hmem)
        · exact hsound e he

/-- What is no dead branch leads to a key. -/
theorem Sound.exists_key (h : node.Sound) (ha : node.Alive) : ∃ rest, node.lookup rest ≠ none := by
  induction h with
  | @intro children value isEnd hd halive hsound ih =>
    rcases ha with hend | hne
    · refine ⟨[], ?_⟩
      rw [lookup_nil, if_pos (show isEnd = true from hend)]
      exact Option.some_ne_none value
    · obtain ⟨⟨c, child⟩, he⟩ := exists_mem_of_ne_nil _ hne
      obtain ⟨rest, hrest⟩ := ih _ he (halive _ he)
      refine ⟨c :: rest, ?_⟩
      rw [lookup_cons, mem_dlookup hd he]
      exact hrest

theorem append_lt_append_iff : pre ++ rest < pre ++ rest' ↔ rest < rest' := by
  induction pre with
  | nil => rfl
  | cons c pre ih =>
    rw [cons_append, cons_append, cons_lt_cons_iff, ih]
    simp

/-- The keys below two siblings stand as their characters do. -/
theorem siblings_lt (h : c ≠ c') : pre ++ [c] ++ rest < pre ++ [c'] ++ rest' ↔ c < c' := by
  rw [append_assoc, append_assoc, append_lt_append_iff, cons_append, cons_append, cons_lt_cons_iff]
  simp [h]

theorem lt_append_singleton (pre rest : Key) (c : UInt8) : pre < pre ++ [c] ++ rest := by
  rw [append_assoc]
  have hlt : pre ++ [] < pre ++ ([c] ++ rest) := append_lt_append_iff.mpr (nil_lt_cons c rest)
  rwa [append_nil] at hlt

/-- All keys below a child stand before all below another exactly where its character does:
both children have a key to show it. -/
theorem blocks_sorted (hd : children.NodupKeys) (halive : ∀ e ∈ children, e.2.Alive)
    (hsound : ∀ e ∈ children, e.2.Sound) :
    (children.Pairwise fun e e' => ∀ k ∈ e.2.collectKeys (pre ++ [e.1]),
      ∀ k' ∈ e'.2.collectKeys (pre ++ [e'.1]), k < k') ↔
    children.Pairwise fun e e' => e.1 < e'.1 := by
  have hne := nodupKeys_iff_pairwise.mp hd
  constructor
  · intro hblocks
    refine (hne.and hblocks).imp_of_mem ?_
    rintro e e' he he' ⟨hchar, hlt⟩
    obtain ⟨rest, hrest⟩ := (hsound e he).exists_key (halive e he)
    obtain ⟨rest', hrest'⟩ := (hsound e' he').exists_key (halive e' he')
    exact (siblings_lt hchar).mp (hlt _ ((mem_collectKeys (hsound e he)).mpr ⟨rest, rfl, hrest⟩)
      _ ((mem_collectKeys (hsound e' he')).mpr ⟨rest', rfl, hrest'⟩))
  · intro hchars
    refine (hne.and hchars).imp_of_mem ?_
    rintro e e' he he' ⟨hchar, hlt⟩ k hk k' hk'
    obtain ⟨rest, rfl, _⟩ := (mem_collectKeys (hsound e he)).mp hk
    obtain ⟨rest', rfl, _⟩ := (mem_collectKeys (hsound e' he')).mp hk'
    exact (siblings_lt hchar).mpr hlt

/-- The keys below a node come in order exactly where it, and all nodes below it, enumerate
their children in order. -/
theorem sorted_collectKeys (h : node.Sound) :
    (node.collectKeys pre).Pairwise (· < ·) ↔ node.Ordered := by
  induction h generalizing pre with
  | @intro children value isEnd hd halive hsound ih =>
    have hown : ∀ k ∈ (if isEnd then [pre] else []), ∀ k' ∈ children.flatMap fun e =>
        e.2.collectKeys (pre ++ [e.1]), k < k' := by
      intro k hk k' hk'
      obtain ⟨e, he, hk'⟩ := mem_flatMap.mp hk'
      obtain ⟨rest, rfl, _⟩ := (mem_collectKeys (hsound e he)).mp hk'
      split at hk
      · rw [mem_singleton.mp hk]
        exact lt_append_singleton pre rest e.1
      · cases hk
    have hfirst : (if isEnd then [pre] else []).Pairwise (· < ·) := by
      split
      · exact pairwise_singleton _ _
      · exact Pairwise.nil
    have hbelow : (∀ e ∈ children, (e.2.collectKeys (pre ++ [e.1])).Pairwise (· < ·)) ↔
        ∀ e ∈ children, e.2.Ordered := forall₂_congr fun e he => ih e he
    rw [collectKeys, collectChildren_eq, pairwise_append, pairwise_flatMap, ordered_iff, hbelow,
      blocks_sorted hd halive hsound]
    tauto

end Node

/-- The tries that operations lead to, where a container may enumerate its entries in another
order at any time. -/
inductive Reaches [Inhabited T] : Trie T → Prop
  | create : Reaches create
  | step {t : Trie T} (op : Op T) (h : Reaches t) : Reaches (t.step op)
  | shuffle {t : Trie T} {root : Node T} (h : Reaches t) (shuffles : t.root.Shuffles root) :
      Reaches ⟨root, t.size⟩

theorem Reaches.sound [Inhabited T] (h : Reaches t) : t.root.Sound := by
  induction h with
  | create => exact Node.sound_empty
  | @step t op h ih =>
    cases op with
    | insert key value => exact Node.insert_sound ih
    | erase key =>
      rw [Trie.step, Trie.erase]
      split
      · exact ih
      · rename_i hfound
        refine Node.eraseHelper_sound ih ?_
        rw [← find_eq]
        simpa [Trie.contains] using hfound
    | clear => exact Node.sound_empty
  | shuffle h shuffles ih => exact shuffles.sound ih

/-- A list of what has a property, in order and once each. -/
structure Lists (ks : List Key) (P : Key → Prop) : Prop where
  sorted : ks.Pairwise (· < ·)
  mem (k : Key) : k ∈ ks ↔ P k

/-- The keys with a prefix, all keys and all values come in the order of the keys. -/
def InKeyOrder (t : Trie T) : Prop :=
  (∀ pre, Lists (t.startsWith pre) fun k => t.contains k = true ∧ pre <+: k) ∧
  ∃ ks, Lists ks (fun k => t.contains k = true) ∧ t.keys = ks ∧ t.values = ks.filterMap t.find

theorem Node.Ordered.descend (h : node.Ordered) (hlast : node.descend k = some child) :
    child.Ordered := by
  induction k generalizing node with
  | nil => exact Option.some.inj hlast ▸ h
  | cons c k ih =>
    cases h with
    | intro sorted ordered =>
      obtain ⟨next, hc, hdown⟩ := Option.bind_eq_some_iff.mp hlast
      exact ih (ordered _ (of_mem_dlookup hc)) hdown

theorem mem_keys (hs : t.root.Sound) : k ∈ t.keys ↔ t.contains k = true := by
  rw [contains_iff, Trie.keys, Node.mem_collectKeys hs]
  simp

/-- Keys and values come in key order exactly where every node enumerates its children in the
order of their characters. -/
theorem lists_in_key_order_iff [Inhabited T] (h : Reaches t) : InKeyOrder t ↔ t.root.Ordered := by
  have hs := h.sound
  constructor
  · intro horder
    obtain ⟨_, ks, hks, hkeys, _⟩ := horder
    rw [← Node.sorted_collectKeys hs]
    exact hkeys ▸ hks.sorted
  · intro hordered
    refine ⟨fun pre => ⟨?_, fun k => mem_startsWith hs⟩, t.keys,
      ⟨?_, fun k => mem_keys hs⟩, rfl, rfl⟩
    · rw [Trie.startsWith]
      cases hpre : t.root.descend pre with
      | none => exact Pairwise.nil
      | some node => exact (Node.sorted_collectKeys (hs.descend hpre)).mpr (hordered.descend hpre)
    · exact (Node.sorted_collectKeys hs).mpr hordered

theorem lists_in_key_order_two :
    InKeyOrder (((create : Trie Nat).insert [98] 1).insert [97] 2) := by
  refine (lists_in_key_order_iff (.step (.insert [97] 2) (.step (.insert [98] 1) .create))).mpr ?_
  refine .intro (by decide) ?_
  simp [Node.ordered_iff, Node.empty, Node.insert]

/-- Without any reordering, the later of two keys comes first. -/
theorem keys_out_of_order :
    ¬ ∀ (T : Type) (_ : Inhabited T) (t : Trie T), Reaches t → InKeyOrder t := by
  intro h
  obtain ⟨_, ks, hks, hkeys, _⟩ :=
    h Nat inferInstance _ (.step (.insert [98] 2) (.step (.insert [97] 1) .create))
  have hsorted := hkeys ▸ hks.sorted
  exact absurd hsorted (by decide)

end Orders

end Cppforge.Multiway.Trie
