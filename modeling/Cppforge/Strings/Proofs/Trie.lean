import Cppforge.Strings.AhoCorasick
import Mathlib.Algebra.Ring.Int.Defs
import Mathlib.Algebra.Order.Ring.Int
import Mathlib.Data.Finset.Card
import Mathlib.Data.List.Induction
import Mathlib.Data.List.Infix

namespace Cppforge.Strings

theorem toInt32_of_lt {n : Nat} (h : n < 2 ^ 31) : toInt32 n = n := by
  have h' : n < 2147483648 := h
  exact Int.bmod_eq_of_le_mul_two (by omega) (by omega)

theorem nodup_toInt32 {n : Nat} (hsmall : n ≤ 2 ^ 31) (p : Nat → Bool) :
    (((List.range n).filter p).map toInt32).Nodup := by
  refine List.Nodup.map_on ?_ (List.nodup_range.filter _)
  intro i hi j hj heq
  have hi := List.mem_range.mp (List.mem_filter.mp hi).1
  have hj := List.mem_range.mp (List.mem_filter.mp hj).1
  rw [toInt32_of_lt (by omega), toInt32_of_lt (by omega)] at heq
  exact Int.ofNat.inj heq

theorem toInt32_full : toInt32 (2 ^ 31) = -2 ^ 31 := by decide

theorem toInt32_range (n : Nat) : -2 ^ 31 ≤ toInt32 n ∧ toInt32 n < 2 ^ 31 :=
  ⟨Int.le_bmod (by decide), Int.bmod_lt (by decide)⟩

theorem toSize_of_lt {n : Nat} (h : n < 2 ^ 64) : toSize n = n := by
  rw [toSize]
  omega

@[simp] theorem read_eq_ok {E : Type} {l : List E} {i : Nat} {e : E} :
    read l i = .ok e ↔ l[i]? = some e := by
  rw [read]
  cases l[i]? <;> simp

theorem read_eq_error {E : Type} {l : List E} {i : Nat} (h : l.length ≤ i) :
    read l i = .error .undefined := by
  rw [read, List.getElem?_eq_none h]

theorem read_map {E F : Type} {l : List E} {i : Nat} {e : E} (f : E → F) (h : l[i]? = some e) :
    read (l.map f) i = .ok (f e) := by
  rw [read_eq_ok, List.getElem?_map, h]
  rfl

theorem cell_map {E : Type} {l : List E} {i : Nat} {e : E} (f : E → Byte → Int) (c : Byte)
    (h : l[i]? = some e) : cell (l.map f) i c = .ok (f e c) := by
  rw [cell, read_map f h]
  rfl

namespace AhoCorasick

variable {words : List (List Byte)} {w x : List Byte} {c : Byte} {s : Nat} {a : AhoCorasick}
  {patterns : List (List Byte)}

/-- The words that lead from the root to the states, in the order of the states. -/
structure Words (words : List (List Byte)) : Prop where
  nodup : words.Nodup
  root : words[0]? = some []
  closed : ∀ w c, w ++ [c] ∈ words → w ∈ words
  short : ∀ (s : Nat) (w : List Byte), words[s]? = some w → w.length ≤ s
  small : words.length ≤ 2 ^ 31

instance : LawfulBEq (List Byte) := inferInstance

/-- The state of a word, or `NO_STATE`. -/
def code (words : List (List Byte)) (w : List Byte) : Int :=
  if w ∈ words then words.idxOf w else noState

/-- The indices of the patterns that end at a word. -/
def own (patterns : List (List Byte)) (w : List Byte) : List Int :=
  ((List.range patterns.length).filter fun i => patterns[i]? = some w).map toInt32

/-- Before `build` the tables hold the trie of the patterns. -/
structure Trie (words : List (List Byte)) (patterns : List (List Byte)) (a : AhoCorasick) : Prop
    extends Words words where
  goTo : a.goTo = words.map fun w c => code words (w ++ [c])
  fail : a.fail.length = words.length
  output : a.output = words.map (own patterns)
  patterns_eq : a.patterns = patterns
  stored : ∀ p ∈ patterns, p ∈ words
  built : a.built = false

theorem idxOf_of_getElem? (h : words.Nodup) (hs : words[s]? = some w) : words.idxOf w = s := by
  obtain ⟨hlt, rfl⟩ := List.getElem?_eq_some_iff.mp hs
  exact h.idxOf_getElem s hlt

theorem getElem?_idxOf_of_mem (h : w ∈ words) : words[words.idxOf w]? = some w :=
  List.getElem?_eq_some_iff.mpr ⟨List.idxOf_lt_length_of_mem h, List.getElem_idxOf _⟩

theorem Words.nil_mem (h : Words words) : [] ∈ words := List.mem_of_getElem? h.root

theorem Words.idxOf_nil (h : Words words) : words.idxOf [] = 0 := idxOf_of_getElem? h.nodup h.root

theorem code_of_mem (h : w ∈ words) : code words w = words.idxOf w := if_pos h

theorem code_of_not_mem (h : w ∉ words) : code words w = noState := if_neg h

theorem code_eq_noState : code words w = noState ↔ w ∉ words := by
  constructor
  · intro h hmem
    rw [code_of_mem hmem, noState] at h
    omega
  · exact code_of_not_mem

theorem code_concat (h : x ≠ w) : code (words ++ [x]) w = code words w := by
  by_cases hw : w ∈ words
  · rw [code_of_mem hw, code_of_mem (List.mem_append_left _ hw), List.idxOf_append_of_mem hw]
  · rw [code_of_not_mem hw, code_of_not_mem]
    simp [hw, h.symm]

theorem code_concat_self (h : x ∉ words) : code (words ++ [x]) x = words.length := by
  rw [code_of_mem List.mem_concat_self, List.idxOf_append_of_notMem h]
  simp

/-- The tables of a trie with one more word. -/
theorem goTo_concat (hnodup : words.Nodup) (hclosed : ∀ w c, w ++ [c] ∈ words → w ∈ words)
    (hs : words[s]? = some w) (hnew : w ++ [c] ∉ words) :
    setCell ((words.map fun w c => code words (w ++ [c])) ++ [fun _ => noState]) s c words.length =
      (words ++ [w ++ [c]]).map fun v d => code (words ++ [w ++ [c]]) (v ++ [d]) := by
  have hlt : s < words.length := (List.getElem?_eq_some_iff.mp hs).1
  refine List.ext_getElem? fun i => ?_
  rw [setCell, List.getElem?_modify, List.getElem?_append, List.length_map, List.getElem?_map,
    List.getElem?_map, List.getElem?_append]
  by_cases hi : i < words.length
  · obtain ⟨v, hv⟩ : ∃ v, words[i]? = some v := ⟨_, List.getElem?_eq_getElem hi⟩
    simp only [if_pos hi, hv, Option.map_some, Option.map_eq_map,
      Option.some.injEq]
    funext d
    by_cases hvd : w ++ [c] = v ++ [d]
    · obtain ⟨rfl, hcd⟩ := List.append_inj' hvd rfl
      obtain rfl : c = d := by simpa using hcd
      have his : s = i := by
        rw [← idxOf_of_getElem? hnodup hs, idxOf_of_getElem? hnodup hv]
      rw [if_pos his, Function.update_self, code_concat_self hnew]
    · rw [code_concat hvd]
      split
      next his =>
        obtain rfl : v = w := by
          rw [his, hv] at hs
          exact Option.some.inj hs
        rw [Function.update_of_ne]
        rintro rfl
        exact hvd rfl
      next => rfl
  · rw [if_neg hi, if_neg hi]
    by_cases hlast : i = words.length
    · subst hlast
      simp only [Nat.sub_self, List.getElem?_cons_zero, Option.map_some, Option.map_eq_map,
        if_neg (by omega : ¬ s = words.length), Option.some.injEq]
      funext d
      refine (code_of_not_mem ?_).symm
      intro hmem
      rcases List.mem_append.mp hmem with hmem | hmem
      · exact hnew (hclosed _ _ hmem)
      · simp at hmem
    · have : i - words.length = (i - words.length - 1) + 1 := by omega
      rw [this]
      simp

theorem cell_setCell {t : Table} {s : Nat} (h : s < t.length) (c : Byte) (v : Int) :
    cell (setCell t s c v) s c = .ok v := by
  rw [cell, setCell, read, List.getElem?_modify_eq, List.getElem?_eq_getElem h]
  simp [Functor.map, Bind.bind, Except.bind, Pure.pure, Except.pure]

theorem Words.concat (h : Words words) (hw : w ∈ words) (hnew : w ++ [c] ∉ words)
    (hlt : words.length < 2 ^ 31) : Words (words ++ [w ++ [c]]) where
  nodup := List.nodup_append'.mpr ⟨h.nodup, List.nodup_singleton _, by simpa using hnew⟩
  root := by
    rw [List.getElem?_append_left (List.getElem?_eq_some_iff.mp h.root).1]
    exact h.root
  closed := by
    intro v d hv
    rcases List.mem_append.mp hv with hv | hv
    · exact List.mem_append_left _ (h.closed v d hv)
    · obtain ⟨rfl, _⟩ := List.append_inj' (List.mem_singleton.mp hv) rfl
      exact List.mem_append_left _ hw
  short := by
    intro s v hs
    rw [List.getElem?_append] at hs
    split at hs
    · exact h.short s v hs
    · obtain ⟨i, hi⟩ := List.mem_iff_getElem?.mp hw
      have hshort := h.short i w hi
      have hi := (List.getElem?_eq_some_iff.mp hi).1
      obtain rfl := List.mem_singleton.mp (List.mem_of_getElem? hs)
      rw [List.length_append, List.length_singleton]
      omega
  small := by
    rw [List.length_append, List.length_singleton]
    omega

/-- The automaton after a new state for a letter behind `w`. -/
theorem Trie.concat (h : Trie words patterns a) (hs : words[s]? = some w)
    (hnew : w ++ [c] ∉ words) (hlt : words.length < 2 ^ 31) :
    Trie (words ++ [w ++ [c]]) patterns
      { a.addState.1 with
        goTo := setCell a.addState.1.goTo s c (toInt32 a.addState.2) } where
  toWords := h.toWords.concat (List.mem_of_getElem? hs) hnew hlt
  goTo := by
    have hlen : a.goTo.length = words.length := by rw [h.goTo, List.length_map]
    rw [addState, hlen, toInt32_of_lt hlt, h.goTo]
    exact goTo_concat h.nodup h.closed hs hnew
  fail := by simp [addState, h.fail]
  output := by
    have hown : own patterns (w ++ [c]) = [] := by
      rw [own, List.map_eq_nil_iff, List.filter_eq_nil_iff]
      intro i _ hi
      exact hnew (h.stored _ (List.mem_of_getElem? (of_decide_eq_true hi)))
    rw [addState, List.map_append, List.map_singleton, hown, h.output]
  patterns_eq := h.patterns_eq
  stored p hp := List.mem_append_left _ (h.stored p hp)
  built := h.built

/-- From a state that does not exist nothing is reached. -/
theorem descend_outside (hgoTo : a.goTo.length ≤ s) (hout : a.output.length ≤ s)
    (pattern : List Byte) {a' : AhoCorasick} {s' : Nat}
    (h : descend pattern s a = .ok (a', s')) : a'.output.length ≤ s' := by
  cases pattern with
  | nil =>
    cases h
    exact hout
  | cons c pattern =>
    rw [descend, cell, read_eq_error hgoTo] at h
    cases h

/-- `words` with prefixes of `p` added, each once. -/
structure Grown (words words' : List (List Byte)) (p : List Byte) : Prop where
  nodup : words'.Nodup
  subset : words ⊆ words'
  only : ∀ x ∈ words', x ∈ words ∨ x <+: p

/-- The loop of `insert` ends at the state of the pattern, or there are more prefixes
than states have numbers. -/
theorem descend_spec (h : Trie words patterns a) (hs : words[s]? = some w) (p : List Byte) :
    (∃ a' words' s', descend p s a = .ok (a', s') ∧ Trie words' patterns a' ∧
      words'[s']? = some (w ++ p) ∧ Grown words words' (w ++ p)) ∨
    ((∀ a' s', descend p s a = .ok (a', s') → a'.output.length ≤ s') ∧
      ∃ words', Grown words words' (w ++ p) ∧ 2 ^ 31 < words'.length) := by
  induction p generalizing words a s w with
  | nil =>
    refine .inl ⟨a, words, s, rfl, h, by rwa [List.append_nil], h.nodup, List.Subset.refl _, ?_⟩
    exact fun x hx => .inl hx
  | cons c p ih =>
    have hcell : cell a.goTo s c = .ok (code words (w ++ [c])) := by
      rw [h.goTo, cell_map _ c hs]
    have happ : w ++ c :: p = w ++ [c] ++ p := by simp
    by_cases hmem : w ++ [c] ∈ words
    · have hstep : descend (c :: p) s a = descend p (words.idxOf (w ++ [c])) a := by
        have hidx : words.idxOf (w ++ [c]) < words.length := List.idxOf_lt_length_of_mem hmem
        have hsmall := h.small
        have hcode : code words (w ++ [c]) ≠ noState := fun hno => code_eq_noState.mp hno hmem
        rw [descend, hcell]
        simp only [bind, Except.bind, if_neg hcode]
        rw [code_of_mem hmem, toSize_of_lt (by omega)]
      rw [hstep, happ]
      exact ih h (getElem?_idxOf_of_mem hmem)
    · have hlen : a.goTo.length = words.length := by rw [h.goTo, List.length_map]
      have hslt : s < words.length := (List.getElem?_eq_some_iff.mp hs).1
      have hstep : descend (c :: p) s a = descend p (toSize (toInt32 words.length))
          { a.addState.1 with goTo := setCell a.addState.1.goTo s c (toInt32 a.addState.2) } := by
        rw [descend, hcell, code_of_not_mem hmem]
        simp only [bind, Except.bind, if_true, addState, hlen]
        rw [cell_setCell (by rw [List.length_append]; omega)]
      rw [hstep, happ]
      have hgrown : Grown words (words ++ [w ++ [c]]) (w ++ [c] ++ p) := by
        refine ⟨?_, List.subset_append_left _ _, ?_⟩
        · exact List.nodup_append'.mpr ⟨h.nodup, List.nodup_singleton _, by simpa using hmem⟩
        · intro x hx
          rcases List.mem_append.mp hx with hx | hx
          · exact .inl hx
          · rw [List.mem_singleton.mp hx]
            exact .inr (List.prefix_append _ _)
      have trans : ∀ {words'}, Grown (words ++ [w ++ [c]]) words' (w ++ [c] ++ p) →
          Grown words words' (w ++ [c] ++ p) := by
        intro words' hg
        refine ⟨hg.nodup, List.Subset.trans hgrown.subset hg.subset, ?_⟩
        intro x hx
        rcases hg.only x hx with hx | hx
        · exact hgrown.only x hx
        · exact .inr hx
      by_cases hlt : words.length < 2 ^ 31
      · rw [toInt32_of_lt hlt, toSize_of_lt (by omega)]
        rcases ih (h.concat hs hmem hlt) (s := words.length) (w := w ++ [c]) (by simp) with
          ⟨a', words', s', hrun, htrie, hs', hg⟩ | ⟨hbad, words', hg, hlong⟩
        · exact .inl ⟨a', words', s', hrun, htrie, hs', trans hg⟩
        · exact .inr ⟨hbad, words', trans hg, hlong⟩
      · have hsmall := h.small
        have hfull : words.length = 2 ^ 31 := by omega
        have hstate : toSize (toInt32 words.length) = 2 ^ 64 - 2 ^ 31 := by
          rw [hfull, toInt32_full]
          rfl
        refine .inr ⟨?_, words ++ [w ++ [c]], hgrown, by simp [hfull]⟩
        intro a' s' hrun
        refine descend_outside ?_ ?_ p hrun
        · rw [hstate, setCell, List.length_modify, addState, List.length_append, hlen, hfull]
          decide
        · rw [hstate, addState, List.length_append, h.output, List.length_map, hfull]
          decide

theorem Words.prefix_mem (h : Words words) (hw : w ∈ words) (hx : x <+: w) : x ∈ words := by
  induction w using List.reverseRecOn with
  | nil => rwa [List.prefix_nil.mp hx]
  | append_singleton w c ih =>
    rcases List.prefix_concat_iff.mp hx with rfl | hx
    · exact hw
    · exact ih (h.closed w c hw) hx

theorem own_concat (patterns : List (List Byte)) (p w : List Byte) : own (patterns ++ [p]) w =
    if p = w then own patterns w ++ [toInt32 patterns.length] else own patterns w := by
  have hold : (List.range patterns.length).filter (fun i => (patterns ++ [p])[i]? = some w) =
      (List.range patterns.length).filter fun i => patterns[i]? = some w := by
    refine List.filter_congr fun i hi => ?_
    rw [List.getElem?_append_left (List.mem_range.mp hi)]
  rw [own, List.length_append, List.length_singleton, List.range_succ, List.filter_append, hold,
    List.map_append]
  split
  next hp => simp [own, hp]
  next hp => simp [own, hp]

theorem create_trie : Trie [[]] [] create where
  nodup := List.nodup_singleton _
  root := rfl
  closed := by simp
  short := by
    intro s w hs
    obtain rfl := List.mem_singleton.mp (List.mem_of_getElem? hs)
    exact Nat.zero_le s
  small := by decide
  goTo := by simp [create, code]
  fail := rfl
  output := rfl
  patterns_eq := rfl
  stored := nofun
  built := rfl

theorem insert_spec (h : Trie words patterns a) {p : List Byte} (hp : p ≠ []) :
    (∃ a' words', a.insert p = .ok a' ∧ Trie words' (patterns ++ [p]) a' ∧ Grown words words' p) ∨
    ((∀ a', a.insert p ≠ .ok a') ∧ ∃ words', Grown words words' p ∧ 2 ^ 31 < words'.length) := by
  have hrun : a.insert p = (descend p 0 a).bind fun r => (read r.1.output r.2).bind
      fun out => .ok { r.1 with
        output := r.1.output.set r.2 (out ++ [toInt32 r.1.patterns.length])
        patterns := r.1.patterns ++ [p] } := by
    rw [insert, if_neg hp, h.built]
    rfl
  have hspec := descend_spec h h.root p
  rw [List.nil_append] at hspec
  rcases hspec with ⟨a', words', s', hdescend, htrie, hs', hg⟩ | ⟨hbad, words', hg, hlong⟩
  · left
    have hread : read a'.output s' = .ok (own patterns p) := by
      rw [htrie.output, read_map _ hs']
    rw [hrun, hdescend]
    simp only [Except.bind, hread]
    refine ⟨_, words', rfl, ?_, hg⟩
    refine { htrie with
      output := ?_
      patterns_eq := congrArg (· ++ [p]) htrie.patterns_eq
      stored := ?_ }
    · rw [htrie.output, htrie.patterns_eq]
      refine List.ext_getElem? fun i => ?_
      rw [List.getElem?_set, List.length_map, List.getElem?_map, List.getElem?_map]
      have hlt := (List.getElem?_eq_some_iff.mp hs').1
      split
      next his =>
        rw [← his, hs', Option.map_some, own_concat, if_pos rfl]
      next his =>
        cases hi : words'[i]? with
        | none => rfl
        | some w =>
          rw [Option.map_some, Option.map_some, own_concat, if_neg]
          rintro rfl
          exact his (by rw [← idxOf_of_getElem? htrie.nodup hs', idxOf_of_getElem? htrie.nodup hi])
    · intro q hq
      rcases List.mem_append.mp hq with hq | hq
      · exact htrie.stored q hq
      · rw [List.mem_singleton.mp hq]
        exact List.mem_of_getElem? hs'
  · right
    refine ⟨?_, words', hg, hlong⟩
    intro a' hok
    rw [hrun] at hok
    cases hdescend : descend p 0 a with
    | error e =>
      rw [hdescend] at hok
      cases hok
    | ok r =>
      rw [hdescend] at hok
      simp only [Except.bind, read_eq_error (hbad r.1 r.2 hdescend)] at hok
      cases hok

section Prefixes

/-- The words on the way to the patterns: the states of the automaton. -/
def prefixes (patterns : List (List Byte)) : Finset (List Byte) :=
  ([] :: patterns.flatMap List.inits).toFinset

theorem mem_prefixes : x ∈ prefixes patterns ↔ x = [] ∨ ∃ p ∈ patterns, x <+: p := by
  simp [prefixes, List.mem_inits]

theorem Grown.length_le {words' : List (List Byte)} {p : List Byte} (h : Grown words words' p)
    (hwords : ∀ x, x ∈ words ↔ x ∈ prefixes patterns) :
    words'.length ≤ (prefixes (patterns ++ [p])).card := by
  rw [← List.toFinset_card_of_nodup h.nodup]
  refine Finset.card_le_card fun x hx => ?_
  rw [List.mem_toFinset] at hx
  rw [mem_prefixes]
  rcases h.only x hx with hx | hx
  · rcases mem_prefixes.mp ((hwords x).mp hx) with rfl | ⟨q, hq, hxq⟩
    · exact .inl rfl
    · exact .inr ⟨q, List.mem_append_left _ hq, hxq⟩
  · exact .inr ⟨p, List.mem_concat_self, hx⟩

theorem prefixes_mono (p : List Byte) : prefixes patterns ⊆ prefixes (patterns ++ [p]) := by
  intro x hx
  rw [mem_prefixes] at hx ⊢
  rcases hx with rfl | ⟨q, hq, hxq⟩
  · exact .inl rfl
  · exact .inr ⟨q, List.mem_append_left _ hq, hxq⟩

/-- Insertions make the trie of the patterns, or there are more prefixes than states
have numbers. -/
theorem insertAll_spec (patterns : List (List Byte)) (hne : ∀ p ∈ patterns, p ≠ []) :
    (∃ a words, patterns.foldlM insert create = .ok a ∧ Trie words patterns a ∧
      ∀ x, x ∈ words ↔ x ∈ prefixes patterns) ∨
    ((∀ a, patterns.foldlM insert create ≠ .ok a) ∧ 2 ^ 31 < (prefixes patterns).card) := by
  induction patterns using List.reverseRecOn with
  | nil => exact .inl ⟨create, [[]], rfl, create_trie, by simp [prefixes]⟩
  | append_singleton patterns p ih =>
    have hne' : ∀ q ∈ patterns, q ≠ [] := fun q hq => hne q (List.mem_append_left _ hq)
    have hrun : (patterns ++ [p]).foldlM insert create =
        (patterns.foldlM insert create).bind fun a => a.insert p := by
      rw [List.foldlM_append]
      refine congrArg _ (funext fun a => ?_)
      rw [List.foldlM_cons]
      cases a.insert p <;> rfl
    rw [hrun]
    rcases ih hne' with ⟨a, words, hok, htrie, hwords⟩ | ⟨hbad, hlong⟩
    · rw [hok]
      rcases insert_spec htrie (hne p List.mem_concat_self) with
        ⟨a', words', hins, htrie', hg⟩ | ⟨hbad, words', hg, hlong⟩
      · refine .inl ⟨a', words', hins, htrie', fun x => ?_⟩
        constructor
        · intro hx
          rcases hg.only x hx with hx | hx
          · exact prefixes_mono p ((hwords x).mp hx)
          · exact mem_prefixes.mpr (.inr ⟨p, List.mem_concat_self, hx⟩)
        · intro hx
          rcases mem_prefixes.mp hx with rfl | ⟨q, hq, hxq⟩
          · exact htrie'.nil_mem
          · exact htrie'.prefix_mem (htrie'.stored q hq) hxq
      · exact .inr ⟨hbad, hlong.trans_le (hg.length_le hwords)⟩
    · refine .inr ⟨?_, hlong.trans_le (Finset.card_le_card (prefixes_mono p))⟩
      intro a' hok
      cases hall : patterns.foldlM insert create with
      | error e =>
        rw [hall] at hok
        cases hok
      | ok a => exact hbad a hall

end Prefixes

end AhoCorasick
end Cppforge.Strings
