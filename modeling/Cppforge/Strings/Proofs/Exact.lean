import Cppforge.Strings.Proofs.Matching
import Mathlib.Algebra.Order.BigOperators.Group.Finset
import Mathlib.Data.Nat.Cast.Basic

namespace Cppforge.Strings.AhoCorasick
open Suffixes

variable {words patterns : List (List Byte)} {w x t : List Byte} {c : Byte}
  {output : List (List Int)} {a : AhoCorasick} {s : Nat} {m : MatchResult}

/-- A place of the text where a pattern stands. -/
def Occurs (patterns : List (List Byte)) (text : List Byte) (m : MatchResult) : Prop :=
  ∃ p, patterns[m.patternIndex]? = some p ∧ m.length = p.length ∧
    m.position + m.length ≤ text.length ∧ (text.drop m.position).take m.length = p

/-- Every place where a pattern stands, each once, in the order of the ends. -/
structure Exact (patterns : List (List Byte)) (text : List Byte) (results : List MatchResult) :
    Prop where
  mem : ∀ m, m ∈ results ↔ Occurs patterns text m
  nodup : results.Nodup
  sorted : results.Pairwise fun m n => m.position + m.length ≤ n.position + n.length

theorem mem_hitsFrom (rest : List Byte) :
    m ∈ hitsFrom words patterns output t rest ↔
      ∃ r, r ≠ [] ∧ r <+: rest ∧ m ∈ hitsAt words patterns output (t ++ r) := by
  induction rest generalizing t with
  | nil =>
    constructor
    · exact nofun
    · rintro ⟨r, hr, hpre, _⟩
      exact absurd (List.prefix_nil.mp hpre) hr
  | cons c rest ih =>
    rw [hitsFrom, List.mem_append, ih]
    constructor
    · rintro (hm | ⟨r, _, hpre, hm⟩)
      · exact ⟨[c], by simp, by simp, hm⟩
      · refine ⟨c :: r, by simp, List.cons_prefix_cons.mpr ⟨rfl, hpre⟩, ?_⟩
        rwa [List.append_assoc] at hm
    · rintro ⟨r, hr, hpre, hm⟩
      obtain ⟨d, r, rfl⟩ := List.exists_cons_of_ne_nil hr
      obtain ⟨rfl, htail⟩ := List.cons_prefix_cons.mp hpre
      by_cases hnil : r = []
      · rw [hnil] at hm
        exact .inl hm
      · refine .inr ⟨r, hnil, htail, ?_⟩
        rwa [List.append_assoc]

section Hits
variable (h : Automaton words patterns output a) (hsmall : patterns.length ≤ 2 ^ 31)
include h hsmall

theorem Automaton.mem_hitsAt : m ∈ hitsAt words patterns output t ↔
    ∃ p, patterns[m.patternIndex]? = some p ∧ p <:+ t ∧ m.length = p.length ∧
      m.position = t.length - p.length := by
  obtain ⟨out, hout, hreports⟩ := h.reports_target t
  rw [hitsAt, hout, Option.getD_some, List.mem_map]
  constructor
  · rintro ⟨v, hv, rfl⟩
    obtain ⟨i, p, hi, hp, _, hsize⟩ := h.entry hsmall hout hv
    exact ⟨p, by rw [hit, hsize, hi], hp, by rw [hit, hsize, hi]; rfl,
      by rw [hit, hsize, hi]; rfl⟩
  · rintro ⟨p, hi, hp, hlen, hpos⟩
    have hlt := (List.getElem?_eq_some_iff.mp hi).1
    have hmem : p ∈ words := h.stored p (List.mem_of_getElem? hi)
    refine ⟨toInt32 m.patternIndex, ?_, ?_⟩
    · exact (hreports.mem _).mpr ⟨m.patternIndex, p, hi, suffix_longest hmem hp, rfl⟩
    · have hsize : toSize (toInt32 m.patternIndex) = m.patternIndex := by
        rw [toInt32_of_lt (by omega), toSize_of_lt (by omega)]
      rw [hit, hsize, hi, Option.getD_some, ← hpos, ← hlen]

theorem Automaton.end_hitsAt (hm : m ∈ hitsAt words patterns output t) :
    m.position + m.length = t.length := by
  obtain ⟨p, _, hp, hlen, hpos⟩ := (h.mem_hitsAt hsmall).mp hm
  have := hp.length_le
  omega

theorem Automaton.nodup_hitsAt (t : List Byte) : (hitsAt words patterns output t).Nodup := by
  obtain ⟨out, hout, hreports⟩ := h.reports_target t
  rw [hitsAt, hout, Option.getD_some]
  refine List.Nodup.map_on ?_ (hreports.nodup hsmall)
  intro v hv v' hv' heq
  obtain ⟨i, _, _, _, hvi, hsize⟩ := h.entry hsmall hout hv
  obtain ⟨i', _, _, _, hvi', hsize'⟩ := h.entry hsmall hout hv'
  have hindex : toSize v = toSize v' := congrArg MatchResult.patternIndex heq
  rw [hvi, hvi', ← hsize, ← hsize', hindex]

theorem Automaton.end_hitsFrom {rest : List Byte} (hm : m ∈ hitsFrom words patterns output t rest) :
    t.length < m.position + m.length := by
  obtain ⟨r, hr, _, hm⟩ := (mem_hitsFrom rest).mp hm
  have hpos := List.length_pos_of_ne_nil hr
  rw [h.end_hitsAt hsmall hm, List.length_append]
  omega

theorem Automaton.ordered_hitsFrom (rest : List Byte) :
    (hitsFrom words patterns output t rest).Nodup ∧
      (hitsFrom words patterns output t rest).Pairwise
        fun m n => m.position + m.length ≤ n.position + n.length := by
  induction rest generalizing t with
  | nil => exact ⟨.nil, .nil⟩
  | cons c rest ih =>
    obtain ⟨hnodup, hsorted⟩ := ih (t := t ++ [c])
    have hlater : ∀ m ∈ hitsAt words patterns output (t ++ [c]),
        ∀ n ∈ hitsFrom words patterns output (t ++ [c]) rest,
          m.position + m.length < n.position + n.length := by
      intro m hm n hn
      rw [h.end_hitsAt hsmall hm]
      exact h.end_hitsFrom hsmall hn
    rw [hitsFrom]
    constructor
    · rw [List.nodup_append']
      refine ⟨h.nodup_hitsAt hsmall _, hnodup, ?_⟩
      intro m hm hn
      exact absurd (hlater m hm m hn) (lt_irrefl _)
    · rw [List.pairwise_append]
      refine ⟨?_, hsorted, fun m hm n hn => (hlater m hm n hn).le⟩
      refine List.pairwise_of_forall_mem_list fun m hm n hn => ?_
      rw [h.end_hitsAt hsmall hm, h.end_hitsAt hsmall hn]

/-- All matches of a text are reported. -/
theorem Automaton.exact_hitsFrom (hne : ∀ p ∈ patterns, p ≠ []) (text : List Byte) :
    Exact patterns text (hitsFrom words patterns output [] text) where
  nodup := (h.ordered_hitsFrom hsmall text).1
  sorted := (h.ordered_hitsFrom hsmall text).2
  mem m := by
    rw [mem_hitsFrom]
    constructor
    · rintro ⟨r, _, ⟨rest, rfl⟩, hm⟩
      obtain ⟨p, hi, ⟨q, hq⟩, hlen, hpos⟩ := (h.mem_hitsAt hsmall).mp hm
      rw [List.nil_append] at hq hpos
      have hposq : m.position = q.length := by
        rw [hpos, ← hq, List.length_append]
        omega
      refine ⟨p, hi, hlen, ?_, ?_⟩
      · rw [hposq, hlen, ← hq, List.length_append, List.length_append]
        omega
      · rw [hposq, hlen, ← hq, List.append_assoc, List.drop_left, List.take_left]
    · rintro ⟨p, hi, hlen, hle, htake⟩
      have hp := hne p (List.mem_of_getElem? hi)
      have hr : text.take (m.position + m.length) = text.take m.position ++ p := by
        rw [List.take_add, htake]
      refine ⟨text.take (m.position + m.length), ?_, List.take_prefix _ _, ?_⟩
      · rw [hr]
        simp [hp]
      · rw [List.nil_append, h.mem_hitsAt hsmall]
        refine ⟨p, hi, ?_, hlen, ?_⟩
        · rw [hr]
          exact List.suffix_append _ _
        · rw [List.length_take]
          omega

end Hits

section Counting

/-- How many patterns a word ends with. -/
def hits (patterns : List (List Byte)) (w : List Byte) : Nat :=
  patterns.countP fun p => decide (p <:+ w)

theorem countP_range {E : Type} (p : E → Bool) (l : List E) :
    (List.range l.length).countP (fun i => (l[i]?).any p) = l.countP p := by
  induction l using List.reverseRecOn with
  | nil => rfl
  | append_singleton l e ih =>
    have hold : (List.range l.length).countP (fun i => ((l ++ [e])[i]?).any p) =
        (List.range l.length).countP fun i => (l[i]?).any p := by
      refine List.countP_congr fun i hi => ?_
      rw [List.getElem?_append_left (List.mem_range.mp hi)]
    rw [List.length_append, List.length_singleton, List.range_succ, List.countP_append, hold, ih,
      List.countP_append]
    simp

theorem Reports.length_eq {out : List Int} (h : Reports patterns w out)
    (hsmall : patterns.length ≤ 2 ^ 31) : out.length = hits patterns w := by
  have hperm : out.Perm (((List.range patterns.length).filter fun i =>
      (patterns[i]?).any fun p => decide (p <:+ w)).map toInt32) := by
    apply (List.perm_ext_iff_of_nodup (h.nodup hsmall) (nodup_toInt32 hsmall _)).mpr
    intro v
    rw [h.mem, List.mem_map]
    constructor
    · rintro ⟨i, p, hi, hp, rfl⟩
      refine ⟨i, List.mem_filter.mpr ⟨?_, ?_⟩, rfl⟩
      · exact List.mem_range.mpr (List.getElem?_eq_some_iff.mp hi).1
      · rw [hi]
        exact decide_eq_true hp
    · rintro ⟨i, hi, rfl⟩
      obtain ⟨_, hany⟩ := List.mem_filter.mp hi
      obtain ⟨p, hp, hsuffix⟩ := (Option.any_eq_true _ _).mp hany
      exact ⟨i, p, hp, of_decide_eq_true hsuffix, rfl⟩
  rw [hperm.length_eq, List.length_map, hits, ← countP_range, List.countP_eq_length_filter]

variable (h : Automaton words patterns output a) (hsmall : patterns.length ≤ 2 ^ 31)
include h hsmall

theorem Automaton.length_out {out : List Int} (hw : words[s]? = some w)
    (hout : output[s]? = some out) : out.length = hits patterns w := by
  obtain ⟨out', hout', hreports⟩ := h.reports w (List.mem_of_getElem? hw)
  rw [idxOf_of_getElem? h.nodup hw, hout] at hout'
  obtain rfl := Option.some.inj hout'
  exact hreports.length_eq hsmall

theorem Automaton.length_flatten (hwords : ∀ x, x ∈ words ↔ x ∈ prefixes patterns) :
    output.flatten.length = ∑ w ∈ prefixes patterns, hits patterns w := by
  have hlengths : output.map List.length = words.map (hits patterns) := by
    refine List.ext_getElem? fun i => ?_
    rw [List.getElem?_map, List.getElem?_map]
    cases hi : words[i]? with
    | none =>
      have hle : output.length ≤ i := by
        rw [h.output_length]
        exact List.getElem?_eq_none_iff.mp hi
      rw [List.getElem?_eq_none hle]
      rfl
    | some w =>
      have hlt : i < output.length := by
        rw [h.output_length]
        exact (List.getElem?_eq_some_iff.mp hi).1
      have hout := List.getElem?_eq_getElem hlt
      rw [hout, Option.map_some, Option.map_some, h.length_out hsmall hi hout]
  have hfinset : words.toFinset = prefixes patterns := by
    ext x
    rw [List.mem_toFinset, hwords]
  rw [List.length_flatten, hlengths, ← hfinset, List.sum_toFinset _ h.nodup]

end Counting

/-- All numbers are those of an `int32_t`: the states, the patterns, the entries for each
state, and all entries together. -/
structure Fits (patterns : List (List Byte)) : Prop where
  states : (prefixes patterns).card ≤ 2 ^ 31
  indices : patterns.length ≤ 2 ^ 31
  counts : ∀ w ∈ prefixes patterns, hits patterns w < 2 ^ 31
  entries : ∑ w ∈ prefixes patterns, hits patterns w ≤ 2 ^ 31

/-- The automaton of the patterns can be built, `match` finds exactly the places where
they stand in a text, and `matchEach` reports the same. -/
def Works (patterns : List (List Byte)) : Prop :=
  ∃ a, ofPatterns patterns = .ok a ∧ ∀ text : StringView, ∃ results,
    a.matchAll text = .ok results ∧ Exact patterns text.1 results ∧
      ∀ (S : Type) (callback : S → MatchResult → S) (start : S),
        a.matchEach callback text start = .ok (results.foldl callback start)

theorem foldl_concat (results l : List MatchResult) :
    l.foldl (fun results m => results ++ [m]) results = results ++ l := by
  induction l generalizing results with
  | nil => simp
  | cons m l ih => simp [ih]

theorem Automaton.target_nil (h : Automaton words patterns output a) : target words [] = 0 :=
  h.idxOf_nil

/-- Where the numbers fit, all is well. -/
theorem works_of_fits (hne : ∀ p ∈ patterns, p ≠ []) (hfits : Fits patterns) : Works patterns := by
  rcases insertAll_spec patterns hne with ⟨a₀, words, hinsert, htrie, hwords⟩ | ⟨_, hlong⟩
  · obtain ⟨a, output, hbuild, h⟩ := build_spec htrie hne
    have hstates : ∀ s, StateFits output s := by
      intro s out hout
      have hlt : s < words.length := by
        rw [← h.output_length]
        exact (List.getElem?_eq_some_iff.mp hout).1
      have hw := List.getElem?_eq_getElem hlt
      refine ⟨?_, ?_⟩
      · rw [h.length_out hfits.indices hw hout]
        exact hfits.counts _ ((hwords _).mp (List.mem_of_getElem? hw))
      · rw [← offset_succ hout]
        refine (offset_le (s + 1)).trans ?_
        rw [h.length_flatten hfits.indices hwords]
        exact hfits.entries
    refine ⟨a, by rw [ofPatterns, hinsert]; exact hbuild, fun text => ?_⟩
    have hopen : ¬ (!a.built) = true := by simp [h.built]
    have hscan : ∀ (S : Type) (callback : S → MatchResult → S) (start : S),
        scan a callback text.1 0 0 start =
          .ok ((hitsFrom words patterns output [] text.1).foldl callback start) := by
      intro S callback start
      have hrun := scan_spec callback h hfits.indices hstates (t := []) text.1
        (by rw [List.length_nil, Nat.zero_add]; exact text.2) start
      rw [h.target_nil] at hrun
      exact hrun
    refine ⟨hitsFrom words patterns output [] text.1, ?_, h.exact_hitsFrom hfits.indices hne _, ?_⟩
    · rw [matchAll, if_neg hopen, hscan, foldl_concat, List.nil_append]
    · intro S callback start
      rw [matchEach, if_neg hopen, hscan]
  · exact absurd hfits.states (by omega)

section Overflow

/-- Matches that end within the first `k` bytes, with an index that was an `int32_t`. -/
def Bounded (k : Nat) (results : List MatchResult) : Prop :=
  ∀ m ∈ results, (m.position + m.length) % 2 ^ 64 ≤ k ∧ m.patternIndex ≠ 2 ^ 31

theorem Automaton.data_range (h : Automaton words patterns output a) {v : Int}
    (hv : v ∈ a.outputData) : -2 ^ 31 ≤ v ∧ v < 2 ^ 31 := by
  rw [h.data, List.mem_flatten] at hv
  obtain ⟨out, hout, hv⟩ := hv
  obtain ⟨s, hs⟩ := List.mem_iff_getElem?.mp hout
  have hlt : s < words.length := by
    rw [← h.output_length]
    exact (List.getElem?_eq_some_iff.mp hs).1
  have hw := List.getElem?_eq_getElem hlt
  obtain ⟨out', hout', hreports⟩ := h.reports _ (List.mem_of_getElem? hw)
  rw [idxOf_of_getElem? h.nodup hw, hs] at hout'
  obtain rfl := Option.some.inj hout'
  obtain ⟨i, _, _, _, rfl⟩ := (hreports.mem v).mp hv
  exact toInt32_range i

/-- What scanning a byte can do. -/
theorem scanByte_cases {S : Type} {report : S → MatchResult → S} {i : Nat} {state state' : Int}
    {found r : S} (hrun : scanByte a report i c state found = .ok (state', r)) :
    cell a.trans (toSize state) c = .ok state' ∧ ∃ cnt, readAt a.outputCnt state' = .ok cnt ∧
      ((0 < cnt ∧ ∃ off, readAt a.outputPtr state' = .ok off ∧
          (List.range cnt.toNat).foldlM (reportHit a report i off) found = .ok r) ∨
        (¬ 0 < cnt ∧ r = found)) := by
  obtain ⟨next, hcell, hrun⟩ := bind_eq_ok.mp hrun
  obtain ⟨cnt, hcnt, hrun⟩ := bind_eq_ok.mp hrun
  split at hrun
  next hpos =>
    obtain ⟨off, hoff, hrun⟩ := bind_eq_ok.mp hrun
    obtain ⟨found', hfold, hrun⟩ := bind_eq_ok.mp hrun
    obtain ⟨rfl, rfl⟩ := Prod.mk.inj (Except.ok.inj hrun)
    exact ⟨hcell, cnt, hcnt, .inl ⟨hpos, off, hoff, hfold⟩⟩
  next hneg =>
    obtain ⟨rfl, rfl⟩ := Prod.mk.inj (Except.ok.inj hrun)
    exact ⟨hcell, cnt, hcnt, .inr ⟨hneg, rfl⟩⟩

variable (h : Automaton words patterns output a)
include h

theorem bounded_reportHit {i : Nat} (hi : i + 1 < 2 ^ 64) {off : Int} {results r : List MatchResult}
    {j : Nat} (hresults : Bounded (i + 1) results)
    (hrun : reportHit a (fun results m => results ++ [m]) i off results j = .ok r) :
    Bounded (i + 1) r := by
  obtain ⟨k, _, hrun⟩ := bind_eq_ok.mp hrun
  obtain ⟨v, hv, hrun⟩ := bind_eq_ok.mp hrun
  obtain ⟨p, _, hrun⟩ := bind_eq_ok.mp hrun
  cases hrun
  intro m hm
  rcases List.mem_append.mp hm with hm | hm
  · exact hresults m hm
  · rw [List.mem_singleton.mp hm]
    have hmem : v ∈ a.outputData := by
      rw [readAt] at hv
      split at hv
      · cases hv
      · exact List.mem_of_getElem? (read_eq_ok.mp hv)
    have hrange := h.data_range hmem
    refine ⟨?_, ?_⟩
    · simp only [toSize]
      omega
    · simp only [toSize, ne_eq]
      omega

theorem bounded_scanByte {i : Nat} (hi : i + 1 < 2 ^ 64) {state state' : Int}
    {results r : List MatchResult} (hresults : Bounded i results)
    (hrun : scanByte a (fun results m => results ++ [m]) i c state results = .ok (state', r)) :
    Bounded (i + 1) r := by
  have hstart : Bounded (i + 1) results := fun m hm =>
    ⟨(hresults m hm).1.trans (Nat.le_succ i), (hresults m hm).2⟩
  obtain ⟨_, cnt, _, ⟨_, off, _, hfold⟩ | ⟨_, rfl⟩⟩ := scanByte_cases hrun
  · exact foldlM_keeps (fun _ _ _ hQ hstep => bounded_reportHit h hi hQ hstep) hstart hfold
  · exact hstart

/-- Where a scan gets to the end, the last byte was scanned from the state of the text
before it. -/
theorem scan_concat (x : List Byte) (hlong : t.length + x.length + 1 < 2 ^ 64)
    {results r : List MatchResult} (hresults : Bounded t.length results)
    (hrun : scan a (fun results m => results ++ [m]) (x ++ [c]) t.length (target words t) results =
      .ok r) :
    ∃ found state, Bounded (t.length + x.length) found ∧
      scanByte a (fun results m => results ++ [m]) (t.length + x.length) c
        (target words (t ++ x)) found = .ok (state, r) := by
  induction x generalizing t results with
  | nil =>
    rw [List.nil_append] at hrun
    obtain ⟨⟨state, found⟩, hbyte, hrun⟩ := bind_eq_ok.mp hrun
    cases hrun
    refine ⟨results, state, hresults, ?_⟩
    rwa [List.append_nil]
  | cons d x ih =>
    rw [List.length_cons] at hlong
    obtain ⟨⟨state, found⟩, hbyte, hrun⟩ := bind_eq_ok.mp hrun
    have hbounded := bounded_scanByte h (by omega) hresults hbyte
    have hstate : state = target words (t ++ [d]) := by
      have hcell := (scanByte_cases hbyte).1
      rw [h.cell_trans] at hcell
      exact (Except.ok.inj hcell).symm
    subst hstate
    have hlen : (t ++ [d]).length = t.length + 1 := by simp
    have hnext := ih (t := t ++ [d]) (by omega) (by rwa [hlen]) (by rwa [hlen])
    rw [hlen, List.append_assoc, List.singleton_append] at hnext
    rw [List.length_cons, ← Nat.add_assoc, Nat.add_right_comm]
    exact hnext

/-- The last byte of a text that was scanned to the end. -/
theorem last_byte {text : StringView} (htext : text.1 = x ++ [c]) {r : List MatchResult}
    (hrun : a.matchAll text = .ok r) :
    ∃ found state, Bounded x.length found ∧
      scanByte a (fun results m => results ++ [m]) x.length c (target words x) found =
        .ok (state, r) := by
  have hopen : ¬ (!a.built) = true := by simp [h.built]
  have hlong := text.2
  rw [htext, List.length_append, List.length_singleton] at hlong
  rw [matchAll, if_neg hopen, htext] at hrun
  have hscan : scan a (fun results m => results ++ [m]) (x ++ [c]) ([] : List Byte).length
      (target words []) [] = .ok r := by
    rw [h.target_nil]
    exact hrun
  have hlast := scan_concat h x (by rw [List.length_nil]; omega) (by intro m hm; cases hm) hscan
  rwa [List.length_nil, Nat.zero_add] at hlast

theorem bounded_matchAll {text : StringView} {r : List MatchResult}
    (hrun : a.matchAll text = .ok r) : Bounded text.1.length r := by
  rcases List.eq_nil_or_concat' text.1 with hnil | ⟨x, c, htext⟩
  · have hopen : ¬ (!a.built) = true := by simp [h.built]
    rw [matchAll, if_neg hopen, hnil] at hrun
    cases hrun
    exact fun _ hm => nomatch hm
  · have hlong := text.2
    obtain ⟨found, state, hbounded, hbyte⟩ := last_byte h htext hrun
    rw [htext, List.length_append, List.length_singleton] at hlong ⊢
    exact bounded_scanByte h (by omega) hbounded hbyte

/-- A pattern whose index is no `int32_t` is never found. -/
theorem index_of_works
    (hall : ∀ text : StringView, ∃ results, a.matchAll text = .ok results ∧
      Exact patterns text.1 results) : patterns.length ≤ 2 ^ 31 := by
  by_contra hlarge
  obtain ⟨p, hp⟩ : ∃ p, patterns[2 ^ 31]? = some p := ⟨_, List.getElem?_eq_getElem (by omega)⟩
  have hshort := h.length_lt (h.stored p (List.mem_of_getElem? hp))
  have hsmall := h.small
  obtain ⟨results, hrun, hexact⟩ := hall ⟨p, by omega⟩
  have hoccurs : Occurs patterns p ⟨0, p.length, 2 ^ 31⟩ :=
    ⟨p, hp, rfl, by simp, by simp⟩
  exact (bounded_matchAll h hrun _ ((hexact.mem _).mpr hoccurs)).2 rfl

omit h in
theorem occurs_of_suffix {i : Nat} {p : List Byte} (hi : patterns[i]? = some p) (hp : p <:+ w) :
    Occurs patterns w ⟨w.length - p.length, p.length, i⟩ := by
  obtain ⟨q, rfl⟩ := hp
  have hq : (q ++ p).length - p.length = q.length := by simp
  refine ⟨p, hi, rfl, ?_, ?_⟩
  · rw [hq, List.length_append]
  · rw [hq, List.drop_left, List.take_of_length_le (Nat.le_refl _)]

/-- The word of a state whose numbers do not fit, while those of the states before it
do, is not scanned to a right end. -/
theorem state_of_works (hne : ∀ p ∈ patterns, p ≠ []) (hsmall : patterns.length ≤ 2 ^ 31)
    (hall : ∀ text : StringView, ∃ results, a.matchAll text = .ok results ∧
      Exact patterns text.1 results) {out : List Int} (hw : words[s]? = some w)
    (hout : output[s]? = some out) (hoffset : offset output s ≤ 2 ^ 31) :
    out.length < 2 ^ 31 ∧ offset output s + out.length ≤ 2 ^ 31 := by
  rcases List.eq_nil_or_concat' out with hempty | ⟨_, v, hlast⟩
  · rw [hempty, List.length_nil]
    omega
  have hmem : w ∈ words := List.mem_of_getElem? hw
  have hidx : words.idxOf w = s := idxOf_of_getElem? h.nodup hw
  have htarget : target words w = s := by rw [target, longest_of_mem hmem, hidx]
  have hlen : out.length ≤ 2 ^ 31 := by
    rw [h.length_out hsmall hw hout]
    exact List.countP_le_length.trans hsmall
  obtain ⟨i, p, hi, hp, _⟩ := h.entry hsmall (t := w) (by rw [htarget]; exact hout)
    (v := v) (by rw [hlast]; exact List.mem_concat_self)
  have hpne := hne p (List.mem_of_getElem? hi)
  obtain ⟨x, c, rfl⟩ : ∃ x c, w = x ++ [c] := by
    rcases List.eq_nil_or_concat' w with rfl | hconcat
    · exact absurd (List.suffix_nil.mp hp) hpne
    · exact hconcat
  have hlong := h.length_lt hmem
  have hstates := h.small
  obtain ⟨results, hrun, hexact⟩ := hall ⟨x ++ [c], by omega⟩
  obtain ⟨found, state, hbounded, hbyte⟩ := last_byte h rfl hrun
  obtain ⟨hcell, cnt, hcnt, hcases⟩ := scanByte_cases hbyte
  rw [h.cell_trans, htarget] at hcell
  obtain rfl := (Except.ok.inj hcell).symm
  rw [h.cnt hout] at hcnt
  have hcntEq : cnt = toInt32 out.length := (Except.ok.inj hcnt).symm
  rw [hcntEq] at hcases
  rcases hcases with ⟨hcount, off, hoff, hfold⟩ | ⟨hcount, rfl⟩
  · have hlt : out.length < 2 ^ 31 := by
      refine lt_of_le_of_ne hlen fun hfull => ?_
      rw [hfull, toInt32_full] at hcount
      omega
    refine ⟨hlt, ?_⟩
    by_contra hover
    rw [h.ptr hout] at hoff
    rw [toInt32_of_lt hlt, Int.toNat_natCast, ← Except.ok.inj hoff] at hfold
    -- the entry that would stand at index 2 ^ 31
    have hj : 2 ^ 31 - offset output s ∈ List.range out.length := List.mem_range.mpr (by omega)
    obtain ⟨found', r', hstep⟩ := step_of_foldlM hfold hj
    obtain ⟨k, hadd, hstep⟩ := bind_eq_ok.mp hstep
    obtain ⟨v', hread, _⟩ := bind_eq_ok.mp hstep
    rw [add32] at hadd
    split at hadd
    next hsum =>
      rw [← Except.ok.inj hadd] at hread
      by_cases hfull : offset output s = 2 ^ 31
      · have hnegative : toInt32 (offset output s) +
            ((2 ^ 31 - offset output s : Nat) : Int) < 0 := by
          rw [hfull, toInt32_full]
          omega
        rw [readAt, if_pos hnegative] at hread
        cases hread
      · rw [toInt32_of_lt (by omega)] at hsum
        omega
    next => cases hadd
  · -- the count is negative, and nothing is reported for this byte
    have hoccurs := (hexact.mem _).mpr (occurs_of_suffix hi hp)
    have hle := (hbounded _ hoccurs).1
    have hplen := hp.length_le
    rw [List.length_append, List.length_singleton] at hle hplen hlong
    simp only at hle
    omega

theorem states_of_works (hne : ∀ p ∈ patterns, p ≠ []) (hsmall : patterns.length ≤ 2 ^ 31)
    (hall : ∀ text : StringView, ∃ results, a.matchAll text = .ok results ∧
      Exact patterns text.1 results) (s : Nat) : StateFits output s := by
  induction s with
  | zero =>
    intro out hout
    exact state_of_works h hne hsmall hall h.root hout (by simp [offset])
  | succ s ih =>
    intro out hout
    have hlt := (List.getElem?_eq_some_iff.mp hout).1
    have hprev := List.getElem?_eq_getElem (show s < output.length by omega)
    have hw := List.getElem?_eq_getElem (show s + 1 < words.length by rwa [← h.output_length])
    refine state_of_works h hne hsmall hall hw hout ?_
    rw [offset_succ hprev]
    exact (ih _ hprev).2

end Overflow

theorem fits_of_works (hne : ∀ p ∈ patterns, p ≠ []) (hworks : Works patterns) : Fits patterns := by
  obtain ⟨a, hbuilt, hall⟩ := hworks
  replace hall : ∀ text : StringView, ∃ results, a.matchAll text = .ok results ∧
      Exact patterns text.1 results := by
    intro text
    obtain ⟨results, hrun, hexact, _⟩ := hall text
    exact ⟨results, hrun, hexact⟩
  obtain ⟨a₀, hinsert, hbuild⟩ := bind_eq_ok.mp hbuilt
  rcases insertAll_spec patterns hne with ⟨a₁, words, hinsert', htrie, hwords⟩ | ⟨hbad, _⟩
  · obtain rfl : a₀ = a₁ := by
      rw [hinsert] at hinsert'
      exact Except.ok.inj hinsert'
    obtain ⟨a', output, hbuild', h⟩ := build_spec htrie hne
    obtain rfl : a = a' := by
      rw [hbuild] at hbuild'
      exact Except.ok.inj hbuild'
    have hsmall := index_of_works h hall
    have hstates := states_of_works h hne hsmall hall
    refine ⟨?_, hsmall, ?_, ?_⟩
    · have hfinset : words.toFinset = prefixes patterns := by
        ext x
        rw [List.mem_toFinset, hwords]
      rw [← hfinset, List.toFinset_card_of_nodup h.nodup]
      exact h.small
    · intro w hw
      have hget := getElem?_idxOf_of_mem ((hwords w).mpr hw)
      obtain ⟨out, hout, _⟩ := h.reports w ((hwords w).mpr hw)
      rw [← h.length_out hsmall hget hout]
      exact (hstates _ out hout).1
    · rw [← h.length_flatten hsmall hwords]
      have hpos : 0 < output.length := by
        rw [h.output_length]
        exact (List.getElem?_eq_some_iff.mp h.root).1
      have hlast := List.getElem?_eq_getElem (show output.length - 1 < output.length by omega)
      have htotal := (hstates _ _ hlast).2
      rw [← offset_succ hlast, Nat.sub_add_cancel hpos, offset, List.take_length] at htotal
      exact htotal
  · exact absurd hinsert (hbad a₀)

/-- For patterns that are not empty, the automaton finds exactly their places in every
text if and only if its numbers fit. -/
theorem match_exact_iff (patterns : List (List Byte)) (hne : ∀ p ∈ patterns, p ≠ []) :
    Works patterns ↔ Fits patterns :=
  ⟨fits_of_works hne, works_of_fits hne⟩

/-- Two patterns, one at the end of the other. -/
theorem match_exact_she : Works [[104, 101], [115, 104, 101]] :=
  (match_exact_iff [[104, 101], [115, 104, 101]] (by decide)).mpr
    ⟨by decide, by decide, by decide, by decide⟩

theorem le_entries (c : Byte) (m n : Nat) : n * m ≤
    ∑ w ∈ prefixes (List.replicate m [c] ++ [List.replicate n c]),
      hits (List.replicate m [c] ++ [List.replicate n c]) w := by
  have hinj : Set.InjOn (fun k => List.replicate (k + 1) c) (Finset.range n) := by
    intro k _ l _ hkl
    have := congrArg List.length hkl
    simpa using this
  have hsub : (Finset.range n).image (fun k => List.replicate (k + 1) c) ⊆
      prefixes (List.replicate m [c] ++ [List.replicate n c]) := by
    intro w hw
    obtain ⟨k, hk, rfl⟩ := Finset.mem_image.mp hw
    refine mem_prefixes.mpr (.inr ⟨List.replicate n c, List.mem_concat_self, ?_⟩)
    rw [List.prefix_replicate_iff]
    simpa using Nat.succ_le_of_lt (Finset.mem_range.mp hk)
  have hle : ∀ k ∈ Finset.range n,
      m ≤ hits (List.replicate m [c] ++ [List.replicate n c]) (List.replicate (k + 1) c) := by
    intro k _
    have hsuffix : [c] <:+ List.replicate (k + 1) c := by
      rw [List.replicate_succ']
      exact List.suffix_append _ _
    rw [hits, List.countP_append, List.countP_replicate, if_pos (decide_eq_true hsuffix)]
    exact Nat.le_add_right _ _
  calc n * m = (Finset.range n).card • m := by rw [Finset.card_range, nsmul_eq_mul, Nat.cast_id]
    _ ≤ ∑ k ∈ Finset.range n, hits (List.replicate m [c] ++ [List.replicate n c])
          (List.replicate (k + 1) c) := Finset.card_nsmul_le_sum _ _ _ hle
    _ = ∑ w ∈ (Finset.range n).image (fun k => List.replicate (k + 1) c),
          hits (List.replicate m [c] ++ [List.replicate n c]) w := (Finset.sum_image hinj).symm
    _ ≤ _ := Finset.sum_le_sum_of_subset hsub

/-- One byte 32769 times, and 65536 of them in a row: the output lists together have more
than `2 ^ 31` entries. -/
theorem not_works_repeated :
    ¬ Works (List.replicate 32769 [97] ++ [List.replicate 65536 97]) := by
  intro hworks
  have hne : ∀ p ∈ List.replicate 32769 [97] ++ [List.replicate 65536 (97 : Byte)], p ≠ [] := by
    intro p hp
    rcases List.mem_append.mp hp with hp | hp
    · rw [List.eq_of_mem_replicate hp]
      exact List.cons_ne_nil _ _
    · rw [List.mem_singleton.mp hp, ne_eq, List.replicate_eq_nil_iff]
      decide
  have hentries := (fits_of_works hne hworks).entries
  have hle := le_entries 97 32769 65536
  omega

end Cppforge.Strings.AhoCorasick
