import Cppforge.Lib.LevelOrder
import Cppforge.Lib.Suffixes
import Cppforge.Strings.Proofs.Trie

namespace Cppforge.Strings.AhoCorasick
open Suffixes LevelOrder

variable {words L patterns : List (List Byte)} {w x u : List Byte} {c : Byte} {s : Search}
  {fail : List Int} {output : List (List Int)}

/-- The state of the longest suffix of a word that has one. -/
def target (words : List (List Byte)) (w : List Byte) : Nat :=
  words.idxOf (longest (· ∈ words) w)

/-- The transitions after step 1. -/
def closed (words : List (List Byte)) (w : List Byte) (c : Byte) : Int :=
  if w = [] ∧ [c] ∉ words then 0 else code words (w ++ [c])

theorem closed_of_mem (h : w ++ [c] ∈ words) : closed words w c = words.idxOf (w ++ [c]) := by
  rw [closed, if_neg, code_of_mem h]
  rintro ⟨rfl, hnot⟩
  exact hnot h

theorem closed_of_not_mem (hw : w ≠ []) (h : w ++ [c] ∉ words) : closed words w c = noState := by
  rw [closed, if_neg (fun hand => hw hand.1), code_of_not_mem h]

theorem closed_eq_noState (hw : w ≠ []) : closed words w c = noState ↔ w ++ [c] ∉ words := by
  rw [closed, if_neg (fun hand => hw hand.1), code_eq_noState]

theorem closed_root (h : Words words) : closed words [] c = target words [c] := by
  rw [target]
  by_cases hc : [c] ∈ words
  · rw [closed_of_mem hc, longest_of_mem hc]
    rfl
  · rw [closed, if_pos ⟨rfl, hc⟩, longest_singleton hc, h.idxOf_nil]
    rfl

theorem Words.idxOf_eq_zero (h : Words words) (hw : w ∈ words) : words.idxOf w = 0 ↔ w = [] := by
  constructor
  · intro hzero
    have hget := getElem?_idxOf_of_mem hw
    rw [hzero, h.root] at hget
    exact (Option.some.inj hget).symm
  · rintro rfl
    exact h.idxOf_nil

theorem Words.longest_mem (h : Words words) (w : List Byte) : longest (· ∈ words) w ∈ words :=
  Suffixes.longest_mem h.nil_mem w

theorem Words.length_lt (h : Words words) (hw : w ∈ words) : w.length < words.length :=
  (h.short _ w (getElem?_idxOf_of_mem hw)).trans_lt (List.idxOf_lt_length_of_mem hw)

theorem Words.toSize_idxOf (h : Words words) (hw : w ∈ words) :
    toSize (words.idxOf w) = words.idxOf w := by
  have hlt := List.idxOf_lt_length_of_mem hw
  have hsmall := h.small
  exact toSize_of_lt (by omega)

theorem cell_idxOf {f : List Byte → Byte → Int} (hw : w ∈ words) (c : Byte) :
    cell (words.map f) (words.idxOf w) c = .ok (f w c) :=
  cell_map f c (getElem?_idxOf_of_mem hw)

/-- Step 1 changes the row of the root only. -/
theorem closeRoot_eq (h : Words words) :
    closeRoot (words.map fun w c => code words (w ++ [c])) = words.map (closed words) := by
  refine List.ext_getElem? fun i => ?_
  rw [closeRoot, List.getElem?_modify, List.getElem?_map, List.getElem?_map]
  cases hi : words[i]? with
  | none => rfl
  | some w =>
    simp only [Option.map_some, Option.map_eq_map, Option.some.injEq]
    funext c
    by_cases hzero : 0 = i
    · obtain rfl : w = [] := by
        rw [← hzero, h.root] at hi
        exact (Option.some.inj hi).symm
      rw [if_pos hzero, closed, List.nil_append]
      by_cases hc : [c] ∈ words
      · rw [if_neg (fun hno => code_eq_noState.mp hno hc), if_neg (fun hand => hand.2 hc)]
      · rw [if_pos (code_of_not_mem hc), if_pos ⟨rfl, hc⟩]
    · have hw : w ≠ [] := by
        rintro rfl
        rw [← idxOf_of_getElem? h.nodup hi, h.idxOf_nil] at hzero
        exact hzero rfl
      rw [if_neg hzero, closed, if_neg (fun hand => hw hand.1)]

section Walk

/-- The walk ends where the longest suffix goes on with the letter. -/
theorem followFail_spec (h : Words words) (hfail : ∀ w ∈ L, fail[words.idxOf w]? =
      some ((words.idxOf (border (· ∈ words) w) : Nat) : Int)) (hx : x ∈ words)
    (hlinked : ∀ y ∈ words, y ≠ [] → y.length ≤ x.length → y ∈ L) (fuel : Nat)
    (hfuel : x.length < fuel) :
    ∃ f, followFail (words.map (closed words)) fail c fuel (words.idxOf x) = .ok f ∧
      cell (words.map (closed words)) f c = .ok (target words (x ++ [c])) := by
  induction fuel generalizing x with
  | zero => omega
  | succ fuel ih =>
    by_cases hnil : x = []
    · subst hnil
      refine ⟨0, by rw [h.idxOf_nil, followFail, if_pos rfl], ?_⟩
      have hcell := cell_idxOf (f := closed words) h.nil_mem c
      rw [h.idxOf_nil, closed_root h] at hcell
      exact hcell
    · have hpos : ¬ words.idxOf x = 0 := fun hzero => hnil ((h.idxOf_eq_zero hx).mp hzero)
      rw [followFail, if_neg hpos, cell_idxOf hx]
      by_cases hc : x ++ [c] ∈ words
      · refine ⟨words.idxOf x, ?_, ?_⟩
        · have hne : ¬ closed words x c = noState := fun hno => (closed_eq_noState hnil).mp hno hc
          simp [bind, Except.bind, hne, pure, Except.pure]
        · rw [cell_idxOf hx, closed_of_mem hc, target, longest_of_mem hc]
      · have hmem : border (· ∈ words) x ∈ words := border_mem h.nil_mem x
        have hlen := length_border (D := (· ∈ words)) hnil
        have hread : read fail (words.idxOf x) =
            .ok ((words.idxOf (border (· ∈ words) x) : Nat) : Int) :=
          read_eq_ok.mpr (hfail x (hlinked x hx hnil (Nat.le_refl _)))
        obtain ⟨f, hrun, hcell⟩ := ih hmem
          (fun y hy hne hle => hlinked y hy hne (by omega)) (by omega)
        refine ⟨f, ?_, ?_⟩
        · simp only [bind, Except.bind, closed_of_not_mem hnil hc, if_true, hread,
            h.toSize_idxOf hmem]
          exact hrun
        · rw [hcell, target, target, longest_concat_border h.nil_mem h.closed hnil hc]

end Walk

/-- The indices in an output list are those of the patterns a word ends with. -/
structure Reports (patterns : List (List Byte)) (w : List Byte) (out : List Int) : Prop where
  nodup : patterns.length ≤ 2 ^ 31 → out.Nodup
  mem : ∀ v, v ∈ out ↔ ∃ i p, patterns[i]? = some p ∧ p <:+ w ∧ toInt32 i = v

/-- Fail links and merged output lists for the words in `L`, and the patterns' own
output elsewhere. -/
structure Linked (words patterns L : List (List Byte)) (fail : List Int)
    (output : List (List Int)) : Prop where
  fail_length : fail.length = words.length
  output_length : output.length = words.length
  fail : ∀ w ∈ L, fail[words.idxOf w]? = some ((words.idxOf (border (· ∈ words) w) : Nat) : Int)
  full : ∀ w ∈ L, ∃ out, output[words.idxOf w]? = some out ∧ Reports patterns w out
  own : ∀ w ∈ words, w ∉ L → output[words.idxOf w]? = some (own patterns w)

section Output

theorem mem_addMissing {dst : List Int} {v k : Int} : v ∈ addMissing dst k ↔ v ∈ dst ∨ v = k := by
  rw [addMissing]
  split
  next hk =>
    constructor
    · exact .inl
    · rintro (hv | rfl)
      · exact hv
      · exact hk
  next => simp

theorem nodup_addMissing {dst : List Int} (k : Int) (h : dst.Nodup) : (addMissing dst k).Nodup := by
  rw [addMissing]
  split
  next => exact h
  next hk => exact List.nodup_append'.mpr ⟨h, List.nodup_singleton k, by simpa using hk⟩

theorem mem_foldl_addMissing {src dst : List Int} {v : Int} :
    v ∈ src.foldl addMissing dst ↔ v ∈ dst ∨ v ∈ src := by
  induction src generalizing dst with
  | nil => simp
  | cons k src ih => rw [List.foldl_cons, ih, mem_addMissing, List.mem_cons, or_assoc]

theorem nodup_foldl_addMissing (src : List Int) {dst : List Int} (h : dst.Nodup) :
    (src.foldl addMissing dst).Nodup := by
  induction src generalizing dst with
  | nil => exact h
  | cons k src ih => exact ih (nodup_addMissing k h)

theorem mem_own {v : Int} : v ∈ own patterns w ↔ ∃ i, patterns[i]? = some w ∧ toInt32 i = v := by
  rw [own, List.mem_map]
  refine exists_congr fun i => ?_
  rw [List.mem_filter, List.mem_range, decide_eq_true_iff]
  constructor
  · rintro ⟨⟨_, hi⟩, rfl⟩
    exact ⟨hi, rfl⟩
  · rintro ⟨hi, rfl⟩
    exact ⟨⟨(List.getElem?_eq_some_iff.mp hi).1, hi⟩, rfl⟩

theorem nodup_own (hsmall : patterns.length ≤ 2 ^ 31) : (own patterns w).Nodup :=
  nodup_toInt32 hsmall _

/-- A merged list reports every pattern at the end of the word. -/
theorem reports_merge (src : List Int) (hstored : ∀ p ∈ patterns, p ∈ words) (hw : w ≠ [])
    (hsrc : Reports patterns (border (· ∈ words) w) src) :
    Reports patterns w (src.foldl addMissing (own patterns w)) where
  nodup hsmall := nodup_foldl_addMissing src (nodup_own hsmall)
  mem v := by
    rw [mem_foldl_addMissing, mem_own, hsrc.mem]
    constructor
    · rintro (⟨i, hi, rfl⟩ | ⟨i, p, hi, hp, rfl⟩)
      · exact ⟨i, w, hi, List.suffix_rfl, rfl⟩
      · exact ⟨i, p, hi, hp.trans (border_suffix w), rfl⟩
    · rintro ⟨i, p, hi, hp, rfl⟩
      have hmem : p ∈ words := hstored p (List.mem_of_getElem? hi)
      rcases (suffix_iff_border (D := (· ∈ words)) hmem hw).mp hp with rfl | hp
      · exact .inl ⟨i, hi, rfl⟩
      · exact .inr ⟨i, p, hi, hp, rfl⟩

theorem reports_nil (hne : ∀ p ∈ patterns, p ≠ []) : Reports patterns [] (own patterns []) where
  nodup := nodup_own
  mem v := by
    rw [mem_own]
    constructor
    · rintro ⟨i, hi, rfl⟩
      exact ⟨i, [], hi, List.suffix_rfl, rfl⟩
    · rintro ⟨i, p, hi, hp, rfl⟩
      exact absurd (List.suffix_nil.mp hp) (hne p (List.mem_of_getElem? hi))

end Output

section Search

theorem write_of_lt {E : Type} {l : List E} {i : Nat} (h : i < l.length) (e : E) :
    write l i e = .ok (l.set i e) := if_pos h

theorem Linked.output_some (h : Linked words patterns L fail output)
    (hne : ∀ p ∈ patterns, p ≠ []) (hw : w ∈ words) (hL : w = [] ∨ w ∈ L) :
    ∃ out, output[words.idxOf w]? = some out ∧ Reports patterns w out := by
  by_cases hmem : w ∈ L
  · exact h.full w hmem
  · obtain rfl := hL.resolve_right hmem
    exact ⟨_, h.own [] hw hmem, reports_nil hne⟩

/-- The merged list of a word; all others are as before. -/
theorem mergeOutput_spec (h : Linked words patterns L fail output) (hW : Words words)
    (hstored : ∀ p ∈ patterns, p ∈ words) (hne : ∀ p ∈ patterns, p ≠ []) (hw : w ∈ words)
    (hnil : w ≠ []) (hL : w ∉ L) (hborder : border (· ∈ words) w = [] ∨ border (· ∈ words) w ∈ L) :
    ∃ out, mergeOutput output (words.idxOf w) (words.idxOf (border (· ∈ words) w)) =
      .ok (output.set (words.idxOf w) out) ∧ Reports patterns w out := by
  have hmem : border (· ∈ words) w ∈ words := border_mem hW.nil_mem w
  obtain ⟨src, hsrc, hreports⟩ := h.output_some hne hmem hborder
  have hdst := h.own w hw hL
  have hread : read output (words.idxOf (border (· ∈ words) w)) = .ok src := read_eq_ok.mpr hsrc
  refine ⟨src.foldl addMissing (own patterns w), ?_, reports_merge src hstored hnil hreports⟩
  rw [mergeOutput, hread]
  by_cases hempty : src = []
  · obtain ⟨hlt, hget⟩ := List.getElem?_eq_some_iff.mp hdst
    have hsame : output.set (words.idxOf w) (own patterns w) = output := by
      rw [← hget]
      exact List.set_getElem_self hlt
    rw [hempty, List.foldl_nil, hsame]
    rfl
  · have hlt : words.idxOf w < output.length := by
      rw [h.output_length]
      exact List.idxOf_lt_length_of_mem hw
    simp only [bind, Except.bind, if_neg hempty, read_eq_ok.mpr hdst, write_of_lt hlt]

/-- One word more has its link and its list. -/
theorem Linked.concat (h : Linked words patterns L fail output) (hw : w ∈ words) {out : List Int}
    (hreports : Reports patterns w out) (hL : ∀ x ∈ L, x ∈ words) :
    Linked words patterns (L ++ [w])
      (fail.set (words.idxOf w) ((words.idxOf (border (· ∈ words) w) : Nat) : Int))
      (output.set (words.idxOf w) out) := by
  have hlt := List.idxOf_lt_length_of_mem hw
  have hother : ∀ x ∈ words, x ≠ w → words.idxOf w ≠ words.idxOf x := by
    intro x hx hxw heq
    exact hxw ((List.idxOf_inj hx).mp heq.symm)
  refine ⟨?_, ?_, ?_, ?_, ?_⟩
  · rw [List.length_set, h.fail_length]
  · rw [List.length_set, h.output_length]
  · intro x hx
    by_cases hxw : x = w
    · rw [hxw, List.getElem?_set_self (by rw [h.fail_length]; exact hlt)]
    · have hxL : x ∈ L := by simpa [hxw] using hx
      rw [List.getElem?_set_ne (hother x (hL x hxL) hxw)]
      exact h.fail x hxL
  · intro x hx
    by_cases hxw : x = w
    · rw [hxw, List.getElem?_set_self (by rw [h.output_length]; exact hlt)]
      exact ⟨out, rfl, hreports⟩
    · have hxL : x ∈ L := by simpa [hxw] using hx
      rw [List.getElem?_set_ne (hother x (hL x hxL) hxw)]
      exact h.full x hxL
  · intro x hx hxL
    have hxw : x ≠ w := fun heq => hxL (by rw [heq]; exact List.mem_concat_self)
    rw [List.getElem?_set_ne (hother x hx hxw)]
    exact h.own x hx fun hmem => hxL (List.mem_append_left _ hmem)

/-- One byte of the state at the front. -/
theorem visit_spec (h : Linked words patterns L s.fail s.output) (hW : Words words)
    (hstored : ∀ p ∈ patterns, p ∈ words) (hne : ∀ p ∈ patterns, p ≠ []) (hu : u ∈ words)
    (hnil : u ≠ []) (hL : ∀ x ∈ L, x ∈ words)
    (hlinked : ∀ y ∈ words, y ≠ [] → y.length ≤ u.length → y ∈ L) (hnew : u ++ [c] ∉ L) :
    ∃ fail output, visit (words.map (closed words)) (words.idxOf u) s c =
        .ok { s with
          fail := fail
          output := output
          queue := s.queue ++ (kids (· ∈ words) [c] u).map words.idxOf } ∧
      Linked words patterns (L ++ kids (· ∈ words) [c] u) fail output := by
  rw [visit, cell_idxOf hu]
  by_cases hc : u ++ [c] ∈ words
  · have hvne : u ++ [c] ≠ [] := by simp
    have hborder : border (· ∈ words) u ∈ words := border_mem hW.nil_mem u
    have hshort := length_border (D := (· ∈ words)) hnil
    have hlink : read s.fail (words.idxOf u) =
        .ok ((words.idxOf (border (· ∈ words) u) : Nat) : Int) :=
      read_eq_ok.mpr (h.fail u (hlinked u hu hnil (Nat.le_refl _)))
    have hfuel := hW.length_lt hborder
    obtain ⟨f, hwalk, hcell⟩ := followFail_spec hW h.fail hborder (c := c)
      (fun y hy hyne hle => hlinked y hy hyne (by omega))
      (s.fail.length + 1) (by rw [h.fail_length]; omega)
    have hnext : target words (border (· ∈ words) u ++ [c]) =
        words.idxOf (border (· ∈ words) (u ++ [c])) := by
      rw [target, border_concat hW.nil_mem hW.closed hnil]
    rw [hnext] at hcell
    have hnextmem : border (· ∈ words) (u ++ [c]) ∈ words := border_mem hW.nil_mem _
    have hnextL : border (· ∈ words) (u ++ [c]) = [] ∨ border (· ∈ words) (u ++ [c]) ∈ L := by
      by_cases hbnil : border (· ∈ words) (u ++ [c]) = []
      · exact .inl hbnil
      · have hlt := length_border (D := (· ∈ words)) hvne
        rw [List.length_append, List.length_singleton] at hlt
        exact .inr (hlinked _ hnextmem hbnil (by omega))
    obtain ⟨out, hmerge, hreports⟩ := mergeOutput_spec h hW hstored hne hc hvne hnew hnextL
    have hlt : words.idxOf (u ++ [c]) < s.fail.length := by
      rw [h.fail_length]
      exact List.idxOf_lt_length_of_mem hc
    have hkids : kids (· ∈ words) [c] u = [u ++ [c]] := by simp [kids, hc]
    refine ⟨s.fail.set (words.idxOf (u ++ [c]))
        ((words.idxOf (border (· ∈ words) (u ++ [c])) : Nat) : Int),
      s.output.set (words.idxOf (u ++ [c])) out, ?_, ?_⟩
    · rw [hkids]
      simp only [bind, Except.bind, hlink, hW.toSize_idxOf hborder, hwalk, hcell,
        closed_of_mem hc, hW.toSize_idxOf hc, write_of_lt hlt, hW.toSize_idxOf hnextmem, hmerge]
      rfl
    · rw [hkids]
      exact h.concat hc hreports hL
  · have hkids : kids (· ∈ words) [c] u = [] := by simp [kids, hc]
    refine ⟨s.fail, s.output, ?_, ?_⟩
    · simp only [bind, Except.bind, closed_of_not_mem hnil hc, if_true, hkids, List.map_nil,
        List.append_nil]
      rfl
    · rwa [hkids, List.append_nil]

theorem mem_of_mem_kids {cs : List Byte} (h : x ∈ kids (· ∈ words) cs u) :
    x ∈ words ∧ ∃ c ∈ cs, x = u ++ [c] := by
  rw [kids, List.mem_filter, List.mem_map, decide_eq_true_iff] at h
  obtain ⟨⟨c, hc, rfl⟩, hmem⟩ := h
  exact ⟨hmem, c, hc, rfl⟩

/-- The children behind one that is linked are still new. -/
theorem fresh_kids {cs : List Byte} (hc : c ∉ cs) (hnew : ∀ d ∈ c :: cs, u ++ [d] ∉ L) :
    ∀ d ∈ cs, u ++ [d] ∉ L ++ kids (· ∈ words) [c] u := by
  intro d hd hmem
  rcases List.mem_append.mp hmem with hmem | hmem
  · exact hnew d (List.mem_cons_of_mem _ hd) hmem
  · obtain ⟨_, e, he, heq⟩ := mem_of_mem_kids hmem
    obtain rfl : d = e := by simpa using heq
    exact hc (List.mem_singleton.mp he ▸ hd)

theorem visitAll_spec (hW : Words words) (hstored : ∀ p ∈ patterns, p ∈ words)
    (hne : ∀ p ∈ patterns, p ≠ []) (hu : u ∈ words) (hnil : u ≠ []) (cs : List Byte)
    (hcs : cs.Nodup) (h : Linked words patterns L s.fail s.output) (hL : ∀ x ∈ L, x ∈ words)
    (hlinked : ∀ y ∈ words, y ≠ [] → y.length ≤ u.length → y ∈ L)
    (hnew : ∀ c ∈ cs, u ++ [c] ∉ L) :
    ∃ fail output, cs.foldlM (visit (words.map (closed words)) (words.idxOf u)) s =
        .ok { s with
          fail := fail
          output := output
          queue := s.queue ++ (kids (· ∈ words) cs u).map words.idxOf } ∧
      Linked words patterns (L ++ kids (· ∈ words) cs u) fail output := by
  induction cs generalizing L s with
  | nil => exact ⟨s.fail, s.output, by simp [kids, pure, Except.pure], by simpa [kids] using h⟩
  | cons c cs ih =>
    obtain ⟨hc, hcs⟩ := List.nodup_cons.mp hcs
    obtain ⟨fail, output, hvisit, h'⟩ :=
      visit_spec h hW hstored hne hu hnil hL hlinked (hnew c List.mem_cons_self)
    obtain ⟨fail', output', hrest, h''⟩ := ih (L := L ++ kids (· ∈ words) [c] u)
      (s := { s with
        fail := fail
        output := output
        queue := s.queue ++ (kids (· ∈ words) [c] u).map words.idxOf }) hcs h'
      (fun x hx => (List.mem_append.mp hx).elim (hL x) fun hx => (mem_of_mem_kids hx).1)
      (fun y hy hyne hle => List.mem_append_left _ (hlinked y hy hyne hle))
      (fresh_kids hc hnew)
    refine ⟨fail', output', ?_, ?_⟩
    · rw [List.foldlM_cons, hvisit, kids_cons _ c cs, List.map_append, ← List.append_assoc]
      exact hrest
    · rw [kids_cons _ c cs, ← List.append_assoc]
      exact h''

/-- The search links every word, shorter ones first. -/
theorem bfs_spec (hW : Words words) (hstored : ∀ p ∈ patterns, p ∈ words)
    (hne : ∀ p ∈ patterns, p ≠ []) (fuel : Nat) {behind queue : List (List Byte)}
    (hf : Frontier (· ∈ words) behind queue)
    (h : Linked words patterns (behind ++ queue) s.fail s.output)
    (hqueue : s.queue = queue.map words.idxOf) (horder : s.bfsOrder = behind.map words.idxOf)
    (hfuel : words.length ≤ fuel + behind.length + 1) :
    ∃ s' order, bfs (words.map (closed words)) fuel s = .ok s' ∧ Frontier (· ∈ words) order [] ∧
      Linked words patterns order s'.fail s'.output ∧ s'.bfsOrder = order.map words.idxOf := by
  have hdone : queue = [] → Frontier (· ∈ words) behind [] ∧
      Linked words patterns behind s.fail s.output ∧ s.queue = [] := by
    rintro rfl
    exact ⟨hf, by rwa [List.append_nil] at h, hqueue⟩
  have hlt := hf.length_lt hW.nil_mem
  rw [List.length_append] at hlt
  induction fuel generalizing behind queue s with
  | zero =>
    obtain ⟨hf', h', hempty⟩ := hdone (List.length_eq_zero_iff.mp (by omega))
    exact ⟨s, behind, by rw [bfs, if_pos hempty], hf', h', horder⟩
  | succ fuel ih =>
    cases queue with
    | nil =>
      obtain ⟨hf', h', hempty⟩ := hdone rfl
      exact ⟨s, behind, by rw [bfs, hempty], hf', h', horder⟩
    | cons u q =>
      have hu := hf.mem u (by simp)
      have hnot : ∀ c ∈ bytes, u ++ [c] ∉ behind ++ u :: q := by
        intro c _ hmem
        rcases hf.parent u c hmem with hnil | hbehind
        · exact hu.2 hnil
        · exact (List.nodup_append'.mp hf.nodup).2.2 hbehind List.mem_cons_self
      obtain ⟨fail, output, hvisit, h'⟩ := visitAll_spec hW hstored hne hu.1 hu.2 bytes
        (List.nodup_finRange 256) (L := behind ++ u :: q)
        (s := { s with
          queue := q.map words.idxOf
          bfsOrder := s.bfsOrder ++ [words.idxOf u] }) h
        (fun x hx => (hf.mem x hx).1)
        (fun y hy hyne hle => hf.short hW.closed hy hyne hle) hnot
      have hf' := hf.step bytes (List.nodup_finRange 256) List.mem_finRange
      have hsplit : behind ++ [u] ++ (q ++ kids (· ∈ words) bytes u) =
          behind ++ u :: q ++ kids (· ∈ words) bytes u := by simp
      have hlt' := hf'.length_lt hW.nil_mem
      rw [List.length_append] at hlt'
      rw [bfs, hqueue]
      simp only [List.map_cons, bind, Except.bind]
      rw [hvisit]
      refine ih (s := ⟨fail, output, _, _⟩) hf' ?_ ?_ ?_ ?_ ?_ hlt'
      · rw [hsplit]
        exact h'
      · rw [List.map_append]
      · rw [horder, List.map_append]
        rfl
      · rw [List.length_append, List.length_singleton]
        omega
      · intro hnil
        rw [hnil] at hf'
        refine ⟨hf', ?_, by rw [← List.map_append, hnil]; rfl⟩
        rw [← hsplit, hnil, List.append_nil] at h'
        exact h'

end Search

end Cppforge.Strings.AhoCorasick

namespace Cppforge.Strings.AhoCorasick
open Suffixes LevelOrder

variable {words L patterns : List (List Byte)} {w x : List Byte} {c : Byte} {s : Search}
  {fail : List Int} {output : List (List Int)} {a : AhoCorasick}

theorem own_nil (hne : ∀ p ∈ patterns, p ≠ []) : own patterns [] = [] := by
  refine List.eq_nil_iff_forall_not_mem.mpr fun v hv => ?_
  obtain ⟨i, hi, _⟩ := mem_own.mp hv
  exact hne [] (List.mem_of_getElem? hi) rfl

/-- Step 2 links the words of one letter to the root. -/
theorem enqueueAll_spec (hW : Words words) (hstored : ∀ p ∈ patterns, p ∈ words)
    (hne : ∀ p ∈ patterns, p ≠ []) (cs : List Byte) (hcs : cs.Nodup)
    (h : Linked words patterns L s.fail s.output) (hL : ∀ x ∈ L, x ∈ words)
    (hnew : ∀ c ∈ cs, [c] ∉ L) :
    ∃ fail, cs.foldlM (enqueueChild (words.map (closed words))) s =
        .ok { s with
          fail := fail
          queue := s.queue ++ (kids (· ∈ words) cs []).map words.idxOf } ∧
      Linked words patterns (L ++ kids (· ∈ words) cs []) fail s.output := by
  induction cs generalizing L s with
  | nil => exact ⟨s.fail, by simp [kids, pure, Except.pure], by simpa [kids] using h⟩
  | cons c cs ih =>
    obtain ⟨hc, hcs⟩ := List.nodup_cons.mp hcs
    obtain ⟨fail, hfirst, h'⟩ : ∃ fail, enqueueChild (words.map (closed words)) s c =
          .ok { s with
            fail := fail
            queue := s.queue ++ (kids (· ∈ words) [c] []).map words.idxOf } ∧
        Linked words patterns (L ++ kids (· ∈ words) [c] []) fail s.output := by
      have hcell := cell_idxOf (f := closed words) hW.nil_mem c
      rw [hW.idxOf_nil] at hcell
      rw [enqueueChild, hcell]
      by_cases hmem : [c] ∈ words
      · have hkids : kids (· ∈ words) [c] [] = [[c]] := by simp [kids, hmem]
        have hlt : words.idxOf [c] < s.fail.length := by
          rw [h.fail_length]
          exact List.idxOf_lt_length_of_mem hmem
        have hpos : words.idxOf [c] ≠ 0 := fun hzero => by
          cases (hW.idxOf_eq_zero hmem).mp hzero
        have hown := h.own [c] hmem (hnew c List.mem_cons_self)
        have hreports : Reports patterns [c] (own patterns [c]) :=
          reports_merge [] hstored (by simp) (own_nil hne ▸ reports_nil hne)
        have hsame : s.output.set (words.idxOf [c]) (own patterns [c]) = s.output := by
          obtain ⟨hlt, hget⟩ := List.getElem?_eq_some_iff.mp hown
          rw [← hget]
          exact List.set_getElem_self hlt
        have hcode : closed words [] c = words.idxOf [c] := closed_of_mem hmem
        have hlink := h.concat hmem hreports hL
        rw [hsame, border_singleton, hW.idxOf_nil] at hlink
        refine ⟨s.fail.set (words.idxOf [c]) 0, ?_, by rw [hkids]; exact hlink⟩
        simp only [bind, Except.bind, hcode, hW.toSize_idxOf hmem, ne_eq, hpos, not_false_eq_true,
          if_true, write_of_lt hlt, hkids]
        rfl
      · have hkids : kids (· ∈ words) [c] [] = [] := by simp [kids, hmem]
        have hcode : closed words [] c = 0 := if_pos ⟨rfl, hmem⟩
        refine ⟨s.fail, ?_, by rwa [hkids, List.append_nil]⟩
        simp [bind, Except.bind, hcode, toSize, hkids, pure, Except.pure]
    obtain ⟨fail', hrest, h''⟩ := ih (L := L ++ kids (· ∈ words) [c] [])
      (s := { s with
        fail := fail
        queue := s.queue ++ (kids (· ∈ words) [c] []).map words.idxOf }) hcs h'
      (fun x hx => (List.mem_append.mp hx).elim (hL x) fun hx => (mem_of_mem_kids hx).1)
      (fresh_kids (u := []) hc hnew)
    refine ⟨fail', ?_, ?_⟩
    · rw [List.foldlM_cons, hfirst, kids_cons _ c cs, List.map_append, ← List.append_assoc]
      exact hrest
    · rw [kids_cons _ c cs, ← List.append_assoc]
      exact h''

section Complete

/-- The transitions of a state once it is completed. -/
def row (words : List (List Byte)) (w : List Byte) (c : Byte) : Int := target words (w ++ [c])

/-- The rows of the root and of the words in `L` are completed. -/
structure Completed (words L : List (List Byte)) (trans : Table) : Prop where
  length : trans.length = words.length
  rows : ∀ w, w = [] ∨ w ∈ L → trans[words.idxOf w]? = some (row words w)

/-- The completed row from the trie and the row of the border. -/
theorem row_eq (hW : Words words) (hnil : w ≠ []) : row words w = fun c =>
    if closed words w c ≠ noState then closed words w c
    else row words (border (· ∈ words) w) c := by
  funext c
  by_cases hc : w ++ [c] ∈ words
  · have hno : closed words w c ≠ noState := fun hno => (closed_eq_noState hnil).mp hno hc
    rw [if_pos hno, closed_of_mem hc, row, target, longest_of_mem hc]
  · have hno : ¬ closed words w c ≠ noState := fun hne => hne (closed_of_not_mem hnil hc)
    rw [if_neg hno, row, row, target, target, longest_concat_border hW.nil_mem hW.closed hnil hc]

theorem completeAll_spec (hW : Words words) {order : List (List Byte)}
    (hf : Frontier (· ∈ words) order [])
    (hfail : ∀ w ∈ order, fail[words.idxOf w]? =
      some ((words.idxOf (border (· ∈ words) w) : Nat) : Int))
    (rest : List (List Byte)) {before : List (List Byte)} (hsplit : order = before ++ rest)
    {trans : Table} (h : Completed words before trans) :
    ∃ trans', (rest.map words.idxOf).foldlM (complete (words.map (closed words)) fail) trans =
      .ok trans' ∧ Completed words order trans' := by
  induction rest generalizing before trans with
  | nil => exact ⟨trans, rfl, by rwa [hsplit, List.append_nil]⟩
  | cons w rest ih =>
    have hworder : w ∈ order := by simp [hsplit]
    have hw := hf.mem w (by simpa using hworder)
    have hborder : border (· ∈ words) w ∈ words := border_mem hW.nil_mem w
    have hbefore : border (· ∈ words) w = [] ∨ border (· ∈ words) w ∈ before := by
      by_cases hbnil : border (· ∈ words) w = []
      · exact .inl hbnil
      · refine .inr ?_
        have hlt := length_border (D := (· ∈ words)) hw.2
        have hmem := hf.complete hW.closed hborder hbnil
        have hsorted := hf.sorted
        rw [List.append_nil, hsplit, List.pairwise_append] at hsorted
        rw [hsplit, List.mem_append, List.mem_cons] at hmem
        rcases hmem with hmem | heq | hmem
        · exact hmem
        · rw [heq] at hlt
          omega
        · have := (List.pairwise_cons.mp hsorted.2.1).1 _ hmem
          omega
    have hbase : read (words.map (closed words)) (words.idxOf w) = .ok (closed words w) :=
      read_map _ (getElem?_idxOf_of_mem hw.1)
    have hlink : read fail (words.idxOf w) =
        .ok ((words.idxOf (border (· ∈ words) w) : Nat) : Int) := read_eq_ok.mpr (hfail w hworder)
    have hrow : read trans (words.idxOf (border (· ∈ words) w)) =
        .ok (row words (border (· ∈ words) w)) := read_eq_ok.mpr (h.rows _ hbefore)
    have hlt : words.idxOf w < trans.length := by
      rw [h.length]
      exact List.idxOf_lt_length_of_mem hw.1
    have hstep : complete (words.map (closed words)) fail trans (words.idxOf w) =
        .ok (trans.set (words.idxOf w) (row words w)) := by
      rw [complete, hbase, hlink]
      simp only [bind, Except.bind, hW.toSize_idxOf hborder, hrow]
      rw [write_of_lt hlt, row_eq hW hw.2]
    have h' : Completed words (before ++ [w]) (trans.set (words.idxOf w) (row words w)) := by
      refine ⟨by rw [List.length_set, h.length], ?_⟩
      intro x hx
      by_cases hxw : x = w
      · rw [hxw, List.getElem?_set_self hlt]
      · have hx' : x = [] ∨ x ∈ before := hx.imp_right fun hmem => by simpa [hxw] using hmem
        have hxwords : x ∈ words := by
          rcases hx' with rfl | hmem
          · exact hW.nil_mem
          · exact (hf.mem x (by simp [hsplit, hmem])).1
        rw [List.getElem?_set_ne fun heq => hxw ((List.idxOf_inj hxwords).mp heq.symm)]
        exact h.rows x hx'
    obtain ⟨trans', hrest, hcompleted⟩ := ih (by simp [hsplit]) h'
    refine ⟨trans', ?_, hcompleted⟩
    rw [List.map_cons, List.foldlM_cons, hstep]
    exact hrest

end Complete

/-- After `build`: the completed transitions, and for each state its output list, all
of them in one array. -/
structure Automaton (words patterns : List (List Byte)) (output : List (List Int))
    (a : AhoCorasick) : Prop extends Words words where
  trans : a.trans = words.map (row words)
  output_length : output.length = words.length
  reports : ∀ w ∈ words, ∃ out, output[words.idxOf w]? = some out ∧ Reports patterns w out
  flat : (a.outputPtr, a.outputCnt, a.outputData) = flattenOutput [] output
  patterns_eq : a.patterns = patterns
  stored : ∀ p ∈ patterns, p ∈ words
  built : a.built = true

theorem build_spec (h : Trie words patterns a) (hne : ∀ p ∈ patterns, p ≠ []) :
    ∃ a' output, a.build = .ok a' ∧ Automaton words patterns output a' := by
  have hW := h.toWords
  have hlen : a.goTo.length = words.length := by rw [h.goTo, List.length_map]
  have hstart : Linked words patterns [] a.fail a.output := by
    refine ⟨h.fail, by rw [h.output, List.length_map], nofun, nofun, ?_⟩
    intro w hw _
    rw [h.output, List.getElem?_map, getElem?_idxOf_of_mem hw]
    rfl
  obtain ⟨fail, henqueue, hlinked⟩ := enqueueAll_spec hW h.stored hne bytes
    (List.nodup_finRange 256) (s := ⟨a.fail, a.output, [], []⟩) hstart nofun nofun
  obtain ⟨s, order, hbfs, hf, hall, horder⟩ := bfs_spec hW h.stored hne words.length
   
    (s := ⟨fail, a.output, (kids (· ∈ words) bytes []).map words.idxOf, []⟩)
    (Frontier.start (List.nodup_finRange 256) List.mem_finRange) hlinked rfl rfl
    (by rw [List.length_nil]; omega)
  have hpos : 0 < words.length := (List.getElem?_eq_some_iff.mp hW.root).1
  have hroot : read (words.map (closed words)) 0 = .ok (closed words []) :=
    read_map _ hW.root
  have hfirst : (fun c => if closed words [] c ≠ noState then closed words [] c else 0) =
      row words [] := by
    funext c
    rw [closed_root hW, if_pos]
    · rfl
    · rw [noState]
      omega
  have hcompleted : Completed words []
      ((List.replicate words.length fun _ => 0).set 0 (row words [])) := by
    refine ⟨by rw [List.length_set, List.length_replicate], ?_⟩
    intro w hw
    obtain rfl := hw.resolve_right List.not_mem_nil
    rw [hW.idxOf_nil, List.getElem?_set_self (by rwa [List.length_replicate])]
  obtain ⟨trans, hcomplete, hrows⟩ := completeAll_spec hW hf hall.fail order
    rfl hcompleted
  generalize hflat : flattenOutput [] s.output = flat
  obtain ⟨ptr, cnt, data⟩ := flat
  refine ⟨{ a with
    goTo := []
    trans := trans
    fail := s.fail
    outputData := data
    outputPtr := ptr
    outputCnt := cnt
    built := true
    output := [] }, s.output, ?_, ?_⟩
  · have hopen : ¬ a.built = true := by simp [h.built]
    rw [build, if_neg hopen, hlen, h.goTo, closeRoot_eq hW]
    simp only [bind, Except.bind, henqueue, List.nil_append, hbfs, hflat, hroot]
    rw [write_of_lt (by rwa [List.length_replicate])]
    simp only [hfirst, horder, hcomplete]
    rfl
  · refine { hW with
      trans := ?_
      output_length := hall.output_length
      reports := ?_
      flat := hflat.symm
      patterns_eq := h.patterns_eq
      stored := h.stored
      built := rfl }
    · refine List.ext_getElem? fun i => ?_
      rw [List.getElem?_map]
      cases hi : words[i]? with
      | none =>
        have hle : trans.length ≤ i := by
          rw [hrows.length]
          exact List.getElem?_eq_none_iff.mp hi
        rw [List.getElem?_eq_none hle]
        rfl
      | some w =>
        have hmem : w = [] ∨ w ∈ order := by
          by_cases hnil : w = []
          · exact .inl hnil
          · exact .inr (hf.complete hW.closed (List.mem_of_getElem? hi) hnil)
        have hget := hrows.rows w hmem
        rw [idxOf_of_getElem? hW.nodup hi] at hget
        rw [hget, Option.map_some]
    · intro w hw
      refine hall.output_some hne hw ?_
      by_cases hnil : w = []
      · exact .inl hnil
      · exact .inr (hf.complete hW.closed hw hnil)

end Cppforge.Strings.AhoCorasick
