import Cppforge.Strings.Proofs.Links
import Mathlib.Algebra.BigOperators.Group.Finset.Basic

namespace Cppforge.Strings

theorem bind_eq_ok {E F : Type} {x : Except Failure E} {f : E → Except Failure F} {r : F} :
    (x >>= f) = .ok r ↔ ∃ e, x = .ok e ∧ f e = .ok r := by
  cases x <;> simp [bind, Except.bind]

section Folds
variable {S E : Type} {f : S → E → Except Failure S}

/-- A loop that ends has run every step. -/
theorem step_of_foldlM {l : List E} {s r : S} (h : l.foldlM f s = .ok r) {e : E} (he : e ∈ l) :
    ∃ s' r', f s' e = .ok r' := by
  induction l generalizing s with
  | nil => cases he
  | cons d l ih =>
    rw [List.foldlM_cons] at h
    obtain ⟨s₁, hstep, hrest⟩ := bind_eq_ok.mp h
    rcases List.mem_cons.mp he with rfl | he
    · exact ⟨s, s₁, hstep⟩
    · exact ih hrest he

theorem foldlM_keeps {Q : S → Prop} (hf : ∀ s e r, Q s → f s e = .ok r → Q r) {l : List E}
    {s r : S} (hs : Q s) (h : l.foldlM f s = .ok r) : Q r := by
  induction l generalizing s with
  | nil =>
    cases h
    exact hs
  | cons d l ih =>
    rw [List.foldlM_cons] at h
    obtain ⟨s₁, hstep, hrest⟩ := bind_eq_ok.mp h
    exact ih (hf s d s₁ hs hstep) hrest

/-- A loop over the indices of a list as a fold over the list. -/
theorem foldlM_range {f : S → Nat → Except Failure S} {g : S → E → S} (l : List E)
    (hf : ∀ s j e, l[j]? = some e → f s j = .ok (g s e)) (s : S) :
    (List.range l.length).foldlM f s = .ok (l.foldl g s) := by
  induction l using List.reverseRecOn with
  | nil => rfl
  | append_singleton l e ih =>
    have hl : ∀ s j e', l[j]? = some e' → f s j = .ok (g s e') := by
      intro s j e' hj
      refine hf s j e' ?_
      rw [List.getElem?_append_left (List.getElem?_eq_some_iff.mp hj).1]
      exact hj
    have hlast : f (l.foldl g s) l.length = .ok (g (l.foldl g s) e) := hf _ _ e (by simp)
    rw [List.length_append, List.length_singleton, List.range_succ, List.foldlM_append, ih hl,
      List.foldl_append]
    simp only [bind, Except.bind, List.foldlM_cons, hlast, List.foldlM_nil, List.foldl_cons,
      List.foldl_nil]
    rfl

end Folds

namespace AhoCorasick
open Suffixes

variable {words patterns : List (List Byte)} {w x t : List Byte} {c : Byte}
  {output : List (List Int)} {a : AhoCorasick} {s : Nat}

section Flat

/-- Where the entries of a state start. -/
def offset (output : List (List Int)) (s : Nat) : Nat := (output.take s).flatten.length

theorem flattenOutput_data (flat : List Int) (output : List (List Int)) :
    (flattenOutput flat output).2.2 = flat ++ output.flatten := by
  induction output generalizing flat with
  | nil => simp [flattenOutput]
  | cons out output ih => simp [flattenOutput, ih]

theorem flattenOutput_cnt (flat : List Int) (output : List (List Int)) :
    (flattenOutput flat output).2.1 = output.map fun out => toInt32 out.length := by
  induction output generalizing flat with
  | nil => rfl
  | cons out output ih => simp [flattenOutput, ih]

theorem flattenOutput_ptr (flat : List Int) {output : List (List Int)} (h : s < output.length) :
    (flattenOutput flat output).1[s]? = some (toInt32 (flat.length + offset output s)) := by
  induction output generalizing flat s with
  | nil => simp at h
  | cons out output ih =>
    cases s with
    | zero => simp [flattenOutput, offset]
    | succ s =>
      have hs : s < output.length := by simpa using h
      simp only [flattenOutput, List.getElem?_cons_succ, ih (flat ++ out) hs]
      simp [offset, Nat.add_assoc]

theorem offset_succ {out : List Int} (h : output[s]? = some out) :
    offset output (s + 1) = offset output s + out.length := by
  rw [offset, offset, List.take_add_one, h]
  simp

theorem offset_le (s : Nat) : offset output s ≤ output.flatten.length := by
  have hsplit : output.flatten = (output.take s).flatten ++ (output.drop s).flatten := by
    rw [← List.flatten_append, List.take_append_drop]
  rw [hsplit, List.length_append, offset]
  omega

theorem getElem?_flatten {out : List Int} (h : output[s]? = some out) {j : Nat}
    (hj : j < out.length) : output.flatten[offset output s + j]? = out[j]? := by
  obtain ⟨hs, rfl⟩ := List.getElem?_eq_some_iff.mp h
  have hsplit : output.flatten =
      (output.take s).flatten ++ (output[s] ++ (output.drop (s + 1)).flatten) := by
    rw [← List.flatten_cons, ← List.flatten_append, List.getElem_cons_drop, List.take_append_drop]
  rw [hsplit, offset, List.getElem?_append_right (Nat.le_add_right _ _), Nat.add_sub_cancel_left,
    List.getElem?_append_left hj]

end Flat

section Scan

theorem Automaton.cnt (h : Automaton words patterns output a) {out : List Int}
    (hs : output[s]? = some out) : readAt a.outputCnt s = .ok (toInt32 out.length) := by
  have hcnt : a.outputCnt = (flattenOutput [] output).2.1 := congrArg (·.2.1) h.flat
  rw [readAt, if_neg (by omega), read_eq_ok, hcnt, flattenOutput_cnt, Int.toNat_natCast,
    List.getElem?_map, hs]
  rfl

theorem Automaton.ptr (h : Automaton words patterns output a) {out : List Int}
    (hs : output[s]? = some out) : readAt a.outputPtr s = .ok (toInt32 (offset output s)) := by
  have hptr : a.outputPtr = (flattenOutput [] output).1 := congrArg (·.1) h.flat
  rw [readAt, if_neg (by omega), read_eq_ok, hptr, Int.toNat_natCast,
    flattenOutput_ptr [] (List.getElem?_eq_some_iff.mp hs).1, List.length_nil, Nat.zero_add]

theorem Automaton.data (h : Automaton words patterns output a) :
    a.outputData = output.flatten := by
  have hdata : a.outputData = (flattenOutput [] output).2.2 := congrArg (·.2.2) h.flat
  rw [hdata, flattenOutput_data, List.nil_append]

/-- The match of an entry of an output list, where the text so far has length `e`. -/
def hit (patterns : List (List Byte)) (e : Nat) (v : Int) : MatchResult :=
  let p := (patterns[toSize v]?).getD []
  ⟨e - p.length, p.length, toSize v⟩

/-- The matches that end with the text so far. -/
def hitsAt (words patterns : List (List Byte)) (output : List (List Int)) (t : List Byte) :
    List MatchResult :=
  ((output[target words t]?).getD []).map (hit patterns t.length)

/-- The matches that end in the rest of the text. -/
def hitsFrom (words patterns : List (List Byte)) (output : List (List Int)) :
    List Byte → List Byte → List MatchResult
  | _, [] => []
  | t, c :: rest =>
    hitsAt words patterns output (t ++ [c]) ++ hitsFrom words patterns output (t ++ [c]) rest

/-- The numbers of a state's entries are `int32_t`. -/
def StateFits (output : List (List Int)) (s : Nat) : Prop :=
  ∀ out, output[s]? = some out → out.length < 2 ^ 31 ∧ offset output s + out.length ≤ 2 ^ 31

variable {S : Type} {report : S → MatchResult → S}

theorem Automaton.reports_target (h : Automaton words patterns output a) (t : List Byte) :
    ∃ out, output[target words t]? = some out ∧
      Reports patterns (longest (· ∈ words) t) out :=
  h.reports _ (h.longest_mem t)

/-- An entry that is reported is the index of a pattern at the end of the text so far. -/
theorem Automaton.entry (h : Automaton words patterns output a) (hsmall : patterns.length ≤ 2 ^ 31)
    {out : List Int} (hout : output[target words t]? = some out) {v : Int} (hv : v ∈ out) :
    ∃ (i : Nat) (p : List Byte), patterns[i]? = some p ∧ p <:+ t ∧ v = i ∧ toSize v = i := by
  obtain ⟨out', hout', hreports⟩ := h.reports_target t
  obtain rfl : out = out' := by
    rw [hout] at hout'
    exact Option.some.inj hout'
  obtain ⟨i, p, hi, hp, hv⟩ := (hreports.mem v).mp hv
  have hlt := (List.getElem?_eq_some_iff.mp hi).1
  have hint : v = i := by rw [← hv, toInt32_of_lt (by omega)]
  refine ⟨i, p, hi, hp.trans (longest_suffix t), hint, ?_⟩
  rw [hint, toSize_of_lt (by omega)]

theorem reportHit_spec (h : Automaton words patterns output a) (hsmall : patterns.length ≤ 2 ^ 31)
    (hfits : StateFits output (target words t)) {i : Nat} (ht : t.length = i + 1)
    (hlong : t.length < 2 ^ 64) {out : List Int} (hout : output[target words t]? = some out)
    (found : S) {j : Nat} {v : Int} (hj : out[j]? = some v) :
    reportHit a report i (toInt32 (offset output (target words t))) found j =
      .ok (report found (hit patterns t.length v)) := by
  obtain ⟨hlt, hsum⟩ := hfits out hout
  have hjlt := (List.getElem?_eq_some_iff.mp hj).1
  obtain ⟨k, p, hk, hp, rfl, hsize⟩ := h.entry hsmall hout (List.mem_of_getElem? hj)
  have hple := hp.length_le
  have hadd : add32 (offset output (target words t)) j =
      .ok ((offset output (target words t) + j : Nat) : Int) := by
    rw [add32, if_pos ⟨by omega, by omega⟩]
    rfl
  have hdata : readAt a.outputData ((offset output (target words t) + j : Nat) : Int) = .ok ↑k := by
    rw [readAt, if_neg (by omega), read_eq_ok, h.data, Int.toNat_natCast,
      getElem?_flatten hout hjlt]
    exact hj
  have hpat : read a.patterns k = .ok p := by
    rw [h.patterns_eq]
    exact read_eq_ok.mpr hk
  have hstart : toSize ((i : Int) - p.length + 1) = t.length - p.length := by
    have heq : (i : Int) - p.length + 1 = ((t.length - p.length : Nat) : Int) := by omega
    rw [heq, toSize_of_lt (by omega)]
  rw [reportHit, toInt32_of_lt (by omega), hadd]
  simp only [bind, Except.bind, hdata, hsize, hpat, hstart, hit, hk, Option.getD_some]
  rfl

/-- The transitions are those of the words. -/
theorem Automaton.cell_trans (h : Automaton words patterns output a) (t : List Byte) (c : Byte) :
    cell a.trans (toSize (target words t)) c = .ok (target words (t ++ [c]) : Nat) := by
  rw [target, h.toSize_idxOf (h.longest_mem t), h.trans, cell_idxOf (h.longest_mem t), row,
    target, target, longest_concat h.nil_mem h.closed]

/-- One byte of the text. -/
theorem scanByte_spec (h : Automaton words patterns output a) (hsmall : patterns.length ≤ 2 ^ 31)
    (hfits : StateFits output (target words (t ++ [c]))) (hlong : t.length + 1 < 2 ^ 64)
    (found : S) :
    scanByte a report t.length c (target words t) found =
      .ok ((target words (t ++ [c]) : Nat),
        (hitsAt words patterns output (t ++ [c])).foldl report found) := by
  obtain ⟨out, hout, _⟩ := h.reports_target (t ++ [c])
  have hlt := (hfits out hout).1
  rw [scanByte, h.cell_trans]
  simp only [bind, Except.bind, h.cnt hout, toInt32_of_lt hlt, h.ptr hout, Int.toNat_natCast]
  have hfold : (List.range out.length).foldlM
        (reportHit a report t.length (toInt32 (offset output (target words (t ++ [c]))))) found =
      .ok ((hitsAt words patterns output (t ++ [c])).foldl report found) := by
    rw [hitsAt, hout, Option.getD_some, List.foldl_map]
    refine foldlM_range out (fun found j v hj => ?_) found
    exact reportHit_spec h hsmall hfits (by simp) (by simpa using hlong) hout found hj
  split
  · rw [hfold]
    rfl
  next hpos =>
    have hnil : out = [] := List.length_eq_zero_iff.mp (by omega)
    rw [hitsAt, hout, hnil]
    rfl

theorem scan_spec (report : S → MatchResult → S) (h : Automaton words patterns output a) (hsmall : patterns.length ≤ 2 ^ 31)
    (hfits : ∀ s, StateFits output s) (rest : List Byte)
    (hlong : t.length + rest.length < 2 ^ 64) (found : S) :
    scan a report rest t.length (target words t) found =
      .ok ((hitsFrom words patterns output t rest).foldl report found) := by
  induction rest generalizing t found with
  | nil => rfl
  | cons c rest ih =>
    rw [List.length_cons] at hlong
    have hnext := ih (t := t ++ [c]) (by rw [List.length_append, List.length_singleton]; omega)
      ((hitsAt words patterns output (t ++ [c])).foldl report found)
    rw [List.length_append, List.length_singleton] at hnext
    rw [scan, scanByte_spec h hsmall (hfits _) (by omega), hitsFrom, List.foldl_append]
    exact hnext

end Scan

end AhoCorasick
end Cppforge.Strings
