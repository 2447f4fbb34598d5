import Mathlib.Data.List.TakeWhile

namespace Bytes

/-- The contents of a `std::string`. -/
abbrev Text := List UInt8

/-- The bytes of an ASCII literal. -/
def ascii (s : String) : Text := s.toList.map (fun c => c.toNat.toUInt8)

/-- A string handed over as `const char*`: everything before the first zero byte. -/
def cStr (s : Text) : Text := s.takeWhile (fun c => c != 0)

/-- A string that a C string can carry whole. -/
def NoNul (s : Text) : Prop := (0 : UInt8) ∉ s

instance (s : Text) : Decidable (NoNul s) := inferInstanceAs (Decidable (¬ (0 : UInt8) ∈ s))

theorem noNul_cStr (s : Text) : NoNul (cStr s) := by
  intro h
  have := List.mem_takeWhile_imp h
  simp at this

theorem cStr_eq_self {s : Text} : cStr s = s ↔ NoNul s := by
  constructor
  · intro h
    rw [← h]
    exact noNul_cStr s
  · intro h
    apply List.takeWhile_eq_self_iff.mpr
    intro c hc
    have : c ≠ 0 := fun h0 => h (h0 ▸ hc)
    simpa using this

/-- `std::getline` with a delimiter: the piece read and what is left of the
stream, or `none` when the stream had nothing left to extract. -/
def getline (delim : UInt8) (stream : Text) : Option (Text × Text) :=
  match stream with
  | [] => none
  | _ => some (stream.takeWhile (fun c => c != delim),
      (stream.dropWhile (fun c => c != delim)).tail)

/-- The loop `while (getline(...)) parts.push_back(part)`. Each turn extracts at
least one byte, so the length of the stream is fuel enough. -/
def getlines (delim : UInt8) : Nat → Text → List Text
  | 0, _ => []
  | fuel + 1, stream =>
    match getline delim stream with
    | none => []
    | some (part, rest) => part :: getlines delim fuel rest

/-- All pieces of a string. -/
def split (delim : UInt8) (s : Text) : List Text := getlines delim s.length s

theorem getline_eq_some {delim : UInt8} {s part rest : Text}
    (h : getline delim s = some (part, rest)) :
    delim ∉ part ∧ rest.length < s.length ∧ (s = part ∧ rest = [] ∨ s = part ++ delim :: rest) := by
  cases s with
  | nil => cases h
  | cons c cs =>
    simp only [getline, Option.some.injEq, Prod.mk.injEq] at h
    obtain ⟨hpart, hrest⟩ := h
    have happ : part ++ (c :: cs).dropWhile (fun x => x != delim) = c :: cs := by
      rw [← hpart]
      exact List.takeWhile_append_dropWhile
    have hno : delim ∉ part := by
      intro hd
      rw [← hpart] at hd
      have := List.mem_takeWhile_imp hd
      simp at this
    cases hdrop : (c :: cs).dropWhile (fun x => x != delim) with
    | nil =>
      rw [hdrop] at happ hrest
      subst rest
      exact ⟨hno, by simp, .inl ⟨by simpa using happ.symm, rfl⟩⟩
    | cons d ds =>
      have hd : d = delim := by
        have := List.head?_dropWhile_not (fun x => x != delim) (c :: cs)
        rw [hdrop] at this
        simpa using this
      rw [hdrop] at happ hrest
      subst rest d
      have hlen := congrArg List.length happ
      simp only [List.length_append, List.length_cons] at hlen
      exact ⟨hno, by simp only [List.length_cons, List.tail_cons]; omega, .inr happ.symm⟩

/-- A delimiter-free piece before the delimiter is read off whole. -/
theorem getline_append {delim : UInt8} {part : Text} (h : delim ∉ part) (rest : Text) :
    getline delim (part ++ delim :: rest) = some (part, rest) := by
  have hall : ∀ c ∈ part, (c != delim) = true := by
    intro c hc
    have : c ≠ delim := fun he => h (he ▸ hc)
    simpa using this
  have htake : (part ++ delim :: rest).takeWhile (fun c => c != delim) = part := by
    rw [List.takeWhile_append_of_pos hall]
    simp
  have hdrop : (part ++ delim :: rest).dropWhile (fun c => c != delim) = delim :: rest := by
    rw [List.dropWhile_append_of_pos hall]
    simp
  cases hs : part ++ delim :: rest with
  | nil => simp at hs
  | cons c cs =>
    rw [hs] at htake hdrop
    simp [getline, htake, hdrop]

/-- The last, unterminated piece. -/
theorem getline_last {delim : UInt8} {part : Text} (h : delim ∉ part) (hne : part ≠ []) :
    getline delim part = some (part, []) := by
  have hall : ∀ c ∈ part, (c != delim) = true := by
    intro c hc
    have : c ≠ delim := fun he => h (he ▸ hc)
    simpa using this
  have htake := List.takeWhile_eq_self_iff.mpr hall
  have hdrop := List.dropWhile_eq_nil_iff.mpr hall
  cases part with
  | nil => exact absurd rfl hne
  | cons c cs => simp only [getline, htake, hdrop, List.tail_nil]

theorem getlines_fuel {delim : UInt8} {n m : Nat} {s : Text} (hn : s.length ≤ n)
    (hm : s.length ≤ m) : getlines delim n s = getlines delim m s := by
  induction n generalizing m s with
  | zero =>
    have hs : s = [] := List.length_eq_zero_iff.mp (by omega)
    subst s
    cases m <;> rfl
  | succ n ih =>
    cases hg : getline delim s with
    | none => cases m <;> simp [getlines, hg]
    | some piece =>
      obtain ⟨part, rest⟩ := piece
      have hlt := (getline_eq_some hg).2.1
      cases m with
      | zero => omega
      | succ m =>
        simp only [getlines, hg]
        rw [ih (m := m) (by omega) (by omega)]

theorem split_nil (delim : UInt8) : split delim [] = [] := rfl

theorem split_step {delim : UInt8} {s part rest : Text} (h : getline delim s = some (part, rest)) :
    split delim s = part :: split delim rest := by
  have hlt := (getline_eq_some h).2.1
  obtain ⟨n, hn⟩ : ∃ n, s.length = n + 1 := ⟨s.length - 1, by omega⟩
  unfold split
  rw [hn]
  simp only [getlines, h]
  rw [getlines_fuel (m := rest.length) (by omega) (Nat.le_refl _)]

theorem split_append {delim : UInt8} {part : Text} (h : delim ∉ part) (rest : Text) :
    split delim (part ++ delim :: rest) = part :: split delim rest :=
  split_step (getline_append h rest)

theorem split_last {delim : UInt8} {part : Text} (h : delim ∉ part) (hne : part ≠ []) :
    split delim part = [part] := by
  rw [split_step (getline_last h hne), split_nil]

/-- A string gives one piece more exactly when a piece starts it; a trailing
delimiter ends the last piece and starts no other. -/
theorem split_eq_cons {delim : UInt8} {s part : Text} {parts : List Text} :
    split delim s = part :: parts ↔
      delim ∉ part ∧ ((s = part ∧ part ≠ [] ∧ parts = []) ∨
        ∃ rest, s = part ++ delim :: rest ∧ split delim rest = parts) := by
  constructor
  · intro h
    cases hg : getline delim s with
    | none =>
      cases s with
      | nil => cases h
      | cons c cs => cases hg
    | some piece =>
      obtain ⟨p, rest⟩ := piece
      rw [split_step hg, List.cons.injEq] at h
      obtain ⟨rfl, hrest⟩ := h
      obtain ⟨hno, hlt, hs⟩ := getline_eq_some hg
      rcases hs with ⟨hs, hr⟩ | hs
      · subst hr
        refine ⟨hno, .inl ⟨hs, ?_, hrest.symm⟩⟩
        intro hnil
        rw [hs, hnil] at hlt
        exact absurd hlt (by simp)
      · exact ⟨hno, .inr ⟨rest, hs, hrest⟩⟩
  · intro h
    obtain ⟨hno, ⟨rfl, hne, rfl⟩ | ⟨rest, rfl, hrest⟩⟩ := h
    · exact split_last hno hne
    · rw [split_append hno, hrest]

theorem split_eq_nil {delim : UInt8} {s : Text} : split delim s = [] ↔ s = [] := by
  constructor
  · intro h
    cases s with
    | nil => rfl
    | cons c cs => simp [split, getlines, getline] at h
  · intro h
    rw [h, split_nil]

/-- The pieces have no delimiters. -/
theorem not_mem_split {delim : UInt8} {s part : Text} (h : part ∈ split delim s) :
    delim ∉ part := by
  induction hparts : split delim s generalizing s with
  | nil => simp [hparts] at h
  | cons p parts ih =>
    obtain ⟨hno, hs⟩ := split_eq_cons.mp hparts
    rw [hparts] at h
    rcases List.mem_cons.mp h with rfl | hmem
    · exact hno
    · rcases hs with ⟨_, _, rfl⟩ | ⟨rest, _, hrest⟩
      · cases hmem
      · exact ih (hrest ▸ hmem) hrest

/-- Lines that end with the delimiter and have no other are read back as they are. -/
theorem split_lines {delim : UInt8} {lines : List Text} (h : ∀ line ∈ lines, delim ∉ line) :
    split delim (lines.flatMap fun line => line ++ [delim]) = lines := by
  induction lines with
  | nil => rfl
  | cons line lines ih =>
    have hrest := ih fun l hl => h l (List.mem_cons_of_mem _ hl)
    rw [List.flatMap_cons, List.append_assoc, List.singleton_append,
      split_append (h line List.mem_cons_self), hrest]

/-- The text before the first separator, and the text behind it where there is one. -/
def cut (sep : UInt8) (s : Text) : Text × Option Text :=
  match s.dropWhile (fun c => c != sep) with
  | [] => (s, none)
  | _ :: rest => (s.takeWhile (fun c => c != sep), some rest)

theorem cut_of_not_mem {sep : UInt8} {s : Text} (h : sep ∉ s) : cut sep s = (s, none) := by
  have hdrop : s.dropWhile (fun c => c != sep) = [] := by
    apply List.dropWhile_eq_nil_iff.mpr
    intro c hc
    have : c ≠ sep := fun he => h (he ▸ hc)
    simpa using this
  rw [cut, hdrop]

theorem cut_append {sep : UInt8} {part : Text} (h : sep ∉ part) (rest : Text) :
    cut sep (part ++ sep :: rest) = (part, some rest) := by
  have hall : ∀ c ∈ part, (c != sep) = true := by
    intro c hc
    have : c ≠ sep := fun he => h (he ▸ hc)
    simpa using this
  simp [cut, List.takeWhile_append_of_pos hall, List.dropWhile_append_of_pos hall]

/-- A text has no separator, or a first one. -/
theorem cut_cases (sep : UInt8) (s : Text) :
    sep ∉ s ∧ cut sep s = (s, none) ∨
      ∃ part rest, s = part ++ sep :: rest ∧ sep ∉ part ∧ cut sep s = (part, some rest) := by
  by_cases hmem : sep ∈ s
  · obtain ⟨part, rest, hs, hno⟩ := List.eq_append_cons_of_mem hmem
    exact .inr ⟨part, rest, hs, hno, hs ▸ cut_append hno rest⟩
  · exact .inl ⟨hmem, cut_of_not_mem hmem⟩

/-- The pieces around the first separator are determined. -/
theorem cut_inj {sep : UInt8} {part part' rest rest' : Text} (h : sep ∉ part) (h' : sep ∉ part')
    (heq : part ++ sep :: rest = part' ++ sep :: rest') : part = part' ∧ rest = rest' := by
  have hcut := cut_append h rest
  rw [heq, cut_append h' rest', Prod.mk.injEq, Option.some.injEq] at hcut
  exact ⟨hcut.1.symm, hcut.2.symm⟩

end Bytes
