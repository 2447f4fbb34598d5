import Cppforge.Scheduler.CronExpression
import Mathlib.Data.List.Basic
import Mathlib.Tactic.NormNum
import Mathlib.Tactic.Ring

namespace Cppforge.Scheduler
open Bytes

/-- What stands before the slash. -/
inductive Base where
  | all
  | one (a : Int)
  | range (a b : Int)

structure Field where
  base : Base
  step : Option Int

/-- A decimal number: digits and nothing else. -/
def Decimal (t : Text) (a : Int) : Prop := t ≠ [] ∧ (∀ c ∈ t, isDigit c = true) ∧ a = numeral t

/-- A text that starts with a number, of any size. -/
def Leads (t : Text) (a : Int) : Prop := leadingNumber t = some a

/-- A text that is taken for a number. -/
def Reads (t : Text) (a : Int) : Prop := stoi t = .ok a

/-- The ways to write a base, by the ways to write a number. -/
def Base.Spelled (N : Text → Int → Prop) (t : Text) : Base → Prop
  | .all => t = ascii "*"
  | .one a => dash ∉ t ∧ N t a
  | .range a b => ∃ u v, t = u ++ dash :: v ∧ dash ∉ u ∧ N u a ∧ N v b

/-- The ways to write a field. -/
def Field.Spelled (N : Text → Int → Prop) (s : Text) (f : Field) : Prop :=
  match f.step with
  | none => slash ∉ s ∧ f.base.Spelled N s
  | some n => ∃ t u, s = t ++ slash :: u ∧ slash ∉ t ∧ f.base.Spelled N t ∧ N u n

def Base.Fits (min max : Int) : Base → Prop
  | .all => True
  | .one a => min ≤ a ∧ a ≤ max
  | .range a b => min ≤ a ∧ a ≤ b ∧ b ≤ max

def Field.stride (f : Field) : Int := f.step.getD 1

def Field.Fits (min max : Int) (f : Field) : Prop := f.base.Fits min max ∧ 1 ≤ f.stride

def Field.start (min : Int) (f : Field) : Int :=
  match f.base with
  | .all => min
  | .one a => a
  | .range a _ => a

def Field.last (max : Int) (f : Field) : Int :=
  match f.base, f.step with
  | .all, _ => max
  | .one a, none => a
  | .one _, some _ => max
  | .range _ b, _ => b

/-- What the grammar says of a field: every step from the start that is in reach, in order. -/
def Field.Means (min max : Int) (f : Field) (values : List Int) : Prop :=
  values.Pairwise (· < ·) ∧
    ∀ v, v ∈ values ↔ (min ≤ v ∧ v ≤ max) ∧ (f.start min ≤ v ∧ v ≤ f.last max) ∧
      ∃ j : Nat, v = f.start min + j * f.stride

/-- The bounds of minutes, hours, days, months and weekdays. -/
def bounds : List (Int × Int) := [(0, 59), (0, 23), (1, 31), (1, 12), (0, 6)]

/-- Nothing overflows, and what is returned is what a field of the grammar means. -/
def Follows (min max : Int) (s : Text) : Prop :=
  parseField s min max ≠ .ok none ∧
    ∀ values, parseField s min max = .ok (some values) →
      ∃ f : Field, f.Spelled Decimal s ∧ f.Fits min max ∧ f.Means min max values

/-- A single value below the maximum with the step 1. -/
def Field.Single (max : Int) (f : Field) : Prop := ∃ a, f = ⟨.one a, some 1⟩ ∧ a < max

/-- Where the numbers at the start of the pieces make a field, the pieces are these numbers and
nothing more, the field is no single value with the step 1, and its first step is an `int`. -/
def Exact (min max : Int) (s : Text) : Prop :=
  ∀ f : Field, f.Spelled Reads s → f.Fits min max →
    f.Spelled Decimal s ∧ ¬f.Single max ∧ f.start min + f.stride < 2 ^ 31

theorem bounds_le {min max : Int} (h : (min, max) ∈ bounds) : 0 ≤ min ∧ min ≤ max ∧ max ≤ 59 := by
  simp only [bounds, List.mem_cons, Prod.mk.injEq, List.not_mem_nil, or_false] at h
  omega

section Numbers
variable {t u : Text} {a b : Int}

theorem stoi_eq_ok : stoi t = .ok a ↔ Leads t a ∧ -2 ^ 31 ≤ a ∧ a < 2 ^ 31 := by
  unfold stoi Leads
  cases leadingNumber t with
  | none => simp
  | some v =>
    by_cases hv : v < -2 ^ 31 ∨ 2 ^ 31 ≤ v
    · simp only [if_pos hv, Option.some.injEq, reduceCtorEq, false_iff]
      omega
    · simp only [if_neg hv, Except.ok.injEq, Option.some.injEq]
      omega

theorem Leads.unique (ha : Leads t a) (hb : Leads t b) : a = b :=
  Option.some.inj (ha.symm.trans hb)

theorem not_leads_star : ¬Leads (ascii "*") a := nofun

theorem isSpace_of_isDigit {c : UInt8} (h : isDigit c = true) : isSpace c = false := by
  obtain ⟨hlow, -⟩ := of_decide_eq_true h
  apply decide_eq_false
  intro h
  rcases h with ⟨-, hhigh⟩ | rfl
  · exact absurd (UInt8.le_trans hlow hhigh) (by decide)
  · exact absurd hlow (by decide)

theorem Decimal.leads (h : Decimal t a) : Leads t a := by
  obtain ⟨hne, hall, rfl⟩ := h
  cases t with
  | nil => exact absurd rfl hne
  | cons c cs =>
    have hc := hall c List.mem_cons_self
    have hdrop : (c :: cs).dropWhile isSpace = c :: cs := by
      rw [List.dropWhile_cons_of_neg]
      simp [isSpace_of_isDigit hc]
    have htake : (c :: cs).takeWhile isDigit = c :: cs := List.takeWhile_eq_self_iff.mpr hall
    have hnum : unsignedNumber (c :: cs) = some (numeral (c :: cs)) := by
      simp [unsignedNumber, htake]
    unfold Leads leadingNumber
    rw [hdrop]
    -- a digit is no sign
    split
    · next heq =>
      obtain ⟨rfl, -⟩ := List.cons.inj heq
      cases hc
    · next heq =>
      obtain ⟨rfl, -⟩ := List.cons.inj heq
      cases hc
    · exact hnum

end Numbers

section Spelling
variable {N N' : Text → Int → Prop} {s t : Text} {b c : Base} {f g : Field}

/-- The numbers of a field. -/
def Base.numbers : Base → List Int
  | .all => []
  | .one a => [a]
  | .range a b => [a, b]

def Field.numbers (f : Field) : List Int := f.base.numbers ++ f.step.toList

theorem Base.Spelled.imp (h : b.Spelled N t) (hN : ∀ a ∈ b.numbers, ∀ t, N t a → N' t a) :
    b.Spelled N' t := by
  cases b with
  | all => exact h
  | one a => exact ⟨h.1, hN a (by simp [numbers]) t h.2⟩
  | range a b =>
    obtain ⟨u, v, ht, hu, ha, hb⟩ := h
    exact ⟨u, v, ht, hu, hN a (by simp [numbers]) u ha, hN b (by simp [numbers]) v hb⟩

theorem Field.Spelled.imp (h : f.Spelled N s) (hN : ∀ a ∈ f.numbers, ∀ t, N t a → N' t a) :
    f.Spelled N' s := by
  obtain ⟨base, step⟩ := f
  have hbase : ∀ a ∈ base.numbers, ∀ t, N t a → N' t a :=
    fun a ha => hN a (List.mem_append_left _ ha)
  cases step with
  | none => exact ⟨h.1, h.2.imp hbase⟩
  | some n =>
    obtain ⟨t, u, hs, ht, hb, hn⟩ := h
    exact ⟨t, u, hs, ht, hb.imp hbase, hN n (by simp [numbers]) u hn⟩

theorem Base.Spelled.unique (hb : b.Spelled Leads t) (hc : c.Spelled Leads t) : b = c := by
  -- a star has no dash in it and starts with no number
  have hstar : dash ∉ ascii "*" := by decide
  cases b with
  | all =>
    cases c with
    | all => rfl
    | one a => exact absurd (hb ▸ hc.2) not_leads_star
    | range a b =>
      obtain ⟨u, v, rfl, -⟩ := hc
      exact absurd (hb ▸ List.mem_append_right u List.mem_cons_self) hstar
  | one a =>
    cases c with
    | all => exact absurd (hc ▸ hb.2) not_leads_star
    | one a' => rw [hb.2.unique hc.2]
    | range a' b' =>
      obtain ⟨u, v, rfl, -⟩ := hc
      exact absurd (List.mem_append_right u List.mem_cons_self) hb.1
  | range a b =>
    obtain ⟨u, v, rfl, hu, ha, hb⟩ := hb
    cases c with
    | all => exact absurd (hc ▸ List.mem_append_right u List.mem_cons_self) hstar
    | one a' => exact absurd (List.mem_append_right u List.mem_cons_self) hc.1
    | range a' b' =>
      obtain ⟨u', v', heq, hu', ha', hb'⟩ := hc
      obtain ⟨rfl, rfl⟩ := cut_inj hu hu' heq
      rw [ha.unique ha', hb.unique hb']

/-- A text starts with the numbers of one field at most. -/
theorem Field.Spelled.unique (hf : f.Spelled Leads s) (hg : g.Spelled Leads s) : f = g := by
  obtain ⟨b, m⟩ := f
  obtain ⟨c, n⟩ := g
  cases m with
  | none =>
    cases n with
    | none =>
      obtain rfl : b = c := hf.2.unique hg.2
      rfl
    | some n =>
      obtain ⟨t, u, rfl, -⟩ := hg
      exact absurd (List.mem_append_right t List.mem_cons_self) hf.1
  | some m =>
    obtain ⟨t, u, rfl, ht, hb, hm⟩ := hf
    cases n with
    | none => exact absurd (List.mem_append_right t List.mem_cons_self) hg.1
    | some n =>
      obtain ⟨t', u', heq, ht', hc, hn⟩ := hg
      obtain ⟨rfl, rfl⟩ := cut_inj ht ht' heq
      obtain rfl : b = c := hb.unique hc
      rw [hm.unique hn]

theorem Field.Spelled.leads_of_reads (h : f.Spelled Reads s) : f.Spelled Leads s :=
  h.imp fun _ _ _ h => (stoi_eq_ok.mp h).1

theorem Field.Spelled.leads_of_decimal (h : f.Spelled Decimal s) : f.Spelled Leads s :=
  h.imp fun _ _ _ h => h.leads

end Spelling

section Parsing
variable {s t base : Text} {min max step : Int} {r : Option (List Int)}

/-- The values of a base, with a step. -/
def Base.values (min max step : Int) : Base → Option (List Int)
  | .all => steps min max step
  | .one a => if 1 < step then steps a max step else some [a]
  | .range a b => steps a b step

theorem bind_eq_ok {α β : Type} {x : Except CronError α} {k : α → Except CronError β} {b : β} :
    (x >>= k) = .ok b ↔ ∃ a, x = .ok a ∧ k a = .ok b := by
  cases x with
  | error e => exact ⟨nofun, nofun⟩
  | ok a => exact ⟨fun h => ⟨a, rfl, h⟩, fun ⟨_, rfl, h⟩ => h⟩

/-- A test that throws. -/
theorem test_eq_ok {α : Type} {p : Prop} [Decidable p] {e : CronError}
    {k : Unit → Except CronError α} {a : α} :
    (if p then throw e >>= k else k ()) = .ok a ↔ ¬p ∧ k () = .ok a := by
  by_cases hp : p
  · rw [if_pos hp]
    exact ⟨nofun, fun h => absurd hp h.1⟩
  · rw [if_neg hp, and_iff_right hp]

theorem parseStep_eq_ok : parseStep s = .ok (base, step) ↔
    slash ∉ s ∧ base = s ∧ step = 1 ∨
      ∃ rest, s = base ++ slash :: rest ∧ slash ∉ base ∧ Reads rest step ∧ 1 ≤ step := by
  unfold parseStep
  rcases cut_cases slash s with ⟨hno, hcut⟩ | ⟨part, rest, rfl, hno, hcut⟩
  · simp only [hcut, Except.ok.injEq, Prod.mk.injEq]
    constructor
    · intro h
      obtain ⟨rfl, rfl⟩ := h
      exact .inl ⟨hno, rfl, rfl⟩
    · intro h
      rcases h with ⟨-, rfl, rfl⟩ | ⟨rest, rfl, -⟩
      · exact ⟨rfl, rfl⟩
      · exact absurd (List.mem_append_right base List.mem_cons_self) hno
  · simp only [hcut, bind_eq_ok]
    constructor
    · intro h
      obtain ⟨n, hn, hret⟩ := h
      obtain ⟨hpos, hret⟩ := test_eq_ok.mp hret
      obtain ⟨rfl, rfl⟩ := Prod.mk.inj (Except.ok.inj hret)
      exact .inr ⟨rest, rfl, hno, hn, by omega⟩
    · intro h
      rcases h with ⟨hmem, -⟩ | ⟨rest', heq, hno', hn, hpos⟩
      · exact absurd (List.mem_append_right part List.mem_cons_self) hmem
      · obtain ⟨rfl, rfl⟩ := cut_inj hno hno' heq
        exact ⟨step, hn, test_eq_ok.mpr ⟨by omega, rfl⟩⟩

theorem Base.Spelled.parseBase {b : Base} (hb : b.Spelled Reads t) (hf : b.Fits min max) :
    parseBase s t min max step = .ok (b.values min max step) := by
  unfold Scheduler.parseBase
  cases b with
  | all =>
    obtain rfl : t = ascii "*" := hb
    rfl
  | one a =>
    obtain ⟨hno, ha⟩ := hb
    have hstar : t ≠ ascii "*" := by
      intro h
      subst h
      exact not_leads_star (stoi_eq_ok.mp ha).1
    simp only [cut_of_not_mem hno, if_neg hstar, bind_eq_ok]
    refine ⟨a, ha, test_eq_ok.mpr ⟨by simp only [Fits] at hf; omega, ?_⟩⟩
    unfold values
    split <;> rfl
  | range a b =>
    obtain ⟨u, v, rfl, hno, ha, hb⟩ := hb
    simp only [cut_append hno, bind_eq_ok]
    exact ⟨a, ha, b, hb, test_eq_ok.mpr ⟨by simp only [Fits] at hf; omega, rfl⟩⟩

theorem parseBase_eq_ok : parseBase s t min max step = .ok r ↔
    ∃ b : Base, b.Spelled Reads t ∧ b.Fits min max ∧ r = b.values min max step := by
  constructor
  · unfold parseBase
    rcases cut_cases dash t with ⟨hno, hcut⟩ | ⟨part, rest, rfl, hno, hcut⟩
    · simp only [hcut]
      split
      · next hstar => exact fun h => ⟨.all, hstar, trivial, (Except.ok.inj h).symm⟩
      · intro h
        obtain ⟨a, ha, h⟩ := bind_eq_ok.mp h
        obtain ⟨hfit, h⟩ := test_eq_ok.mp h
        refine ⟨.one a, ⟨hno, ha⟩, by simp only [Base.Fits]; omega, ?_⟩
        change r = if 1 < step then steps a max step else some [a]
        by_cases hstep : 1 < step
        · rw [if_pos hstep] at h ⊢
          exact (Except.ok.inj h).symm
        · rw [if_neg hstep] at h ⊢
          exact (Except.ok.inj h).symm
    · intro h
      simp only [hcut, bind_eq_ok] at h
      obtain ⟨a, ha, b, hb, h⟩ := h
      obtain ⟨hfit, h⟩ := test_eq_ok.mp h
      refine ⟨.range a b, ⟨part, rest, rfl, hno, ha, hb⟩, ?_, (Except.ok.inj h).symm⟩
      simp only [Base.Fits]
      omega
  · intro h
    obtain ⟨b, hb, hf, rfl⟩ := h
    exact hb.parseBase hf

/-- The test for a star in front of it all decides nothing. -/
theorem parseField_eq : parseField s min max =
    parseStep s >>= fun r => parseBase s r.1 min max r.2 := by
  unfold parseField
  split
  · next hstar =>
    subst hstar
    rfl
  · rfl

theorem parseField_eq_ok : parseField s min max = .ok r ↔
    ∃ f : Field, f.Spelled Reads s ∧ f.Fits min max ∧ r = f.base.values min max f.stride := by
  rw [parseField_eq, bind_eq_ok]
  constructor
  · intro h
    obtain ⟨⟨t, n⟩, hstep, hbase⟩ := h
    obtain ⟨b, hb, hf, rfl⟩ := parseBase_eq_ok.mp hbase
    rcases parseStep_eq_ok.mp hstep with ⟨hno, rfl, rfl⟩ | ⟨rest, rfl, hno, hn, hpos⟩
    · exact ⟨⟨b, none⟩, ⟨hno, hb⟩, ⟨hf, le_rfl⟩, rfl⟩
    · exact ⟨⟨b, some n⟩, ⟨t, rest, rfl, hno, hb, hn⟩, ⟨hf, hpos⟩, rfl⟩
  · intro h
    obtain ⟨⟨b, step⟩, hs, ⟨hf, hpos⟩, rfl⟩ := h
    cases step with
    | none => exact ⟨(s, 1), parseStep_eq_ok.mpr (.inl ⟨hs.1, rfl, rfl⟩), hs.2.parseBase hf⟩
    | some n =>
      obtain ⟨t, u, rfl, hno, hb, hn⟩ := hs
      exact ⟨(t, n), parseStep_eq_ok.mpr (.inr ⟨u, rfl, hno, hn, hpos⟩), hb.parseBase hf⟩

end Parsing

/-- The numbers from the first in strides up to the last, in order. -/
def Strides (first last step : Int) (values : List Int) : Prop :=
  values.Pairwise (· < ·) ∧
    ∀ v, v ∈ values ↔ (first ≤ v ∧ v ≤ last) ∧ ∃ j : Nat, v = first + j * step

section Loops
variable {first last step i : Int} {turns : Nat} {values : List Int}

theorem Strides.nil (h : last < first) : Strides first last step [] := by
  refine ⟨List.Pairwise.nil, fun v => ⟨nofun, ?_⟩⟩
  intro h
  obtain ⟨hv, -⟩ := h
  omega

theorem Strides.cons (h : Strides (first + step) last step values) (hle : first ≤ last)
    (hpos : 1 ≤ step) : Strides first last step (first :: values) := by
  obtain ⟨hsorted, hmem⟩ := h
  constructor
  · apply List.Pairwise.cons _ hsorted
    intro v hv
    have := ((hmem v).mp hv).1.1
    omega
  · intro v
    rw [List.mem_cons, hmem]
    constructor
    · intro h
      rcases h with rfl | ⟨hv, j, hj⟩
      · exact ⟨⟨le_rfl, hle⟩, 0, by simp⟩
      · refine ⟨by omega, j + 1, ?_⟩
        rw [hj]
        push_cast
        ring
    · intro h
      obtain ⟨hv, j, hj⟩ := h
      cases j with
      | zero => exact .inl (by simpa using hj)
      | succ j =>
        have hnext : v = first + step + j * step := by
          rw [hj]
          push_cast
          ring
        have hreach : 0 ≤ j * step := by positivity
        exact .inr ⟨by omega, j, hnext⟩

/-- A loop whose first step does not overflow goes through its strides: a later one starts no
higher than the last number. -/
theorem loop_strides (hpos : 1 ≤ step) (hi : 0 ≤ i) (hlast : last < 2 ^ 30)
    (hroom : i ≤ last → i + step < 2 ^ 31) (hturns : 0 < turns ∧ last - i + 1 < turns) :
    ∃ values, loop last step turns i = some values ∧ Strides i last step values := by
  induction turns generalizing i with
  | zero => omega
  | succ turns ih =>
    by_cases hend : last < i
    · exact ⟨[], by rw [loop, if_pos hend], Strides.nil hend⟩
    · have hstep := hroom (by omega)
      obtain ⟨values, hrest, hvalues⟩ := ih (i := i + step) (by omega) (by omega) (by omega)
      refine ⟨i :: values, ?_, hvalues.cons (by omega) hpos⟩
      rw [loop, if_neg hend, if_neg (by omega), hrest]
      rfl

theorem steps_strides (hpos : 1 ≤ step) (hfirst : 0 ≤ first) (hlast : last < 2 ^ 30)
    (hroom : first + step < 2 ^ 31) :
    ∃ values, steps first last step = some values ∧ Strides first last step values :=
  loop_strides hpos hfirst hlast (fun _ => hroom) (by omega)

theorem steps_overflow (hle : first ≤ last) (hover : 2 ^ 31 ≤ first + step) :
    steps first last step = none := by
  rw [steps, loop, if_neg (by omega), if_pos hover]

theorem steps_self (hpos : 1 ≤ step) (hroom : first + step < 2 ^ 31) :
    steps first first step = some [first] := by
  have hturns : (first - first + 1).toNat = 1 := by omega
  simp only [steps, hturns, loop]
  rw [if_neg (by omega), if_neg (by omega), if_pos (by omega)]
  rfl

end Loops

section Meaning
variable {min max : Int} {f : Field} {s : Text} {values : List Int}

theorem Field.Fits.reach (hf : f.Fits min max) (hle : min ≤ max) :
    min ≤ f.start min ∧ f.start min ≤ f.last max ∧ f.last max ≤ max := by
  obtain ⟨base, step⟩ := f
  cases base with
  | all => exact ⟨le_rfl, hle, le_rfl⟩
  | one a =>
    cases step with
    | none => exact ⟨hf.1.1, le_rfl, hf.1.2⟩
    | some n => exact ⟨hf.1.1, hf.1.2, le_rfl⟩
  | range a b => exact hf.1

theorem Strides.means (h : Strides (f.start min) (f.last max) f.stride values)
    (hf : f.Fits min max) (hle : min ≤ max) : f.Means min max values := by
  have hreach := hf.reach hle
  refine ⟨h.1, fun v => ?_⟩
  rw [h.2]
  constructor
  · intro h
    obtain ⟨hv, hj⟩ := h
    exact ⟨by omega, hv, hj⟩
  · intro h
    obtain ⟨-, hv, hj⟩ := h
    exact ⟨hv, hj⟩

/-- A single value is a loop of one turn, save where the step 1 is written out. -/
theorem Field.Fits.values_eq (hf : f.Fits min max) (hb : (min, max) ∈ bounds)
    (hsingle : ¬f.Single max) :
    f.base.values min max f.stride = steps (f.start min) (f.last max) f.stride := by
  have hle := bounds_le hb
  obtain ⟨base, step⟩ := f
  cases base with
  | all => rfl
  | range a b => rfl
  | one a =>
    obtain ⟨⟨hmin, hmax⟩, hpos⟩ := hf
    cases step with
    | none => exact (steps_self le_rfl (by omega)).symm
    | some n =>
      change 1 ≤ n at hpos
      change (if 1 < n then steps a max n else some [a]) = steps a max n
      by_cases hn : 1 < n
      · exact if_pos hn
      · obtain rfl : n = 1 := by omega
        have hlast : max = a := by
          by_contra hne
          exact hsingle ⟨a, rfl, by omega⟩
        rw [if_neg hn, hlast, steps_self le_rfl (by omega)]

theorem Field.Fits.values_means (hf : f.Fits min max) (hb : (min, max) ∈ bounds)
    (hsingle : ¬f.Single max) (hroom : f.start min + f.stride < 2 ^ 31) :
    ∃ values, f.base.values min max f.stride = some values ∧ f.Means min max values := by
  have hle := bounds_le hb
  have hreach := hf.reach hle.2.1
  have hfirst : 0 ≤ f.start min := by omega
  have hlast : f.last max < 2 ^ 30 := by omega
  obtain ⟨values, hsteps, hvalues⟩ := steps_strides hf.2 hfirst hlast hroom
  exact ⟨values, (hf.values_eq hb hsingle).trans hsteps, hvalues.means hf hle.2.1⟩

theorem Field.Fits.values_overflow (hf : f.Fits min max) (hb : (min, max) ∈ bounds)
    (hover : 2 ^ 31 ≤ f.start min + f.stride) : f.base.values min max f.stride = none := by
  have hle := bounds_le hb
  have hreach := hf.reach hle.2.1
  have hsingle : ¬f.Single max := by
    intro h
    obtain ⟨a, rfl, ha⟩ := h
    change 2 ^ 31 ≤ a + 1 at hover
    omega
  rw [hf.values_eq hb hsingle, steps_overflow hreach.2.1 hover]

/-- With the step 1 written out a single value stays alone. -/
theorem Field.Single.not_means (h : f.Single max) (hf : f.Fits min max)
    (hvalues : f.base.values min max f.stride = some values) : ¬f.Means min max values := by
  obtain ⟨a, rfl, ha⟩ := h
  obtain rfl : [a] = values := Option.some.inj hvalues
  intro h
  obtain ⟨-, hmem⟩ := h
  have hmin : min ≤ a := hf.1.1
  have hnext : a + 1 ∈ [a] := by
    apply (hmem (a + 1)).mpr
    exact ⟨by omega, ⟨by simp [start], ha⟩, 1, rfl⟩
  rw [List.mem_singleton] at hnext
  omega

theorem Follows.exact (h : Follows min max s) (hb : (min, max) ∈ bounds) : Exact min max s := by
  intro f hs hf
  have hparse := parseField_eq_ok.mpr ⟨f, hs, hf, rfl⟩
  cases hvalues : f.base.values min max f.stride with
  | none => exact absurd (hvalues ▸ hparse) h.1
  | some values =>
    obtain ⟨g, hg, -, hmeans⟩ := h.2 values (hvalues ▸ hparse)
    obtain rfl : g = f := hg.leads_of_decimal.unique hs.leads_of_reads
    refine ⟨hg, fun hsingle => hsingle.not_means hf hvalues hmeans, ?_⟩
    by_contra hover
    rw [hf.values_overflow hb (by omega)] at hvalues
    cases hvalues

theorem Exact.follows (h : Exact min max s) (hb : (min, max) ∈ bounds) : Follows min max s := by
  have hparsed : ∀ r, parseField s min max = .ok r →
      ∃ f : Field, ∃ values, f.Spelled Decimal s ∧ f.Fits min max ∧ r = some values ∧
        f.Means min max values := by
    intro r hr
    obtain ⟨f, hs, hf, rfl⟩ := parseField_eq_ok.mp hr
    obtain ⟨hd, hsingle, hroom⟩ := h f hs hf
    obtain ⟨values, hvalues, hmeans⟩ := hf.values_means hb hsingle hroom
    exact ⟨f, values, hd, hf, hvalues, hmeans⟩
  constructor
  · intro hnone
    obtain ⟨f, values, -, -, hvalues, -⟩ := hparsed none hnone
    cases hvalues
  · intro values hret
    obtain ⟨f, values', hd, hf, hvalues, hmeans⟩ := hparsed (some values) hret
    cases hvalues
    exact ⟨f, hd, hf, hmeans⟩

end Meaning

/-- The code keeps to the grammar exactly on the texts whose numbers at the start of the pieces are
all there is. -/
theorem parseField_follows_iff {min max : Int} (hb : (min, max) ∈ bounds) (s : Text) :
    Follows min max s ↔ Exact min max s :=
  ⟨fun h => h.exact hb, fun h => h.follows hb⟩

theorem parseField_follows_iff_minutes :
    Follows 0 59 (ascii "7-40/15") ↔ Exact 0 59 (ascii "7-40/15") :=
  parseField_follows_iff (by decide) (ascii "7-40/15")

/-- A letter behind a number, the step 1 behind a single value, and a step over the largest
number. -/
theorem parseField_strays : ¬Follows 0 59 (ascii "5x") ∧ ¬Follows 0 59 (ascii "1/1") ∧
    ¬Follows 0 59 (ascii "1/2147483647") := by
  refine ⟨fun h => ?_, fun h => ?_, fun h => ?_⟩
  · obtain ⟨⟨-, -, -, hdigits, -⟩, -⟩ := h.exact (by decide) ⟨.one 5, none⟩
      ⟨by decide, by decide, rfl⟩ ⟨⟨by decide, by decide⟩, by decide⟩
    exact absurd (hdigits 120 (by decide)) (by decide)
  · obtain ⟨-, hsingle, -⟩ := h.exact (by decide) ⟨.one 1, some 1⟩
      ⟨ascii "1", ascii "1", rfl, by decide, ⟨by decide, rfl⟩, rfl⟩
      ⟨⟨by decide, by decide⟩, by decide⟩
    exact hsingle ⟨1, rfl, by decide⟩
  · obtain ⟨-, -, hroom⟩ := h.exact (by decide) ⟨.one 1, some 2147483647⟩
      ⟨ascii "1", ascii "2147483647", rfl, by decide, ⟨by decide, rfl⟩, rfl⟩
      ⟨⟨by decide, by decide⟩, by decide⟩
    exact absurd hroom (by decide)

end Cppforge.Scheduler
