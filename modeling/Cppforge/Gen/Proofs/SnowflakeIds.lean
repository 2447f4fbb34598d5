import Cppforge.Gen.SnowflakeGenerator
import Mathlib.Data.List.Basic
import Mathlib.Algebra.Group.Nat.Defs
import Mathlib.Algebra.Group.Int.Defs

namespace Cppforge.Gen.SnowflakeGenerator
open SnowflakeOption BitFields

variable {g g' : SnowflakeGenerator} {clock rest : List Int64} {id timestamp : Int64}

/-- A timestamp fits the 41 bits below the sign. -/
def FitsTimestamp (timestamp : Int64) : Prop := 0 ≤ timestamp.toInt ∧ timestamp.toInt < 2 ^ 41

instance (timestamp : Int64) : Decidable (FitsTimestamp timestamp) :=
  inferInstanceAs (Decidable (_ ∧ _))

/-- The readings may repeat and go back. -/
def InRange (clock : List Int64) : Prop := ∀ now ∈ clock, FitsTimestamp (getCurrentTimestamp now)

instance (clock : List Int64) : Decidable (InRange clock) :=
  List.decidableBAll (fun now => FitsTimestamp (getCurrentTimestamp now)) clock

/-- The fields are in the ranges their bits leave them. Before the first id the last
timestamp is -1. -/
structure Ready (g : SnowflakeGenerator) : Prop where
  machine : 0 ≤ g.machineId.toInt ∧ g.machineId.toInt < 32
  datacenter : 0 ≤ g.datacenterId.toInt ∧ g.datacenterId.toInt < 32
  last : -1 ≤ g.lastTimestamp.toInt ∧ g.lastTimestamp.toInt < 2 ^ 41
  sequence : 0 ≤ g.sequence.toInt ∧ g.sequence.toInt < 4096

def node (g : SnowflakeGenerator) : Int := g.datacenterId.toInt * 32 + g.machineId.toInt

/-- The number the fields of a generator make. -/
def latest (g : SnowflakeGenerator) : Int :=
  (g.lastTimestamp.toInt * 1024 + node g) * 4096 + g.sequence.toInt

theorem Ready.node_range (h : Ready g) : 0 ≤ node g ∧ node g < 1024 := by
  have hm := h.machine
  have hd := h.datacenter
  unfold node
  omega

theorem create_ready {machineId datacenterId : Int16} (h : create machineId datacenterId = .ok g) :
    Ready g ∧ g.machineId = machineId ∧ g.datacenterId = datacenterId := by
  unfold create at h
  split at h
  · cases h
  split at h
  · cases h
  rename_i hm hd
  rw [not_or, Int16.not_lt, gt_iff_lt, Int64.not_lt, Int16.le_iff_toInt_le, Int64.le_iff_toInt_le,
    Int16.toInt_toInt64] at hm hd
  have hmax : maxMachineId.toInt = 31 ∧ maxDatacenterId.toInt = 31 := by decide
  have hzero : (0 : Int16).toInt = 0 := by decide
  rw [hzero, hmax.1] at hm
  rw [hzero, hmax.2] at hd
  have hlast : -1 ≤ (-1 : Int64).toInt ∧ (-1 : Int64).toInt < 2 ^ 41 := by decide
  have hsequence : 0 ≤ (0 : Int64).toInt ∧ (0 : Int64).toInt < 4096 := by decide
  have hm' := Int.lt_add_one_of_le hm.2
  have hd' := Int.lt_add_one_of_le hd.2
  cases h
  exact ⟨⟨⟨hm.1, hm'⟩, ⟨hd.1, hd'⟩, hlast, hsequence⟩, rfl, rfl⟩

theorem readWhile_spec {waits : Int64 → Bool} (h : readWhile waits clock = some (timestamp, rest))
    (hclock : InRange clock) : waits timestamp = false ∧ FitsTimestamp timestamp ∧ InRange rest := by
  induction clock with
  | nil => cases h
  | cons now clock ih =>
    obtain ⟨hnow, hclock⟩ := List.forall_mem_cons.mp hclock
    unfold readWhile at h
    split at h
    · exact ih h hclock
    · rename_i hwaits
      cases h
      exact ⟨eq_false_of_ne_true hwaits, hnow, hclock⟩

/-- The packed fields do not overlap. -/
theorem toInt_generateUniqueId (h : Ready g) (hlast : 0 ≤ g.lastTimestamp.toInt) :
    (generateUniqueId g.lastTimestamp g.datacenterId g.machineId g.sequence).toInt = latest g := by
  obtain ⟨hm0, hm⟩ := h.machine
  obtain ⟨hd0, hd⟩ := h.datacenter
  obtain ⟨hs0, hs⟩ := h.sequence
  have hl := h.last.2
  rw [← Int16.toInt_toInt64] at hm0 hm hd0 hd
  have hdatacenter : (g.datacenterId.toInt64 <<< (5 : Int64)).toInt =
      g.datacenterId.toInt64.toInt * 2 ^ 5 := toInt_shiftLeft (by decide) hd0 (by omega)
  have hnode : (g.datacenterId.toInt64 <<< (5 : Int64) ||| g.machineId.toInt64).toInt = node g := by
    rw [@toInt_or _ _ 5, hdatacenter, Int16.toInt_toInt64, Int16.toInt_toInt64]
    · rfl
    all_goals omega
  obtain ⟨hn0, hn⟩ := h.node_range
  have hmiddle : ((g.datacenterId.toInt64 <<< (5 : Int64) ||| g.machineId.toInt64) <<<
      sequenceBits).toInt = node g * 2 ^ 12 := by
    rw [@toInt_shiftLeft _ _ 12 (by decide), hnode] <;> omega
  have htop : (g.lastTimestamp <<< (workerBits + sequenceBits)).toInt =
      g.lastTimestamp.toInt * 2 ^ 22 := toInt_shiftLeft (by decide) hlast (by omega)
  have hupper : (g.lastTimestamp <<< (workerBits + sequenceBits) |||
      (g.datacenterId.toInt64 <<< (5 : Int64) ||| g.machineId.toInt64) <<< sequenceBits).toInt =
      g.lastTimestamp.toInt * 2 ^ 22 + node g * 2 ^ 12 := by
    rw [@toInt_or _ _ 22, htop, hmiddle] <;> omega
  unfold generateUniqueId latest
  rw [@toInt_or _ _ 12, hupper] <;> omega

theorem toInt_nextSequence (h : Ready g) :
    ((g.sequence + 1) &&& maxSequence).toInt = (g.sequence.toInt + 1) % 4096 := by
  obtain ⟨hs0, hs⟩ := h.sequence
  have hone : (1 : Int64).toInt = 1 := by decide
  have hsucc : (g.sequence + 1).toInt = g.sequence.toInt + 1 := by
    rw [Int64.toInt_add, hone, Int.bmod_eq_of_le] <;> omega
  rw [@toInt_and _ _ 12 (by omega) (by decide) (by decide), hsucc]
  rfl

/-- An id is made from fields in range whose number has grown. -/
theorem issue_spec (hg : Ready g) {sequence : Int64} (hfits : FitsTimestamp timestamp)
    (hseq : 0 ≤ sequence.toInt ∧ sequence.toInt < 4096)
    (hgrow : g.lastTimestamp.toInt < timestamp.toInt ∨
      g.lastTimestamp.toInt = timestamp.toInt ∧ g.sequence.toInt < sequence.toInt)
    (h : issue g timestamp sequence clock = (id, g', rest)) :
    Ready g' ∧ node g' = node g ∧ id.toInt = latest g' ∧ latest g < latest g' ∧ 0 ≤ latest g' := by
  obtain ⟨ht0, ht⟩ := hfits
  obtain ⟨hn0, hn⟩ := hg.node_range
  obtain ⟨hs0, hs⟩ := hg.sequence
  have hready : Ready { g with lastTimestamp := timestamp, sequence := sequence } :=
    ⟨hg.machine, hg.datacenter, ⟨by dsimp only; omega, ht⟩, hseq⟩
  have hid := toInt_generateUniqueId hready ht0
  have hold : latest g = (g.lastTimestamp.toInt * 1024 + node g) * 4096 + g.sequence.toInt := rfl
  have hnew : latest { g with lastTimestamp := timestamp, sequence := sequence } =
    (timestamp.toInt * 1024 + node g) * 4096 + sequence.toInt := rfl
  cases h
  refine ⟨hready, rfl, hid, ?_, ?_⟩
  · rw [hold, hnew]
    omega
  · rw [hnew]
    omega

/-- One call: the fields stay in range and the number they make grows. -/
theorem nextId_spec (hg : Ready g) (hclock : InRange clock)
    (h : nextId g clock = some (id, g', rest)) :
    Ready g' ∧ node g' = node g ∧ id.toInt = latest g' ∧ latest g < latest g' ∧ 0 ≤ latest g' ∧
      InRange rest := by
  obtain ⟨⟨timestamp, clock₁⟩, hread, h⟩ := Option.bind_eq_some_iff.mp h
  obtain ⟨hnext, hfits, hclock₁⟩ := readWhile_spec hread hclock
  have hle : g.lastTimestamp.toInt ≤ timestamp.toInt := by
    rw [← Int64.le_iff_toInt_le, ← Int64.not_lt]
    exact of_decide_eq_false hnext
  have hseq := toInt_nextSequence hg
  obtain ⟨hs0, hs⟩ := hg.sequence
  have hzero : (0 : Int64).toInt = 0 := by decide
  dsimp only at h
  split at h
  · rename_i heq
    split at h
    · -- the sequence has wrapped round
      rename_i hwrap
      obtain ⟨⟨timestamp', clock₂⟩, hwait, h⟩ := Option.bind_eq_some_iff.mp h
      obtain ⟨hlater, hfits', hclock₂⟩ := readWhile_spec hwait hclock₁
      have hlt : g.lastTimestamp.toInt < timestamp'.toInt := by
        rw [← Int64.lt_iff_toInt_lt, ← Int64.not_le]
        exact of_decide_eq_false hlater
      have hissue := Option.some.inj h
      obtain ⟨hg', hnode, hid, hgrow, hpos⟩ :=
        issue_spec hg hfits' (by rw [hwrap, hzero]; decide) (.inl hlt) hissue
      cases hissue
      exact ⟨hg', hnode, hid, hgrow, hpos, hclock₂⟩
    · rename_i hwrap
      have hne : (g.sequence.toInt + 1) % 4096 ≠ 0 := by
        rw [← hseq, ← hzero]
        exact fun he => hwrap (Int64.toInt_inj.mp he)
      have hissue := Option.some.inj h
      obtain ⟨hg', hnode, hid, hgrow, hpos⟩ :=
        issue_spec hg hfits (by omega) (.inr ⟨by rw [heq], by omega⟩) hissue
      cases hissue
      exact ⟨hg', hnode, hid, hgrow, hpos, hclock₁⟩
  · rename_i heq
    have hne : g.lastTimestamp.toInt ≠ timestamp.toInt := fun he => heq (Int64.toInt_inj.mp he).symm
    have hissue := Option.some.inj h
    obtain ⟨hg', hnode, hid, hgrow, hpos⟩ :=
      issue_spec hg hfits (by rw [hzero]; decide) (.inl (by omega)) hissue
    cases hissue
    exact ⟨hg', hnode, hid, hgrow, hpos, hclock₁⟩

/-- The calls of a run: their ids ascend from the generator's number and carry its node. -/
theorem nextIds_spec {calls : Nat} {ids : List Int64} (hg : Ready g) (hclock : InRange clock)
    (h : nextIds g clock calls = some (ids, g', rest)) :
    ids.Pairwise (· < ·) ∧
    ∀ id ∈ ids, latest g < id.toInt ∧ 0 ≤ id.toInt ∧ id.toInt / 4096 % 1024 = node g := by
  induction calls generalizing g clock ids with
  | zero =>
    cases h
    simp
  | succ calls ih =>
    obtain ⟨⟨id, g₁, clock₁⟩, hnext, h⟩ := Option.bind_eq_some_iff.mp h
    obtain ⟨⟨tail, g₂, clock₂⟩, hrest, h⟩ := Option.bind_eq_some_iff.mp h
    cases h
    obtain ⟨hg₁, hnode, hid, hgrow, hpos, hclock₁⟩ := nextId_spec hg hclock hnext
    obtain ⟨hsorted, htail⟩ := ih hg₁ hclock₁ hrest
    rw [hnode] at htail
    have hfield : id.toInt / 4096 % 1024 = node g := by
      obtain ⟨hs0, hs⟩ := hg₁.sequence
      obtain ⟨hn0, hn⟩ := hg₁.node_range
      rw [hid, ← hnode]
      unfold latest
      omega
    constructor
    · refine List.pairwise_cons.mpr ⟨?_, hsorted⟩
      intro id' hid'
      rw [Int64.lt_iff_toInt_lt, hid]
      exact (htail id' hid').1
    · refine List.forall_mem_cons.mpr ⟨⟨hid ▸ hgrow, hid ▸ hpos, hfield⟩, ?_⟩
      intro id' hid'
      obtain ⟨hlt, hpos', hfield'⟩ := htail id' hid'
      exact ⟨Int.lt_trans hgrow hlt, hpos', hfield'⟩

/-- Ids of one generator ascend, are never negative, and are none of another generator's. -/
theorem nextIds_unique {machineId datacenterId : Int16} {calls : Nat} {ids : List Int64}
    (hcreate : create machineId datacenterId = .ok g) (hclock : InRange clock)
    (hids : nextIds g clock calls = some (ids, g', rest)) :
    ids.Pairwise (· < ·) ∧ (∀ id ∈ ids, 0 ≤ id) ∧
    ∀ (machineId' datacenterId' : Int16) (other : SnowflakeGenerator) (clock' : List Int64)
      (calls' : Nat) (ids' : List Int64) (last : SnowflakeGenerator × List Int64),
      create machineId' datacenterId' = .ok other →
      (datacenterId', machineId') ≠ (datacenterId, machineId) → InRange clock' →
      nextIds other clock' calls' = some (ids', last) → ∀ id ∈ ids, id ∉ ids' := by
  obtain ⟨hg, hm, hd⟩ := create_ready hcreate
  obtain ⟨hsorted, hall⟩ := nextIds_spec hg hclock hids
  refine ⟨hsorted, ?_, ?_⟩
  · intro id hid
    rw [Int64.le_iff_toInt_le]
    exact (hall id hid).2.1
  · intro machineId' datacenterId' other clock' calls' ids' last hcreate' hne hclock' hids' id hid hid'
    obtain ⟨hother, hm', hd'⟩ := create_ready hcreate'
    have hsame := ((nextIds_spec hother hclock' hids').2 id hid').2.2
    rw [(hall id hid).2.2] at hsame
    obtain ⟨hm0, hm1⟩ := hg.machine
    obtain ⟨hm0', hm1'⟩ := hother.machine
    unfold node at hsame
    rw [hm, hd, hm', hd'] at hsame
    rw [hm] at hm0 hm1
    rw [hm'] at hm0' hm1'
    apply hne
    rw [Prod.mk.injEq]
    constructor <;> rw [← Int16.toInt_inj] <;> omega

/-- A millisecond read twice, then a clock that goes back. -/
theorem nextIds_unique_rollback : [21237760, 21237761, 25432064].Pairwise (fun a b : Int64 => a < b) :=
  (nextIds_unique (by decide : create 1 2 = .ok ⟨-1, 0, 1, 2⟩)
    (by decide : InRange [1288855200005, 1288855200005, 1288855200003, 1288855200006])
    (by decide : nextIds _ _ 3 = some (_, ⟨6, 0, 1, 2⟩, []))).1

end Cppforge.Gen.SnowflakeGenerator
