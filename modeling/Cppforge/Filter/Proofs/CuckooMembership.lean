import Cppforge.Filter.Filters
import Cppforge.Lib.Splice
import Mathlib.Data.Sym.Sym2
import Mathlib.Data.Multiset.AddSub
import Mathlib.Data.Multiset.MapFold
import Mathlib.Tactic.Abel

namespace Cppforge.Filter.CuckooFilter

variable {T : Type} {cfg : CuckooConfig T} {bs bs' : List Bucket} {idx fp n : UInt64} {E : UInt64}
  {b b' : Bucket}

section Buckets

/-- The fingerprints a bucket counts. -/
def held (b : Bucket) : List UInt64 := b.entries.take b.count

/-- The counted fingerprints stand in front, and empty slots behind them. -/
structure Packed (E : UInt64) (b : Bucket) : Prop where
  entries : b.entries = held b ++ List.replicate (E.toNat - b.count) 0
  length : b.entries.length = E.toNat
  room : b.count ≤ E.toNat
  nonzero : ∀ x ∈ held b, x ≠ 0

theorem Packed.length_held (h : Packed E b) : (held b).length = b.count :=
  List.length_take_of_le (h.length ▸ h.room)

/-- A bucket put together from its fingerprints. -/
theorem packed_mk (fps : List UInt64) (hk : fps.length ≤ E.toNat) (hn : ∀ x ∈ fps, x ≠ 0)
    (k : Nat) :
    Packed E ⟨fps ++ List.replicate (E.toNat - fps.length) 0, fps.length, k⟩ ∧
      held ⟨fps ++ List.replicate (E.toNat - fps.length) 0, fps.length, k⟩ = fps := by
  have hheld : held ⟨fps ++ List.replicate (E.toNat - fps.length) 0, fps.length, k⟩ = fps :=
    List.take_left
  refine ⟨⟨by rw [hheld], ?_, hk, ?_⟩, hheld⟩
  · simp only [List.length_append, List.length_replicate]
    omega
  · rw [hheld]
    exact hn

theorem hasSlot_iff : b.hasSlot E = true ↔ b.count < E.toNat := by simp [Bucket.hasSlot]

theorem add_spec (h : Packed E b) (hE : E.toNat ≤ 255) (hslot : b.hasSlot E = true)
    (hfp : fp ≠ 0) : Packed E (b.add fp) ∧ held (b.add fp) = held b ++ [fp] := by
  rw [hasSlot_iff] at hslot
  have hlen := h.length_held
  have hlen' : (held b ++ [fp]).length = b.count + 1 := by
    rw [List.length_append, hlen, List.length_singleton]
  have hk : E.toNat - b.count = E.toNat - (held b ++ [fp]).length + 1 := by omega
  have hentries : b.entries =
      held b ++ 0 :: List.replicate (E.toNat - (held b ++ [fp]).length) 0 := by
    conv_lhs => rw [h.entries, hk, List.replicate_succ]
  have hfind : b.entries.findIdx? (fun e => e == 0) = some b.count := by
    have hnone : (held b).findIdx? (fun e => e == 0) = none :=
      List.findIdx?_eq_none_iff.mpr (fun x hx => by simpa using h.nonzero x hx)
    rw [hentries, List.findIdx?_append, hnone, List.findIdx?_cons]
    simp [hlen]
  have hadd : b.add fp = ⟨(held b ++ [fp]) ++
      List.replicate (E.toNat - (held b ++ [fp]).length) 0, (held b ++ [fp]).length,
      b.displacementCounter⟩ := by
    simp only [Bucket.add, hfind]
    congr 1
    · rw [hentries, Splice.set_mid hlen, List.append_assoc]
      rfl
    · omega
  rw [hadd]
  apply packed_mk
  · omega
  · intro x hx
    rcases List.mem_append.mp hx with hx | hx
    · exact h.nonzero x hx
    · rw [List.mem_singleton.mp hx]
      exact hfp

theorem contains_iff : b.contains fp = true ↔ fp ∈ held b := by simp [Bucket.contains, held]

theorem remove_none (h : fp ∉ held b) : b.remove fp = none := by
  have hnone : (b.entries.take b.count).findIdx? (fun e => e == fp) = none := by
    refine List.findIdx?_eq_none_iff.mpr ?_
    intro x hx
    rw [beq_eq_false_iff_ne]
    rintro rfl
    exact h hx
  simp [Bucket.remove, hnone]

/-- The last fingerprint takes the place of the one removed. -/
theorem remove_spec (h : Packed E b) (hfp : fp ∈ held b) :
    ∃ b', b.remove fp = some b' ∧ Packed E b' ∧ (held b).Perm (fp :: held b') := by
  have hlen := h.length_held
  cases hi : (held b).findIdx? (fun e => e == fp) with
  | none =>
    have := List.findIdx?_eq_none_iff.mp hi fp hfp
    simp at this
  | some i =>
    obtain ⟨hlt, hat, _⟩ := List.findIdx?_eq_some_iff_getElem.mp hi
    obtain ⟨A, x, B, hsplit, hA⟩ := Splice.pick hlt
    have hx : x = fp := by
      have hget : (held b)[i]? = some x := by
        rw [hsplit]
        exact Splice.getElem?_mid hA
      rw [List.getElem?_eq_getElem hlt] at hget
      have hxb := Option.some.inj hget
      rw [hxb] at hat
      simpa using hat
    subst hx
    have hrun : b.remove x = some { b with
        entries := (b.entries.set i (b.entries.getD (b.count - 1) 0)).set (b.count - 1) 0
        count := b.count - 1 } := by
      rw [held] at hi
      simp [Bucket.remove, hi]
    have hcount : b.count = A.length + 1 + B.length := by
      rw [← hlen, hsplit]
      simp only [List.length_append, List.length_cons]
      omega
    have hroom := h.room
    have hentries : b.entries = A ++ x :: (B ++ List.replicate (E.toNat - b.count) 0) := by
      conv_lhs => rw [h.entries, hsplit]
      simp
    -- `fps` is left in front, whether or not the removed fingerprint was the last
    have hfinish : ∀ fps, (b.entries.set i (b.entries.getD (b.count - 1) 0)).set (b.count - 1) 0 =
          fps ++ 0 :: List.replicate (E.toNat - b.count) 0 → fps.length = b.count - 1 →
        (held b).Perm (x :: fps) →
        ∃ b', b.remove x = some b' ∧ Packed E b' ∧ (held b).Perm (x :: held b') := by
      intro fps hset hfps hperm
      have hz : E.toNat - fps.length = E.toNat - b.count + 1 := by omega
      obtain ⟨hpacked, hheld⟩ := packed_mk (E := E) fps (by omega)
        (fun z hz => h.nonzero z (hperm.mem_iff.mpr (List.mem_cons_of_mem _ hz)))
        b.displacementCounter
      rw [hset, ← List.replicate_succ, ← hz, ← hfps] at hrun
      exact ⟨_, hrun, hpacked, by rw [hheld]; exact hperm⟩
    rcases List.eq_nil_or_concat B with rfl | ⟨B, y, rfl⟩
    · have hlast : b.count - 1 = i := by simp [hcount, hA]
      apply hfinish A
      · rw [hlast, hentries, Splice.set_mid hA, Splice.set_mid hA]
        rfl
      · omega
      · rw [hsplit]
        exact List.perm_append_singleton x A
    · rw [List.concat_eq_append] at *
      have hAB : (A ++ y :: B).length = b.count - 1 := by
        rw [hcount]
        simp only [List.length_append, List.length_cons, List.length_nil]
        omega
      have hxB : (A ++ x :: B).length = b.count - 1 := by
        rw [← hAB]
        simp
      have hform : ∀ z, A ++ z :: (B ++ [y] ++ List.replicate (E.toNat - b.count) 0) =
          (A ++ z :: B) ++ y :: List.replicate (E.toNat - b.count) 0 := by
        intro z
        simp
      apply hfinish (A ++ y :: B)
      · have hget : b.entries.getD (b.count - 1) 0 = y := by
          rw [List.getD_eq_getElem?_getD, hentries, hform, Splice.getElem?_mid hxB]
          rfl
        rw [hget, hentries, Splice.set_mid hA, hform, Splice.set_mid hAB]
      · exact hAB
      · rw [hsplit]
        refine List.perm_middle.trans (List.Perm.cons x ?_)
        exact (List.perm_append_singleton y B).append_left A

/-- The victim leaves its slot to another fingerprint. -/
theorem replace_spec (h : Packed E b) (hfp : fp ≠ 0) {i : Nat} {old : UInt64} {k : Nat}
    (hi : i < b.count) (hold : b.entries[i]? = some old) :
    Packed E ⟨b.entries.set i fp, b.count, k⟩ ∧ old ≠ 0 ∧
      (old :: held ⟨b.entries.set i fp, b.count, k⟩).Perm (fp :: held b) := by
  have hlen := h.length_held
  obtain ⟨A, x, B, hsplit, hA⟩ := Splice.pick (hlen.symm ▸ hi)
  have hentries : b.entries = A ++ x :: (B ++ List.replicate (E.toNat - b.count) 0) := by
    conv_lhs => rw [h.entries, hsplit]
    simp
  have hx : x = old := by
    rw [hentries, Splice.getElem?_mid hA] at hold
    exact Option.some.inj hold
  subst hx
  have hcount : (A ++ fp :: B).length = b.count := by
    rw [← hlen, hsplit]
    simp
  have hroom := h.room
  obtain ⟨hpacked, hheld⟩ := packed_mk (E := E) (A ++ fp :: B) (hcount.symm ▸ hroom) (by
    intro z hz
    rcases List.mem_append.mp hz with hz | hz
    · exact h.nonzero z (by rw [hsplit]; exact List.mem_append_left _ hz)
    · rcases List.mem_cons.mp hz with rfl | hz
      · exact hfp
      · exact h.nonzero z (by rw [hsplit]; simp [hz])) k
  have hset : b.entries.set i fp =
      (A ++ fp :: B) ++ List.replicate (E.toNat - (A ++ fp :: B).length) 0 := by
    rw [hentries, Splice.set_mid hA, hcount]
    simp
  rw [hset, ← hcount]
  refine ⟨hpacked, h.nonzero x (by rw [hsplit]; simp), ?_⟩
  rw [hheld, hsplit]
  refine (List.Perm.cons x List.perm_middle).trans ((List.Perm.swap fp x _).trans ?_)
  exact List.Perm.cons fp List.perm_middle.symm

end Buckets

section Homes

theorem xor_mask (i x m : UInt64) (hi : i &&& m = i) :
    (((i ^^^ (x &&& m)) &&& m) ^^^ (x &&& m)) &&& m = i := by
  conv_rhs => rw [← hi]
  apply UInt64.toBitVec_inj.mp
  simp only [UInt64.toBitVec_and, UInt64.toBitVec_xor]
  apply BitVec.eq_of_getLsbD_eq
  intro j _
  simp only [BitVec.getLsbD_and, BitVec.getLsbD_xor]
  cases i.toBitVec.getLsbD j <;> cases x.toBitVec.getLsbD j <;> cases m.toBitVec.getLsbD j <;> rfl

/-- The mask has been applied to the index. -/
def Masked (n idx : UInt64) : Prop := idx &&& (n - 1) = idx

theorem masked_and (n x : UInt64) : Masked n (x &&& (n - 1)) := by
  rw [Masked, UInt64.and_assoc, UInt64.and_self]

theorem masked_bucket1 (n hash : UInt64) : Masked n (computeBucket1 n hash) := masked_and _ _

theorem masked_bucket2 (n idx fp : UInt64) : Masked n (computeBucket2 n idx fp) := masked_and _ _

/-- The alternate bucket of the alternate bucket is the first one. -/
theorem computeBucket2_twice (h : Masked n idx) :
    computeBucket2 n (computeBucket2 n idx fp) fp = idx := xor_mask _ _ _ h

/-- A fingerprint with its two buckets, in no order: all that is known of a key. -/
def home (n idx fp : UInt64) : Sym2 UInt64 × UInt64 := (s(idx, computeBucket2 n idx fp), fp)

theorem home_alternate (h : Masked n idx) :
    home n (computeBucket2 n idx fp) fp = home n idx fp := by
  rw [home, computeBucket2_twice h, Sym2.eq_swap, home]

theorem home_eq {i fp' : UInt64} (h : home n i fp' = home n idx fp) :
    fp' = fp ∧ (i = idx ∨ i = computeBucket2 n idx fp) := by
  obtain ⟨hpair, rfl⟩ := Prod.mk.inj h
  refine ⟨rfl, ?_⟩
  rcases Sym2.eq_iff.mp hpair with ⟨hi, _⟩ | ⟨hi, _⟩
  · exact .inl hi
  · exact .inr hi

/-- What the buckets hold, from the index `i` on. -/
def homesFrom (n : UInt64) (i : Nat) : List Bucket → Multiset (Sym2 UInt64 × UInt64)
  | [] => 0
  | b :: bs => (↑(held b) : Multiset UInt64).map (home n (UInt64.ofNat i)) + homesFrom n (i + 1) bs

def homes (n : UInt64) (bs : List Bucket) : Multiset (Sym2 UInt64 × UInt64) := homesFrom n 0 bs

theorem homesFrom_append (n : UInt64) (i : Nat) (A B : List Bucket) :
    homesFrom n i (A ++ B) = homesFrom n i A + homesFrom n (i + A.length) B := by
  induction A generalizing i with
  | nil => simp [homesFrom]
  | cons b A ih =>
    have hidx : i + 1 + A.length = i + (A.length + 1) := by omega
    rw [List.cons_append, homesFrom, ih, homesFrom, List.length_cons, hidx, ← add_assoc]

theorem homes_set (h : bs[idx.toNat]? = some b) (b' : Bucket) :
    homes n (bs.set idx.toNat b') + (↑(held b) : Multiset UInt64).map (home n idx) =
      homes n bs + (↑(held b') : Multiset UInt64).map (home n idx) := by
  obtain ⟨hlt, hget⟩ := List.getElem?_eq_some_iff.mp h
  obtain ⟨A, x, B, hsplit, hA⟩ := Splice.pick hlt
  have hx : x = b := by
    rw [hsplit, Splice.getElem?_mid hA] at h
    exact Option.some.inj h
  subst hx
  have hidx : UInt64.ofNat (0 + A.length) = idx := by rw [Nat.zero_add, hA, UInt64.ofNat_toNat]
  rw [homes, homes, hsplit, Splice.set_mid hA, homesFrom_append, homesFrom_append, homesFrom,
    homesFrom, hidx]
  abel

theorem mem_homes {p : Sym2 UInt64 × UInt64} {i : Nat} (h : p ∈ homesFrom n i bs) :
    ∃ j b fp, bs[j]? = some b ∧ fp ∈ held b ∧ p = home n (UInt64.ofNat (i + j)) fp := by
  induction bs generalizing i with
  | nil => simp [homesFrom] at h
  | cons b bs ih =>
    rcases Multiset.mem_add.mp h with h | h
    · obtain ⟨fp, hfp, rfl⟩ := Multiset.mem_map.mp h
      exact ⟨0, b, fp, rfl, hfp, rfl⟩
    · obtain ⟨j, b', fp, hj, hfp, rfl⟩ := ih h
      exact ⟨j + 1, b', fp, hj, hfp, by rw [Nat.add_right_comm, Nat.add_assoc]⟩

theorem card_homesFrom (n : UInt64) (i : Nat) (bs : List Bucket) :
    (homesFrom n i bs).card = (bs.map (fun b => (held b).length)).sum := by
  induction bs generalizing i with
  | nil => rfl
  | cons b bs ih => simp [homesFrom, ih]

end Homes

section Moves

def AllPacked (E : UInt64) (bs : List Bucket) : Prop := ∀ b ∈ bs, Packed E b

theorem AllPacked.set (h : AllPacked E bs) (hb : Packed E b) (i : Nat) :
    AllPacked E (bs.set i b) := by
  intro x hx
  rcases List.mem_or_eq_of_mem_set hx with hx | rfl
  · exact h x hx
  · exact hb

/-- A fingerprint is added to a bucket. -/
theorem homes_add (h : AllPacked E bs) (hE : E.toNat ≤ 255) (hb : bs[idx.toNat]? = some b)
    (hslot : b.hasSlot E = true) (hfp : fp ≠ 0) :
    AllPacked E (bs.set idx.toNat (b.add fp)) ∧
      homes n (bs.set idx.toNat (b.add fp)) = homes n bs + {home n idx fp} := by
  obtain ⟨hpacked, hheld⟩ := add_spec (h b (List.mem_of_getElem? hb)) hE hslot hfp
  refine ⟨h.set hpacked _, ?_⟩
  have hset := homes_set (n := n) hb (b.add fp)
  rw [hheld, ← Multiset.coe_add, Multiset.map_add, Multiset.coe_singleton, Multiset.map_singleton,
    ← add_assoc, add_right_comm] at hset
  exact add_right_cancel hset

/-- A kick exchanges the carried fingerprint for that of the victim. -/
theorem homes_kick {e : TrailEntry} (h : AllPacked E bs) (hE : E.toNat ≤ 255) (hfp : fp ≠ 0)
    (hkick : kick bs idx fp = some (bs', e)) :
    AllPacked E bs' ∧ e.oldFp ≠ 0 ∧ bs'.length = bs.length ∧
      homes n bs' + {home n idx e.oldFp} = homes n bs + {home n idx fp} := by
  simp only [kick, Option.bind_eq_bind, Option.bind_eq_some_iff, Option.pure_def,
    Option.some.injEq, Prod.mk.injEq] at hkick
  obtain ⟨b, hb, ⟨b₁, victim⟩, hvictim, old, hold, hbs', rfl⟩ := hkick
  have hpacked := h b (List.mem_of_getElem? hb)
  have hroom := hpacked.room
  simp only [Bucket.randomIndex] at hvictim
  split at hvictim
  · cases hvictim
  · rename_i hcount
    cases hvictim
    have hlt := Nat.mod_lt ((b.displacementCounter + 1) % 2 ^ 64) (Nat.pos_of_ne_zero hcount)
    have hsmall : (b.displacementCounter + 1) % 2 ^ 64 % b.count % 256 =
        (b.displacementCounter + 1) % 2 ^ 64 % b.count := Nat.mod_eq_of_lt (by omega)
    simp only [hsmall] at hold hbs' ⊢
    set i := (b.displacementCounter + 1) % 2 ^ 64 % b.count
    obtain ⟨hpacked', hold', hperm⟩ := replace_spec hpacked hfp
      (k := (b.displacementCounter + 1) % 2 ^ 64) hlt hold
    have hwrite : bs' = bs.set idx.toNat
        ⟨b.entries.set i fp, b.count, (b.displacementCounter + 1) % 2 ^ 64⟩ := by
      rw [← hbs', write]
      have hin := (List.getElem?_eq_some_iff.mp hb).1
      apply List.ext_getElem?
      intro j
      rw [List.getElem?_modify]
      by_cases hj : idx.toNat = j
      · subst hj
        simp [hin]
      · simp [hj]
    refine ⟨hwrite ▸ h.set hpacked' _, hold', by rw [hwrite, List.length_set], ?_⟩
    have hset := homes_set (n := n) hb
      ⟨b.entries.set i fp, b.count, (b.displacementCounter + 1) % 2 ^ 64⟩
    have hmaps := congrArg (Multiset.map (home n idx)) (Multiset.coe_eq_coe.mpr hperm)
    rw [← Multiset.cons_coe, ← Multiset.cons_coe, Multiset.map_cons, Multiset.map_cons,
      ← Multiset.singleton_add, ← Multiset.singleton_add] at hmaps
    rw [← hwrite] at hset
    have hsum : homes n bs' + {home n idx old} +
        (↑(held b) : Multiset UInt64).map (home n idx) =
        homes n bs + {home n idx fp} + (↑(held b) : Multiset UInt64).map (home n idx) := by
      rw [add_right_comm, hset, add_assoc, add_assoc, add_comm _ {home n idx old}, hmaps]
    exact add_right_cancel hsum

/-- A displacement that ends well has stored one fingerprint more. -/
theorem homes_displace {kicks : Nat} {trail : List TrailEntry}
    (h : AllPacked cfg.entriesPerBucket bs) (hE : cfg.entriesPerBucket.toNat ≤ 255)
    (hfp : fp ≠ 0) (hidx : Masked n idx)
    (hrun : displace cfg n kicks bs idx fp trail = some (bs', true)) :
    AllPacked cfg.entriesPerBucket bs' ∧ bs'.length = bs.length ∧
      homes n bs' = homes n bs + {home n idx fp} := by
  induction kicks generalizing bs idx fp trail with
  | zero =>
    simp [displace] at hrun
  | succ kicks ih =>
    simp only [displace, Option.bind_eq_bind, Option.bind_eq_some_iff] at hrun
    obtain ⟨⟨bs₁, e⟩, hkick, alt, halt, hrun⟩ := hrun
    obtain ⟨hpacked, hold, hlen, hhomes⟩ := homes_kick (n := n) h hE hfp hkick
    have hback : home n (computeBucket2 n idx e.oldFp) e.oldFp = home n idx e.oldFp :=
      home_alternate hidx
    split at hrun
    · rename_i hslot
      cases hrun
      obtain ⟨hpacked', hhomes'⟩ := homes_add (n := n) hpacked hE halt hslot hold
      exact ⟨hpacked', by rw [List.length_set, hlen], by rw [hhomes', hback, hhomes]⟩
    · obtain ⟨hpacked', hlen', hhomes'⟩ := ih hpacked hold (masked_bucket2 _ _ _) hrun
      exact ⟨hpacked', hlen'.trans hlen, by rw [hhomes', hback, hhomes]⟩

end Moves

section Keys
variable {f f' : CuckooFilter} {live : List T} {key : T}

def keyHome (cfg : CuckooConfig T) (n : UInt64) (key : T) : Sym2 UInt64 × UInt64 :=
  home n (computeBucket1 n (cfg.hash key)) (extractFingerprint cfg (cfg.hash key))

/-- The filter holds the fingerprints of the keys `live`, each in one of its two buckets. -/
structure Holds (cfg : CuckooConfig T) (f : CuckooFilter) (live : List T) : Prop where
  packed : AllPacked cfg.entriesPerBucket f.buckets
  length : f.buckets.length = f.numBuckets.toNat
  homes : homes f.numBuckets f.buckets = (↑live : Multiset T).map (keyHome cfg f.numBuckets)
  count : f.elementCount = live.length

theorem extractFingerprint_ne_zero (cfg : CuckooConfig T) (hash : UInt64) :
    extractFingerprint cfg hash ≠ 0 := by
  simp only [extractFingerprint]
  split
  · exact nofun
  · rename_i h
    simpa using h

/-- One fingerprint more, in either bucket of a key. -/
theorem Holds.insert (h : Holds cfg f live) (hlen : bs.length = f.buckets.length)
    (hpacked : AllPacked cfg.entriesPerBucket bs)
    (hhomes : CuckooFilter.homes f.numBuckets bs =
      CuckooFilter.homes f.numBuckets f.buckets + {keyHome cfg f.numBuckets key}) :
    Holds cfg ⟨bs, f.numBuckets, f.elementCount + 1⟩ (key :: live) := by
  refine ⟨hpacked, hlen.trans h.length, ?_, by rw [h.count]; rfl⟩
  rw [hhomes, h.homes, ← Multiset.cons_coe, Multiset.map_cons, ← Multiset.singleton_add, add_comm]

theorem insert_true (h : Holds cfg f live) (hE : cfg.entriesPerBucket.toNat ≤ 255)
    (hrun : f.insert cfg key = some (f', true)) : Holds cfg f' (key :: live) := by
  have hfp := extractFingerprint_ne_zero cfg (cfg.hash key)
  have hmask := masked_bucket1 f.numBuckets (cfg.hash key)
  have halt : home f.numBuckets (computeBucket2 f.numBuckets
      (computeBucket1 f.numBuckets (cfg.hash key)) (extractFingerprint cfg (cfg.hash key)))
      (extractFingerprint cfg (cfg.hash key)) = keyHome cfg f.numBuckets key := home_alternate hmask
  simp only [CuckooFilter.insert, Option.bind_eq_bind, Option.bind_eq_some_iff] at hrun
  obtain ⟨b1, hb1, hrun⟩ := hrun
  split at hrun
  · rename_i hslot
    cases hrun
    obtain ⟨hpacked, hhomes⟩ := homes_add (n := f.numBuckets) h.packed hE hb1 hslot hfp
    exact h.insert List.length_set hpacked hhomes
  · obtain ⟨b2, hb2, hrun⟩ := Option.bind_eq_some_iff.mp hrun
    split at hrun
    · rename_i hslot
      cases hrun
      obtain ⟨hpacked, hhomes⟩ := homes_add (n := f.numBuckets) h.packed hE hb2 hslot hfp
      rw [halt] at hhomes
      exact h.insert List.length_set hpacked hhomes
    · obtain ⟨⟨bs, inserted⟩, hdisplace, hrun⟩ := Option.bind_eq_some_iff.mp hrun
      simp only [Option.pure_def, Option.some.injEq, Prod.mk.injEq] at hrun
      obtain ⟨rfl, rfl⟩ := hrun
      obtain ⟨hpacked, hlen, hhomes⟩ := homes_displace h.packed hE hfp hmask hdisplace
      exact h.insert hlen hpacked hhomes

/-- The fingerprint of a live key is in one of its buckets. -/
theorem Holds.stored (h : Holds cfg f live) (hk : key ∈ live) :
    ∃ b1 b2, f.buckets[(computeBucket1 f.numBuckets (cfg.hash key)).toNat]? = some b1 ∧
      f.buckets[(computeBucket2 f.numBuckets (computeBucket1 f.numBuckets (cfg.hash key))
        (extractFingerprint cfg (cfg.hash key))).toNat]? = some b2 ∧
      (extractFingerprint cfg (cfg.hash key) ∈ held b1 ∨
        extractFingerprint cfg (cfg.hash key) ∈ held b2) := by
  have hmem : keyHome cfg f.numBuckets key ∈ homesFrom f.numBuckets 0 f.buckets := by
    have hin : keyHome cfg f.numBuckets key ∈ CuckooFilter.homes f.numBuckets f.buckets := by
      rw [h.homes]
      exact Multiset.mem_map_of_mem _ hk
    exact hin
  obtain ⟨j, b, fp, hj, hfp, he⟩ := mem_homes hmem
  rw [Nat.zero_add] at he
  obtain ⟨rfl, hidx⟩ := home_eq he.symm
  have hlt := (List.getElem?_eq_some_iff.mp hj).1
  have hjnat : (UInt64.ofNat j).toNat = j := by
    apply UInt64.toNat_ofNat_of_lt
    have := f.numBuckets.toNat_lt
    rw [h.length] at hlt
    exact Nat.lt_trans hlt this
  have hin : ∀ x : UInt64, ∃ b', f.buckets[(x &&& (f.numBuckets - 1)).toNat]? = some b' := by
    intro x
    have hx : (x &&& (f.numBuckets - 1)).toNat < f.buckets.length := by
      rw [h.length] at hlt ⊢
      have hle : (x &&& (f.numBuckets - 1)).toNat ≤ (f.numBuckets - 1).toNat := by
        rw [UInt64.toNat_and]
        exact Nat.and_le_right
      have hone : (f.numBuckets - 1).toNat = f.numBuckets.toNat - 1 := by
        apply UInt64.toNat_sub_of_le
        rw [UInt64.le_iff_toNat_le]
        exact Nat.lt_of_le_of_lt (Nat.zero_le j) hlt
      omega
    exact ⟨_, List.getElem?_eq_getElem hx⟩
  obtain ⟨b1, hb1⟩ := hin (cfg.hash key >>> 16)
  obtain ⟨b2, hb2⟩ := hin (computeBucket1 f.numBuckets (cfg.hash key) ^^^
    (hashFingerprint (extractFingerprint cfg (cfg.hash key)) &&& (f.numBuckets - 1)))
  refine ⟨b1, b2, hb1, hb2, ?_⟩
  rcases hidx with hidx | hidx
  · left
    have hat : f.buckets[(computeBucket1 f.numBuckets (cfg.hash key)).toNat]? = some b := by
      rw [← hidx, hjnat, hj]
    rw [computeBucket1, hb1] at hat
    cases hat
    exact hfp
  · right
    have hat : f.buckets[(computeBucket2 f.numBuckets (computeBucket1 f.numBuckets (cfg.hash key))
        (extractFingerprint cfg (cfg.hash key))).toNat]? = some b := by
      rw [← hidx, hjnat, hj]
    rw [computeBucket2, hb2] at hat
    cases hat
    exact hfp

theorem contains_live (h : Holds cfg f live) (hk : key ∈ live) :
    f.contains cfg key = some true := by
  obtain ⟨b1, b2, hb1, hb2, hstored⟩ := h.stored hk
  by_cases h1 : b1.contains (extractFingerprint cfg (cfg.hash key)) = true
  · simp [CuckooFilter.contains, hb1, h1]
  · have h2 := hstored.resolve_left (fun hm => h1 (contains_iff.mpr hm))
    simp [CuckooFilter.contains, hb1, hb2, contains_iff.mpr h2]

/-- A fingerprint is removed from a bucket that holds it. -/
theorem homes_remove (h : AllPacked E bs) (hb : bs[idx.toNat]? = some b) (hfp : fp ∈ held b) :
    ∃ b', b.remove fp = some b' ∧ AllPacked E (bs.set idx.toNat b') ∧
      homes n (bs.set idx.toNat b') + {home n idx fp} = homes n bs := by
  obtain ⟨b', hremove, hpacked, hperm⟩ := remove_spec (h b (List.mem_of_getElem? hb)) hfp
  refine ⟨b', hremove, h.set hpacked _, ?_⟩
  have hset := homes_set (n := n) hb b'
  rw [Multiset.coe_eq_coe.mpr hperm, ← Multiset.cons_coe, Multiset.map_cons,
    ← Multiset.singleton_add, ← add_assoc] at hset
  exact add_right_cancel hset

variable [DecidableEq T]

/-- One fingerprint less, of those of a key. -/
theorem Holds.erase (h : Holds cfg f live) (hk : key ∈ live)
    (hlen : bs.length = f.buckets.length) (hpacked : AllPacked cfg.entriesPerBucket bs)
    (hhomes : CuckooFilter.homes f.numBuckets bs + {keyHome cfg f.numBuckets key} =
      CuckooFilter.homes f.numBuckets f.buckets) :
    Holds cfg ⟨bs, f.numBuckets, f.elementCount - 1⟩ (live.erase key) := by
  refine ⟨hpacked, hlen.trans h.length, ?_, by rw [h.count, List.length_erase_of_mem hk]⟩
  have hperm := Multiset.coe_eq_coe.mpr (List.perm_cons_erase hk)
  rw [h.homes, hperm, ← Multiset.cons_coe, Multiset.map_cons, ← Multiset.singleton_add,
    add_comm] at hhomes
  exact add_left_cancel hhomes

theorem remove_live (h : Holds cfg f live) (hk : key ∈ live) :
    ∃ f', f.remove cfg key = some (f', true) ∧ Holds cfg f' (live.erase key) := by
  obtain ⟨b1, b2, hb1, hb2, hstored⟩ := h.stored hk
  have halt : home f.numBuckets (computeBucket2 f.numBuckets
      (computeBucket1 f.numBuckets (cfg.hash key)) (extractFingerprint cfg (cfg.hash key)))
      (extractFingerprint cfg (cfg.hash key)) = keyHome cfg f.numBuckets key :=
    home_alternate (masked_bucket1 _ _)
  by_cases h1 : extractFingerprint cfg (cfg.hash key) ∈ held b1
  · obtain ⟨b', hremove, hpacked, hhomes⟩ := homes_remove (n := f.numBuckets) h.packed hb1 h1
    exact ⟨_, by simp [CuckooFilter.remove, hb1, hremove], h.erase hk List.length_set hpacked hhomes⟩
  · obtain ⟨b', hremove, hpacked, hhomes⟩ := homes_remove (n := f.numBuckets) h.packed hb2
      (hstored.resolve_left h1)
    rw [halt] at hhomes
    exact ⟨_, by simp [CuckooFilter.remove, hb1, remove_none h1, hb2, hremove],
      h.erase hk List.length_set hpacked hhomes⟩

end Keys

section Wrapping

/-- One bucket with `k` copies of the fingerprint 1, its counter a `uint8_t`. -/
def piled (E : UInt64) (k : Nat) : CuckooFilter :=
  ⟨[⟨List.replicate k 1 ++ List.replicate (E.toNat - k) 0, k % 256, 0⟩], 1, k⟩

theorem create_piled (size : FingerprintSize) (hE : 256 ≤ E.toNat) (hash : T → UInt64) :
    create ⟨E, size, hash⟩ 0 = some (piled E 0) := by
  have hne : (E == 0) = false := by
    rw [beq_eq_false_iff_ne]
    rintro rfl
    exact absurd hE (by decide)
  have hone : (E - 1).toNat = E.toNat - 1 := by
    apply UInt64.toNat_sub_of_le
    rw [UInt64.le_iff_toNat_le]
    exact Nat.le_trans (by decide) hE
  have hneeded : ((0 : UInt64) + 0 / 20 + E - 1) / E = 0 := by
    apply UInt64.toNat_inj.mp
    rw [UInt64.toNat_div, show (0 : UInt64) + 0 / 20 + E - 1 = E - 1 by simp, hone]
    exact Nat.div_eq_of_lt (by omega)
  simp only [create, hne, Bool.false_eq_true, if_false, hneeded]
  simp [nextPowerOf2, piled]

theorem insert_piled (size : FingerprintSize) (hE : 256 ≤ E.toNat) {k : Nat} (hk : k < 256)
    (key : T) :
    (piled E k).insert ⟨E, size, fun _ => 0⟩ key = some (piled E (k + 1), true) := by
  have hfp : extractFingerprint (⟨E, size, fun _ => 0⟩ : CuckooConfig T) 0 = 1 := by
    simp [extractFingerprint]
  have hslot : (k % 256) < E.toNat := Nat.lt_of_lt_of_le (Nat.mod_lt _ (by decide)) hE
  have hzeros : List.replicate (E.toNat - k) (0 : UInt64) =
      0 :: List.replicate (E.toNat - (k + 1)) 0 := by
    rw [← List.replicate_succ]
    congr 1
    omega
  have hfind : (List.replicate k (1 : UInt64) ++ List.replicate (E.toNat - k) 0).findIdx?
      (fun e => e == 0) = some k := by
    have hnone : (List.replicate k (1 : UInt64)).findIdx? (fun e => e == 0) = none := by
      refine List.findIdx?_eq_none_iff.mpr ?_
      intro x hx
      rw [List.eq_of_mem_replicate hx]
      rfl
    rw [List.findIdx?_append, hnone, hzeros, List.findIdx?_cons]
    simp
  have hadd : (⟨List.replicate k 1 ++ List.replicate (E.toNat - k) 0, k % 256, 0⟩ : Bucket).add 1 =
      ⟨List.replicate (k + 1) 1 ++ List.replicate (E.toNat - (k + 1)) 0, (k + 1) % 256, 0⟩ := by
    simp only [Bucket.add, hfind]
    congr 1
    · rw [hzeros, Splice.set_mid (List.length_replicate), List.replicate_succ', List.append_assoc]
      rfl
    · omega
  have hbucket : computeBucket1 1 0 = 0 := rfl
  simp [CuckooFilter.insert, piled, hfp, hbucket, Bucket.hasSlot, hslot, hadd]

theorem run_piled (size : FingerprintSize) (hE : 256 ≤ E.toNat) (key : T) {j k : Nat}
    (hk : j + k ≤ 256) :
    (piled E j).run ⟨E, size, fun _ => 0⟩ (List.replicate k (.insert key)) =
      some (piled E (j + k), List.replicate k true) := by
  induction k generalizing j with
  | zero => rfl
  | succ k ih =>
    have hrest := ih (j := j + 1) (by omega)
    simp only [List.replicate_succ, run, apply, insert_piled size hE (show j < 256 by omega),
      Option.bind_eq_bind, Option.bind_some, hrest]
    rw [Nat.add_right_comm, Nat.add_assoc]
    rfl

/-- The 256 copies of a key are counted as none. -/
theorem contains_piled (E : UInt64) (size : FingerprintSize) (key : T) :
    (piled E 256).contains ⟨E, size, fun _ => 0⟩ key = some false := by
  have hfp : extractFingerprint (⟨E, size, fun _ => 0⟩ : CuckooConfig T) 0 = 1 := by
    simp [extractFingerprint]
  have hbucket1 : computeBucket1 1 0 = 0 := rfl
  have hbucket2 : computeBucket2 1 0 1 = 0 := rfl
  rw [piled, Nat.mod_self]
  generalize List.replicate 256 (1 : UInt64) ++ _ = entries
  simp [CuckooFilter.contains, hfp, hbucket1, hbucket2, Bucket.contains]

end Wrapping

section Runs
variable {f f₀ : CuckooFilter}

theorem homesFrom_empty (n : UInt64) (i : Nat) (h : ∀ b ∈ bs, held b = []) :
    homesFrom n i bs = 0 := by
  induction bs generalizing i with
  | nil => rfl
  | cons b bs ih =>
    rw [homesFrom, h b List.mem_cons_self, ih _ (fun x hx => h x (List.mem_cons_of_mem _ hx))]
    rfl

theorem packed_empty (E : UInt64) (k : Nat) :
    Packed E ⟨List.replicate E.toNat 0, 0, k⟩ ∧ held ⟨List.replicate E.toNat 0, 0, k⟩ = [] :=
  packed_mk (E := E) [] (Nat.zero_le _) (fun _ hx => nomatch hx) k

theorem holds_clear {live : List T} (h : Holds cfg f live) : Holds cfg f.clear [] := by
  have hempty : ∀ b ∈ f.clear.buckets, Packed cfg.entriesPerBucket b ∧ held b = [] := by
    intro b hb
    obtain ⟨x, hx, rfl⟩ := List.mem_map.mp hb
    rw [(h.packed x hx).length]
    exact packed_empty cfg.entriesPerBucket x.displacementCounter
  refine ⟨fun b hb => (hempty b hb).1, ?_, homesFrom_empty _ _ (fun b hb => (hempty b hb).2), rfl⟩
  rw [clear, List.length_map]
  exact h.length

theorem holds_create {capacity : UInt64} (h : create cfg capacity = some f) : Holds cfg f [] := by
  simp only [create] at h
  split at h
  · cases h
  · cases h
    have hempty := packed_empty cfg.entriesPerBucket 0
    refine ⟨?_, List.length_replicate, homesFrom_empty _ _ ?_, rfl⟩
    · intro b hb
      rw [List.eq_of_mem_replicate hb]
      exact hempty.1
    · intro b hb
      rw [List.eq_of_mem_replicate hb]
      exact hempty.2

/-- The slots of a bucket that are not empty. -/
def occupied (b : Bucket) : Nat := b.entries.countP (fun e => e != 0)

theorem Packed.occupied_eq (h : Packed E b) : occupied b = (held b).length := by
  rw [occupied, h.entries, List.countP_append]
  have hfront : (held b).countP (fun e => e != 0) = (held b).length :=
    List.countP_eq_length.mpr (fun x hx => by simpa using h.nonzero x hx)
  rw [hfront]
  simp [List.countP_replicate]

theorem Holds.elementCount_eq {live : List T} (h : Holds cfg f live) :
    f.elementCount = (f.buckets.map occupied).sum := by
  have hmap : f.buckets.map occupied = f.buckets.map (fun b => (held b).length) :=
    List.map_congr_left (fun b hb => (h.packed b hb).occupied_eq)
  have hcard := congrArg Multiset.card h.homes
  rw [CuckooFilter.homes, card_homesFrom, Multiset.card_map, Multiset.coe_card] at hcard
  rw [h.count, hmap, hcard]

variable [DecidableEq T]

/-- The keys inserted and not removed since, each as often as its inserts outnumber its
removes. -/
def liveAfter (live : List T) : List (Op T) → List T
  | [] => live
  | .insert key :: ops => liveAfter (key :: live) ops
  | .remove key :: ops => liveAfter (live.erase key) ops
  | .clear :: ops => liveAfter [] ops

/-- Every insert returned true, and every remove was of a key inserted more often than removed. -/
def Legal (live : List T) : List (Op T) → List Bool → Prop
  | .insert key :: ops, result :: results => result = true ∧ Legal (key :: live) ops results
  | .remove key :: ops, _ :: results => key ∈ live ∧ Legal (live.erase key) ops results
  | .clear :: ops, _ :: results => Legal [] ops results
  | [], _ => True
  | _ :: _, [] => False

theorem run_holds {ops : List (Op T)} {results : List Bool} {live : List T}
    (h : Holds cfg f₀ live) (hE : cfg.entriesPerBucket.toNat ≤ 255)
    (hrun : f₀.run cfg ops = some (f, results)) (hlegal : Legal live ops results) :
    Holds cfg f (liveAfter live ops) := by
  induction ops generalizing f₀ live results with
  | nil =>
    cases hrun
    exact h
  | cons op ops ih =>
    simp only [run, Option.bind_eq_bind, Option.bind_eq_some_iff, Option.pure_def,
      Option.some.injEq, Prod.mk.injEq] at hrun
    obtain ⟨⟨f₁, r⟩, happly, ⟨f₂, rs⟩, hrest, rfl, rfl⟩ := hrun
    cases op with
    | insert key =>
      obtain ⟨rfl, hlegal⟩ := hlegal
      exact ih (insert_true h hE happly) hrest hlegal
    | remove key =>
      obtain ⟨hk, hlegal⟩ := hlegal
      obtain ⟨f', hremove, hholds⟩ := remove_live h hk
      rw [apply, hremove] at happly
      cases happly
      exact ih hholds hrest hlegal
    | clear =>
      cases happly
      exact ih (holds_clear h) hrest hlegal

/-- No run of legal calls loses a key, and the number of elements is right. -/
def NoFalseNegatives (cfg : CuckooConfig T) : Prop :=
  ∀ capacity f₀ ops f results, create cfg capacity = some f₀ →
    f₀.run cfg ops = some (f, results) → Legal [] ops results →
      (∀ key ∈ liveAfter [] ops, f.contains cfg key = some true) ∧
        f.elementCount = (f.buckets.map occupied).sum

theorem legal_inserts (key : T) (k : Nat) (live : List T) :
    Legal live (List.replicate k (.insert key)) (List.replicate k true) ∧
      (0 < k → key ∈ liveAfter live (List.replicate k (.insert key))) := by
  induction k generalizing live with
  | zero => exact ⟨trivial, fun h => absurd h (Nat.lt_irrefl 0)⟩
  | succ k ih =>
    obtain ⟨hlegal, hmem⟩ := ih (key :: live)
    refine ⟨⟨rfl, hlegal⟩, ?_⟩
    intro _
    cases k with
    | zero => exact List.mem_cons_self
    | succ k => exact hmem (Nat.succ_pos k)

/-- There are no false negatives, whatever the hash, exactly when the entries of a bucket can be
counted in a `uint8_t`. -/
theorem noFalseNegatives_iff [Inhabited T] (E : UInt64) (size : FingerprintSize) :
    (∀ hash : T → UInt64, NoFalseNegatives ⟨E, size, hash⟩) ↔ E ≤ 255 := by
  rw [UInt64.le_iff_toNat_le, show (255 : UInt64).toNat = 255 from rfl]
  constructor
  · intro hall
    apply Nat.le_of_not_lt
    intro hE
    obtain ⟨hlegal, hmem⟩ := legal_inserts (default : T) 256 []
    have hrun := run_piled size hE (default : T) (Nat.le_refl (0 + 256))
    have hkept := (hall _ 0 _ _ _ _ (create_piled size hE _) hrun hlegal).1 default
      (hmem (by decide))
    rw [Nat.zero_add, contains_piled] at hkept
    cases hkept
  · intro hE hash capacity f₀ ops f results hcreate hrun hlegal
    have hholds := run_holds (holds_create hcreate) hE hrun hlegal
    exact ⟨fun key hk => contains_live hholds hk, hholds.elementCount_eq⟩

/-- 256 inserts of one key into buckets of 256 entries. -/
theorem piled_key_lost : ¬ NoFalseNegatives (⟨256, .bits8, fun _ => 0⟩ : CuckooConfig Nat) := by
  intro hall
  obtain ⟨hlegal, hmem⟩ := legal_inserts 7 256 []
  have hE : 256 ≤ (256 : UInt64).toNat := Nat.le_refl _
  have hrun := run_piled .bits8 hE 7 (Nat.le_refl (0 + 256))
  have hkept := (hall 0 _ _ _ _ (create_piled .bits8 hE _) hrun hlegal).1 7 (hmem (by decide))
  rw [Nat.zero_add, contains_piled] at hkept
  cases hkept

end Runs

end Cppforge.Filter.CuckooFilter
