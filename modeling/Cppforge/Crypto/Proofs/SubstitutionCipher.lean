import Mathlib.Data.Fintype.EquivFin
import Mathlib.Logic.Equiv.Defs
import Cppforge.Crypto.SubstitutionCipher

namespace Cppforge.Crypto.SubstitutionCipher
open Bytes Function

variable {c : UInt8} {map encode_map_ decode_map_ : Table} {f g : Fin 26 → Fin 26} {s : Text}
  {mapping : List (UInt8 × UInt8)} {rest : List (Fin 26)} {seen : Fin 26 → Bool}
  {cipher : SubstitutionCipher}

section Letters

theorem isupper_iff : isupper c = true ↔ 65 ≤ c.toNat ∧ c.toNat ≤ 90 := by
  simp [isupper, UInt8.le_iff_toNat_le]

theorem islower_iff : islower c = true ↔ 97 ≤ c.toNat ∧ c.toNat ≤ 122 := by
  simp [islower, UInt8.le_iff_toNat_le]

theorem isalpha_iff : isalpha c = true ↔ isupper c = true ∨ islower c = true := by
  rw [isalpha, Bool.or_eq_true]

theorem toNat_toupper (c : UInt8) :
    (toupper c).toNat = if islower c then c.toNat - 32 else c.toNat := by
  rw [toupper]
  split
  · rename_i h
    rw [islower_iff] at h
    rw [UInt8.toNat_sub_of_le]
    · rfl
    · exact UInt8.le_iff_toNat_le.mpr (Nat.le_trans (by decide) h.1)
  · rfl

/-- The subtraction tells the letters of one case from all other characters. -/
theorem offset_eq {first : UInt8} (hfirst : first.toNat < 128) : (offset c first < 26 ↔
      first.toNat ≤ c.toNat ∧ c.toNat < min 128 (first.toNat + 26)) ∧
    (first.toNat ≤ c.toNat → c.toNat < 128 → offset c first = c.toNat - first.toNat) := by
  have hc : c.toInt8.toInt =
      if 2 * c.toNat < 2 ^ 8 then (c.toNat : Int) else c.toNat - (2 ^ 8 : Nat) :=
    BitVec.toInt_eq_toNat_cond c.toBitVec
  have hf : first.toInt8.toInt = first.toNat :=
    (BitVec.toInt_eq_toNat_cond first.toBitVec).trans
      (if_pos (show 2 * first.toNat < 2 ^ 8 by omega))
  have hlt := c.toNat_lt
  rw [offset, hc, hf]
  split <;> omega

theorem toNat_kAlphabet (i : Fin 26) : (kAlphabet i).toNat = 65 + i :=
  UInt8.toNat_ofNat_of_lt' (show 65 + i.val < 256 by omega)

theorem toupper_eq (h : isalpha c = true) : toupper c = kAlphabet (letter c) := by
  have hupper := toNat_toupper c
  rw [isalpha_iff, isupper_iff, islower_iff] at h
  apply UInt8.toNat_inj.mp
  rw [toNat_kAlphabet, letter, Fin.val_ofNat]
  split at hupper
  · rename_i hlow
    rw [islower_iff] at hlow
    omega
  · rename_i hlow
    rw [islower_iff] at hlow
    omega

theorem offset_toupper (h : isalpha c = true) : offset (toupper c) 65 = letter c := by
  rw [toupper_eq h]
  have hlt := (letter c).isLt
  have hnat := toNat_kAlphabet (letter c)
  have hoff := (offset_eq (c := kAlphabet (letter c)) (by decide : (65 : UInt8).toNat < 128)).2
  simp only [UInt8.reduceToNat] at hoff
  rw [hoff (by omega) (by omega)]
  omega

theorem isalpha_iff_offset : isalpha c = true ↔ offset (toupper c) 65 < 26 := by
  constructor
  · intro h
    rw [offset_toupper h]
    exact (letter c).isLt
  · intro h
    have hoff := (offset_eq (c := toupper c) (by decide : (65 : UInt8).toNat < 128)).1.mp h
    have hupper := toNat_toupper c
    simp only [UInt8.reduceToNat] at hoff
    rw [isalpha_iff, isupper_iff, islower_iff]
    split at hupper
    · rename_i hlow
      rw [islower_iff] at hlow
      omega
    · omega

theorem letter_kAlphabet : ∀ i, isupper (kAlphabet i) = true ∧ letter (kAlphabet i) = i ∧
    isupper (tolower (kAlphabet i)) = false ∧ islower (tolower (kAlphabet i)) = true ∧
      letter (tolower (kAlphabet i)) = i := by
  decide

theorem upper_toupper (h : isalpha (toupper c) = true) :
    toupper c = kAlphabet (letter (toupper c)) := by
  rw [← toupper_eq h]
  have hupper := toNat_toupper c
  have hagain := toNat_toupper (toupper c)
  apply UInt8.toNat_inj.mp
  split at hagain
  · rename_i hlow
    rw [islower_iff] at hlow
    split at hupper
    · rename_i hlow'
      rw [islower_iff] at hlow'
      omega
    · rename_i hlow'
      rw [islower_iff] at hlow'
      omega
  · exact hagain.symm

end Letters

section Substitution

/-- A letter is mapped within its case, everything else stays. -/
def substitute (f : Fin 26 → Fin 26) (c : UInt8) : UInt8 :=
  if isupper c then kAlphabet (f (letter c))
  else if islower c then tolower (kAlphabet (f (letter c)))
  else c

theorem kAlphabet_letter (h : isupper c = true) : kAlphabet (letter c) = c := by
  rw [← toupper_eq (isalpha_iff.mpr (.inl h)), toupper, if_neg]
  rw [isupper_iff] at h
  rw [islower_iff]
  omega

theorem tolower_letter (h : islower c = true) : tolower (kAlphabet (letter c)) = c := by
  rw [tolower, if_pos (letter_kAlphabet _).1, ← toupper_eq (isalpha_iff.mpr (.inr h)), toupper,
    if_pos h]
  exact UInt8.sub_add_cancel c 32

theorem substitute_id (c : UInt8) : substitute id c = c := by
  rw [substitute]
  split
  · rename_i h
    exact kAlphabet_letter h
  · split
    · rename_i h
      exact tolower_letter h
    · rfl

theorem substitute_comp (f g : Fin 26 → Fin 26) (c : UInt8) :
    substitute g (substitute f c) = substitute (g ∘ f) c := by
  obtain ⟨hup, hletter, hnot, hlow, hletter'⟩ := letter_kAlphabet (f (letter c))
  rw [substitute.eq_def f, substitute.eq_def (g ∘ f)]
  split
  · rw [substitute, if_pos hup, hletter]
    rfl
  · rename_i hc
    split
    · rw [substitute, hnot, if_neg Bool.false_ne_true, if_pos hlow, hletter']
      rfl
    · rename_i hc'
      rw [substitute, if_neg hc, if_neg hc']

theorem transformChar_eq (f : Fin 26 → Fin 26) (c : UInt8) :
    transformChar c (kAlphabet ∘ f) = some (substitute f c) := by
  rw [transformChar, substitute]
  by_cases hup : isupper c = true
  · have halpha := isalpha_iff.mpr (.inl hup)
    have hoff := offset_toupper halpha
    rw [toupper_eq halpha, kAlphabet_letter hup] at hoff
    rw [if_neg (by simp [halpha]), if_pos hup, if_pos hup, entry, hoff, dif_pos (letter c).isLt]
    rfl
  · by_cases hlow : islower c = true
    · have halpha := isalpha_iff.mpr (.inr hlow)
      have hnat := congrArg UInt8.toNat (toupper_eq halpha)
      rw [toNat_toupper, if_pos hlow, toNat_kAlphabet] at hnat
      have hrange := islower_iff.mp hlow
      have hoff : offset c 97 = letter c := by
        have h := (offset_eq (c := c) (by decide : (97 : UInt8).toNat < 128)).2
        simp only [UInt8.reduceToNat] at h
        rw [h (by omega) (by omega)]
        omega
      rw [if_neg (by simp [halpha]), if_neg hup, if_neg hup, if_pos hlow, entry, hoff,
        dif_pos (letter c).isLt]
      rfl
    · have halpha : ¬ isalpha c = true := by
        rw [isalpha_iff]
        exact fun h => h.elim hup hlow
      rw [if_pos halpha, if_neg hup, if_neg hlow]

theorem mapM_transformChar (f : Fin 26 → Fin 26) (s : Text) :
    s.mapM (fun c => transformChar c (kAlphabet ∘ f)) = some (s.map (substitute f)) := by
  induction s with
  | nil => rfl
  | cons c s ih =>
    rw [List.mapM_cons, transformChar_eq, ih]
    rfl

/-- The tables are those of a permutation of the alphabet. -/
def Permutes (cipher : SubstitutionCipher) (σ : Equiv.Perm (Fin 26)) : Prop :=
  cipher.encode_map_ = kAlphabet ∘ σ ∧ cipher.decode_map_ = kAlphabet ∘ σ.symm

/-- Each of the two functions undoes the other. -/
def Inverse (cipher : SubstitutionCipher) : Prop :=
  ∀ s, (∃ t, cipher.encrypt s = some t ∧ cipher.decrypt t = some s) ∧
    ∃ t, cipher.decrypt s = some t ∧ cipher.encrypt t = some s

theorem Permutes.inverse {σ : Equiv.Perm (Fin 26)} (h : Permutes cipher σ) : Inverse cipher := by
  have hundo : ∀ (τ : Equiv.Perm (Fin 26)) (s : Text),
      (s.map (substitute τ)).map (substitute τ.symm) = s := by
    intro τ s
    rw [List.map_map, List.map_congr_left (g := id), List.map_id]
    intro c _
    rw [comp_apply, substitute_comp, Equiv.symm_comp_self, substitute_id]
    rfl
  intro s
  simp only [encrypt, decrypt, h.1, h.2, mapM_transformChar]
  have hback := hundo σ.symm s
  rw [σ.symm_symm] at hback
  exact ⟨⟨_, rfl, by rw [hundo]⟩, ⟨_, rfl, by rw [hback]⟩⟩

end Substitution

section Tables

/-- The letters of a table are in upper case. -/
def Upper (map : Table) : Prop := ∀ i, isalpha (map i) = true → map i = kAlphabet (letter (map i))

theorem upper_kAlphabet : Upper kAlphabet := by
  intro i _
  rw [(letter_kAlphabet i).2.1]

theorem Upper.update (h : Upper map) (i : Fin 26) (c : UInt8) :
    Upper (update map i (toupper c)) := by
  intro j hj
  by_cases hji : j = i
  · subst hji
    rw [update_self] at hj ⊢
    exact upper_toupper hj
  · rw [update_of_ne hji] at hj ⊢
    exact h j hj

theorem override_upper (h : Upper map) {map' : Table} (hrun : override map mapping = some map') :
    Upper map' := by
  induction mapping generalizing map with
  | nil =>
    obtain rfl := Option.some.inj hrun
    exact h
  | cons pair mapping ih =>
    rw [override, List.foldlM_cons, Option.bind_eq_bind, Option.bind_eq_some_iff] at hrun
    obtain ⟨map₁, hset, hrest⟩ := hrun
    rw [setEntry] at hset
    split at hset
    · obtain rfl := Option.some.inj hset
      exact ih (h.update _ _) hrest
    · exact nomatch hset

/-- The overrides stay inside the table exactly when all keys are letters. -/
theorem override_isSome_iff (map : Table) (mapping : List (UInt8 × UInt8)) :
    (∃ map', override map mapping = some map') ↔ ∀ pair ∈ mapping, isalpha pair.1 = true := by
  induction mapping generalizing map with
  | nil => simp [override]
  | cons pair mapping ih =>
    rw [override, List.foldlM_cons, List.forall_mem_cons, setEntry]
    by_cases hkey : isalpha pair.1 = true
    · rw [dif_pos (isalpha_iff_offset.mp hkey), Option.bind_eq_bind, Option.bind_some]
      simp only [hkey, true_and]
      exact ih _
    · rw [dif_neg (mt isalpha_iff_offset.mpr hkey)]
      simp [hkey]

/-- What the loop has filled when it succeeds. -/
structure Reversed (encode_map_ : Table) (rest : List (Fin 26)) (seen : Fin 26 → Bool)
    (decode_map_ result : Table) : Prop where
  alpha : ∀ i ∈ rest, isalpha (encode_map_ i) = true
  nodup : (rest.map fun i => letter (encode_map_ i)).Nodup
  fresh : ∀ i ∈ rest, seen (letter (encode_map_ i)) = false
  filled : ∀ i ∈ rest, result (letter (encode_map_ i)) = kAlphabet i
  kept : ∀ j, (∀ i ∈ rest, letter (encode_map_ i) ≠ j) → result j = decode_map_ j

theorem reverseFrom_cases (encode_map_ : Table) (rest : List (Fin 26)) (seen : Fin 26 → Bool)
    (decode_map_ : Table) :
    (∃ what, reverseFrom encode_map_ rest seen decode_map_ = some (.error what)) ∨
      ∃ result, reverseFrom encode_map_ rest seen decode_map_ = some (.ok result) ∧
        Reversed encode_map_ rest seen decode_map_ result := by
  induction rest generalizing seen decode_map_ with
  | nil => exact .inr ⟨decode_map_, rfl, by simp, by simp, by simp, by simp, by simp⟩
  | cons i rest ih =>
    rw [reverseFrom]
    by_cases halpha : isalpha (encode_map_ i) = true
    · have hlt := isalpha_iff_offset.mp halpha
      have hidx : (⟨offset (toupper (encode_map_ i)) 65, hlt⟩ : Fin 26) = letter (encode_map_ i) :=
        Fin.ext (offset_toupper halpha)
      simp only [halpha, not_true_eq_false, if_false, dif_pos hlt, hidx]
      by_cases hseen : seen (letter (encode_map_ i)) = true
      · rw [if_pos hseen]
        exact .inl ⟨_, rfl⟩
      · rw [if_neg hseen]
        rcases ih (update seen (letter (encode_map_ i)) true)
            (update decode_map_ (letter (encode_map_ i)) (kAlphabet i)) with herror | hok
        · exact .inl herror
        · obtain ⟨result, hrun, h⟩ := hok
          have hother : ∀ j ∈ rest, letter (encode_map_ j) ≠ letter (encode_map_ i) := by
            intro j hj heq
            have hfresh := h.fresh j hj
            rw [heq, update_self] at hfresh
            exact Bool.noConfusion hfresh
          refine .inr ⟨result, hrun, ?_, ?_, ?_, ?_, ?_⟩
          · exact List.forall_mem_cons.mpr ⟨halpha, h.alpha⟩
          · rw [List.map_cons, List.nodup_cons]
            refine ⟨?_, h.nodup⟩
            intro hmem
            obtain ⟨j, hj, heq⟩ := List.mem_map.mp hmem
            exact hother j hj heq
          · refine List.forall_mem_cons.mpr ⟨Bool.eq_false_iff.mpr hseen, ?_⟩
            intro j hj
            have hfresh := h.fresh j hj
            rwa [update_of_ne (hother j hj)] at hfresh
          · refine List.forall_mem_cons.mpr ⟨?_, h.filled⟩
            rw [h.kept _ hother, update_self]
          · intro j hj
            rw [List.forall_mem_cons] at hj
            rw [h.kept j hj.2, update_of_ne hj.1.symm]
    · rw [if_pos halpha]
      exact .inl ⟨_, rfl⟩

theorem Reversed.permutes (hupper : Upper encode_map_) {result : Table}
    (h : Reversed encode_map_ (List.finRange 26) seen decode_map_ result) :
    ∃ σ, Permutes ⟨encode_map_, result⟩ σ := by
  have hinj : Injective fun i => letter (encode_map_ i) := by
    intro i j heq
    exact List.inj_on_of_nodup_map h.nodup (List.mem_finRange i) (List.mem_finRange j) heq
  refine ⟨Equiv.ofBijective _ (Finite.injective_iff_bijective.mp hinj), ?_, ?_⟩
  · funext i
    exact hupper i (h.alpha i (List.mem_finRange i))
  · funext j
    obtain ⟨i, rfl⟩ := (Equiv.ofBijective _ (Finite.injective_iff_bijective.mp hinj)).surjective j
    rw [comp_apply, Equiv.symm_apply_apply]
    exact h.filled i (List.mem_finRange i)

theorem validate_cases (hupper : Upper encode_map_) (decode_map_ : Table) :
    (∃ what, validateAndBuildReverseMap encode_map_ decode_map_ = some (.error what)) ∨
      ∃ cipher σ, validateAndBuildReverseMap encode_map_ decode_map_ = some (.ok cipher) ∧
        Permutes cipher σ := by
  rw [validateAndBuildReverseMap]
  rcases reverseFrom_cases encode_map_ (List.finRange 26) (fun _ => false) decode_map_ with
    herror | hok
  · obtain ⟨what, hrun⟩ := herror
    exact .inl ⟨what, by rw [hrun]; rfl⟩
  · obtain ⟨result, hrun, h⟩ := hok
    obtain ⟨σ, hperm⟩ := h.permutes hupper
    exact .inr ⟨⟨encode_map_, result⟩, σ, by rw [hrun]; rfl, hperm⟩

end Tables

/-- No index is out of range, and the constructor throws or makes a pair of inverses. -/
def SafeInverse (decode_map_ : Table) (mapping : List (UInt8 × UInt8)) : Prop :=
  ∃ out, ofMapping decode_map_ mapping = some out ∧ ∀ cipher, out = .ok cipher → Inverse cipher

/-- The constructor keeps its promise exactly when all keys are letters; the values do not
matter. -/
theorem safeInverse_iff (decode_map_ : Table) (mapping : List (UInt8 × UInt8)) :
    SafeInverse decode_map_ mapping ↔ ∀ pair ∈ mapping, isalpha pair.1 = true := by
  rw [← override_isSome_iff kAlphabet]
  constructor
  · intro h
    obtain ⟨out, hrun, -⟩ := h
    rw [ofMapping, Option.bind_eq_bind, Option.bind_eq_some_iff] at hrun
    obtain ⟨map, hmap, -⟩ := hrun
    exact ⟨map, hmap⟩
  · intro h
    obtain ⟨map, hmap⟩ := h
    have hrun : ofMapping decode_map_ mapping = validateAndBuildReverseMap map decode_map_ := by
      rw [ofMapping, hmap]
      rfl
    rcases validate_cases (override_upper upper_kAlphabet hmap) decode_map_ with herror | hok
    · obtain ⟨what, hvalidate⟩ := herror
      exact ⟨_, hrun.trans hvalidate, fun _ heq => nomatch heq⟩
    · obtain ⟨cipher, σ, hvalidate, hperm⟩ := hok
      refine ⟨_, hrun.trans hvalidate, ?_⟩
      intro cipher' heq
      obtain rfl := Except.ok.inj heq
      exact hperm.inverse

/-- A digit as a key. -/
theorem digit_key_unsafe : ¬ SafeInverse (fun _ => 0) [(49, 65)] := by
  intro h
  obtain ⟨out, hrun, -⟩ := h
  have hnone : ofMapping (fun _ => 0) [(49, 65)] = none := rfl
  rw [hnone] at hrun
  exact nomatch hrun

end Cppforge.Crypto.SubstitutionCipher
