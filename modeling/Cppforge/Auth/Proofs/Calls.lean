import Cppforge.Auth.Authenticator

namespace Cppforge.Auth
open Bytes

theorem or_fold (l : List (UInt8 × UInt8)) (acc : UInt8) :
    l.foldl (fun result p => result ||| (p.1 ^^^ p.2)) acc = 0 ↔ acc = 0 ∧ ∀ p ∈ l, p.1 = p.2 := by
  induction l generalizing acc with
  | nil => simp
  | cons p l ih =>
    rw [List.foldl_cons, ih, UInt8.or_eq_zero_iff, UInt8.xor_eq_zero_iff, List.forall_mem_cons,
      and_assoc]

theorem zip_agree {a b : Text} (hl : a.length = b.length) :
    (∀ p ∈ a.zip b, p.1 = p.2) ↔ a = b := by
  induction a generalizing b with
  | nil =>
    cases b with
    | nil => simp
    | cons y b => cases hl
  | cons x a ih =>
    cases b with
    | nil => cases hl
    | cons y b =>
      rw [List.zip_cons_cons, List.forall_mem_cons, ih (by simpa using hl), List.cons.injEq]

theorem secureCompare_iff {a b : Text} : secureCompare a b = true ↔ a = b := by
  rw [secureCompare, beq_iff_eq, UInt8.or_eq_zero_iff, or_fold]
  by_cases hl : a.length = b.length
  · simpa [hl] using zip_agree hl
  · have hne : a ≠ b := fun h => hl (congrArg List.length h)
    simp [hl, hne]

/-- What the password check of a cached user comes to. -/
inductive Verdict where
  | locked
  | accepted
  | rejected
deriving DecidableEq

section Spec
variable (hashPassword : Text → Text → Text)

def verdict (user : UserCredentials) (password : Text) (now : Int) : Verdict :=
  if user.isLocked now then .locked
  else if secureCompare (hashPassword password user.salt) user.hashedPassword then .accepted
  else .rejected

/-- The credentials a verdict leaves behind. -/
def UserCredentials.after (user : UserCredentials) (later : Int) : Verdict → UserCredentials
  | .locked => user
  | .accepted => user.resetFailedAttempts
  | .rejected => user.incrementFailedAttempts later

/-- What the caller is told. -/
def Verdict.result (user : UserCredentials) : Verdict → AuthResult
  | .locked => .failureResult
      "Account is locked due to too many failed attempts. Please try again later."
  | .accepted => .successResult user
  | .rejected => .failureResult "Invalid password"

variable {hashPassword}

theorem result_success {user : UserCredentials} {v : Verdict} :
    (v.result user).success = true ↔ v = .accepted := by
  cases v <;> simp [Verdict.result, AuthResult.successResult, AuthResult.failureResult]

/-- Verdicts move the attempt counter only. -/
theorem after_salt (user : UserCredentials) (later : Int) (v : Verdict) :
    (user.after later v).salt = user.salt ∧
      (user.after later v).hashedPassword = user.hashedPassword := by
  cases v <;> exact ⟨rfl, rfl⟩

theorem setUser_users (s : UserAuthenticator) (username : Text) (user : UserCredentials) :
    (s.setUser username user).users username = some user := by
  simp [UserAuthenticator.setUser]

theorem setUser_self {s : UserAuthenticator} {username : Text} {user : UserCredentials}
    (h : s.users username = some user) : s.setUser username user = s := by
  rw [UserAuthenticator.setUser, ← h, Function.update_eq_self]

/-- On a cached user `authenticate` is its verdict, and the table stays out of it. -/
theorem authenticate_cached {s : UserAuthenticator} {username password : Text}
    {user : UserCredentials} {now later : Int} (h : s.users username = some user) :
    s.authenticate hashPassword username password now later =
      (s.setUser username (user.after later (verdict hashPassword user password now)),
        (verdict hashPassword user password now).result
          (user.after later (verdict hashPassword user password now))) := by
  have hc : s.cacheUser username = s := by
    simp only [UserAuthenticator.cacheUser, h]
  simp only [UserAuthenticator.authenticate, hc, h, verdict]
  split
  · simp only [UserCredentials.after, setUser_self h]
    rfl
  · split <;> rfl

/-- A user that can neither be found nor loaded. -/
theorem authenticate_unknown {s : UserAuthenticator} {username password : Text}
    {now later : Int} (h : s.users username = none)
    (hload : s.loadUserFromDb username = none) :
    (s.authenticate hashPassword username password now later).1 = s ∧
      (s.authenticate hashPassword username password now later).2.success = false := by
  have hc : s.cacheUser username = s := by
    simp only [UserAuthenticator.cacheUser, h, hload]
  simp only [UserAuthenticator.authenticate, hc, h, true_and]
  rfl

/-- Both stores after new credentials for `username`. -/
def Stored (hashPassword : Text → Text → Text) (s s' : UserAuthenticator)
    (username password salt : Text) : Prop :=
  (∃ text, s'.passwordSql = Function.update s.passwordSql (cStr username) (some text)) ∧
    s'.passwordPolicy = s.passwordPolicy ∧
    s'.users = Function.update s.users username
      (some ⟨username, hashPassword password salt, salt, 0, timePointMin⟩)

theorem store_stored {s s' : UserAuthenticator} {username password salt : Text}
    {sql : Text → Text → Option PasswordSQL}
    (hsql : ∀ text t, sql username text = some t →
      ∃ text', t = Function.update s.passwordSql (cStr username) (some text'))
    (h : s.store hashPassword username password salt sql = some s') :
    Stored hashPassword s s' username password salt := by
  simp only [UserAuthenticator.store] at h
  split at h
  · cases h
  · rename_i t ht
    cases h
    exact ⟨hsql _ _ ht, rfl, rfl⟩

/-- A call that writes credentials does so whole, or throws and leaves no trace. -/
def StoresOrThrows (hashPassword : Text → Text → Text) (s : UserAuthenticator) (r : Outcome)
    (username password salt : Text) : Prop :=
  (r.2 = .ok true ∧ Stored hashPassword s r.1 username password salt) ∨
    (∃ e, r.2 = .error e) ∧ r.1 = s

theorem sql_registerUser {t t' : PasswordSQL} {username text : Text}
    (h : t.registerUser username text = some t') :
    ∃ text', t' = Function.update t (cStr username) (some text') := by
  simp only [PasswordSQL.registerUser] at h
  split at h
  · cases h
  · split at h
    · cases h
    · cases h
      exact ⟨_, rfl⟩

theorem sql_resetPassword {t t' : PasswordSQL} {username text : Text}
    (h : t.resetPassword username text = some t') : (t (cStr username)).isSome = true ∧
      ∃ text', t' = Function.update t (cStr username) (some text') := by
  simp only [PasswordSQL.resetPassword] at h
  split at h
  · cases h
  · split at h
    · cases h
    · rename_i hrow
      cases h
      exact ⟨by rw [hrow]; rfl, _, rfl⟩

theorem registerUser_spec (s : UserAuthenticator) (username password salt : Text) :
    StoresOrThrows hashPassword s (s.registerUser hashPassword username password salt)
      username password salt := by
  simp only [UserAuthenticator.registerUser]
  split
  · exact .inr ⟨⟨_, rfl⟩, rfl⟩
  · split
    · exact .inr ⟨⟨_, rfl⟩, rfl⟩
    · split
      · exact .inr ⟨⟨_, rfl⟩, rfl⟩
      · split
        · exact .inr ⟨⟨_, rfl⟩, rfl⟩
        · rename_i s' hs
          exact .inl ⟨rfl, store_stored (fun _ _ ht => sql_registerUser ht) hs⟩

theorem registerUser_valid {s : UserAuthenticator} {username password salt : Text}
    (h : (s.registerUser hashPassword username password salt).2 = .ok true) :
    validateUsername username = true := by
  cases hv : validateUsername username with
  | true => rfl
  | false => simp [UserAuthenticator.registerUser, hv] at h

theorem installPassword_spec (s : UserAuthenticator) (username newPassword salt : Text) :
    StoresOrThrows hashPassword s (s.installPassword hashPassword username newPassword salt)
      username newPassword salt := by
  simp only [UserAuthenticator.installPassword]
  split
  · exact .inr ⟨⟨_, rfl⟩, rfl⟩
  · split
    · exact .inr ⟨⟨_, rfl⟩, rfl⟩
    · split
      · exact .inr ⟨⟨_, rfl⟩, rfl⟩
      · rename_i s' hs
        exact .inl ⟨rfl, store_stored (fun _ _ ht => (sql_resetPassword ht).2) hs⟩

theorem resetPassword_spec (s : UserAuthenticator) (username newPassword salt : Text) :
    StoresOrThrows hashPassword s (s.resetPassword hashPassword username newPassword salt)
      username newPassword salt := by
  simp only [UserAuthenticator.resetPassword]
  split
  · exact .inr ⟨⟨_, rfl⟩, rfl⟩
  · split
    · exact .inr ⟨⟨_, rfl⟩, rfl⟩
    · rename_i s' hs
      exact .inl ⟨rfl, store_stored (fun _ _ ht => (sql_resetPassword ht).2) hs⟩

/-- Only a row that is there can be given new credentials. -/
theorem store_row {s s' : UserAuthenticator} {username password salt : Text}
    (h : s.store hashPassword username password salt s.passwordSql.resetPassword = some s') :
    (s.passwordSql (cStr username)).isSome = true := by
  simp only [UserAuthenticator.store] at h
  split at h
  · cases h
  · rename_i t ht
    exact (sql_resetPassword ht).1

theorem installPassword_row {s : UserAuthenticator} {username newPassword salt : Text}
    (h : (s.installPassword hashPassword username newPassword salt).2 = .ok true) :
    (s.passwordSql (cStr username)).isSome = true := by
  simp only [UserAuthenticator.installPassword] at h
  split at h
  · cases h
  · split at h
    · cases h
    · split at h
      · cases h
      · rename_i s' hs
        exact store_row hs

theorem resetPassword_row {s : UserAuthenticator} {username newPassword salt : Text}
    (h : (s.resetPassword hashPassword username newPassword salt).2 = .ok true) :
    (s.passwordSql (cStr username)).isSome = true := by
  simp only [UserAuthenticator.resetPassword] at h
  split at h
  · cases h
  · split at h
    · cases h
    · rename_i s' hs
      exact store_row hs

theorem deleteUser_ok {s : UserAuthenticator} {username : Text}
    (h : (s.deleteUser username).2 = .ok true) :
    (s.deleteUser username).1 =
      { s with
        users := Function.update s.users username none
        passwordSql := Function.update s.passwordSql (cStr username) none } := by
  cases hd : s.passwordSql.deleteUser username with
  | none => simp [UserAuthenticator.deleteUser, hd] at h
  | some t =>
    have ht : t = Function.update s.passwordSql (cStr username) none := by
      simp only [PasswordSQL.deleteUser] at hd
      split at hd
      · cases hd
      · split at hd
        · cases hd
        · exact (Option.some.inj hd).symm
    simp only [UserAuthenticator.deleteUser, hd, ht]

end Spec

section Sample

/-- A salt, and the hashes of three passwords over it. -/
def sampleSalt : Text := [1, 2, 3, 4, 5, 6, 7, 8, 9, 10, 11, 12, 13, 14, 15, 16]

def alpha : Text := ascii "Abcdef1!"

def beta : Text := ascii "Bbcdef1!"

def gamma : Text := ascii "Cbcdef1!"

def sampleHash (password _salt : Text) : Text :=
  if password = alpha then
    [9, 123, 165, 37, 0, 200, 165, 38, 5, 229, 63, 201, 200, 24, 24, 142,
      245, 211, 197, 19, 193, 147, 39, 71, 131, 215, 223, 69, 214, 159, 229, 71]
  else if password = beta then
    [44, 27, 223, 95, 96, 246, 87, 144, 172, 58, 239, 98, 34, 208, 189, 175,
      54, 74, 255, 144, 181, 251, 19, 74, 170, 55, 230, 201, 140, 73, 165, 150]
  else
    [212, 200, 106, 236, 237, 19, 113, 31, 163, 182, 239, 127, 81, 169, 49, 121,
      51, 7, 234, 183, 183, 55, 139, 109, 246, 235, 129, 75, 101, 131, 197, 220]

def bob : Text := ascii "bob"

/-- The authenticator after `bob` registered with the first password. -/
def registered : UserAuthenticator :=
  ((UserAuthenticator.create (fun _ => none) {}).registerUser sampleHash bob alpha sampleSalt).1

theorem registered_ok :
    ((UserAuthenticator.create (fun _ => none) {}).registerUser sampleHash bob alpha
      sampleSalt).2 = .ok true := by
  decide +kernel

end Sample

section Stored
variable {t t' : PasswordSQL} {salt hashedPassword username password : Text}

/-- The text that each parameter of a statement is bound to, its length left to be found. -/
def bindParameters (params : List Text) : List Text := params.map cStr

theorem bindParameters_eq_self {params : List Text} :
    bindParameters params = params ↔ ∀ p ∈ params, NoNul p := by
  induction params with
  | nil => simp [bindParameters]
  | cons p params ih =>
    unfold bindParameters at ih ⊢
    rw [List.map_cons, List.cons.injEq, cStr_eq_self, ih, List.forall_mem_cons]

theorem noNul_formatCredentialsData :
    NoNul (formatCredentialsData salt hashedPassword) ↔ NoNul salt ∧ NoNul hashedPassword := by
  simp [NoNul, formatCredentialsData, colon]

/-- The text splits at its first colon, which is the one between the parts unless the salt has
one. -/
theorem parse_formatCredentialsData :
    parseCredentialsData (formatCredentialsData salt hashedPassword) =
      some (salt, hashedPassword) ↔ colon ∉ salt := by
  constructor
  · intro h hcolon
    unfold parseCredentialsData at h
    split at h
    · cases h
    · rw [Option.some.injEq, Prod.mk.injEq] at h
      rw [← h.1] at hcolon
      simpa using List.mem_takeWhile_imp hcolon
  · intro h
    have hall : ∀ c ∈ salt, (c != colon) = true := by
      intro c hc
      simpa using fun heq : c = colon => h (heq ▸ hc)
    have htake : (salt ++ colon :: hashedPassword).takeWhile (fun c => c != colon) = salt := by
      rw [List.takeWhile_append_of_pos hall]
      simp
    have hdrop : (salt ++ colon :: hashedPassword).dropWhile (fun c => c != colon) =
        colon :: hashedPassword := by
      rw [List.dropWhile_append_of_pos hall]
      simp
    rw [formatCredentialsData, List.append_assoc, List.singleton_append, parseCredentialsData,
      hdrop, htake]

/-- Credentials come back from their text, and the text from the statement that stores it,
exactly where the salt has no colon and neither part a zero byte. -/
theorem stored_credentials_iff (salt hashedPassword : Text) :
    (parseCredentialsData (formatCredentialsData salt hashedPassword) =
        some (salt, hashedPassword) ∧
      bindParameters [formatCredentialsData salt hashedPassword] =
        [formatCredentialsData salt hashedPassword]) ↔
      colon ∉ salt ∧ NoNul salt ∧ NoNul hashedPassword := by
  rw [parse_formatCredentialsData, bindParameters_eq_self, ← noNul_formatCredentialsData]
  simp

/-- A salt that starts with a colon, and a hash that starts with a zero byte. -/
theorem stored_credentials_lost : ∃ salt hashedPassword : Text,
    salt.length = 16 ∧ hashedPassword.length = 32 ∧
    parseCredentialsData (formatCredentialsData salt hashedPassword) ≠
      some (salt, hashedPassword) ∧
    bindParameters [formatCredentialsData salt hashedPassword] = [salt ++ [colon]] :=
  ⟨colon :: List.replicate 15 1, 0 :: List.replicate 31 1, by decide⟩

end Stored

end Cppforge.Auth
