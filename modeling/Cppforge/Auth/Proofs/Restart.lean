import Cppforge.Auth.Proofs.Calls

namespace Cppforge.Auth
open Bytes

/-- A call on the authenticator, with the salt it draws and its clock readings. -/
inductive Call where
  | register (username password salt : Text)
  | authenticate (username password : Text) (now later : Int)
  | change (username currentPassword newPassword salt : Text) (now later : Int)
  | reset (username newPassword salt : Text)
  | delete (username : Text)

section History
variable (hashPassword : Text → Text → Text)

/-- The state after a call that returned `true`; logins count whatever their result. -/
def succeed (s : UserAuthenticator) : Call → Option UserAuthenticator
  | .register username password salt =>
    returned (s.registerUser hashPassword username password salt)
  | .authenticate username password now later =>
    some (s.authenticate hashPassword username password now later).1
  | .change username currentPassword newPassword salt now later =>
    returned (s.changePassword hashPassword username currentPassword newPassword salt now later)
  | .reset username newPassword salt =>
    returned (s.resetPassword hashPassword username newPassword salt)
  | .delete username => returned (s.deleteUser username)
where
  returned (r : Outcome) : Option UserAuthenticator :=
    match r.2 with
    | .ok true => some r.1
    | _ => none

/-- A history of such calls. -/
def history (s : UserAuthenticator) (calls : List Call) : Option UserAuthenticator :=
  calls.foldlM (succeed hashPassword) s

/-- The password and salt last given to each username. -/
abbrev Ledger := Text → Option (Text × Text)

def Ledger.record (ledger : Ledger) : Call → Ledger
  | .register username password salt => Function.update ledger username (some (password, salt))
  | .authenticate .. => ledger
  | .change username _ newPassword salt _ _ =>
    Function.update ledger username (some (newPassword, salt))
  | .reset username newPassword salt => Function.update ledger username (some (newPassword, salt))
  | .delete username => Function.update ledger username none

def ledger (calls : List Call) : Ledger := calls.foldl Ledger.record (fun _ => none)

/-- The cache holds exactly the ledger's credentials, and no key of the table
can be mistaken for stored credentials. -/
structure Coherent (s : UserAuthenticator) (l : Ledger) : Prop where
  keys : ∀ k, (s.passwordSql k).isSome = true → colon ∉ k
  cached : ∀ u user, s.users u = some user →
    ∃ password, l u = some (password, user.salt) ∧
      user.hashedPassword = hashPassword password user.salt
  absent : ∀ u, s.users u = none → l u = none

end History

section Proofs
variable {hashPassword : Text → Text → Text}

theorem returned_eq_some {r : Outcome} {s : UserAuthenticator} :
    succeed.returned r = some s ↔ r.2 = .ok true ∧ r.1 = s := by
  unfold succeed.returned
  split
  · rename_i h
    simp [h]
  · rename_i h
    constructor
    · intro hn
      cases hn
    · intro hr
      exact absurd hr.1 h

theorem colon_not_mem_username {username : Text} (h : validateUsername username = true) :
    colon ∉ username := by
  intro hc
  simp only [validateUsername, Bool.and_eq_true, List.all_eq_true] at h
  have := h.1.1 colon hc
  revert this
  decide

theorem parse_none {text : Text} (h : colon ∉ text) : parseCredentialsData text = none := by
  have hdrop : text.dropWhile (fun c => c != colon) = [] := by
    rw [List.dropWhile_eq_nil_iff]
    intro c hc
    have : c ≠ colon := fun he => h (he ▸ hc)
    simpa using this
  rw [parseCredentialsData, hdrop]

/-- The load path reads the key back, so it never finds credentials. -/
theorem load_none {s : UserAuthenticator}
    (h : ∀ k, (s.passwordSql k).isSome = true → colon ∉ k) (username : Text) :
    s.loadUserFromDb username = none := by
  simp only [UserAuthenticator.loadUserFromDb]
  split
  · rfl
  · rename_i hexists
    split
    · rfl
    · have hrow : (s.passwordSql (cStr username)).isSome = true := by
        simp only [PasswordSQL.userExists] at hexists
        split at hexists
        · simp at hexists
        · simpa [Option.isSome_iff_ne_none] using hexists
      have hget : colon ∉ s.passwordSql.getUser username := by
        simp only [PasswordSQL.getUser]
        split
        · simp
        · split
          · simp
          · exact h _ hrow
      rw [parse_none hget]

/-- One entry of the cache and the ledger is rewritten on both sides. -/
theorem Coherent.update {s s' : UserAuthenticator} {l : Ledger} {username : Text}
    {c : Option UserCredentials} {e : Option (Text × Text)} (h : Coherent hashPassword s l)
    (hkeys : ∀ k, (s'.passwordSql k).isSome = true → colon ∉ k)
    (husers : s'.users = Function.update s.users username c)
    (hc : ∀ user, c = some user → ∃ password, e = some (password, user.salt) ∧
      user.hashedPassword = hashPassword password user.salt)
    (hn : c = none → e = none) : Coherent hashPassword s' (Function.update l username e) := by
  refine ⟨hkeys, ?_, ?_⟩
  · intro u user hu
    rw [husers] at hu
    by_cases huu : u = username
    · subst u
      rw [Function.update_self] at hu ⊢
      exact hc user hu
    · rw [Function.update_of_ne huu] at hu ⊢
      exact h.cached u user hu
  · intro u hu
    rw [husers] at hu
    by_cases huu : u = username
    · subst u
      rw [Function.update_self] at hu ⊢
      exact hn hu
    · rw [Function.update_of_ne huu] at hu ⊢
      exact h.absent u hu

theorem Coherent.keys_update {s : UserAuthenticator} {l : Ledger} {key : Text}
    (h : Coherent hashPassword s l) (row : Option Text) (hkey : row.isSome = true → colon ∉ key) :
    ∀ k, (Function.update s.passwordSql key row k).isSome = true → colon ∉ k := by
  intro k hk
  by_cases hku : k = key
  · subst k
    rw [Function.update_self] at hk
    exact hkey hk
  · rw [Function.update_of_ne hku] at hk
    exact h.keys k hk

theorem Coherent.stored {s s' : UserAuthenticator} {l : Ledger} {username password salt : Text}
    (h : Coherent hashPassword s l) (hs : Stored hashPassword s s' username password salt)
    (hkey : colon ∉ cStr username) :
    Coherent hashPassword s' (Function.update l username (some (password, salt))) := by
  obtain ⟨⟨text, hsql⟩, _, husers⟩ := hs
  refine h.update ?_ husers ?_ ?_
  · rw [hsql]
    exact h.keys_update _ (fun _ => hkey)
  · intro user hu
    cases hu
    exact ⟨password, rfl, rfl⟩
  · intro hu
    cases hu

theorem Coherent.authenticate {s : UserAuthenticator} {l : Ledger}
    (h : Coherent hashPassword s l) (username password : Text) (now later : Int) :
    Coherent hashPassword (s.authenticate hashPassword username password now later).1 l := by
  cases hu : s.users username with
  | none => rwa [(authenticate_unknown hu (load_none h.keys username)).1]
  | some user =>
    rw [authenticate_cached hu, ← Function.update_eq_self username l]
    obtain ⟨hsalt, hhash⟩ := after_salt user later (verdict hashPassword user password now)
    refine h.update h.keys rfl ?_ ?_
    · intro c hc
      cases hc
      rw [hsalt, hhash]
      exact h.cached username user hu
    · intro hc
      cases hc

theorem Coherent.delete {s : UserAuthenticator} {l : Ledger} {username : Text}
    (h : Coherent hashPassword s l) (hok : (s.deleteUser username).2 = .ok true) :
    Coherent hashPassword (s.deleteUser username).1 (Function.update l username none) := by
  rw [deleteUser_ok hok]
  refine h.update ?_ rfl ?_ ?_
  · refine h.keys_update none ?_
    intro hs
    cases hs
  · intro user hu
    cases hu
  · intro _
    rfl

theorem Coherent.written {s : UserAuthenticator} {l : Ledger} {r : Outcome}
    {username password salt : Text} (h : Coherent hashPassword s l)
    (hr : StoresOrThrows hashPassword s r username password salt) (hok : r.2 = .ok true)
    (hkey : colon ∉ cStr username) :
    Coherent hashPassword r.1 (Function.update l username (some (password, salt))) := by
  rcases hr with ⟨_, hs⟩ | ⟨⟨e, he⟩, _⟩
  · exact h.stored hs hkey
  · rw [he] at hok
    cases hok

theorem coherent_succeed {s s' : UserAuthenticator} {l : Ledger} (h : Coherent hashPassword s l)
    (call : Call) (hs : succeed hashPassword s call = some s') :
    Coherent hashPassword s' (l.record call) := by
  cases call with
  | register username password salt =>
    obtain ⟨hok, rfl⟩ := returned_eq_some.mp hs
    have hv := colon_not_mem_username (registerUser_valid hok)
    refine h.written (registerUser_spec ..) hok ?_
    exact fun hc => hv (List.takeWhile_subset _ hc)
  | authenticate username password now later =>
    cases hs
    exact h.authenticate username password now later
  | change username currentPassword newPassword salt now later =>
    obtain ⟨hok, rfl⟩ := returned_eq_some.mp hs
    have ha := h.authenticate username currentPassword now later
    simp only [UserAuthenticator.changePassword] at hok ⊢
    split at hok
    · cases hok
    · rename_i hsucc
      rw [if_neg hsucc]
      exact ha.written (installPassword_spec ..) hok (ha.keys _ (installPassword_row hok))
  | reset username newPassword salt =>
    obtain ⟨hok, rfl⟩ := returned_eq_some.mp hs
    exact h.written (resetPassword_spec ..) hok (h.keys _ (resetPassword_row hok))
  | delete username =>
    obtain ⟨hok, rfl⟩ := returned_eq_some.mp hs
    exact h.delete hok

theorem coherent_history {s s' : UserAuthenticator} {l : Ledger} (h : Coherent hashPassword s l)
    (calls : List Call) (hs : history hashPassword s calls = some s') :
    Coherent hashPassword s' (calls.foldl Ledger.record l) := by
  induction calls generalizing s l with
  | nil =>
    cases hs
    exact h
  | cons call calls ih =>
    simp only [history, List.foldlM_cons] at hs ih
    cases hc : succeed hashPassword s call with
    | none => simp [hc] at hs
    | some s1 =>
      rw [hc] at hs
      exact ih (coherent_succeed h call hc) hs

theorem coherent_create (policy : PasswordPolicy) :
    Coherent hashPassword (.create (fun _ => none) policy) (fun _ => none) := by
  refine ⟨?_, ?_, ?_⟩
  · intro k hk
    cases hk
  · intro u user hu
    cases hu
  · intro u _
    rfl

/-- After a restart nobody can log in: the load path parses the username. -/
theorem restarted_fails {s : UserAuthenticator} {l : Ledger} (h : Coherent hashPassword s l)
    (policy : PasswordPolicy) (u p : Text) (now later : Int) :
    ((UserAuthenticator.create s.passwordSql policy).authenticate hashPassword u p now
      later).2.success = false :=
  (authenticate_unknown rfl (load_none (s := .create s.passwordSql policy) h.keys u)).2

/-- The warm authenticator checks against the ledger. -/
theorem warm_success {s : UserAuthenticator} {l : Ledger} (h : Coherent hashPassword s l)
    {u : Text} (p : Text) (hclean : ∀ user, s.users u = some user → user.failedAttempts = 0)
    (now later : Int) :
    (s.authenticate hashPassword u p now later).2.success = true ↔
      ∃ q salt, l u = some (q, salt) ∧ hashPassword p salt = hashPassword q salt := by
  cases hu : s.users u with
  | none =>
    rw [(authenticate_unknown hu (load_none h.keys u)).2]
    simp [h.absent u hu]
  | some user =>
    obtain ⟨q, hl, hhash⟩ := h.cached u user hu
    have hunlocked : user.isLocked now = false := by
      simp [UserCredentials.isLocked, UserCredentials.isLockedFor, hclean user hu,
        UserCredentials.defaultMaxAttempts]
    have hverdict : verdict hashPassword user p now = .accepted ↔
        hashPassword p user.salt = hashPassword q user.salt := by
      rw [← hhash, ← secureCompare_iff, verdict, hunlocked]
      cases secureCompare (hashPassword p user.salt) user.hashedPassword <;> simp
    rw [authenticate_cached hu, result_success, hverdict]
    constructor
    · intro he
      exact ⟨q, user.salt, hl, he⟩
    · intro hex
      obtain ⟨q', salt, hl', he⟩ := hex
      rw [hl, Option.some.injEq, Prod.mk.injEq] at hl'
      obtain ⟨rfl, rfl⟩ := hl'
      exact he

/-- A restart goes unnoticed by exactly the logins that fail anyway. -/
theorem restart_transparent_iff (policy policy' : PasswordPolicy) (calls : List Call)
    (s : UserAuthenticator)
    (hs : history hashPassword (.create (fun _ => none) policy) calls = some s) (u p : Text)
    (hclean : ∀ user, s.users u = some user → user.failedAttempts = 0)
    (now later now' later' : Int) :
    ((s.authenticate hashPassword u p now later).2.success = true ↔
      ((UserAuthenticator.create s.passwordSql policy').authenticate hashPassword u p now'
        later').2.success = true) ↔
    ∀ q salt, ledger calls u = some (q, salt) → hashPassword p salt ≠ hashPassword q salt := by
  have h := coherent_history (coherent_create policy) calls hs
  rw [restarted_fails h policy' u p now' later', warm_success h p hclean now later]
  constructor
  · intro hiff q salt hl he
    have := hiff.mp ⟨q, salt, hl, he⟩
    cases this
  · intro hall
    constructor
    · intro hex
      obtain ⟨q, salt, hl, he⟩ := hex
      exact absurd he (hall q salt hl)
    · intro hf
      cases hf

theorem registered_history : history sampleHash (.create (fun _ => none) {})
    [.register bob alpha sampleSalt] = some registered := by
  have hs : succeed sampleHash (.create (fun _ => none) {}) (.register bob alpha sampleSalt) =
      some registered :=
    returned_eq_some.mpr ⟨registered_ok, rfl⟩
  simp [history, hs]

theorem restart_transparent_wrong :
    (registered.authenticate sampleHash bob beta 0 0).2.success = true ↔
      ((UserAuthenticator.create registered.passwordSql {}).authenticate sampleHash bob beta 0
        0).2.success = true := by
  refine (restart_transparent_iff {} {} [.register bob alpha sampleSalt] registered
    registered_history bob beta (by decide +kernel) 0 0 0 0).mpr ?_
  intro q salt hl
  have hentry : ledger [.register bob alpha sampleSalt] bob = some (alpha, sampleSalt) := by
    decide +kernel
  rw [hentry, Option.some.injEq, Prod.mk.injEq] at hl
  obtain ⟨rfl, rfl⟩ := hl
  decide +kernel

/-- The registered password logs in before the restart and not after it. -/
theorem restart_forgets :
    history sampleHash (.create (fun _ => none) {}) [.register bob alpha sampleSalt] =
      some registered ∧
    (∀ user, registered.users bob = some user → user.failedAttempts = 0) ∧
    (registered.authenticate sampleHash bob alpha 0 0).2.success = true ∧
    ((UserAuthenticator.create registered.passwordSql {}).authenticate sampleHash bob alpha 0
      0).2.success = false :=
  ⟨registered_history, by decide +kernel, by decide +kernel, by decide +kernel⟩

end Proofs

end Cppforge.Auth
