import Cppforge.Lib.Bytes
import Mathlib.Logic.Function.Basic
import Mathlib.Algebra.Group.Int.Defs
import Mathlib.Algebra.Group.Nat.Defs

namespace Cppforge.Auth
open Bytes

section Policy

/-- Password rules. The policy's own attempt limit is never read. -/
structure PasswordPolicy where
  minLength : Nat := 8
  maxLength : Nat := 64
  requireUppercase : Bool := true
  requireLowercase : Bool := true
  requireDigits : Bool := true
  requireSpecial : Bool := true

def isUppercaseChar (c : UInt8) : Bool := decide (65 ≤ c ∧ c ≤ 90)

def isLowercaseChar (c : UInt8) : Bool := decide (97 ≤ c ∧ c ≤ 122)

def isDigitChar (c : UInt8) : Bool := decide (48 ≤ c ∧ c ≤ 57)

/-- `std::ispunct` or `std::isspace` of the "C" locale. -/
def isSpecialChar (c : UInt8) : Bool :=
  decide (33 ≤ c ∧ c ≤ 47 ∨ 58 ≤ c ∧ c ≤ 64 ∨ 91 ≤ c ∧ c ≤ 96 ∨ 123 ≤ c ∧ c ≤ 126) ||
    decide (9 ≤ c ∧ c ≤ 13 ∨ c = 32)

/-- The requirements met so far. -/
structure Flags where
  upper : Bool
  lower : Bool
  digit : Bool
  special : Bool

/-- One character meets at most one open requirement. -/
def Flags.see (f : Flags) (c : UInt8) : Flags :=
  if !f.upper && isUppercaseChar c then { f with upper := true }
  else if !f.lower && isLowercaseChar c then { f with lower := true }
  else if !f.digit && isDigitChar c then { f with digit := true }
  else if !f.special && isSpecialChar c then { f with special := true }
  else f

def Flags.met (f : Flags) : Bool := f.upper && f.lower && f.digit && f.special

def Flags.scan (f : Flags) : Text → Flags
  | [] => f
  | c :: cs => if (f.see c).met then f.see c else (f.see c).scan cs

def PasswordPolicy.validate (policy : PasswordPolicy) (password : Text) : Bool :=
  if password.length < policy.minLength || policy.maxLength < password.length then false
  else (Flags.scan ⟨!policy.requireUppercase, !policy.requireLowercase, !policy.requireDigits,
    !policy.requireSpecial⟩ password).met

/-- Letters, digits, underscores and hyphens, 3 to 20 of them. -/
def validateUsername (username : Text) : Bool :=
  username.all (fun c => isUppercaseChar c || isLowercaseChar c || isDigitChar c || c == 95 || c == 45)
    && decide (3 ≤ username.length) && decide (username.length ≤ 20)

end Policy

section Credentials

/-- `time_point::min()`; time points are nanoseconds since the clock's epoch.
The distance to it does not fit the clock's 64 bits, but the lock test looks at
it only once a failure has been recorded. -/
def timePointMin : Int := -2 ^ 63

structure UserCredentials where
  username : Text
  hashedPassword : Text
  salt : Text
  failedAttempts : Nat := 0
  lastFailedAttempt : Int := timePointMin
deriving DecidableEq

namespace UserCredentials

def incrementFailedAttempts (u : UserCredentials) (now : Int) : UserCredentials :=
  { u with failedAttempts := u.failedAttempts + 1, lastFailedAttempt := now }

def resetFailedAttempts (u : UserCredentials) : UserCredentials :=
  { u with failedAttempts := 0, lastFailedAttempt := timePointMin }

def defaultMaxAttempts : Nat := 5

/-- In minutes. -/
def defaultLockoutDuration : Int := 5

/-- `duration_cast<minutes>` of a difference of time points; it truncates. -/
def minutesBetween (now last : Int) : Int := (now - last).tdiv (60 * 10 ^ 9)

def isLockedFor (u : UserCredentials) (now : Int) (lockoutDuration : Int)
    (maxAttempts : Nat) : Bool :=
  decide (maxAttempts ≤ u.failedAttempts) &&
    decide (minutesBetween now u.lastFailedAttempt < lockoutDuration)

def isLocked (u : UserCredentials) (now : Int) : Bool :=
  u.isLockedFor now defaultLockoutDuration defaultMaxAttempts

end UserCredentials

/-- Comparison that always runs to the end of the shorter string. -/
def secureCompare (a b : Text) : Bool :=
  ((a.zip b).foldl (fun result p => result ||| (p.1 ^^^ p.2)) 0 |||
    (if a.length ≠ b.length then 1 else 0)) == (0 : UInt8)

def colon : UInt8 := 58

def parseCredentialsData (credentialsData : Text) : Option (Text × Text) :=
  match credentialsData.dropWhile (fun c => c != colon) with
  | [] => none
  | _ :: hashedPassword => some (credentialsData.takeWhile (fun c => c != colon), hashedPassword)

def formatCredentialsData (salt hashedPassword : Text) : Text := salt ++ [colon] ++ hashedPassword

end Credentials

/-- The `users` table: stored text by username. -/
abbrev PasswordSQL := Text → Option Text

namespace PasswordSQL
variable (t : PasswordSQL)

/-- Statements bind their parameters as C strings. A `none` is the answer `false`. -/
def registerUser (username password : Text) : Option PasswordSQL :=
  if username.isEmpty || password.isEmpty then none
  else match t (cStr username) with
    | some _ => none
    | none => some (Function.update t (cStr username) (some (cStr password)))

def resetPassword (username newPassword : Text) : Option PasswordSQL :=
  if username.isEmpty || newPassword.isEmpty then none
  else match t (cStr username) with
    | none => none
    | some _ => some (Function.update t (cStr username) (some (cStr newPassword)))

def deleteUser (username : Text) : Option PasswordSQL :=
  if username.isEmpty then none
  else match t (cStr username) with
    | none => none
    | some _ => some (Function.update t (cStr username) none)

def userExists (username : Text) : Bool :=
  if username.isEmpty then false else (t (cStr username)).isSome

/-- `SELECT username`: the row's key comes back, not its stored text. -/
def getUser (username : Text) : Text :=
  if username.isEmpty then []
  else match t (cStr username) with
    | none => []
    | some _ => cStr username

end PasswordSQL

structure AuthResult where
  success : Bool
  errorMessage : String
  user : Option UserCredentials
deriving DecidableEq

namespace AuthResult

def successResult (user : UserCredentials) : AuthResult := ⟨true, "", some user⟩

def failureResult (error : String) : AuthResult := ⟨false, error, none⟩

end AuthResult

/-- The message of an `AuthenticationException`. -/
abbrev AuthenticationException := String

structure UserAuthenticator where
  users : Text → Option UserCredentials
  passwordPolicy : PasswordPolicy
  passwordSql : PasswordSQL

/-- The state a call leaves behind, and what it returns or throws. -/
abbrev Outcome := UserAuthenticator × Except AuthenticationException Bool

namespace UserAuthenticator

/-- The constructor, on an existing database. -/
def create (db : PasswordSQL) (policy : PasswordPolicy) : UserAuthenticator :=
  ⟨fun _ => none, policy, db⟩

def setUser (s : UserAuthenticator) (username : Text) (user : UserCredentials) : UserAuthenticator :=
  { s with users := Function.update s.users username (some user) }

def loadUserFromDb (s : UserAuthenticator) (username : Text) : Option UserCredentials :=
  if !s.passwordSql.userExists username then none
  else
    let credentialsData := s.passwordSql.getUser username
    if credentialsData.isEmpty then none
    else match parseCredentialsData credentialsData with
      | none => none
      | some (salt, hashedPassword) => some { username, hashedPassword, salt }

/-- The cache fill at the start of `authenticate`. -/
def cacheUser (s : UserAuthenticator) (username : Text) : UserAuthenticator :=
  match s.users username with
  | some _ => s
  | none =>
    match s.loadUserFromDb username with
    | some user => s.setUser username user
    | none => s

section Calls
variable (hashPassword : Text → Text → Text)

/-- New credentials over a fresh salt, stored in both places. `none` when the
statement `sql` changed no row. -/
def store (s : UserAuthenticator) (username password salt : Text)
    (sql : Text → Text → Option PasswordSQL) : Option UserAuthenticator :=
  let hashedPassword := hashPassword password salt
  match sql username (formatCredentialsData salt hashedPassword) with
  | none => none
  | some t => some ({ s with passwordSql := t }.setUser username { username, hashedPassword, salt })

def registerUser (s : UserAuthenticator) (username password salt : Text) : Outcome :=
  if !validateUsername username then
    (s, .error ("Invalid username format. Use alphanumeric characters, underscores, " ++
      "or hyphens (3-20 characters)."))
  else if (s.users username).isSome || s.passwordSql.userExists username then
    (s, .error "Username already exists")
  else if !s.passwordPolicy.validate password then
    (s, .error "Password does not meet security requirements")
  else match s.store hashPassword username password salt s.passwordSql.registerUser with
    | none => (s, .error "Failed to register user in database")
    | some s => (s, .ok true)

/-- `now` is the clock at the lock test, `later` at the record of a failure. -/
def authenticate (s : UserAuthenticator) (username password : Text) (now later : Int) :
    UserAuthenticator × AuthResult :=
  let s := s.cacheUser username
  match s.users username with
  | none => (s, .failureResult "User not found")
  | some user =>
    if user.isLocked now then
      (s, .failureResult
        "Account is locked due to too many failed attempts. Please try again later.")
    else if secureCompare (hashPassword password user.salt) user.hashedPassword then
      (s.setUser username user.resetFailedAttempts, .successResult user.resetFailedAttempts)
    else
      (s.setUser username (user.incrementFailedAttempts later), .failureResult "Invalid password")

/-- The second critical section of `change_password`. -/
def installPassword (s : UserAuthenticator) (username newPassword salt : Text) : Outcome :=
  if (s.users username).isNone then (s, .error "User not found")
  else if !s.passwordPolicy.validate newPassword then
    (s, .error "New password does not meet security requirements")
  else match s.store hashPassword username newPassword salt s.passwordSql.resetPassword with
    | none => (s, .error "Failed to update password in database")
    | some s => (s, .ok true)

def changePassword (s : UserAuthenticator) (username currentPassword newPassword salt : Text)
    (now later : Int) : Outcome :=
  let (s, authResult) := s.authenticate hashPassword username currentPassword now later
  if !authResult.success then
    (s, .error ("Current password is incorrect: " ++ authResult.errorMessage))
  else s.installPassword hashPassword username newPassword salt

def resetPassword (s : UserAuthenticator) (username newPassword salt : Text) : Outcome :=
  if !s.passwordPolicy.validate newPassword then
    (s, .error "New password does not meet security requirements")
  else match s.store hashPassword username newPassword salt s.passwordSql.resetPassword with
    | none => (s, .error "Failed to reset password in database")
    | some s => (s, .ok true)

end Calls

def userExists (s : UserAuthenticator) (username : Text) : Bool :=
  (s.users username).isSome || s.passwordSql.userExists username

def deleteUser (s : UserAuthenticator) (username : Text) : Outcome :=
  match s.passwordSql.deleteUser username with
  | none => (s, .ok false)
  | some t =>
    ({ s with users := Function.update s.users username none, passwordSql := t }, .ok true)

end UserAuthenticator

end Cppforge.Auth
