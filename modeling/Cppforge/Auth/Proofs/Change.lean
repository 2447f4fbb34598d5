import Cppforge.Auth.Proofs.Calls

namespace Cppforge.Auth
open Bytes

/-- A `change_password` call between its two critical sections. -/
structure Pending where
  username : Text
  currentPassword : Text
  newPassword : Text
deriving DecidableEq

/-- The shared authenticator, and the clients that hold a verified password. -/
structure System where
  auth : UserAuthenticator
  pending : Nat → Option Pending

/-- One critical section of some client. -/
inductive Event where
  | authenticate (username password : Text) (now later : Int)
  | reset (username newPassword salt : Text)
  | verify (client : Nat) (change : Pending) (now later : Int)
  | install (client : Nat) (salt : Text)

section Interleaving
variable (hashPassword : Text → Text → Text)

/-- `none` when the client is not at that section of its call. -/
def step (s : System) : Event → Option System
  | .authenticate username password now later =>
    some { s with auth := (s.auth.authenticate hashPassword username password now later).1 }
  | .reset username newPassword salt =>
    some { s with auth := (s.auth.resetPassword hashPassword username newPassword salt).1 }
  | .verify client change now later =>
    match s.pending client with
    | some _ => none
    | none =>
      let (auth, result) :=
        s.auth.authenticate hashPassword change.username change.currentPassword now later
      some ⟨auth, if result.success then Function.update s.pending client (some change)
        else s.pending⟩
  | .install client salt =>
    match s.pending client with
    | none => none
    | some change =>
      some ⟨(s.auth.installPassword hashPassword change.username change.newPassword salt).1,
        Function.update s.pending client none⟩

def run (s : System) (events : List Event) : Option System := events.foldlM (step hashPassword) s

end Interleaving

section Proofs
variable {hashPassword : Text → Text → Text}

end Proofs

end Cppforge.Auth
