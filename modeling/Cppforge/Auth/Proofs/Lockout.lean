import Cppforge.Auth.Proofs.Calls
import Mathlib.Data.List.Basic

namespace Cppforge.Auth
open Bytes

/-- One login: the clock at its lock test, and the clock by its end. -/
structure Login where
  password : Text
  now : Int
  later : Int
deriving DecidableEq

/-- The clock never runs backwards, within a login or from one to the next. -/
def Clocked (logins : List Login) : Prop :=
  (∀ a ∈ logins, a.now ≤ a.later) ∧ logins.Pairwise (fun a b => a.later ≤ b.now)

def fiveMinutes : Int := 5 * (60 * 10 ^ 9)

/-- The login overlaps the five minutes from `t` on. -/
def During (t : Int) (a : Login) : Prop := a.now < t + fiveMinutes ∧ t ≤ a.later

instance (t : Int) (a : Login) : Decidable (During t a) :=
  inferInstanceAs (Decidable (_ ∧ _))

section Runs
variable (hashPassword : Text → Text → Text)

/-- A run of logins of one user: the final state, and each login with its result. -/
def logins (u : Text) (s : UserAuthenticator) : List Login →
    UserAuthenticator × List (Login × AuthResult)
  | [] => (s, [])
  | a :: as =>
    let (s, result) := s.authenticate hashPassword u a.password a.now a.later
    let (s, results) := logins u s as
    (s, (a, result) :: results)

/-- The same run on the user's credentials. -/
def verdicts (user : UserCredentials) : List Login → UserCredentials × List (Login × Verdict)
  | [] => (user, [])
  | a :: as =>
    let v := verdict hashPassword user a.password a.now
    let (user, vs) := verdicts (user.after a.later v) as
    (user, (a, v) :: vs)

end Runs

/-- Failures since the last success and the time of the latest, read off the results. -/
def tally (record : Nat × Int) (e : Login × AuthResult) : Nat × Int :=
  if e.2.success then (0, timePointMin)
  else if e.2 = .failureResult "Invalid password" then (record.1 + 1, e.1.later)
  else record

/-- The verdict behind a result. -/
def verdictOf (r : AuthResult) : Verdict :=
  if r.success then .accepted
  else if r = .failureResult "Invalid password" then .rejected
  else .locked

section Proofs
variable {hashPassword : Text → Text → Text}

theorem verdictOf_accepted {r : AuthResult} : verdictOf r = .accepted ↔ r.success = true := by
  unfold verdictOf
  split
  · simp_all
  · split <;> simp_all

theorem verdictOf_rejected {r : AuthResult} :
    verdictOf r = .rejected ↔ r = .failureResult "Invalid password" := by
  unfold verdictOf
  split
  · rename_i h
    constructor
    · intro hv
      cases hv
    · intro hr
      rw [hr] at h
      cases h
  · split <;> simp_all

theorem verdictOf_result (v : Verdict) (user : UserCredentials) : verdictOf (v.result user) = v := by
  cases v with
  | locked => rfl
  | accepted => rfl
  | rejected => rfl

variable (hashPassword) in
/-- The run through `authenticate` is the run of verdicts. -/
theorem logins_cached {s : UserAuthenticator} {u : Text} {user : UserCredentials}
    (h : s.users u = some user) (as : List Login) :
    (logins hashPassword u s as).1.users u = some (verdicts hashPassword user as).1 ∧
      (logins hashPassword u s as).2.map (fun e => (e.1, verdictOf e.2)) =
        (verdicts hashPassword user as).2 := by
  induction as generalizing s user with
  | nil => exact ⟨h, rfl⟩
  | cons a as ih =>
    obtain ⟨hu, hes⟩ := ih (setUser_users s u
      (user.after a.later (verdict hashPassword user a.password a.now)))
    simp only [logins, verdicts, authenticate_cached h, List.map_cons, verdictOf_result, hes]
    exact ⟨hu, trivial⟩

theorem tally_after (user : UserCredentials) (a : Login) (v : Verdict) (r : UserCredentials) :
    tally (user.failedAttempts, user.lastFailedAttempt) (a, v.result r) =
      ((user.after a.later v).failedAttempts, (user.after a.later v).lastFailedAttempt) := by
  cases v with
  | locked => rfl
  | accepted => rfl
  | rejected => rfl

/-- The counter and the time it keeps are those of the checked failures. -/
theorem tally_logins {s : UserAuthenticator} {u : Text} {user : UserCredentials}
    (h : s.users u = some user) (as : List Login) :
    (logins hashPassword u s as).2.foldl tally (user.failedAttempts, user.lastFailedAttempt) =
      ((verdicts hashPassword user as).1.failedAttempts,
        (verdicts hashPassword user as).1.lastFailedAttempt) := by
  induction as generalizing s user with
  | nil => rfl
  | cons a as ih =>
    simp only [logins, verdicts, authenticate_cached h, List.foldl_cons, tally_after]
    exact ih (setUser_users s u _)

variable (hashPassword) in
theorem verdicts_salt (user : UserCredentials) (as : List Login) :
    (verdicts hashPassword user as).1.salt = user.salt ∧
      (verdicts hashPassword user as).1.hashedPassword = user.hashedPassword := by
  induction as generalizing user with
  | nil => exact ⟨rfl, rfl⟩
  | cons a as ih =>
    obtain ⟨hsalt, hhash⟩ := ih (user.after a.later (verdict hashPassword user a.password a.now))
    obtain ⟨hs, hh⟩ := after_salt user a.later (verdict hashPassword user a.password a.now)
    exact ⟨hsalt.trans hs, hhash.trans hh⟩

theorem isLocked_iff {user : UserCredentials} {now : Int} :
    user.isLocked now = true ↔ 5 ≤ user.failedAttempts ∧
      UserCredentials.minutesBetween now user.lastFailedAttempt < 5 := by
  rw [UserCredentials.isLocked, UserCredentials.isLockedFor, Bool.and_eq_true, decide_eq_true_eq,
    decide_eq_true_eq]
  rfl

/-- Less than five minutes apart is fewer than five whole minutes. -/
theorem minutesBetween_lt {now last : Int} (h : now - last < fiveMinutes) (h0 : last ≤ now) :
    UserCredentials.minutesBetween now last < 5 := by
  unfold fiveMinutes at h
  rw [UserCredentials.minutesBetween, Int.tdiv_eq_ediv_of_nonneg (by omega)]
  omega

theorem Clocked.tail {a : Login} {as : List Login} (h : Clocked (a :: as)) : Clocked as :=
  ⟨fun b hb => h.1 b (List.mem_cons_of_mem _ hb), (List.pairwise_cons.mp h.2).2⟩

/-- Past the window nothing is counted any more. -/
theorem window_past (t : Int) {user : UserCredentials} {as : List Login}
    (h : ∀ a ∈ as, t + fiveMinutes ≤ a.now) :
    (verdicts hashPassword user as).2.filter
      (fun e => decide (During t e.1) && decide (e.2 = .rejected)) = [] := by
  induction as generalizing user with
  | nil => rfl
  | cons a as ih =>
    have hnot : ¬ During t a := by
      intro hd
      have := h a List.mem_cons_self
      have := hd.1
      omega
    simp only [verdicts, List.filter_cons, hnot, decide_false, Bool.false_and, Bool.false_eq_true,
      if_false]
    exact ih (fun b hb => h b (List.mem_cons_of_mem _ hb))

variable (hashPassword) in
/-- With `k` failures of the window already counted, at most `5 - k` more follow. -/
theorem window_count (t : Int) {user : UserCredentials} {as : List Login}
    (hclock : Clocked as) {k : Nat} (hk : k ≤ 5) (hfail : k ≤ user.failedAttempts)
    (hrecent : 0 < k → t ≤ user.lastFailedAttempt ∧ ∀ a ∈ as, user.lastFailedAttempt ≤ a.now)
    (hno : ∀ e ∈ (verdicts hashPassword user as).2, During t e.1 → e.2 ≠ .accepted) :
    ((verdicts hashPassword user as).2.filter
      (fun e => decide (During t e.1) && decide (e.2 = .rejected))).length + k ≤ 5 := by
  induction as generalizing user k with
  | nil => simpa [verdicts] using hk
  | cons a as ih =>
    have hle := hclock.1 a List.mem_cons_self
    have hnext : ∀ b ∈ as, a.later ≤ b.now := (List.pairwise_cons.mp hclock.2).1
    by_cases hpast : t + fiveMinutes ≤ a.now
    · have hall : ∀ b ∈ a :: as, t + fiveMinutes ≤ b.now := by
        intro b hb
        rcases List.mem_cons.mp hb with rfl | hb
        · exact hpast
        · have := hnext b hb
          omega
      rw [window_past t hall]
      simpa using hk
    by_cases hbefore : a.later < t
    · -- before the window: nothing of it has been counted yet
      have hk0 : k = 0 := by
        by_contra hpos
        obtain ⟨hlast, hnow⟩ := hrecent (by omega)
        have := hnow a List.mem_cons_self
        omega
      subst k
      have hnot : ¬ During t a := fun hd => absurd hd.2 (by omega)
      simp only [verdicts, List.filter_cons, hnot, decide_false, Bool.false_and,
        Bool.false_eq_true, if_false]
      refine ih hclock.tail (by omega) (by omega) (by omega) ?_
      intro e he
      exact hno e (by simp only [verdicts]; exact List.mem_cons_of_mem _ he)
    have hduring : During t a := ⟨by omega, by omega⟩
    have hno' := hno (a, verdict hashPassword user a.password a.now)
      (by simp only [verdicts]; exact List.mem_cons_self) hduring
    have htail : ∀ e ∈ (verdicts hashPassword
        (user.after a.later (verdict hashPassword user a.password a.now)) as).2,
        During t e.1 → e.2 ≠ .accepted := by
      intro e he
      exact hno e (by simp only [verdicts]; exact List.mem_cons_of_mem _ he)
    cases hv : verdict hashPassword user a.password a.now with
    | accepted => exact absurd hv hno'
    | locked =>
      rw [hv] at htail
      simp only [verdicts, hv, List.filter_cons, reduceCtorEq, decide_false, Bool.and_false,
        Bool.false_eq_true, if_false]
      refine ih hclock.tail hk hfail ?_ htail
      intro hpos
      obtain ⟨hlast, hnow⟩ := hrecent hpos
      exact ⟨hlast, fun b hb => hnow b (List.mem_cons_of_mem _ hb)⟩
    | rejected =>
      -- a sixth failure would have found the account locked
      have hk5 : k < 5 := by
        by_contra hfull
        obtain ⟨hlast, hnow⟩ := hrecent (by omega)
        have hle := hnow a List.mem_cons_self
        have hlocked : user.isLocked a.now = true :=
          isLocked_iff.mpr ⟨by omega, minutesBetween_lt (by omega) hle⟩
        simp [verdict, hlocked] at hv
      rw [hv] at htail
      simp only [verdicts, hv, List.filter_cons, hduring, decide_true, Bool.and_self, if_true,
        List.length_cons]
      have := ih (k := k + 1) hclock.tail (by omega)
        (by simp only [UserCredentials.after, UserCredentials.incrementFailedAttempts]; omega)
        (fun _ => ⟨hduring.2, hnext⟩) htail
      omega

/-- A locked login fails and changes nothing. -/
theorem login_locked {s : UserAuthenticator} {u p : Text} {c : UserCredentials} {now later : Int}
    (h : s.users u = some c) (hlocked : c.isLocked now = true) :
    (s.authenticate hashPassword u p now later).2.success = false ∧
      (s.authenticate hashPassword u p now later).1 = s := by
  have hv : verdict hashPassword c p now = .locked := by
    simp [verdict, hlocked]
  rw [authenticate_cached h, hv]
  exact ⟨rfl, setUser_self h⟩

/-- Any other login with the right password succeeds and clears the counter. -/
theorem login_accepted {s : UserAuthenticator} {u p : Text} {c : UserCredentials} {now later : Int}
    (h : s.users u = some c) (hopen : c.isLocked now = false)
    (hp : hashPassword p c.salt = c.hashedPassword) :
    (s.authenticate hashPassword u p now later).2.success = true ∧
      (s.authenticate hashPassword u p now later).1.users u = some c.resetFailedAttempts := by
  have hv : verdict hashPassword c p now = .accepted := by
    simp [verdict, hopen, secureCompare_iff.mpr hp]
  rw [authenticate_cached h, hv]
  exact ⟨rfl, setUser_users s u _⟩

/-- The window bound, read off the results. -/
theorem window_results {s : UserAuthenticator} {u : Text} {user : UserCredentials}
    (h : s.users u = some user) {as : List Login} (hclock : Clocked as) (t : Int)
    (hno : ∀ e ∈ (logins hashPassword u s as).2, During t e.1 → e.2.success = false) :
    ((logins hashPassword u s as).2.filter (fun e =>
      decide (During t e.1) && decide (e.2 = .failureResult "Invalid password"))).length ≤ 5 := by
  have hmap := (logins_cached hashPassword h as).2
  have hcount := window_count hashPassword t hclock
    (Nat.zero_le 5) (Nat.zero_le user.failedAttempts) (fun hpos => absurd hpos (Nat.lt_irrefl 0)) (by
      rw [← hmap]
      intro e he hd hacc
      obtain ⟨r, hr, rfl⟩ := List.mem_map.mp he
      rw [verdictOf_accepted, hno r hr hd] at hacc
      cases hacc)
  rw [← hmap, List.filter_map, List.length_map] at hcount
  have hpred : ((fun e : Login × Verdict => decide (During t e.1) && decide (e.2 = .rejected)) ∘
      fun e : Login × AuthResult => (e.1, verdictOf e.2)) =
      fun e => decide (During t e.1) && decide (e.2 = .failureResult "Invalid password") := by
    funext e
    simp only [Function.comp_apply, verdictOf_rejected]
  rwa [hpred] at hcount

/-- In any five minutes without a success at most five wrong passwords are
checked. At every login of the run the record is that of the checked failures;
while it locks, the login fails and changes nothing, and otherwise the right
password succeeds and clears it. -/
theorem lockout_bounds {s : UserAuthenticator} {u : Text} {user : UserCredentials}
    (h : s.users u = some user) {as : List Login} (hclock : Clocked as) :
    (∀ t, (∀ e ∈ (logins hashPassword u s as).2, During t e.1 → e.2.success = false) →
      ((logins hashPassword u s as).2.filter (fun e =>
        decide (During t e.1) && decide (e.2 = .failureResult "Invalid password"))).length ≤ 5) ∧
    ∀ before a rest, as = before ++ a :: rest →
      ∃ c, (logins hashPassword u s before).1.users u = some c ∧
        c.salt = user.salt ∧ c.hashedPassword = user.hashedPassword ∧
        (c.failedAttempts, c.lastFailedAttempt) = (logins hashPassword u s before).2.foldl tally
          (user.failedAttempts, user.lastFailedAttempt) ∧
        let call := (logins hashPassword u s before).1.authenticate hashPassword u a.password
          a.now a.later
        (5 ≤ c.failedAttempts ∧ UserCredentials.minutesBetween a.now c.lastFailedAttempt < 5 →
          call.2.success = false ∧ call.1 = (logins hashPassword u s before).1) ∧
        (¬ (5 ≤ c.failedAttempts ∧
            UserCredentials.minutesBetween a.now c.lastFailedAttempt < 5) →
          hashPassword a.password user.salt = user.hashedPassword →
          call.2.success = true ∧ call.1.users u = some c.resetFailedAttempts) := by
  refine ⟨fun t hno => window_results h hclock t hno, ?_⟩
  intro before a rest _
  have hc := (logins_cached hashPassword h before).1
  obtain ⟨hsalt, hhash⟩ := verdicts_salt hashPassword user before
  refine ⟨_, hc, hsalt, hhash, (tally_logins h before).symm, ?_, ?_⟩
  · intro hl
    exact login_locked hc (isLocked_iff.mpr hl)
  · intro hl hp
    refine login_accepted hc ?_ (by rw [hsalt, hhash]; exact hp)
    rw [Bool.eq_false_iff]
    exact fun ht => hl (isLocked_iff.mp ht)

/-- Six wrong guesses and the right password, all within a minute. -/
def guesses : List Login :=
  [⟨beta, 0, 1⟩, ⟨gamma, 2, 3⟩, ⟨beta, 4, 5⟩, ⟨gamma, 6, 7⟩, ⟨beta, 8, 9⟩, ⟨gamma, 10, 11⟩,
    ⟨alpha, 60000000000, 60000000001⟩]

theorem lockout_bounds_guesses :
    (∀ e ∈ (logins sampleHash bob registered guesses).2, During 0 e.1 → e.2.success = false) ∧
      ((logins sampleHash bob registered guesses).2.filter (fun e =>
        decide (During 0 e.1) && decide (e.2 = .failureResult "Invalid password"))).length ≤ 5 := by
  have hno : ∀ e ∈ (logins sampleHash bob registered guesses).2,
      During 0 e.1 → e.2.success = false := by
    decide +kernel
  have hcached : registered.users bob =
      some ⟨bob, sampleHash alpha sampleSalt, sampleSalt, 0, timePointMin⟩ := by
    decide +kernel
  have hclock : Clocked guesses := ⟨by decide +kernel, by decide +kernel⟩
  exact ⟨hno, (lockout_bounds hcached hclock).1 0 hno⟩

end Proofs

end Cppforge.Auth
