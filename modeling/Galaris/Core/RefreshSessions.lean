import Galaris.Base.Transition
import Mathlib.Data.List.Nodup
import Mathlib.Logic.Function.Basic

/-! Browser sessions (`core/user/refresh_session_service.py`), and the access tokens that name them
(`validate_access_claims`).

A refresh token is presented once: it is revoked, and its replacement is derived from it. What opens,
rotates or revokes tokens locks the owner of the rows first, so it is one step here. A purge locks the rows
that it deletes, and the update of an account writes and revokes in one step, but it has read the account
earlier and without a lock.

The rows of a family are the tokens of one browser; whatever happens, at most one of them is live (`Inv`),
and a family without a live token has none ever again (`Dead`). -/
namespace Galaris.Core.RefreshSessions

open Transition

abbrev UserId := Nat

/-- A family is a `uuid4`. -/
abbrev Family := Nat

/-- What the service takes from outside: the two hashes, and its settings. -/
structure Env (Token Hash : Type) where
  hashToken : Token → Hash
  deriveReplacement : Token → Token
  /-- `AUTH_REFRESH_TOKEN_EXPIRE_DAYS`. -/
  lifetime : Int
  /-- `AUTH_REFRESH_TOKEN_REUSE_GRACE_SECONDS`. -/
  grace : Int

/-- Seven days, in microseconds. -/
def retention : Int := 7 * 24 * 3600 * 1000000

/-- A row of `user_refresh_sessions`. -/
structure Session (Hash : Type) where
  userId : UserId
  familyId : Family
  tokenHash : Hash
  expiresAt : Int
  userAgent : Option (List Char)
  lastUsedAt : Option Int := none
  revokedAt : Option Int := none
deriving DecidableEq, Repr

structure User where
  email : String
  isActive : Bool
  authVersion : Nat
deriving DecidableEq, Repr

/-- The accounts and the rows; `issued` are the families that have been drawn, which `uuid4` does not draw again. -/
structure State (Hash : Type) where
  users : UserId → Option User
  rows : List (Session Hash)
  issued : List Family

inductive Error
  | inactive
  | unknown
  | expired
  | replay
  /-- The hash of the new token is there already: the transaction is rolled back. -/
  | integrity
deriving DecidableEq, Repr

/-- `RefreshRotation`. -/
structure Rotation (Token : Type) where
  user : UserId
  token : Token
  family : Family
deriving DecidableEq, Repr

section Service
variable {Token Hash : Type} [DecidableEq Hash] (env : Env Token Hash)

def normalizedUserAgent (userAgent : List Char) : Option (List Char) :=
    if userAgent.isEmpty then none else some (userAgent.take 512)

def newExpiry (now : Int) : Int := now + env.lifetime

def activeUser (s : State Hash) (userId : UserId) : Bool := (s.users userId).any (·.isActive)

def find? (s : State Hash) (hash : Hash) : Option (Session Hash) := s.rows.find? fun row => row.tokenHash = hash

/-- `UPDATE … SET revoked_at` on the rows that `p` selects and that are not revoked. -/
def revoke (p : Session Hash → Bool) (now : Int) (s : State Hash) : State Hash :=
  {s with rows := s.rows.map fun row => if p row && row.revokedAt.isNone then {row with revokedAt := some now} else row}

def revokeFamily (family : Family) (now : Int) (s : State Hash) : State Hash :=
    revoke (fun row => row.familyId = family) now s

def createRefreshSession (s : State Hash) (userId : UserId) (token : Token) (family : Family)
    (userAgent : List Char) (now : Int) :
    State Hash × Except Error Token :=
  if !activeUser s userId then (s, .error .inactive)
  else if (find? s (env.hashToken token)).isSome then (s, .error .integrity)
  else
    ({s with
      rows := s.rows ++ [⟨userId, family, env.hashToken token, newExpiry env now,
        normalizedUserAgent userAgent, none, none⟩]
      issued := family :: s.issued}, .ok token)

/-- The live replacement of a token. -/
def replacement? (s : State Hash) (session : Session Hash) (token : Token) (now : Int) : Option (Session Hash) :=
  (find? s (env.hashToken (env.deriveReplacement token))).filter fun row =>
    row.familyId = session.familyId && row.revokedAt.isNone && decide (now < row.expiresAt)

/-- The rows after a rotation: the session is revoked, and its replacement is behind the others. -/
def rotated (s : State Hash) (session : Session Hash) (token : Token) (userAgent : List Char)
    (now : Int) : State Hash :=
  {s with rows :=
    (s.rows.map fun row => if row.tokenHash = session.tokenHash
      then {row with lastUsedAt := some now, revokedAt := some now} else row) ++
      [⟨session.userId, session.familyId, env.hashToken (env.deriveReplacement token), newExpiry env now,
        normalizedUserAgent userAgent <|> session.userAgent, none, none⟩]}

def rotateRefreshToken (s : State Hash) (token : Token) (userAgent : List Char) (now : Int) :
    State Hash × Except Error (Rotation Token) :=
  match find? s (env.hashToken token) with
  | none => (s, .error .unknown)
  | some session =>
    if session.expiresAt ≤ now then
      (revoke (fun row => row.tokenHash = session.tokenHash) now s, .error .expired)
    else match session.revokedAt with
    | some revokedAt =>
      if now - revokedAt ≤ env.grace ∧ (replacement? env s session token now).isSome ∧ activeUser s session.userId then
        (s, .ok ⟨session.userId, env.deriveReplacement token, session.familyId⟩)
      else (revokeFamily session.familyId now s, .error .replay)
    | none =>
      if !activeUser s session.userId then (revokeFamily session.familyId now s, .error .inactive)
      else if (find? s (env.hashToken (env.deriveReplacement token))).isSome then (s, .error .integrity)
      else (rotated env s session token userAgent now,
        .ok ⟨session.userId, env.deriveReplacement token, session.familyId⟩)

def isFamilyActive (s : State Hash) (userId : UserId) (family : Family) (now : Int) : Bool :=
  s.rows.any fun row => row.userId = userId && row.familyId = family && row.revokedAt.isNone &&
    decide (now < row.expiresAt)

def revokeRefreshToken (s : State Hash) (token : Token) (now : Int) : State Hash × Bool :=
  match find? s (env.hashToken token) with
  | none => (s, false)
  | some session => (revokeFamily session.familyId now s, true)

def revokeAllUserSessions (s : State Hash) (userId : UserId) (preserveFamily : Option Family)
    (now : Int) : State Hash :=
  revoke (fun row => row.userId = userId && preserveFamily.all (row.familyId ≠ ·)) now s

/-- Rows go seven days after they expire; the ones that `chosen` leaves are locked, or behind the limit. -/
def purgeExpiredSessions (s : State Hash) (chosen : Session Hash → Bool) (now : Int) : State Hash :=
  {s with rows := s.rows.filter fun row => !(chosen row && decide (row.expiresAt < now - retention))}

/-- A new password and a deactivation end all sessions. -/
def revokesSessions (password : Bool) (isActive : Option Bool) : Bool := password || isActive == some false

/-- The account after an update that has read it as `read`: what differs from that is written, the version
as a number. -/
def User.updated (user read : User) (email : Option String) (password : Bool) (isActive : Option Bool) : User where
  email := (email.filter fun email => email ≠ "" && email ≠ read.email).getD user.email
  isActive := (isActive.filter (· ≠ read.isActive)).getD user.isActive
  authVersion := if revokesSessions password isActive then read.authVersion + 1 else user.authVersion

/-- The write of `update`, which has read the account as `read`; a refused address is not written at all. -/
def updateUser (s : State Hash) (userId : UserId) (read : User) (email : Option String) (password : Bool)
    (isActive : Option Bool) (now : Int) : State Hash :=
  match s.users userId with
  | none => s
  | some user =>
    let s' := {s with users := Function.update s.users userId (some (user.updated read email password isActive))}
    if revokesSessions password isActive then revokeAllUserSessions s' userId none now else s'

/-- What an access token says. -/
structure AccessClaims where
  authVersion : Nat
  userId : Option UserId
  sub : String
  sessionFamily : Option Family
deriving DecidableEq, Repr

/-- `create_access_token_for_user`, for a session. -/
def claimsFor (userId : UserId) (user : User) (family : Option Family) : AccessClaims :=
    ⟨user.authVersion, some userId, user.email, family⟩

/-- `validate_access_claims`, for the account `userId`. -/
def validateAccessClaims (s : State Hash) (claims : AccessClaims) (userId : UserId) (user : User) (now : Int) : Bool :=
  claims.authVersion = user.authVersion && claims.userId.all (· = userId) && claims.sub = user.email &&
    claims.sessionFamily.all fun family => isFamilyActive s userId family now

/-! ### Runs -/

inductive Event (Token Hash : Type)
  | create (userId : UserId) (token : Token) (family : Family) (userAgent : List Char) (now : Int)
  | rotate (token : Token) (userAgent : List Char) (now : Int)
  | logout (token : Token) (now : Int)
  | revokeAll (userId : UserId) (preserveFamily : Option Family) (now : Int)
  | purge (chosen : Session Hash → Bool) (now : Int)
  | register (userId : UserId) (user : User)
  | update (userId : UserId) (read : User) (email : Option String) (password : Bool)
    (isActive : Option Bool) (now : Int)

/-- The clock, where it is read. -/
def Event.now : Event Token Hash → Option Int
  | .create _ _ _ _ now | .rotate _ _ now | .logout _ now | .revokeAll _ _ now | .purge _
    now | .update _ _ _ _ _ now => some now
  | .register _ _ => none

/-- What happens; `none` where an identifier is drawn twice. -/
def apply (s : State Hash) : Event Token Hash → Option (State Hash)
  | .create userId token family userAgent now =>
    if family ∈ s.issued then none
      else some (createRefreshSession env s userId token family userAgent now).1
  | .rotate token userAgent now => some (rotateRefreshToken env s token userAgent now).1
  | .logout token now => some (revokeRefreshToken env s token now).1
  | .revokeAll userId preserveFamily now => some (revokeAllUserSessions s userId preserveFamily now)
  | .purge chosen now => some (purgeExpiredSessions s chosen now)
  | .register userId user =>
    if (s.users userId).isSome then none
      else some {s with users := Function.update s.users userId (some user)}
  | .update userId read email password isActive now => some (updateUser s userId read email password isActive now)

/-- No account and no row. -/
def empty : State Hash := ⟨fun _ => none, [], []⟩

abbrev Happens : State Hash → Event Token Hash → State Hash → Prop := Executes (apply env)

end Service
section Runs
variable {Token Hash : Type} {s t : State Hash}

/-! ### What an operation does to the rows -/

/-- A change of rows in their places: some that are live are revoked. -/
structure Retires (rows : List (Session Hash)) (f : Session Hash → Session Hash) : Prop where
  tokenHash : ∀ row, (f row).tokenHash = row.tokenHash
  familyId : ∀ row, (f row).familyId = row.familyId
  userId : ∀ row, (f row).userId = row.userId
  expiresAt : ∀ row, (f row).expiresAt = row.expiresAt
  live : ∀ row, (f row).revokedAt = none → f row = row
  kept : ∀ row ∈ rows, row.revokedAt ≠ none → f row = row

theorem retires_id (rows : List (Session Hash)) : Retires rows id :=
  ⟨fun _ => rfl, fun _ => rfl, fun _ => rfl, fun _ => rfl, fun _ _ => rfl, fun _ _ _ => rfl⟩

/-- A revocation only ends rows. -/
theorem retires_revoke (rows : List (Session Hash)) (p : Session Hash → Bool) (now : Int) :
    Retires rows fun row => if p row && row.revokedAt.isNone then {row with revokedAt := some now} else row := by
  constructor
  case live =>
    intro row
    split
    · exact nofun
    · exact fun _ => rfl
  case kept =>
    intro row _ hrevoked
    rw [Option.isNone_eq_false_iff.mpr (Option.isSome_iff_ne_none.mpr hrevoked), Bool.and_false]
    rfl
  all_goals
    intro row
    split <;> rfl

/-- What one operation does at `now`: rows are retired or go, a family begins, or its live token is replaced. -/
inductive Move (now : Int) (s : State Hash) : State Hash → Prop
  | retires {f : Session Hash → Session Hash} (users : UserId → Option User) :
    Retires s.rows f → Move now s {s with users, rows := s.rows.map f}
  | drops (p : Session Hash → Bool) :
    (∀ r ∈ s.rows, p r = false → r.expiresAt < now) → Move now s {s with rows := s.rows.filter p}
  | begins (row : Session Hash) : row.familyId ∉ s.issued → (∀ r ∈ s.rows, r.tokenHash ≠ row.tokenHash) →
      Move now s {s with rows := s.rows ++ [row], issued := row.familyId :: s.issued}
  | replaces {f : Session Hash → Session Hash} (session row : Session Hash) :
    Retires s.rows f → session ∈ s.rows → session.revokedAt = none →
      (f session).revokedAt ≠ none → row.familyId = session.familyId → row.userId = session.userId →
      (∀ r ∈ s.rows, r.tokenHash ≠ row.tokenHash) →
      Move now s {s with rows := s.rows.map f ++ [row]}

/-- What an account is changed to is no matter of the sessions. -/
theorem Move.accounts (now : Int) (users : UserId → Option User) : Move now s {s with users} := by
  have h : Move now s {s with users, rows := s.rows.map id} := .retires users (retires_id s.rows)
  rwa [List.map_id] at h

theorem Move.still (now : Int) : Move now s s := .accounts now s.users

/-- A revocation is a move, whichever rows it chooses. -/
theorem revoke_move (p : Session Hash → Bool) (at' now : Int) : Move now s (revoke p at' s) :=
    .retires s.users (retires_revoke s.rows p at')

/-! ### One live token in a family -/

structure Inv (s : State Hash) : Prop where
  hashes : (s.rows.map (·.tokenHash)).Nodup
  live : ∀ r ∈ s.rows, ∀ r' ∈ s.rows, r.familyId = r'.familyId → r.revokedAt = none → r'.revokedAt = none → r = r'
  owner : ∀ r ∈ s.rows, ∀ r' ∈ s.rows, r.familyId = r'.familyId → r.userId = r'.userId
  issued : ∀ r ∈ s.rows, r.familyId ∈ s.issued

/-- Rows that are ended, or not, keep the invariant. -/
theorem Inv.retires (h : Inv s) {f : Session Hash → Session Hash} (hf : Retires s.rows f)
    (users : UserId → Option User) :
    Inv {s with users, rows := s.rows.map f} := by
  refine ⟨?_, ?_, ?_, ?_⟩
  · have hkeys : (s.rows.map f).map (·.tokenHash) = s.rows.map (·.tokenHash) := by
      rw [List.map_map]
      exact List.map_congr_left fun row _ => hf.tokenHash row
    rw [hkeys]
    exact h.hashes
  · simp only [List.forall_mem_map]
    intro r hr r' hr' hfamily hlive hlive'
    rw [hf.live r hlive] at hlive
    rw [hf.live r' hlive'] at hlive'
    rw [hf.familyId, hf.familyId] at hfamily
    rw [h.live r hr r' hr' hfamily hlive hlive']
  · simp only [List.forall_mem_map, hf.familyId, hf.userId]
    exact h.owner
  · simp only [List.forall_mem_map, hf.familyId]
    exact h.issued

/-- A new row with a fresh hash keeps the invariant, in a family of which no other row is live. -/
theorem Inv.add (h : Inv s) {row : Session Hash} {issued : List Family}
    (hhash : ∀ r ∈ s.rows, r.tokenHash ≠ row.tokenHash)
    (hfamily : ∀ r ∈ s.rows, r.familyId = row.familyId → r.revokedAt ≠ none ∧ r.userId = row.userId)
    (hissued : s.issued ⊆ issued)
    (hrow : row.familyId ∈ issued) : Inv {s with rows := s.rows ++ [row], issued} := by
  have hmem : ∀ r ∈ s.rows ++ [row], r ∈ s.rows ∨ r = row := by simp
  refine ⟨?_, fun r hr r' hr' hsame hlive hlive' => ?_, fun r hr r' hr' hsame => ?_, fun r hr => ?_⟩
  · rw [List.map_append, List.nodup_append]
    refine ⟨h.hashes, List.nodup_singleton _, ?_⟩
    simpa using hhash
  · obtain hold | rfl := hmem r hr <;> obtain hold' | rfl := hmem r' hr'
    · exact h.live r hold r' hold' hsame hlive hlive'
    · exact absurd hlive (hfamily r hold hsame).1
    · exact absurd hlive' (hfamily r' hold' hsame.symm).1
    · rfl
  · obtain hold | rfl := hmem r hr <;> obtain hold' | rfl := hmem r' hr'
    · exact h.owner r hold r' hold' hsame
    · exact (hfamily r hold hsame).2
    · exact (hfamily r' hold' hsame.symm).2.symm
    · rfl
  · obtain hold | rfl := hmem r hr
    · exact hissued (h.issued r hold)
    · exact hrow

/-- A move keeps the invariant. -/
theorem Move.inv {now : Int} (h : Move now s t) (hs : Inv s) : Inv t := by
  cases h with
  | retires users hf => exact hs.retires hf users
  | drops p _ =>
    have hmem : ∀ r ∈ s.rows.filter p, r ∈ s.rows := fun _ hr => List.mem_of_mem_filter hr
    exact ⟨hs.hashes.sublist (List.filter_sublist.map _), fun r hr r' hr' => hs.live r (hmem r hr) r' (hmem r' hr'),
      fun r hr r' hr' => hs.owner r (hmem r hr) r' (hmem r' hr'), fun r hr => hs.issued r (hmem r hr)⟩
  | begins row hfamily hhash =>
    refine hs.add hhash (fun r hr hsame => ?_) (List.subset_cons_self _ _) List.mem_cons_self
    exact absurd (hsame ▸ hs.issued r hr) hfamily
  | replaces session row hf hmem hlive hrevoked hfamily huser hhash =>
    refine (hs.retires hf s.users).add ?_ ?_ (List.Subset.refl _) (hfamily ▸ hs.issued session hmem)
    · simpa only [List.forall_mem_map, hf.tokenHash] using hhash
    · simp only [List.forall_mem_map, hf.familyId, hf.userId]
      intro r hr hsame
      rw [hfamily] at hsame
      refine ⟨fun hopen => ?_, (hs.owner r hr session hmem hsame).trans huser.symm⟩
      -- A row that is still live was the live one of the family, which is revoked.
      have hr' : r.revokedAt = none := hf.live r hopen ▸ hopen
      have hsession : r = session := hs.live r hr session hmem hsame hr' hlive
      exact hrevoked (hsession ▸ hopen)

theorem empty_inv : Inv (empty : State Hash) := by constructor <;> simp [empty]

/-! ### Operations -/

/-- An account update ends rows at most. -/
theorem update_move (userId : UserId) (read : User) (email : Option String) (password : Bool)
    (isActive : Option Bool) (at' now : Int) :
    Move now s (updateUser s userId read email password isActive at') := by
  unfold updateUser
  split
  · exact .still now
  · extract_lets s'
    split
    · exact .retires s'.users (retires_revoke s.rows _ at')
    · exact .accounts now s'.users

variable [DecidableEq Hash] {env : Env Token Hash}

/-- The row that is found has the hash. -/
theorem find?_eq_some {hash : Hash} {row : Session Hash} (h : find? s hash = some row) :
    row ∈ s.rows ∧ row.tokenHash = hash :=
  ⟨List.mem_of_find?_eq_some h, by simpa using List.find?_some h⟩

theorem find?_isSome {hash : Hash} (h : ¬(find? s hash).isSome) : ∀ r ∈ s.rows, r.tokenHash ≠ hash := by
  simpa [find?] using h

/-- A row is found by its hash. -/
theorem Inv.find? (h : Inv s) {row : Session Hash} (hmem : row ∈ s.rows) : find? s row.tokenHash = some row := by
  have hsome : (RefreshSessions.find? s row.tokenHash).isSome := List.find?_isSome.mpr ⟨row, hmem, decide_eq_true rfl⟩
  obtain ⟨found, hfound⟩ := Option.isSome_iff_exists.mp hsome
  obtain ⟨hmem', hhash⟩ := find?_eq_some hfound
  rw [hfound, List.inj_on_of_nodup_map h.hashes hmem' hmem hhash]

/-- A rotation ends the row of the token that is presented. -/
theorem retires_rotated (hs : Inv s) {session : Session Hash} (hmem : session ∈ s.rows)
    (hlive : session.revokedAt = none) (now : Int) :
    Retires s.rows fun row => if row.tokenHash = session.tokenHash
        then {row with lastUsedAt := some now, revokedAt := some now} else row := by
  constructor
  case live =>
    intro row
    split
    · exact nofun
    · exact fun _ => rfl
  case kept =>
    intro row hrow hrevoked
    rw [if_neg]
    intro hhash
    rw [List.inj_on_of_nodup_map hs.hashes hrow hmem hhash] at hrevoked
    exact hrevoked hlive
  all_goals
    intro row
    split <;> rfl

/-- A rotation is a move, whatever it answers. -/
theorem rotate_move (hs : Inv s) (token : Token) (userAgent : List Char) (at' now : Int) :
    Move now s (rotateRefreshToken env s token userAgent at').1 := by
  unfold rotateRefreshToken
  split
  · exact .still now
  case h_2 session hfind =>
    obtain ⟨hmem, -⟩ := find?_eq_some hfind
    split
    · exact revoke_move _ _ _
    · split
      · split
        · exact .still now
        · exact revoke_move _ _ _
      case h_2 hlive =>
        split
        · exact revoke_move _ _ _
        · split
          · exact .still now
          case isFalse hnew =>
            refine .replaces session _ (retires_rotated hs hmem hlive at') hmem hlive ?_ rfl rfl (find?_isSome hnew)
            rw [if_pos rfl]
            exact nofun

/-- A sign-in is a move, in a family that is new. -/
theorem create_move {userId : UserId} {token : Token} {family : Family} {userAgent : List Char}
    {at' now : Int} (hfamily : family ∉ s.issued) :
    Move now s (createRefreshSession env s userId token family userAgent at').1 := by
  unfold createRefreshSession
  split
  · exact .still now
  · split
    · exact .still now
    case isFalse hnew => exact .begins _ hfamily (find?_isSome hnew)

omit [DecidableEq Hash] in
/-- A purge removes rows that have expired. -/
theorem purge_move (chosen : Session Hash → Bool) {at' now : Int} (hnow : at' ≤ now) :
    Move now s (purgeExpiredSessions s chosen at') := by
  refine .drops _ fun r _ hgone => ?_
  simp only [Bool.not_eq_false', Bool.and_eq_true, decide_eq_true_eq] at hgone
  have hretention : (0 : Int) ≤ retention := by decide
  omega

/-- Every event is a move. -/
theorem apply_move {event : Event Token Hash} (hs : Inv s) (h : apply env s event = some t)
    {now : Int} (hnow : ∀ n, event.now = some n → n ≤ now) :
    Move now s t := by
  cases event with
  | create userId token family userAgent at' =>
    obtain ⟨hfamily, rfl⟩ : family ∉ s.issued ∧ _ = t := by simpa [apply] using h
    exact create_move hfamily
  | rotate token userAgent at' =>
    cases h
    exact rotate_move hs token userAgent at' now
  | logout token at' =>
    cases h
    unfold revokeRefreshToken
    split
    · exact .still now
    · exact revoke_move _ _ _
  | revokeAll userId preserveFamily at' =>
    cases h
    exact revoke_move _ _ _
  | purge chosen at' =>
    cases h
    exact purge_move chosen (hnow at' rfl)
  | register userId user =>
    obtain ⟨-, rfl⟩ : _ ∧ _ = t := by simpa [apply] using h
    exact .accounts now _
  | update userId read email password isActive at' =>
    cases h
    exact update_move userId read email password isActive at' now

/-- An event is a move at its own time. -/
theorem exists_move {event : Event Token Hash} (hs : Inv s) (h : apply env s event = some t) : ∃ now, Move now s t :=
  ⟨event.now.getD 0, apply_move hs h fun n hn => by rw [hn]; exact Int.le_refl n⟩

theorem apply_inv {event : Event Token Hash} (hs : Inv s) (h : apply env s event = some t) : Inv t :=
  (exists_move hs h).elim fun _ hmove => hmove.inv hs

/-- The invariant holds after every run. -/
theorem run_inv {events : List (Event Token Hash)} (h : Steps (Happens env) s events t) (hs : Inv s) : Inv t :=
  h.invariant (fun _ _ _ hs hstep => apply_inv hs hstep) hs

/-! ### Families without a live token -/

/-- The family has been drawn, and no token of it is live. -/
def Dead (family : Family) (s : State Hash) : Prop :=
    family ∈ s.issued ∧ ∀ r ∈ s.rows, r.familyId = family → r.revokedAt ≠ none

omit [DecidableEq Hash] in
/-- No move brings a family back that has ended. -/
theorem Move.dead {family : Family} {now : Int} (h : Move now s t) (hs : Dead family s) : Dead family t := by
  obtain ⟨hissued, hrevoked⟩ := hs
  cases h with
  | retires users hf =>
    refine ⟨hissued, ?_⟩
    simp only [List.forall_mem_map, hf.familyId]
    exact fun r hr hsame hlive => hrevoked r hr hsame (hf.live r hlive ▸ hlive)
  | drops p _ => exact ⟨hissued, fun r hr => hrevoked r (List.mem_of_mem_filter hr)⟩
  | begins row hfamily _ =>
    refine ⟨List.mem_cons_of_mem _ hissued, fun r hr hsame => ?_⟩
    obtain hold | hnew := List.mem_append.mp hr
    · exact hrevoked r hold hsame
    · rw [List.mem_singleton.mp hnew] at hsame
      exact absurd (hsame ▸ hissued) hfamily
  | replaces session row hf hmem hlive _ hfamily =>
    refine ⟨hissued, fun r hr hsame => ?_⟩
    obtain hold | hnew := List.mem_append.mp hr
    · obtain ⟨before, hbefore, rfl⟩ := List.mem_map.mp hold
      rw [hf.familyId] at hsame
      exact fun hopen => hrevoked before hbefore hsame (hf.live before hopen ▸ hopen)
    · rw [List.mem_singleton.mp hnew, hfamily] at hsame
      exact absurd hlive (hrevoked session hmem hsame)

/-- No run brings a family back that has ended. -/
theorem run_dead {family : Family} {events : List (Event Token Hash)}
    (h : Steps (Happens env) s events t) (hs : Inv s ∧ Dead family s) :
    Inv t ∧ Dead family t :=
  h.invariant (P := fun s => Inv s ∧ Dead family s) (fun _ _ _ hs hstep =>
    ⟨apply_inv hs.1 hstep, (exists_move hs.1 hstep).elim fun _ hmove => hmove.dead hs.2⟩) hs

omit [DecidableEq Hash] in
/-- A revocation that selects all rows of a family. -/
theorem revoke_dead {family : Family} (hissued : family ∈ s.issued) {p : Session Hash → Bool}
    (hp : ∀ r ∈ s.rows, r.familyId = family → p r = true)
    (now : Int) : Dead family (revoke p now s) := by
  refine ⟨hissued, ?_⟩
  simp only [revoke, List.forall_mem_map]
  intro r hr
  split
  · exact fun _ => nofun
  case isFalse hnot =>
    intro hsame hlive
    exact hnot (by rw [hp r hr hsame, hlive]; rfl)

omit [DecidableEq Hash] in
/-- A family that has ended is not active. -/
theorem Dead.inactive {family : Family} (h : Dead family s) (userId : UserId) (now : Int) :
    isFamilyActive s userId family now = false := by
  rw [isFamilyActive, List.any_eq_false]
  intro r hr hactive
  simp only [Bool.and_eq_true, decide_eq_true_eq, Option.isNone_iff_eq_none] at hactive
  exact h.2 r hr hactive.1.1.2 hactive.1.2

/-! ### Rotations -/

/-- What a rotation answers: the live token of the family of the one presented. -/
structure Opens (env : Env Token Hash) (s s' : State Hash) (token : Token) (now : Int)
    (rotation : Rotation Token) : Prop where
  presented : ∃ session ∈ s.rows, session.tokenHash = env.hashToken token ∧
    session.familyId = rotation.family ∧ session.userId = rotation.user ∧ now < session.expiresAt
  active : activeUser s rotation.user = true
  live : ∃ row ∈ s'.rows, row.tokenHash = env.hashToken rotation.token ∧ row.familyId =
    rotation.family ∧ row.userId = rotation.user ∧ row.revokedAt = none ∧ now < row.expiresAt

/-- A replacement is a live row of the family with the derived token. -/
theorem replacement?_eq_some {session row : Session Hash} {token : Token} {now : Int}
    (h : replacement? env s session token now = some row) :
    row ∈ s.rows ∧ row.tokenHash = env.hashToken (env.deriveReplacement token) ∧
        row.familyId = session.familyId ∧ row.revokedAt = none ∧ now < row.expiresAt := by
  obtain ⟨hfind, hrow⟩ := Option.filter_eq_some_iff.mp h
  obtain ⟨hmem, hhash⟩ := find?_eq_some hfind
  simp only [Bool.and_eq_true, decide_eq_true_eq, Option.isNone_iff_eq_none] at hrow
  exact ⟨hmem, hhash, hrow.1.1, hrow.1.2, hrow.2⟩

/-- A rotation that is answered gives a token that opens the only live row of the family. -/
theorem rotate_opens (hlifetime : 0 < env.lifetime) (hs : Inv s) {s' : State Hash} {token : Token}
    {userAgent : List Char} {now : Int}
    {rotation : Rotation Token} (h : rotateRefreshToken env s token userAgent now =
      (s', .ok rotation)) : Opens env s s' token now rotation := by
  unfold rotateRefreshToken at h
  split at h
  · cases h
  case h_2 session hfind =>
    obtain ⟨hmem, hhash⟩ := find?_eq_some hfind
    split at h
    · cases h
    case isFalse hexpired =>
      have hpresented : ∃ row ∈ s.rows, row.tokenHash = env.hashToken token ∧
          row.familyId = session.familyId ∧ row.userId = session.userId ∧ now < row.expiresAt :=
        ⟨session, hmem, hhash, rfl, rfl, Int.not_le.mp hexpired⟩
      split at h
      · split at h
        case isTrue hgrace =>
          cases h
          obtain ⟨row, hrow⟩ := Option.isSome_iff_exists.mp hgrace.2.1
          obtain ⟨hrow, hrowhash, hfamily, hlive, hvalid⟩ := replacement?_eq_some hrow
          exact ⟨hpresented, hgrace.2.2, row, hrow, hrowhash, hfamily,
            hs.owner row hrow session hmem hfamily, hlive, hvalid⟩
        · cases h
      · split at h
        · cases h
        case isFalse hactive =>
          split at h
          · cases h
          · cases h
            refine ⟨hpresented, by simpa using hactive, _,
              List.mem_append_right _ (List.mem_singleton_self _), rfl, rfl, rfl, rfl, ?_⟩
            exact Int.lt_add_of_pos_right _ hlifetime

/-- In every run a family has at most one live token, and a rotation answers with that one, for the account
and the family of the token presented. -/
theorem one_live_token (hlifetime : 0 < env.lifetime) {events : List (Event Token Hash)}
    (h : Steps (Happens env) empty events s) :
    (∀ r ∈ s.rows, ∀ r' ∈ s.rows, r.familyId = r'.familyId → r.revokedAt = none → r'.revokedAt = none → r = r') ∧
      ∀ token userAgent now s' rotation, rotateRefreshToken env s token userAgent now = (s', .ok rotation) →
        Opens env s s' token now rotation ∧ ∀ r ∈ s'.rows, r.familyId = rotation.family →
            r.revokedAt = none → r.tokenHash = env.hashToken rotation.token := by
  have hs := run_inv h empty_inv
  refine ⟨hs.live, fun token userAgent now s' rotation hrotate => ?_⟩
  have hopens := rotate_opens hlifetime hs hrotate
  have hs' : Inv s' := by
    have hmove : Move now s (rotateRefreshToken env s token userAgent now).1 := rotate_move hs token userAgent now now
    rw [hrotate] at hmove
    exact hmove.inv hs
  obtain ⟨row, hrow, hhash, hfamily, -, hlive, -⟩ := hopens.live
  exact ⟨hopens, fun r hr hsame hopen => by rw [hs'.live r hr row hrow (hsame.trans hfamily.symm) hopen hlive, hhash]⟩

/-! ### The end of a family -/

/-- What ends a family: the logout of one of its tokens, a token that is presented when it no longer may,
the end of all sessions of the account, or of those of other browsers. -/
inductive Ends (env : Env Token Hash) (s : State Hash) (family : Family) : State Hash → Prop
  | logout {session : Session Hash} {token : Token} {now : Int} :
    session ∈ s.rows → session.tokenHash = env.hashToken token →
      session.familyId = family → Ends env s family (revokeRefreshToken env s token now).1
  | replay {session : Session Hash} {token : Token} {userAgent : List Char} {now : Int}
    {s' : State Hash} : session ∈ s.rows →
      session.tokenHash = env.hashToken token → session.familyId = family →
      rotateRefreshToken env s token userAgent now = (s', .error .replay) →
      Ends env s family s'
  | all {session : Session Hash} {preserveFamily : Option Family} {now : Int} :
    session ∈ s.rows → session.familyId = family →
      preserveFamily ≠ some family → Ends env s family (revokeAllUserSessions s session.userId preserveFamily now)

omit [DecidableEq Hash] in
/-- Ending all the sessions of an account ends every family but the one to be kept. -/
theorem revokeAll_dead (hs : Inv s) {session : Session Hash} (hmem : session ∈ s.rows) {preserveFamily : Option Family}
    (hother : preserveFamily ≠ some session.familyId) (now : Int) :
    Dead session.familyId (revokeAllUserSessions s session.userId preserveFamily now) := by
  refine revoke_dead (hs.issued session hmem) (fun r hr hsame => ?_) now
  rw [hs.owner r hr session hmem hsame, hsame]
  cases preserveFamily with
  | none => simp
  | some other => simpa using fun h : session.familyId = other => hother (h ▸ rfl)

/-- However a family ends, it is dead after it. -/
theorem Ends.dead (hs : Inv s) {family : Family} (h : Ends env s family t) : Inv t ∧ Dead family t := by
  cases h with
  | @logout session token now hmem hhash hfamily =>
    have hfind := hs.find? hmem
    rw [hhash] at hfind
    rw [revokeRefreshToken, hfind]
    exact ⟨(revoke_move _ now now).inv hs,
      hfamily ▸ revoke_dead (hs.issued session hmem) (fun _ _ hsame => decide_eq_true hsame) now⟩
  | @replay session token userAgent now s' hmem hhash hfamily hrotate =>
    have hmove : Move now s (rotateRefreshToken env s token userAgent now).1 := rotate_move hs token userAgent now now
    rw [hrotate] at hmove
    refine ⟨hmove.inv hs, ?_⟩
    have hfind := hs.find? hmem
    rw [hhash] at hfind
    rw [rotateRefreshToken, hfind] at hrotate
    dsimp only at hrotate
    split at hrotate
    · cases hrotate
    · split at hrotate
      · split at hrotate
        · cases hrotate
        · cases hrotate
          exact hfamily ▸ revoke_dead (hs.issued session hmem) (fun _ _ hsame => decide_eq_true hsame) now
      · split at hrotate
        · cases hrotate
        · split at hrotate <;> cases hrotate
  | @all session preserveFamily now hmem hfamily hother =>
    subst hfamily
    exact ⟨(revoke_move _ now now).inv hs, revokeAll_dead hs hmem hother now⟩

/-- A family that has ended is over: whatever happens later, none of its refresh tokens opens it and no
access token of it is accepted. -/
theorem ended_family_stays_ended (hlifetime : 0 < env.lifetime)
    {events later : List (Event Token Hash)} {s' : State Hash} {family : Family}
    (h : Steps (Happens env) empty events s) (hends : Ends env s family s') (hlater : Steps (Happens env) s' later t) :
    (∀ token userAgent now t' rotation, rotateRefreshToken env t token userAgent now =
      (t', .ok rotation) → rotation.family ≠ family) ∧
      ∀ claims userId user now, claims.sessionFamily = some family →
      validateAccessClaims t claims userId user now = false := by
  obtain ⟨ht, hdead⟩ := run_dead hlater (hends.dead (run_inv h empty_inv))
  refine ⟨fun token userAgent now t' rotation hrotate heq => ?_, fun claims userId user now hclaims => ?_⟩
  · obtain ⟨row, hrow, -, hfamily, -, hlive, -⟩ := (rotate_opens hlifetime ht hrotate).live
    have hmove : Move now t (rotateRefreshToken env t token userAgent now).1 := rotate_move ht token userAgent now now
    rw [hrotate] at hmove
    exact (hmove.dead hdead).2 row hrow (hfamily.trans heq) hlive
  · simp only [validateAccessClaims, hclaims, Option.all_some, hdead.inactive userId now, Bool.and_false]

/-! ### A token that is presented twice -/

/-- The rows that expire after `deadline` are still there, those that are revoked as they were. -/
def Survives (deadline : Int) (s t : State Hash) : Prop :=
  ∀ r ∈ s.rows, deadline < r.expiresAt → ∃ r' ∈ t.rows, r'.tokenHash = r.tokenHash ∧
    r'.familyId = r.familyId ∧ r'.userId = r.userId ∧
    r'.expiresAt = r.expiresAt ∧ (r.revokedAt ≠ none → r' = r)

omit [DecidableEq Hash] in
theorem Survives.refl (deadline : Int) (s : State Hash) : Survives deadline s s :=
    fun r hr _ => ⟨r, hr, rfl, rfl, rfl, rfl, fun _ => rfl⟩

omit [DecidableEq Hash] in
theorem Survives.trans {deadline : Int} {u : State Hash} (h : Survives deadline s t)
    (h' : Survives deadline t u) : Survives deadline s u := by
  intro r hr hvalid
  obtain ⟨r₁, hr₁, hhash, hfamily, huser, hexpires, hkept⟩ := h r hr hvalid
  obtain ⟨r₂, hr₂, hhash', hfamily', huser', hexpires', hkept'⟩ := h' r₁ hr₁ (hexpires ▸ hvalid)
  refine ⟨r₂, hr₂, hhash'.trans hhash, hfamily'.trans hfamily, huser'.trans huser,
    hexpires'.trans hexpires, fun hrevoked => ?_⟩
  obtain rfl := hkept hrevoked
  exact hkept' hrevoked

omit [DecidableEq Hash] in
theorem Retires.survives {f : Session Hash → Session Hash} (hf : Retires s.rows f) (deadline : Int)
    (rest : List (Session Hash)) (users : UserId → Option User) :
    Survives deadline s {s with users, rows := s.rows.map f ++ rest} := fun r hr _ =>
  ⟨f r, List.mem_append_left _ (List.mem_map_of_mem hr), hf.tokenHash r, hf.familyId r, hf.userId r,
    hf.expiresAt r, hf.kept r hr⟩

omit [DecidableEq Hash] in
/-- Rows that have not expired survive a move, ended or not. -/
theorem Move.survives {now : Int} (h : Move now s t) : Survives now s t := by
  cases h with
  | retires users hf => simpa using hf.survives now [] users
  | drops p hgone =>
    intro r hr hvalid
    have hp : p r = true := by
      by_contra hp
      exact absurd (hgone r hr (Bool.not_eq_true _ ▸ hp)) (Int.not_lt.mpr (Int.le_of_lt hvalid))
    exact ⟨r, List.mem_filter.mpr ⟨hr, hp⟩, rfl, rfl, rfl, rfl, fun _ => rfl⟩
  | begins row => exact fun r hr _ => ⟨r, List.mem_append_left _ hr, rfl, rfl, rfl, rfl, fun _ => rfl⟩
  | replaces session row hf => exact hf.survives now [row] s.users

/-- What has happened by the deadline. -/
abbrev By (env : Env Token Hash) (deadline : Int) : State Hash → Event Token Hash → State Hash → Prop :=
  Guarded (Happens env) fun _ event => ∀ n, event.now = some n → n ≤ deadline

/-- Rows survive a run while they have not expired. -/
theorem run_survives {deadline : Int} {events : List (Event Token Hash)}
    (h : Steps (By env deadline) s events t) (hs : Inv s) :
    Inv t ∧ Survives deadline s t := by
  refine h.invariant (P := fun u => Inv u ∧ Survives deadline s u) (fun u event v hu hstep => ?_) ⟨hs, .refl deadline s⟩
  exact ⟨apply_inv hu.1 hstep.2, hu.2.trans (apply_move hu.1 hstep.2 hstep.1).survives⟩

/-- The rotation of a live token. -/
theorem rotate_live (hs : Inv s) {session : Session Hash} {token : Token} {userAgent : List Char}
    {now : Int} {s' : State Hash} {rotation : Rotation Token}
    (hmem : session ∈ s.rows) (hhash : session.tokenHash = env.hashToken token) (hlive : session.revokedAt = none)
    (h : rotateRefreshToken env s token userAgent now = (s', .ok rotation)) :
    s' = rotated env s session token userAgent now ∧
        rotation = ⟨session.userId, env.deriveReplacement token, session.familyId⟩ := by
  have hfind := hs.find? hmem
  rw [hhash] at hfind
  rw [rotateRefreshToken, hfind] at h
  dsimp only at h
  rw [hlive] at h
  dsimp only at h
  split at h
  · cases h
  · split at h
    · cases h
    · split at h <;> cases h
      exact ⟨rfl, rfl⟩

omit [DecidableEq Hash] in
/-- A revocation that selects no live row. -/
theorem revoke_revoked {p : Session Hash → Bool} (h : ∀ r ∈ s.rows, p r = true → r.revokedAt ≠ none)
    (now : Int) : revoke p now s = s := by
  have hrows : (s.rows.map fun row => if p row &&
      row.revokedAt.isNone then {row with revokedAt := some now} else row) = s.rows := by
    refine (List.map_congr_left fun row hrow => if_neg fun hboth => ?_).trans (List.map_id' _)
    obtain ⟨hselected, hlive⟩ := (Bool.and_eq_true _ _).mp hboth
    exact h row hrow hselected (Option.isNone_iff_eq_none.mp hlive)
  rw [revoke, hrows]

/-- The row of a token that has been rotated. -/
def Session.used (session : Session Hash) (now : Int) : Session Hash :=
    {session with lastUsedAt := some now, revokedAt := some now}

/-- A second request with a token gets the answer of the first: in time, for an active account, with a live
replacement. -/
def Again (env : Env Token Hash) (t : State Hash) (rotation : Rotation Token) (now now' : Int) : Prop :=
  now' - now ≤ env.grace ∧ activeUser t rotation.user = true ∧ ∃ row ∈ t.rows,
    row.tokenHash = env.hashToken rotation.token ∧ row.familyId = rotation.family ∧
    row.revokedAt = none ∧ now' < row.expiresAt

/-- There is a replacement where the derived token has a live row in the family. -/
theorem replacement?_isSome (ht : Inv t) {session : Session Hash} {token : Token} {now : Int} :
    (replacement? env t session token now).isSome ↔ ∃ row ∈ t.rows,
    row.tokenHash = env.hashToken (env.deriveReplacement token) ∧
      row.familyId = session.familyId ∧ row.revokedAt = none ∧ now < row.expiresAt := by
  constructor
  · intro hsome
    obtain ⟨row, hrow⟩ := Option.isSome_iff_exists.mp hsome
    exact ⟨row, replacement?_eq_some hrow⟩
  · rintro ⟨row, hmem, hhash, hfamily, hlive, hvalid⟩
    rw [replacement?, ← hhash, ht.find? hmem, Option.isSome_filter, Option.any_some]
    simp [hfamily, hlive, hvalid]

/-- Two requests with one token. Before the token expires the second one gets what the first one got and
changes nothing, where `Again` holds; otherwise it ends the family. A token that has expired is refused and
changes nothing. -/
theorem concurrent_refresh {events later : List (Event Token Hash)} {session : Session Hash}
    {token : Token} {userAgent userAgent' : List Char} {now now' : Int}
    {s' : State Hash} {rotation : Rotation Token} (h : Steps (Happens env) empty events s) (hmem : session ∈ s.rows)
    (hhash : session.tokenHash = env.hashToken token) (hlive : session.revokedAt = none)
    (hrotate : rotateRefreshToken env s token userAgent now = (s', .ok rotation))
    (hlater : Steps (By env now') s' later t) :
    (now' < session.expiresAt → Again env t rotation now now' →
      rotateRefreshToken env t token userAgent' now' = (t, .ok rotation)) ∧
      (now' < session.expiresAt → ¬Again env t rotation now now' →
        ∃ t', rotateRefreshToken env t token userAgent' now' = (t', .error .replay) ∧ Dead rotation.family t') ∧
      (session.expiresAt ≤ now' → session.used now ∈ t.rows →
          rotateRefreshToken env t token userAgent' now' = (t, .error .expired)) := by
  have hs := run_inv h empty_inv
  obtain ⟨rfl, rfl⟩ := rotate_live hs hmem hhash hlive hrotate
  have hs' : Inv (rotated env s session token userAgent now) := by
    have hmove : Move now s (rotateRefreshToken env s token userAgent now).1 := rotate_move hs token userAgent now now
    rw [hrotate] at hmove
    exact hmove.inv hs
  obtain ⟨ht, hsurvives⟩ := run_survives hlater hs'
  have hfind : session.used now ∈ t.rows →
      find? t (env.hashToken token) = some (session.used now) := fun hr => hhash ▸ ht.find? hr
  -- The row of the first rotation is there as long as it is valid.
  have hkept : now' < session.expiresAt → session.used now ∈ t.rows := fun hvalid => by
    have hused : session.used now ∈ (rotated env s session token userAgent now).rows := by
      refine List.mem_append_left _ (List.mem_map.mpr ⟨session, hmem, ?_⟩)
      rw [if_pos rfl, Session.used]
    obtain ⟨r, hr, -, -, -, -, hsame⟩ := hsurvives _ hused hvalid
    obtain rfl := hsame nofun
    exact hr
  have hvalidRow : ∀ hvalid : now' < session.expiresAt, ¬(session.used now).expiresAt ≤ now' :=
      fun hvalid => Int.not_le.mpr hvalid
  have hagain :
      (now' - now ≤ env.grace ∧ (replacement? env t (session.used now) token now').isSome ∧
      activeUser t session.userId = true) ↔
      Again env t ⟨session.userId, env.deriveReplacement token, session.familyId⟩ now now' := by
    rw [replacement?_isSome ht, Again, Session.used, and_congr_right_iff]
    exact fun _ => and_comm
  refine ⟨fun hvalid hyes => ?_, fun hvalid hnot => ?_, fun hexpired hr => ?_⟩
  · rw [rotateRefreshToken, hfind (hkept hvalid)]
    simp only [if_neg (hvalidRow hvalid)]
    exact if_pos (hagain.mpr hyes)
  · rw [rotateRefreshToken, hfind (hkept hvalid)]
    simp only [if_neg (hvalidRow hvalid)]
    exact ⟨_, if_neg fun hyes => hnot (hagain.mp hyes),
      revoke_dead (ht.issued _ (hkept hvalid)) (fun _ _ hsame => decide_eq_true hsame) now'⟩
  · have hrevoked : ∀ r ∈ t.rows, decide (r.tokenHash = (session.used now).tokenHash) = true →
        r.revokedAt ≠ none := fun r hmem' hsame => by
      rw [List.inj_on_of_nodup_map ht.hashes hmem' hr (of_decide_eq_true hsame), Session.used]
      exact nofun
    rw [rotateRefreshToken, hfind hr]
    exact (if_pos hexpired).trans (by rw [revoke_revoked hrevoked])

/-! ### Accounts -/

/-- The account stays, and its version only rises. -/
def Rises (userId : UserId) (s t : State Hash) : Prop :=
  ∀ user, s.users userId = some user → ∃ user', t.users userId = some user' ∧ user.authVersion ≤ user'.authVersion

omit [DecidableEq Hash] in
theorem Rises.refl (userId : UserId) (s : State Hash) : Rises userId s s :=
    fun user huser => ⟨user, huser, Nat.le_refl _⟩

omit [DecidableEq Hash] in
theorem Rises.trans {userId : UserId} {u : State Hash} (h : Rises userId s t)
    (h' : Rises userId t u) : Rises userId s u := by
  intro user huser
  obtain ⟨user', huser', hle⟩ := h user huser
  obtain ⟨user'', huser'', hle'⟩ := h' user' huser'
  exact ⟨user'', huser'', Nat.le_trans hle hle'⟩

omit [DecidableEq Hash] in
theorem rises_of_same {userId : UserId} (h : t.users userId = s.users userId) : Rises userId s t := fun user huser =>
  ⟨user, by rw [h, huser], Nat.le_refl _⟩

/-- An update of the account that ends sessions writes over the version that it has read: no other one came between. -/
def Event.current (userId : UserId) (s : State Hash) : Event Token Hash → Prop
  | .update owner read _ password isActive _ => owner = userId → revokesSessions password isActive = true →
      ∀ user, s.users userId = some user → user.authVersion = read.authVersion
  | _ => True

/-- The updates of the account that end sessions do not overlap. -/
abbrev Apart (env : Env Token Hash) (userId : UserId) : State Hash → Event Token Hash → State Hash → Prop :=
  Guarded (Happens env) fun s event => event.current userId s

omit [DecidableEq Hash] in
/-- An update writes its account, with the version it has read, raised where sessions end. -/
theorem updateUser_users {userId : UserId} {user : User} (huser : s.users userId = some user)
    (read : User) (email : Option String)
    (password : Bool) (isActive : Option Bool) (now : Int) :
    (updateUser s userId read email password isActive now).users =
      Function.update s.users userId (some (user.updated read email password isActive)) := by
  rw [updateUser, huser]
  dsimp only
  split <;> rfl

/-- An update that writes over what it has read counts the version on, where it ends sessions. -/
theorem User.updated_version {user read : User} {password : Bool} {isActive : Option Bool}
    (h : revokesSessions password isActive = true → user.authVersion = read.authVersion) (email : Option String) :
    (user.updated read email password isActive).authVersion =
    user.authVersion + (revokesSessions password isActive).toNat := by
  cases hends : revokesSessions password isActive with
  | true => simp [User.updated, hends, h hends]
  | false => simp [User.updated, hends]

/-- A rotation writes no account. -/
theorem rotate_users (token : Token) (userAgent : List Char) (now : Int) :
    (rotateRefreshToken env s token userAgent now).1.users = s.users := by
  unfold rotateRefreshToken
  repeat' split
  all_goals rfl

/-- The version of an account never falls, where updates that end sessions have read the last one. -/
theorem apply_rises {userId : UserId} {event : Event Token Hash} (hcurrent : event.current userId s)
    (h : apply env s event = some t) :
    Rises userId s t := by
  cases event with
  | create owner token family userAgent now =>
    obtain ⟨-, rfl⟩ : family ∉ s.issued ∧ _ = t := by simpa [apply] using h
    refine rises_of_same ?_
    unfold createRefreshSession
    repeat' split
    all_goals rfl
  | rotate token userAgent now =>
    cases h
    exact rises_of_same (congrFun (rotate_users token userAgent now) userId)
  | logout token now =>
    cases h
    refine rises_of_same ?_
    unfold revokeRefreshToken
    split <;> rfl
  | revokeAll owner preserveFamily now =>
    cases h
    exact rises_of_same rfl
  | purge chosen now =>
    cases h
    exact rises_of_same rfl
  | register owner user =>
    obtain ⟨hnew, rfl⟩ : s.users owner = none ∧ _ = t := by simpa [apply] using h
    intro held hheld
    refine ⟨held, ?_, Nat.le_refl _⟩
    rw [← hheld]
    exact Function.update_of_ne (fun hsame => by rw [hsame, hnew] at hheld; cases hheld) _ _
  | update owner read email password isActive now =>
    cases h
    by_cases hsame : owner = userId
    case neg =>
      refine rises_of_same ?_
      cases howner : s.users owner with
      | none => rw [updateUser, howner]
      | some user =>
        rw [updateUser_users howner]
        exact Function.update_of_ne (Ne.symm hsame) _ _
    case pos =>
      subst hsame
      intro user huser
      refine ⟨user.updated read email password isActive, by rw [updateUser_users huser, Function.update_self], ?_⟩
      rw [User.updated_version fun hends => hcurrent rfl hends user huser]
      exact Nat.le_add_right _ _

/-- The version of an account never falls over such a run. -/
theorem run_rises {userId : UserId} {events : List (Event Token Hash)}
    (h : Steps (Apart env userId) s events t) : Rises userId s t :=
  h.related (R := Rises userId) (.refl userId) (fun _ _ _ => .trans) fun _ _ _ hstep => apply_rises hstep.1 hstep.2

/-- Once the password of an account is changed or the account is deactivated, no access token that was issued before is
accepted again, as long as no two such updates of the account overlap. Where one does, and has read the version before
the last, it writes the version that is there, so that an access token of no session stays accepted. -/
theorem outdated_access_refused {userId : UserId} {user : User} (huser : s.users userId = some user) :
    (∀ {events later : List (Event Token Hash)} {family : Option Family} {s₁ s₂ t : State Hash} {read user' : User}
      {email : Option String} {password : Bool} {isActive : Option Bool} {now : Int},
      Steps (Apart env userId) s events s₁ →
        (∀ held, s₁.users userId = some held → held.authVersion = read.authVersion) →
      s₂ = updateUser s₁ userId read email password isActive now → revokesSessions password isActive = true →
      Steps (Apart env userId) s₂ later t → t.users userId = some user' →
        ∀ now', validateAccessClaims t (claimsFor userId user family) userId user' now' = false) ∧
      ∀ {read : User} {password : Bool} {isActive : Option Bool}, read.authVersion + 1 = user.authVersion →
        revokesSessions password isActive = true → ∀ now now',
          ∃ user', (updateUser s userId read none password isActive now).users userId = some user' ∧
            validateAccessClaims (updateUser s userId read none password isActive now)
                (claimsFor userId user none) userId user' now' = true := by
  refine ⟨fun {events later family s₁ s₂ t read user' email password isActive now} h hread hupdate
    hends hlater huser' now' => ?_,
    fun {read password isActive} hbehind hends now now' => ?_⟩
  · obtain ⟨user₁, huser₁, hle⟩ := run_rises h user huser
    have huser₂ : s₂.users userId = some (user₁.updated read email password isActive) := by
      rw [hupdate, updateUser_users huser₁, Function.update_self]
    obtain ⟨held, hheld, hle'⟩ := run_rises hlater _ huser₂
    obtain rfl : held = user' := Option.some.inj (hheld.symm.trans huser')
    rw [User.updated_version fun _ => hread user₁ huser₁, hends, Bool.toNat_true] at hle'
    have hversion : (claimsFor userId user family).authVersion ≠ held.authVersion := by
      show user.authVersion ≠ held.authVersion
      omega
    rw [validateAccessClaims, decide_eq_false hversion]
    rfl
  · refine ⟨user.updated read none password isActive, by rw [updateUser_users huser, Function.update_self], ?_⟩
    simp [validateAccessClaims, claimsFor, User.updated, hends, hbehind]

end Runs

/-! A browser that signs in, refreshes its session twice at once, and signs out. -/

def sample : Env Nat Nat := ⟨id, (· + 100), 1000, 10⟩
def alice : User := ⟨"alice", true, 0⟩
def signsIn : List (Event Nat Nat) := [.register 1 alice, .create 1 7 3 [] 0]
def signedIn : State Nat := ⟨Function.update (fun _ => none) 1 (some alice), [⟨1, 3, 7, 1000, none, none, none⟩], [3]⟩
def refreshed : State Nat := (rotateRefreshToken sample signedIn 7 [] 5).1

theorem signs_in : Steps (Happens sample) empty signsIn signedIn := .of_foldlM rfl

theorem sample_live : Opens sample signedIn refreshed 7 5 ⟨1, 107, 3⟩ :=
    ((one_live_token (by decide) signs_in).2 7 [] 5 refreshed _ rfl).1

theorem sample_ended : validateAccessClaims (revokeRefreshToken sample signedIn 7 6).1
    (claimsFor 1 alice (some 3)) 1 alice 8 = false :=
  (ended_family_stays_ended (by decide) signs_in (.logout (List.mem_singleton_self _) rfl rfl)
    (.nil _)).2 _ 1 alice 8 rfl

theorem sample_twice : rotateRefreshToken sample refreshed 7 [] 9 = (refreshed, .ok ⟨1, 107, 3⟩) :=
  have hfirst : rotateRefreshToken sample signedIn 7 [] 5 = (refreshed, .ok ⟨1, 107, 3⟩) := rfl
  have hlive : Again sample refreshed ⟨1, 107, 3⟩ 5 9 :=
    ⟨by decide, rfl, ⟨1, 3, 107, 1005, none, none, none⟩,
      List.mem_append_right _ (List.mem_singleton_self _), rfl, rfl, rfl, by decide⟩
  (concurrent_refresh signs_in (List.mem_singleton_self _) rfl rfl hfirst (.nil _)).1 (by decide) hlive

theorem sample_outdated : validateAccessClaims (updateUser signedIn 1 alice none true none 6)
    (claimsFor 1 alice none) 1 ⟨"alice", true, 1⟩ 8 = false :=
  have hnothing : ∀ s, Steps (Apart sample 1) s [] s := .nil
  have halice : signedIn.users 1 = some alice := rfl
  (outdated_access_refused halice).1 (hnothing signedIn) (fun _ hheld => by cases hheld; rfl) rfl rfl (hnothing _) rfl 8

end Galaris.Core.RefreshSessions
