import LocalBase.Lib.Crew
import Mathlib.Data.List.Sort

/-!
# One-time local sign-in

The command line issues a link, and a browser on this computer spends it for a
session. Both work on one database, a statement or a transaction at a time: between
two of one's statements, the others go on with theirs, and a process can be gone.

A token is known to the database by its hash alone. What is drawn at random was never
drawn before. Whether a statement fails, also after it took effect, is not for the
program to choose, and neither is what a clock says. Times are in milliseconds.
-/

namespace LocalBase.Auth.Local

open Program

abbrev Pid : Type := Nat

abbrev Err : Type := String

def localLinkTTL : Int := 600000

def localIdleTTL : Int := 43200000

def localAbsoluteTTL : Int := 604800000

def sessionTouchEvery : Int := 3600000

def maxLocalSessions : Nat := 5

/-- `local_login_links` -/
structure LinkRow where
  tokenHash : String
  createdAt : Int
  expiresAt : Int
deriving DecidableEq

/-- `local_sessions` -/
structure SessionRow where
  id : String
  tokenHash : String
  createdAt : Int
  lastSeenAt : Int
  idleExpiresAt : Int
  absoluteExpiresAt : Int
deriving DecidableEq

/-- A session that was stored, and the link that its process had spent. -/
structure Made where
  tokenHash : String
  createdAt : Int
  link : Option String
deriving DecidableEq

/-- The tables, and what happened: what was drawn, and which process has not stored it
yet, the links that were issued, those that were spent and when, the link that a process
has spent and made no session of yet, the sessions that were made, when one was found
that was due to be touched, and how many were stored since the last trim. -/
structure World where
  links : List LinkRow := []
  sessions : List SessionRow := []
  drawn : List String := []
  holder : String → Option Pid := fun _ => none
  issued : List LinkRow := []
  spent : List (String × Int) := []
  credit : Pid → Option String := fun _ => none
  made : List Made := []
  seen : List (String × Int) := []
  untrimmed : Nat := 0

inductive Op where
  | now
  | randomToken
  | randomId
  /-- The transaction that deletes every link and inserts this one. -/
  | replaceLink (row : LinkRow)
  | link
  | spend (hash : String) (now : Int)
  | tidy (now : Int)
  | insert (row : SessionRow)
  | trim
  | session (hash : String)
  | drop (hash : String)
  | touch (hash : String) (now idle : Int)
  | list (now : Int)
  | revoke (id : String)
  | clearLinks
  | clearSessions
deriving DecidableEq

/-- What an operation answers. Where a count is answered, it is of the rows that a
statement deleted. -/
abbrev Answer : Op → Type
  | .now => Int
  | .randomToken | .randomId => String
  | .link => Except Err (Option String)
  | .session _ => Except Err (Option SessionRow)
  | .list _ => Except Err (List SessionRow)
  | .spend _ _ | .revoke _ | .clearLinks | .clearSessions => Except Err Nat
  | .replaceLink _ | .tidy _ | .insert _ | .trim | .drop _ | .touch _ _ _ => Option Err

/-- What the world decides. `lost`: the statement took effect and failed all the same. -/
inductive Choice where
  | reads (t : Int)
  | draws (s : String)
  | ok
  | fails (err : Err)
  | lost (err : Err)
deriving DecidableEq

/-- `ORDER BY last_seen_at DESC, created_at DESC, id` -/
def SessionRow.before (a b : SessionRow) : Prop :=
  b.lastSeenAt < a.lastSeenAt ∨ (a.lastSeenAt = b.lastSeenAt ∧
    (b.createdAt < a.createdAt ∨ (a.createdAt = b.createdAt ∧ a.id ≤ b.id)))

instance : DecidableRel SessionRow.before := fun _ _ => inferInstanceAs (Decidable (_ ∨ _))

/-- `token_hash = ? AND expires_at > ?` -/
def LinkRow.spends (l : LinkRow) (h : String) (now : Int) : Bool :=
  l.tokenHash = h && now < l.expiresAt

def SessionRow.live (r : SessionRow) (now : Int) : Bool :=
  now < r.idleExpiresAt && now < r.absoluteExpiresAt

namespace World

/-- The ids of the sessions used last. -/
def keep (w : World) : List String :=
  ((w.sessions.insertionSort SessionRow.before).take maxLocalSessions).map SessionRow.id

/-- Some session has the id or the token already. -/
def taken (w : World) (row : SessionRow) : Bool :=
  w.sessions.any fun r => r.id = row.id || r.tokenHash = row.tokenHash

def draw (w : World) (p : Pid) (h : String) : World :=
  { w with drawn := h :: w.drawn, holder := Function.update w.holder h (some p) }

def replaceLink (w : World) (row : LinkRow) : World :=
  { w with
    links := [row]
    issued := row :: w.issued
    holder := Function.update w.holder row.tokenHash none }

/-- The link is gone, and its process may make a session. -/
def spend (w : World) (p : Pid) (h : String) (now : Int) : World :=
  if w.links.any (·.spends h now) then
    { w with
      links := w.links.filter fun l => !l.spends h now
      spent := (h, now) :: w.spent
      credit := Function.update w.credit p (some h) }
  else w

def insert (w : World) (p : Pid) (row : SessionRow) : World :=
  { w with
    sessions := row :: w.sessions
    holder := Function.update w.holder row.tokenHash none
    made := ⟨row.tokenHash, row.createdAt, w.credit p⟩ :: w.made
    credit := Function.update w.credit p none
    untrimmed := w.untrimmed + 1 }

def trim (w : World) : World :=
  { w with sessions := w.sessions.filter fun r => r.id ∈ w.keep, untrimmed := 0 }

def touch (w : World) (h : String) (now idle : Int) : World :=
  { w with
    sessions := w.sessions.map fun r =>
      if r.tokenHash = h then { r with lastSeenAt := now, idleExpiresAt := idle } else r
    seen := (h, now) :: w.seen }

section
variable (w : World) (p : Pid) (h : String) (row : SessionRow) (l : LinkRow)

@[simp] theorem draw_holder :
    (w.draw p h).holder = Function.update w.holder h (some p) := rfl

@[simp] theorem replaceLink_holder :
    (w.replaceLink l).holder = Function.update w.holder l.tokenHash none := rfl

@[simp] theorem insert_holder :
    (w.insert p row).holder = Function.update w.holder row.tokenHash none := rfl

@[simp] theorem insert_credit :
    (w.insert p row).credit = Function.update w.credit p none := rfl

end

end World

section
variable (hashToken : String → String)

/-- What a process's statement answers and does, if it does not fail. -/
def does (p : Pid) (w : World) : (o : Op) → Option (Answer o × World)
  | .now | .randomToken | .randomId => none
  | .replaceLink row => some (none, w.replaceLink row)
  | .link => some (.ok (w.links.head?.map LinkRow.tokenHash), w)
  | .spend h now => some (.ok (w.links.countP (·.spends h now)), w.spend p h now)
  | .tidy now => some (none, { w with sessions := w.sessions.filter (SessionRow.live · now) })
  | .insert row =>
    if w.taken row then some (some "UNIQUE constraint failed", w)
    else some (none, w.insert p row)
  | .trim => some (none, w.trim)
  | .session h => some (.ok (w.sessions.find? fun r => r.tokenHash = h), w)
  | .drop h => some (none, { w with sessions := w.sessions.filter fun r => r.tokenHash ≠ h })
  | .touch h now idle => some (none, w.touch h now idle)
  | .list now =>
    some (.ok ((w.sessions.filter (SessionRow.live · now)).insertionSort SessionRow.before), w)
  | .revoke id =>
    some (.ok (w.sessions.countP fun r => r.id = id),
      { w with sessions := w.sessions.filter fun r => r.id ≠ id })
  | .clearLinks => some (.ok w.links.length, { w with links := [] })
  | .clearSessions => some (.ok w.sessions.length, { w with sessions := [] })

/-- The answer of a statement that failed. -/
def failed (err : Err) : (o : Op) → Option (Answer o)
  | .now | .randomToken | .randomId => none
  | .link | .session _ | .list _ | .spend _ _ | .revoke _ | .clearLinks | .clearSessions =>
    some (.error err)
  | .replaceLink _ | .tidy _ | .insert _ | .trim | .drop _ | .touch _ _ _ => some (some err)

/-- An operation under a choice; `none` where the choice is not one of its. -/
def act (p : Pid) (w : World) (o : Op) : Choice → Option (Answer o × World)
  | .reads t =>
    match o with
    | .now => some (t, w)
    | _ => none
  | .draws s =>
    match o with
    | .randomToken =>
      if hashToken s ∈ w.drawn then none else some (s, w.draw p (hashToken s))
    | .randomId => some ("ls_" ++ s, w)
    | _ => none
  | .ok => does p w o
  | .fails err => (failed err o).map (·, w)
  | .lost err => (failed err o).bind fun r => (does p w o).map fun a => (r, a.2)

/-! ## The program -/

abbrev Steps (α : Type) : Type := Prog Answer α

def now : Steps Int := perform Op.now
def randomToken : Steps String := perform Op.randomToken
def randomId : Steps String := perform Op.randomId
def replaceLink (row : LinkRow) : Steps (Option Err) := perform (Op.replaceLink row)
def link : Steps (Except Err (Option String)) := perform Op.link
def spend (h : String) (t : Int) : Steps (Except Err Nat) := perform (Op.spend h t)
def tidy (t : Int) : Steps (Option Err) := perform (Op.tidy t)
def insert (row : SessionRow) : Steps (Option Err) := perform (Op.insert row)
def trim : Steps (Option Err) := perform Op.trim
def session (h : String) : Steps (Except Err (Option SessionRow)) := perform (Op.session h)
def drop (h : String) : Steps (Option Err) := perform (Op.drop h)
def touch (h : String) (t idle : Int) : Steps (Option Err) := perform (Op.touch h t idle)
def list (t : Int) : Steps (Except Err (List SessionRow)) := perform (Op.list t)
def revoke (id : String) : Steps (Except Err Nat) := perform (Op.revoke id)
def clearLinks : Steps (Except Err Nat) := perform Op.clearLinks
def clearSessions : Steps (Except Err Nat) := perform Op.clearSessions

/-- A new link in the place of any unused one; its token. -/
def issueLocalLink : Steps (Except Err String) := do
  let token ← randomToken
  let t ← now
  match ← replaceLink ⟨hashToken token, t, t + localLinkTTL⟩ with
  | some err => return .error err
  | none => return .ok token

/-- Whether the token was spent. The delete is what makes a double submit win once. -/
def consumeLocalLink (token : String) : Steps (Except Err Bool) := do
  match ← link with
  | .error err => return .error err
  | .ok none => return .ok false
  | .ok (some stored) =>
    if stored ≠ hashToken token then return .ok false
    let t ← now
    match ← spend stored t with
    | .error err => return .error err
    | .ok n => return .ok (n = 1)

/-- A session's cookie token and id. -/
def createLocalSession : Steps (Except Err (String × String)) := do
  let t ← now
  let token ← randomToken
  let id ← randomId
  let _ ← tidy t
  match ← insert ⟨id, hashToken token, t, t, t + localIdleTTL, t + localAbsoluteTTL⟩ with
  | some err => return .error err
  | none =>
    match ← trim with
    | some err => return .error err
    | none => return .ok (token, id)

/-- How the form with a link's token is answered. -/
inductive Once where
  | busy
  | expired
  | failed
  | signedIn (token id : String)
deriving DecidableEq

/-- `localOnce`, for a form that passed its checks. -/
def localOnce (token : String) : Steps Once := do
  match ← consumeLocalLink hashToken token with
  | .error _ => return .busy
  | .ok false => return .expired
  | .ok true =>
    match ← createLocalSession hashToken with
    | .error _ => return .failed
    | .ok (token, id) => return .signedIn token id

structure LocalSession where
  id : String
  createdAt : Int
  lastSeenAt : Int
  expiresAt : Int
deriving DecidableEq

def SessionRow.record (r : SessionRow) : LocalSession :=
  ⟨r.id, r.createdAt, r.lastSeenAt, min r.idleExpiresAt r.absoluteExpiresAt⟩

/-- The live session of a cookie token. With the answer goes the time it was looked up
at, which the callers are not told. -/
def findLocalSession (token : String) : Steps (Int × Except Err (Option LocalSession)) := do
  let h := hashToken token
  let t ← now
  match ← session h with
  | .error err => return (t, .error err)
  | .ok none => return (t, .ok none)
  | .ok (some r) =>
    if r.idleExpiresAt ≤ t ∨ r.absoluteExpiresAt ≤ t then
      let _ ← drop h
      return (t, .ok none)
    else if sessionTouchEvery ≤ t - r.lastSeenAt then
      let _ ← touch h t (t + localIdleTTL)
      return (t, .ok (some { r with lastSeenAt := t, idleExpiresAt := t + localIdleTTL }.record))
    else return (t, .ok (some r.record))

def deleteLocalSession (token : String) : Steps (Option Err) := drop (hashToken token)

def listLocalSessions : Steps (Except Err (List LocalSession)) := do
  let t ← now
  match ← list t with
  | .error err => return .error err
  | .ok rows => return .ok (rows.map SessionRow.record)

def revokeLocalSession (id : String) : Steps (Except Err Bool) := do
  match ← revoke id with
  | .error err => return .error err
  | .ok n => return .ok (0 < n)

def revokeAllLocal : Steps (Except Err Nat) := do
  match ← clearLinks with
  | .error err => return .error err
  | .ok _ => clearSessions

/-! ## The calls -/

inductive Kind where
  | issue
  | once (token : String)
  | find (token : String)
  | signOut (token : String)
  | sessions
  | revoke (id : String)
  | revokeAll
deriving DecidableEq

inductive Result where
  | issued (r : Except Err String)
  | once (r : Once)
  | found (at' : Int) (r : Except Err (Option LocalSession))
  | signedOut (err : Option Err)
  | listed (r : Except Err (List LocalSession))
  | revoked (r : Except Err Bool)
  | revokedAll (r : Except Err Nat)

/-- A call keeps nothing in memory. -/
def call (k : Kind) (_ : Unit) : Steps (Result × Unit) :=
  match k with
  | .issue => do return (.issued (← issueLocalLink hashToken), ())
  | .once token => do return (.once (← localOnce hashToken token), ())
  | .find token => do
    let (t, r) ← findLocalSession hashToken token
    return (.found t r, ())
  | .signOut token => do return (.signedOut (← deleteLocalSession hashToken token), ())
  | .sessions => do return (.listed (← listLocalSessions), ())
  | .revoke id => do return (.revoked (← revokeLocalSession id), ())
  | .revokeAll => do return (.revokedAll (← revokeAllLocal), ())

/-- Any number of commands and requests on one database. -/
def callers : Crew Answer World Choice Kind Result Unit Pid Unit where
  sem := act hashToken
  start _ := ()
  call := call hashToken
  die _ w := w

end

/-- A database that was just made. -/
def Unused (w : World) : Prop := w = {}

end LocalBase.Auth.Local
