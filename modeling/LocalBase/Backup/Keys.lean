import LocalBase.Auth.Permissions
import Mathlib.Data.List.AList
import Mathlib.Data.List.Sort

/-!
# A restore's comparison of keys

A restore sets the keys of a backup, which it has staged, against those of the
root it replaces, key by key. The keys of a table come in any order: a table is
any list of rows with different ids.

`unmarshal` is how a list of permissions reads, and `fails` says on which rows a
statement on the staged database goes wrong.
-/

namespace LocalBase.Backup

open Auth

/-- What a restore compares of a key. -/
structure ComparedKey where
  name : String
  keyPrefix : String
  hash : String
  rotated : String
  /-- Not set on a root older than key permissions. -/
  scopes : Option String
  expires : Option String
  revoked : Option String
deriving DecidableEq

abbrev Keys := AList fun _ : String => ComparedKey

structure KeyChange where
  id : String
  name : String
  why : String := ""

/-- What a restore would do, of keys and of people. -/
structure Report where
  revocationsKept : Nat := 0
  keysKept : List KeyChange := []
  keysLeftOut : List KeyChange := []
  keysBroughtBack : List KeyChange := []
  keysLost : List KeyChange := []
  keysHeldBack : List KeyChange := []
  returningUsers : Nat := 0
  userStatusesKept : Nat := 0
  usersChanged : Nat := 0

inductive CompareError
  /-- A statement on the staged database failed. -/
  | statement (id : String)
  | refused (why : String)

def revokedHere : String := "revoked"

def revokedAndBack : String := "revoked on this root, and would work again"

/-- How a backup's copy of a key differs from the one on the root, in words. -/
def ComparedKey.differences (k backed : ComparedKey) : List String :=
  (if k.revoked.isSome && backed.revoked.isNone then [revokedHere] else []) ++
  (if k.revoked.isNone && backed.revoked.isSome then
    ["revoked in this backup and not on this root"] else []) ++
  (if k.hash ≠ backed.hash ∨ k.keyPrefix ≠ backed.keyPrefix ∨ k.rotated ≠ backed.rotated then
    ["rotated"] else []) ++
  (if k.scopes.isSome ∧ k.scopes ≠ backed.scopes then ["permissions changed"] else []) ++
  (if k.expires ≠ backed.expires then ["expiry changed"] else []) ++
  (if k.name ≠ backed.name then ["renamed"] else [])

/-- How a key named to come back differs. -/
def broughtBackWords : List String → String
  | [] => joinComma []
  | w :: ws => joinComma ((if w = revokedHere then revokedAndBack else w) :: ws)

/-- What the report says a list of permissions comes to. -/
def permissionsText (scopes : List String) : String :=
  if scopes = [] then "no permissions" else joinComma scopes

section

variable (unmarshal : String → Option (List String))

/-- A key's permissions. A list that does not read is shown as it stands. -/
def ComparedKey.scopeList (k : ComparedKey) : List String :=
  (unmarshal (k.scopes.getD "")).getD [k.scopes.getD ""]

/-- What a key may do beyond what a new key gets. -/
def ComparedKey.beyondRequests (k : ComparedKey) : List String :=
  ((k.scopeList unmarshal).filter fun s => s ∉ defaultKeyScopes).insertionSort (· ≤ ·)

end

/-! ## The loops -/

/-- Where a comparison is: the staged keys, the names it used, and its report. -/
structure Comparing where
  staged : Keys
  used : List String := []
  report : Report

section

variable (unmarshal : String → Option (List String)) (printable : String → String)
  (fails : String → Bool) (bringBack : List String)

/-- `DELETE FROM api_keys WHERE id = ?`. -/
def deleteKey (staged : Keys) (id : String) : Except CompareError Keys :=
  if fails id then .error (.statement id) else .ok (staged.erase id)

/-- The `UPDATE` of a key to what the root has of it. The permissions stay the
file's where the root cannot say. -/
def updateKey (staged : Keys) (id : String) (was : ComparedKey) : Except CompareError Keys :=
  if fails id then .error (.statement id)
  else match staged.lookup id with
    | none => .ok staged
    | some row =>
      .ok (staged.insert id { was with scopes := was.scopes.orElse fun _ => row.scopes })

def Comparing.broughtBack (c : Comparing) (id name why : String) : Comparing :=
  { c with
    used := id :: c.used
    report := { c.report with keysBroughtBack := c.report.keysBroughtBack ++ [⟨id, name, why⟩] } }

/-- Keeps a key that can do more than make requests out, unless it is named. -/
def holdBack (c : Comparing) (id : String) (k : ComparedKey) (beyond : List String) :
    Except CompareError Comparing :=
  if id ∈ bringBack then .ok (c.broughtBack id k.name ("can do " ++ permissionsText beyond))
  else do
    let staged ← deleteKey fails c.staged id
    let change : KeyChange := ⟨id, k.name, permissionsText beyond⟩
    return { c with
      staged := staged
      report := { c.report with keysHeldBack := c.report.keysHeldBack ++ [change] } }

/-- Refuses a name that did nothing. -/
def checkKeyNames (used : List String) : Except CompareError Unit :=
  match bringBack.find? fun id => id ∉ used with
  | none => .ok ()
  | some id => .error (.refused ("--bring-back-key " ++ printable id ++
      ": there's nothing to bring back. Either this backup doesn't hold that key, or it " ++
      "would change nothing here."))

/-- One round of `holdBackKeys`. -/
def holdBackKey (c : Comparing) (r : Σ _ : String, ComparedKey) :
    Except CompareError Comparing :=
  -- A revoked key does nothing, here or not.
  if r.2.revoked.isSome then .ok c
  else if r.2.beyondRequests unmarshal = [] then .ok c
  else holdBack fails bringBack c r.1 r.2 (r.2.beyondRequests unmarshal)

/-- For a restore with no keys of a root's to set a backup's against. -/
def holdBackKeys (staged : Keys) (report : Report) : Except CompareError Comparing := do
  let c ← staged.entries.foldlM (holdBackKey unmarshal fails bringBack)
    { staged := staged, report := report }
  checkKeyNames printable bringBack c.used
  return c

/-- A key the root does not have. -/
def compareMissing (c : Comparing) (id : String) (k : ComparedKey) :
    Except CompareError Comparing :=
  if k.revoked.isSome then .ok c
  else if id ∈ bringBack then .ok (c.broughtBack id k.name "this root doesn't have it")
  else do
    let staged ← deleteKey fails c.staged id
    let change : KeyChange := ⟨id, k.name, permissionsText (k.scopeList unmarshal)⟩
    return { c with
      staged := staged
      report := { c.report with keysLeftOut := c.report.keysLeftOut ++ [change] } }

/-- A key that both have, and the root can vouch for. -/
def compareBoth (c : Comparing) (id : String) (was k : ComparedKey) :
    Except CompareError Comparing :=
  let why := was.differences k
  if why = [] then .ok c
  else if id ∈ bringBack then .ok (c.broughtBack id k.name (broughtBackWords why))
  else do
    let staged ← updateKey fails c.staged id was
    return { c with
      staged := staged
      report := { c.report with
        keysKept := c.report.keysKept ++ [⟨id, was.name, joinComma why⟩]
        revocationsKept := c.report.revocationsKept +
          if was.revoked.isSome && k.revoked.isNone then 1 else 0 } }

/-- One round of `compareKeys`. -/
def compareKey (now : Keys) (c : Comparing) (r : Σ _ : String, ComparedKey) :
    Except CompareError Comparing :=
  match now.lookup r.1 with
  | none => compareMissing unmarshal fails bringBack c r.1 r.2
  | some was =>
    -- A root that cannot say what its key may do cannot vouch for what a file says it may.
    if was.scopes = none ∧ r.2.revoked = none ∧ r.2.beyondRequests unmarshal ≠ [] then
      holdBack fails bringBack c r.1 r.2 (r.2.beyondRequests unmarshal)
    else compareBoth fails bringBack c r.1 was r.2

/-- The root's keys that the backup does not have, and that stop working. -/
def keysLost (now backed : Keys) : List KeyChange :=
  (now.entries.filter fun r => r.1 ∉ backed && r.2.revoked.isNone).map fun r =>
    { id := r.1, name := r.2.name }

/-- Sets the backup's keys against the root's, and says whether it could set all
of them. -/
def compareKeys (now staged : Keys) (report : Report) :
    Except CompareError (Comparing × Bool) :=
  if now.entries = [] then do
    let c ← holdBackKeys unmarshal printable fails bringBack staged report
    return (c, false)
  else do
    let c ← staged.entries.foldlM (compareKey unmarshal fails bringBack now)
      { staged := staged, report := report }
    checkKeyNames printable bringBack c.used
    let lost := c.report.keysLost ++ keysLost now staged
    return ({ c with report := { c.report with keysLost := lost } },
      now.entries.all fun r => r.2.scopes.isSome)

end

end LocalBase.Backup
