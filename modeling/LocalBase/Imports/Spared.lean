import LocalBase.Imports.Model

/-!
# An import deletes no record

Whatever it comes to: the deletion of a record is an operation of another call.
-/

namespace LocalBase.Imports

open Program Files

variable {α β : Type} {d : Dir} {x : Name} {i n : Nat} {b : Budget} {expected : Int}
  {plan : Plan} {f : PlannedFile} {a : Artifact}

def Op.deletes : Op → Bool
  | .deleteRecord _ => true
  | _ => false

abbrev Spares (left : Steps α) : Prop := left.Only fun o => o.deletes = false

theorem spares_op {o : Op} {k : Answer o → Steps α} (ho : o.deletes = false)
    (hk : ∀ r, Spares (k r)) : Spares (perform o >>= k) := ⟨ho, hk⟩

/-! ## Downloading -/

theorem budget_spares {done : Nat} : Spares (b.check done) := by
  unfold Budget.check
  split
  · trivial
  · split
    · trivial
    · refine spares_op rfl fun r => ?_
      cases r <;> trivial

theorem receive_spares {append : Bool} {broken : Option Err} (body : List Bytes) :
    ∀ {b : Budget} {done : Nat}, Spares (receive i append expected broken b done body) := by
  induction body with
  | nil => exact fun {_ _} => trivial
  | cons piece rest ih =>
    intro b done
    unfold receive
    split
    · exact ih
    · refine spares_op rfl fun r => ?_
      cases r with
      | some err => trivial
      | none =>
        dsimp only
        split
        · trivial
        · refine only_bind budget_spares fun r => ?_
          cases h : r.2 with
          | some err => trivial
          | none => exact ih

theorem save_spares {append : Bool} {offset : Nat} {resp : Response} :
    Spares (save d x append offset expected b resp) := by
  refine spares_op rfl fun r => ?_
  cases r with
  | error err => trivial
  | ok i =>
    refine only_bind (receive_spares _) fun werr => spares_op rfl fun cerr => ?_
    cases h : werr <|> cerr with
    | none => exact ⟨rfl, fun _ => trivial⟩
    | some err =>
      dsimp only
      split
      · exact ⟨rfl, fun _ => ⟨rfl, fun _ => trivial⟩⟩
      · trivial

theorem takesUp_spares {pinned : Bool} {offset : Nat} : Spares (takesUp d x pinned offset) := by
  refine spares_op rfl fun v => ?_
  split
  · exact ⟨rfl, fun _ => ⟨rfl, fun _ => trivial⟩⟩
  · trivial

theorem partialSize_spares : Spares (partialSize d x expected) := by
  refine spares_op rfl fun r => ?_
  dsimp only
  split
  · exact ⟨rfl, fun _ => trivial⟩
  · trivial

theorem noteValidator_spares {v : String} {resp : Response} :
    Spares (noteValidator d x v resp) := by
  unfold noteValidator
  split
  · exact ⟨rfl, fun _ => trivial⟩
  · trivial

theorem download_spares {url : String} {pinned : Bool} (attempts : Nat) :
    Spares (download url d x expected b pinned attempts) := by
  induction attempts with
  | zero => trivial
  | succ attempts ih =>
    unfold download
    refine only_bind partialSize_spares fun offset => ?_
    split
    · exact ⟨rfl, fun _ => trivial⟩
    · refine only_bind takesUp_spares fun up => spares_op rfl fun r => ?_
      cases r with
      | error err => trivial
      | ok resp =>
        dsimp only
        split
        · split
          · exact ⟨rfl, fun _ => ih⟩
          · split
            · exact ⟨rfl, fun _ => ⟨rfl, fun _ => ih⟩⟩
            · exact save_spares
        · split
          · exact only_bind noteValidator_spares fun _ => save_spares
          · split
            · exact ⟨rfl, fun _ => ih⟩
            · trivial

theorem copyPieces_spares {broken : Option Err} (body : List Bytes) :
    ∀ {b : Budget} {done : Nat}, Spares (copyPieces d x i broken b done body) := by
  have hclose : ∀ {r : Option Err}, Spares (close i >>= fun _ => pure r) := ⟨rfl, fun _ => trivial⟩
  induction body with
  | nil =>
    intro b done
    refine spares_op rfl fun r => ?_
    cases r with
    | some err => exact hclose
    | none => exact ⟨rfl, fun _ => trivial⟩
  | cons piece rest ih =>
    intro b done
    refine spares_op rfl fun r => ?_
    cases r with
    | some err => exact hclose
    | none =>
      dsimp only
      split
      · exact ih
      · refine spares_op rfl fun r => ?_
        cases r with
        | some err => exact hclose
        | none =>
          refine only_bind budget_spares fun r => ?_
          cases h : r.2 with
          | some err => exact ⟨rfl, fun _ => ⟨rfl, fun _ => trivial⟩⟩
          | none => exact ih

theorem bring_spares : Spares (bring plan d f) := by
  unfold bring
  split
  · refine spares_op rfl fun r => ?_
    cases r with
    | error err => trivial
    | ok found =>
      refine spares_op rfl fun r => ?_
      cases r with
      | error err => trivial
      | ok i => exact copyPieces_spares _
  · exact download_spares 2

/-! ## The files of a plan -/

theorem secure_spares : Spares (secure plan d f) := by
  refine spares_op rfl fun r => ?_
  cases r with
  | some size => trivial
  | none =>
    refine only_bind bring_spares fun r => ?_
    cases r with
    | some err => trivial
    | none => exact ⟨rfl, fun _ => trivial⟩

theorem readAll_spares (sizes : List Nat) : ∀ {got : Bytes}, Spares (readAll i got sizes) := by
  induction sizes with
  | nil =>
    refine fun {got} => spares_op rfl fun r => ?_
    cases r <;> trivial
  | cons k sizes ih =>
    refine fun {got} => spares_op rfl fun r => ?_
    cases r with
    | error err => trivial
    | ok piece => exact ih

section
variable {sum : Bytes → String} {short : String → String}

theorem check_spares : Spares (check sum d f) := by
  refine spares_op rfl fun r => ?_
  cases r with
  | none => trivial
  | some size =>
    dsimp only
    split
    · exact ⟨rfl, fun _ => trivial⟩
    · have hsum : Spares (fileSHA256 sum d f.filename) := by
        refine spares_op rfl fun r => ?_
        cases r with
        | error err => trivial
        | ok found =>
          refine only_bind (readAll_spares _) fun r => ?_
          cases r <;> trivial
      refine only_bind hsum fun r => ?_
      cases r with
      | error err => trivial
      | ok actual =>
        dsimp only
        split
        · exact ⟨rfl, fun _ => trivial⟩
        · trivial

theorem fetchFiles_spares (todo : List PlannedFile) : Spares (fetchFiles sum plan d todo) := by
  induction todo with
  | nil => trivial
  | cons f rest ih =>
    refine only_bind secure_spares fun r => ?_
    cases r with
    | some err => trivial
    | none =>
      refine only_bind check_spares fun r => ?_
      cases r with
      | error err => trivial
      | ok a =>
        refine only_bind ih fun r => ?_
        cases r <;> trivial

/-! ## Inspecting -/

theorem inspectRoles_spares (arts : List Artifact) : Spares (inspectRoles d arts) := by
  induction arts with
  | nil => trivial
  | cons a rest ih =>
    refine spares_op rfl fun ff => ?_
    split
    · exact ⟨rfl, fun _ => trivial⟩
    · refine only_bind ih fun r => ?_
      cases r <;> trivial

theorem addShards_spares {stem : String} {count : Nat} (left : Nat) :
    ∀ {i : Nat} {acc : Inspection}, Spares (addShards d stem count left i acc) := by
  induction left with
  | zero => exact fun {_ _} => trivial
  | succ left ih =>
    intro i acc
    unfold addShards
    dsimp only
    split
    · exact ih
    · split
      · trivial
      · exact ⟨rfl, fun _ => ih⟩

theorem inspectArtifacts_spares (arts : List Artifact) :
    ∀ {acc : Inspection}, Spares (inspectArtifacts d arts acc) := by
  induction arts with
  | nil => exact fun {_} => trivial
  | cons a rest ih =>
    refine fun {acc} => spares_op rfl fun r => ?_
    cases r with
    | none => exact ih
    | some size =>
      dsimp only
      split
      · exact ih
      · refine spares_op rfl fun ff => only_bind ?_ fun acc => ih
        unfold inspectShards
        split
        · split
          · exact addShards_spares _
          · trivial
        · trivial

theorem inspect_spares {arts : List Artifact} : Spares (inspect plan d arts) := by
  refine only_bind (inspectRoles_spares arts) fun r => ?_
  cases r with
  | error err => trivial
  | ok arts =>
    refine only_bind (inspectArtifacts_spares arts) fun i => ?_
    split
    · trivial
    · cases h : (plan.model arts i).validate <;> trivial

/-! ## Fetching -/

theorem removeNames_spares (xs : List Name) : Spares (removeNames n xs) := by
  induction xs with
  | nil => trivial
  | cons x xs ih => exact ⟨rfl, fun _ => ih⟩

theorem removeAll_spares : Spares (removeAll d) := by
  refine spares_op rfl fun r => ?_
  cases r with
  | error err => trivial
  | ok found =>
    cases found with
    | none => trivial
    | some found => exact only_bind (removeNames_spares _) fun _ => ⟨rfl, fun _ => trivial⟩

theorem pruneEach_spares {keep : Option Name} (names : List Name) :
    Spares (pruneEach keep names) := by
  induction names with
  | nil => trivial
  | cons name rest ih =>
    unfold pruneEach
    split
    · exact ih
    · refine spares_op rfl fun r => ?_
      cases r with
      | false => exact ih
      | true =>
        exact spares_op rfl fun _ => only_bind removeAll_spares fun _ => spares_op rfl fun _ => ih

theorem checkSpace_spares : Spares (checkSpace plan d) := by
  have hneeded : ∀ todo, Spares (needed d todo) := by
    intro todo
    induction todo with
    | nil => trivial
    | cons f rest ih =>
      unfold needed
      split
      · exact ih
      · refine only_bind (spares_op rfl fun r => ?_) fun _ => only_bind ih fun _ => trivial
        cases r with
        | some n => trivial
        | none => exact ⟨rfl, fun _ => trivial⟩
  refine spares_op rfl fun r => ?_
  cases r with
  | none => trivial
  | some free => exact only_bind (hneeded _) fun _ => trivial

theorem fetchInto_spares : Spares (fetchInto sum plan d) := by
  refine only_bind checkSpace_spares fun r => ?_
  cases r with
  | some err => trivial
  | none =>
    refine spares_op rfl fun r => ?_
    cases r with
    | some err => trivial
    | none =>
      refine only_bind (fetchFiles_spares _) fun r => ?_
      cases r with
      | error err => trivial
      | ok arts => exact inspect_spares

theorem fetch_spares : Spares (fetch sum short plan) := by
  unfold fetch
  split
  · trivial
  · split
    · trivial
    · split
      · trivial
      · refine spares_op rfl fun r => ?_
        cases r with
        | true => trivial
        | false =>
          exact only_bind (spares_op rfl fun _ => pruneEach_spares _) fun _ => fetchInto_spares

/-! ## Publishing -/

theorem underLease_spares {fn : Steps (Except Err α)} (hfn : Spares fn) :
    Spares (underLease fn) := by
  refine spares_op rfl fun r => ?_
  cases r with
  | some err => trivial
  | none => exact only_bind hfn fun _ => ⟨rfl, fun _ => trivial⟩

theorem reclaim_spares {id : String} : Spares (reclaim id) := by
  refine spares_op rfl fun r => ?_
  cases r with
  | false => trivial
  | true =>
    refine spares_op rfl fun r => ?_
    cases r with
    | error err => trivial
    | ok recorded =>
      dsimp only
      split
      · trivial
      · refine only_bind removeAll_spares fun r => ?_
        cases r <;> trivial

theorem publishHeld_spares {m : Model} : Spares (publishHeld short plan m) := by
  have hpublish : ∀ {name : Name}, Spares (publish name m) := by
    refine fun {name} => spares_op rfl fun r => ?_
    cases r with
    | true => trivial
    | false =>
      refine spares_op rfl fun r => ?_
      cases r with
      | some err => trivial
      | none => exact ⟨rfl, fun _ => trivial⟩
  have hsave : Spares (saveImport m) := by
    refine spares_op rfl fun r => ?_
    cases r with
    | some err => trivial
    | none => exact ⟨rfl, fun _ => trivial⟩
  refine only_bind reclaim_spares fun r => ?_
  cases r with
  | error err => trivial
  | ok _ =>
    refine only_bind hpublish fun r => ?_
    cases r with
    | some err => trivial
    | none =>
      refine only_bind hsave fun r => ?_
      cases r <;> trivial

theorem importModel_spares : Spares (importModel sum short plan) := by
  have hprepare : Spares (prepareImport plan) := by
    refine spares_op rfl fun r => ?_
    cases r with
    | false => trivial
    | true => exact underLease_spares reclaim_spares
  refine only_bind hprepare fun r => ?_
  cases r with
  | error err => trivial
  | ok _ =>
    refine only_bind fetch_spares fun r => ?_
    cases r with
    | error err => trivial
    | ok m => exact underLease_spares publishHeld_spares

theorem runImport_spares : Spares (runImport sum short plan) := by
  refine spares_op rfl fun _ => only_bind importModel_spares fun r => ?_
  cases r with
  | ok _ => exact ⟨rfl, fun _ => trivial⟩
  | error err =>
    refine only_bind (spares_op rfl fun r => ?_) fun _ =>
      spares_op rfl fun _ => trivial
    cases r with
    | false => trivial
    | true => exact only_bind removeAll_spares fun _ => trivial

end

end LocalBase.Imports
