import LocalBase.Lib.Program

/-!
# Import jobs

A job clears what an earlier crash left, fetches, and publishes: it holds the
root, moves the files into place, records the model and stores the chosen
backend. Every step may fail, a person may cancel at any point, and backends
come and go meanwhile. How the job ended is read off one error.
-/

namespace LocalBase.Library

open Program

/-- An error, and its code where it is a refusal. -/
structure Err where
  text : String
  refused : Option String := none
deriving DecidableEq

/-- Whose files are in the imported model's directory. -/
inductive Owner where
  | job
  | other
deriving DecidableEq

/-- What a job works on: its staging directory, the model's directory, whether
the job stored the model's record, whether a person cancelled it, and the
backends that are registered. -/
structure World where
  staged : Bool
  dest : Option Owner
  recorded : Bool
  cancelled : Bool
  backends : List String
deriving DecidableEq

inductive Op where
  | statDest
  | takeRoot
  | listed
  | removeDest
  | fetch
  | makeParent
  | move
  | saveModel
  | getModel
  | getBackend (id : String)
  | saveChoice
  | readChoice
  | cancelled
  | removeStaging
  | timedOut
deriving DecidableEq

def Op.answer : Op → Type
  | .statDest => Bool
  | .listed => Except Err Bool
  | .getBackend _ => Bool
  | .cancelled => Bool
  | .timedOut => Bool
  | _ => Except Err Unit

/-- What the rest of the world decides: who presses cancel and what is registered
before an operation, whether it fails, and what a step that is not told here comes
to. -/
structure Choice where
  cancel : Bool := false
  backends : Option (List String) := none
  fails : Option Err := none
  answers : Bool := false

def World.meanwhile (w : World) (c : Choice) : World :=
  { w with cancelled := w.cancelled || c.cancel, backends := c.backends.getD w.backends }

/-- An operation that fails or has an effect. -/
def effect (w : World) (c : Choice) (done : World) : Except Err Unit × World :=
  match c.fails with
  | some e => (.error e, w)
  | none => (.ok (), done)

/-- What an operation does, once the rest of the world has had its turn. -/
def World.perform (w : World) (c : Choice) : (o : Op) → o.answer × World
  | .statDest => (w.dest.isSome && c.fails.isNone, w)
  | .takeRoot => effect w c w
  | .listed => (c.fails.elim (.ok c.answers) .error, w)
  | .removeDest => effect w c { w with dest := none }
  | .fetch =>
    -- A failed download is kept so that it can resume.
    match c.fails with
    | some e => (.error e, { w with staged := c.answers })
    | none => (.ok (), { w with staged := true })
  | .makeParent => effect w c w
  | .move => effect w c { w with staged := false, dest := some .job }
  | .saveModel => effect w c { w with recorded := true }
  | .getModel => effect w c w
  | .getBackend id => (decide (id ∈ w.backends), w)
  | .saveChoice => effect w c w
  | .readChoice => effect w c w
  | .cancelled => (w.cancelled, w)
  | .removeStaging => effect w c { w with staged := false }
  | .timedOut => (c.answers, w)

def sem : Sem Op.answer World Choice := fun w o c => some ((w.meanwhile c).perform c o)

/-! ## The steps -/

abbrev Steps (α : Type) : Type := Prog Op.answer α

def statDest : Steps Bool := perform Op.statDest
def takeRoot : Steps (Except Err Unit) := perform Op.takeRoot
def listed : Steps (Except Err Bool) := perform Op.listed
def removeDest : Steps (Except Err Unit) := perform Op.removeDest
def fetch : Steps (Except Err Unit) := perform Op.fetch
def makeParent : Steps (Except Err Unit) := perform Op.makeParent
def move : Steps (Except Err Unit) := perform Op.move
def saveModel : Steps (Except Err Unit) := perform Op.saveModel
def getModel : Steps (Except Err Unit) := perform Op.getModel
def getBackend (id : String) : Steps Bool := perform (Op.getBackend id)
def saveChoice : Steps (Except Err Unit) := perform Op.saveChoice
def readChoice : Steps (Except Err Unit) := perform Op.readChoice
def cancelled : Steps Bool := perform Op.cancelled
def removeStaging : Steps (Except Err Unit) := perform Op.removeStaging
def timedOut : Steps Bool := perform Op.timedOut

/-- The rest, unless there was an error. -/
def thenUnlessError (p k : Steps (Except Err Unit)) : Steps (Except Err Unit) := do
  match ← p with
  | .error e => pure (.error e)
  | .ok _ => k

/-- Removes what nothing records. -/
def reclaim : Steps (Except Err Unit) := do
  if ← statDest then
    match ← listed with
    | .error e => pure (.error e)
    | .ok recorded => if recorded then pure (.ok ()) else removeDest
  else pure (.ok ())

/-- `underLease`, however often it tries. -/
def underLease (fn : Steps (Except Err Unit)) : Steps (Except Err Unit) :=
  thenUnlessError takeRoot fn

def prepareImport : Steps (Except Err Unit) := do
  if ← statDest then underLease reclaim else pure (.ok ())

/-- `Fetched.Publish`. -/
def publish : Steps (Except Err Unit) := do
  if ← statDest then
    pure (.error ⟨"a model with this id is already imported; choose another id", none⟩)
  else thenUnlessError makeParent move

def setBackend (backend : String) : Steps (Except Err Unit) :=
  thenUnlessError getModel do
    if ← getBackend backend then thenUnlessError saveChoice readChoice
    else pure (.error ⟨"backend \"" ++ backend ++ "\" is not registered", none⟩)

def saveImport (backend : String) : Steps (Except Err Unit) :=
  thenUnlessError saveModel
    (if backend ≠ "" ∧ backend ≠ "auto" then setBackend backend
    else thenUnlessError getModel readChoice)

def publishImport (backend : String) : Steps (Except Err Unit) :=
  underLease (thenUnlessError reclaim (thenUnlessError publish (saveImport backend)))

/-! ## The job -/

inductive JobState where
  | running
  | done
  | failed
  | cancelled
deriving DecidableEq

structure Ended where
  state : JobState
  error : String := ""
  errorCode : String := ""
  detail : String := ""
deriving DecidableEq

def removedDetail : String := "The import was cancelled, and what it downloaded was removed."

def leftDetail : String :=
  "The import was cancelled, but what it downloaded could not be removed yet. LocalBase will " ++
    "clear it later."

def cancelledEnd : Except Err Unit → Ended
  | .ok _ => { state := .cancelled, errorCode := "import_cancelled", detail := removedDetail }
  | .error _ => { state := .cancelled, errorCode := "import_cancelled", detail := leftDetail }

def failedEnd (bounded : String → String) (e : Err) (timedOut : Bool) : Ended :=
  if timedOut then
    { state := .failed
      error := "The import took too long and was stopped. Try again to resume it. Whoever runs " ++
        "this LocalBase can allow longer."
      errorCode := "import_timed_out" }
  else { state := .failed, error := bounded e.text, errorCode := e.refused.getD "" }

/-- What the job does with its error. -/
def conclude (bounded : String → String) : Except Err Unit → Steps Ended
  | .ok _ => do
      let _ ← cancelled
      pure { state := .done }
  | .error e => do
      if ← cancelled then
        let left ← removeStaging
        pure (cancelledEnd left)
      else
        let late ← timedOut
        pure (failedEnd bounded e late)

/-- The goroutine of `StartImport`. -/
def importJob (bounded : String → String) (backend : String) : Steps Ended := do
  let err ← thenUnlessError prepareImport (thenUnlessError fetch (publishImport backend))
  conclude bounded err

/-! ## The law -/

/-- Nothing of the job is in place, and it recorded nothing. -/
structure Fresh (w : World) : Prop where
  dest : w.dest ≠ some .job
  recorded : w.recorded = false

structure Truthful (e : Ended) (w : World) : Prop where
  recorded : w.recorded = true → e.state = .done
  unrecorded : e.state = .failed ∨ e.state = .cancelled → w.recorded = false
  removed : e.state = .cancelled → e.detail = removedDetail →
    w.staged = false ∧ w.dest ≠ some .job

/-- The backend that an operation looks for is registered. -/
def World.hasBackend (w : World) : Op → Bool
  | .getBackend id => id ∈ w.backends
  | _ => true

/-- Once the record is stored nothing fails, and a job whose files were moved is
not cancelled with its staging removed. -/
def Steady (w : World) (o : Op) (c : Choice) : Prop :=
  (w.recorded = true → c.fails = none ∧ (w.meanwhile c).hasBackend o = true) ∧
    (o = .removeStaging → w.dest = some .job → c.fails ≠ none)

instance : ∀ w o c, Decidable (Steady w o c) := fun w o c =>
  inferInstanceAs (Decidable ((w.recorded = true →
    c.fails = none ∧ (w.meanwhile c).hasBackend o = true) ∧
    (o = .removeStaging → w.dest = some .job → c.fails ≠ none)))

/-- From `w` on, `Q` holds at the end of every run that is steady. -/
abbrev Ends {α : Type} (Q : α → World → Prop) (p : Steps α) (w : World) : Prop :=
  p.Safe (sem.under Steady) (fun _ => True) Q w

section
variable {α : Type} {Q : α → World → Prop} {w : World} {o : Op}

theorem ends_perform {k : o.answer → Steps α}
    (h : ∀ c, Steady w o c → Ends Q (k ((w.meanwhile c).perform c o).1)
      ((w.meanwhile c).perform c o).2) : Ends Q (perform o >>= k) w := by
  intro c r t ht
  obtain ⟨hg, hsem⟩ := under_eq_some.mp ht
  have heq := Option.some.inj hsem
  obtain rfl : _ = r := congrArg Prod.fst heq
  obtain rfl : _ = t := congrArg Prod.snd heq
  exact ⟨trivial, h c hg⟩

theorem ends_act {Q : o.answer → World → Prop}
    (h : ∀ c, Steady w o c → Q ((w.meanwhile c).perform c o).1 ((w.meanwhile c).perform c o).2) :
    Ends Q (perform o) w :=
  ends_perform (k := .done) h

theorem ends_bind {β : Type} {p : Steps β} {k : β → Steps α}
    (h : Ends (fun b t => Ends Q (k b) t) p w) : Ends Q (p >>= k) w :=
  safe_bind h

theorem Ends.mono {Q' : α → World → Prop} {p : Steps α} (h : Ends Q p w)
    (hQ : ∀ a t, Q a t → Q' a t) : Ends Q' p w :=
  Prog.Safe.mono h (fun _ _ => trivial) hQ

end

/-- An end of steps that stand in an order: each condition is of the worlds that
the steps leave, by whether there was an error. -/
def ByError (ok error : World → Prop) (r : Except Err Unit) (w : World) : Prop :=
  (r = .ok () → ok w) ∧ ∀ e, r = .error e → error w

variable {w : World} {p k : Steps (Except Err Unit)} {ok ok' error : World → Prop}

theorem ends_thenUnlessError (hp : Ends (ByError ok error) p w)
    (hk : ∀ t, ok t → Ends (ByError ok' error) k t) :
    Ends (ByError ok' error) (thenUnlessError p k) w := by
  refine ends_bind (hp.mono fun r t hr => ?_)
  cases r with
  | error e => exact ⟨fun h => by (cases h), fun e' _ => hr.2 e rfl⟩
  | ok u => exact hk t (hr.1 rfl)

theorem byError_effect {t : World} {c : Choice} (hok : c.fails = none → ok t)
    (herror : c.fails ≠ none → error w) :
    ByError ok error (effect w c t).1 (effect w c t).2 := by
  unfold effect
  cases hf : c.fails with
  | none => exact ⟨fun _ => hok hf, fun e he => by cases he⟩
  | some e => exact ⟨fun h => by (cases h), fun _ _ => herror (by simp [hf])⟩

/-! ### Before the record -/

def Unrecorded (w : World) : Prop := w.recorded = false

theorem Fresh.unrecorded (h : Fresh w) : Unrecorded w := h.recorded

theorem Fresh.meanwhile (h : Fresh w) (c : Choice) : Fresh (w.meanwhile c) := ⟨h.dest, h.recorded⟩

theorem takeRoot_ends (h : Fresh w) : Ends (ByError Fresh Fresh) takeRoot w :=
  ends_act fun c _ => byError_effect (fun _ => h.meanwhile c) fun _ => h.meanwhile c

theorem removeDest_ends (h : Fresh w) : Ends (ByError Fresh Fresh) removeDest w :=
  ends_act fun c _ => byError_effect (fun _ => ⟨by simp, h.recorded⟩)
    fun _ => h.meanwhile c

theorem reclaim_ends (h : Fresh w) : Ends (ByError Fresh Fresh) reclaim w := by
  refine ends_perform fun c _ => ?_
  have hw := h.meanwhile c
  split
  · refine ends_perform fun c' _ => ?_
    have hw' := hw.meanwhile c'
    split
    · exact ⟨fun he => by (cases he), fun _ _ => hw'⟩
    · split
      · exact ⟨fun _ => hw', fun _ _ => hw'⟩
      · exact removeDest_ends hw'
  · exact ⟨fun _ => hw, fun _ _ => hw⟩

theorem prepareImport_ends (h : Fresh w) : Ends (ByError Fresh Fresh) prepareImport w := by
  refine ends_perform fun c _ => ?_
  have hw := h.meanwhile c
  split
  · exact ends_thenUnlessError (takeRoot_ends hw) fun t ht => reclaim_ends ht
  · exact ⟨fun _ => hw, fun _ _ => hw⟩

theorem fetch_ends (h : Fresh w) : Ends (ByError Fresh Fresh) fetch w := by
  refine ends_act fun c _ => ?_
  have hw := h.meanwhile c
  show ByError Fresh Fresh (World.perform (w.meanwhile c) c .fetch).1
    (World.perform (w.meanwhile c) c .fetch).2
  unfold World.perform
  cases c.fails with
  | none => exact ⟨fun _ => ⟨hw.dest, hw.recorded⟩, fun e he => by cases he⟩
  | some e => exact ⟨fun he => by (cases he), fun _ _ => ⟨hw.dest, hw.recorded⟩⟩

theorem publish_ends (h : Fresh w) : Ends (ByError Unrecorded Fresh) publish w := by
  refine ends_perform fun c _ => ?_
  have hw := h.meanwhile c
  split
  · exact ⟨fun he => by (cases he), fun _ _ => hw⟩
  · have hparent : Ends (ByError Fresh Fresh) makeParent (w.meanwhile c) :=
      ends_act fun c' _ => byError_effect (fun _ => hw.meanwhile c') fun _ => hw.meanwhile c'
    refine ends_thenUnlessError hparent fun t ht => ?_
    exact ends_act fun c' _ => byError_effect (fun _ => ht.recorded) fun _ => ht.meanwhile c'

/-! ### After the record -/

def Recorded (w : World) : Prop := w.recorded = true

theorem recorded_effect (h : Recorded w) {o : Op} {c : Choice} (hs : Steady w o c) :
    ByError Recorded Unrecorded (effect (w.meanwhile c) c (w.meanwhile c)).1
      (effect (w.meanwhile c) c (w.meanwhile c)).2 :=
  byError_effect (fun _ => h) fun hf => absurd (hs.1 h).1 hf

theorem getModel_ends (h : Recorded w) : Ends (ByError Recorded Unrecorded) getModel w :=
  ends_act fun _ hs => recorded_effect h hs

theorem saveChoice_ends (h : Recorded w) : Ends (ByError Recorded Unrecorded) saveChoice w :=
  ends_act fun _ hs => recorded_effect h hs

theorem readChoice_ends (h : Recorded w) : Ends (ByError Recorded Unrecorded) readChoice w :=
  ends_act fun _ hs => recorded_effect h hs

theorem setBackend_ends (h : Recorded w) (backend : String) :
    Ends (ByError Recorded Unrecorded) (setBackend backend) w := by
  refine ends_thenUnlessError (getModel_ends h) fun t ht => ?_
  refine ends_perform fun c hs => ?_
  have hregistered := (hs.1 ht).2
  split
  · exact ends_thenUnlessError (saveChoice_ends ht) fun u hu => readChoice_ends hu
  · next hnot => exact absurd hregistered hnot

theorem saveImport_ends (h : Unrecorded w) (backend : String) :
    Ends (ByError Recorded Unrecorded) (saveImport backend) w := by
  have hsave : Ends (ByError Recorded Unrecorded) saveModel w :=
    ends_act fun c _ => byError_effect (fun _ => rfl) fun _ => h
  refine ends_thenUnlessError hsave fun t ht => ?_
  split
  · exact setBackend_ends ht backend
  · exact ends_thenUnlessError (getModel_ends ht) fun u hu => readChoice_ends hu

theorem Ends.weaken {error' : World → Prop} (hp : Ends (ByError ok error) p w)
    (he : ∀ t, error t → error' t) : Ends (ByError ok error') p w :=
  hp.mono fun _ t hr => ⟨hr.1, fun e h => he t (hr.2 e h)⟩

theorem publishImport_ends (h : Fresh w) (backend : String) :
    Ends (ByError Recorded Unrecorded) (publishImport backend) w := by
  refine ends_thenUnlessError ((takeRoot_ends h).weaken fun _ => Fresh.unrecorded) fun t ht => ?_
  refine ends_thenUnlessError ((reclaim_ends ht).weaken fun _ => Fresh.unrecorded) fun t ht => ?_
  refine ends_thenUnlessError ((publish_ends ht).weaken fun _ => Fresh.unrecorded) fun t ht => ?_
  exact saveImport_ends ht backend

/-! ### The end -/

theorem conclude_ends (bounded : String → String) {r : Except Err Unit}
    (h : ByError Recorded Unrecorded r w) : Ends Truthful (conclude bounded r) w := by
  cases r with
  | ok u =>
    refine ends_perform fun c _ => ?_
    exact ⟨fun _ => rfl, fun he => by (obtain he | he := he <;> cases he), fun he => by cases he⟩
  | error e =>
    have hnone : w.recorded = false := h.2 e rfl
    refine ends_perform fun c _ => ?_
    split
    · refine ends_perform fun c' hs => ?_
      show Truthful (cancelledEnd (effect _ c' _).1) (effect _ c' _).2
      unfold effect
      cases hf : c'.fails with
      | some e' =>
        refine ⟨fun hr => ?_, fun _ => hnone, fun _ hdetail => ?_⟩
        · exact absurd (hnone.symm.trans hr) (by decide)
        · have hne : leftDetail ≠ removedDetail := by decide
          exact absurd hdetail hne
      | none =>
        refine ⟨fun hr => ?_, fun _ => hnone, fun _ _ => ⟨rfl, fun hdest => ?_⟩⟩
        · exact absurd (hnone.symm.trans hr) (by decide)
        · exact hs.2 rfl hdest hf
    · refine ends_perform fun c' _ => ?_
      have hfailed : ∀ late, (failedEnd bounded e late).state = .failed := by
        intro late
        cases late <;> rfl
      refine ⟨fun hr => ?_, fun _ => hnone, fun he => ?_⟩
      · exact absurd (hnone.symm.trans hr) (by decide)
      · exact absurd ((hfailed _).symm.trans he) (by decide)

theorem importJob_ends (bounded : String → String) (backend : String) (h : Fresh w) :
    Ends Truthful (importJob bounded backend) w := by
  refine ends_bind ?_
  have herr : Ends (ByError Recorded Unrecorded)
      (thenUnlessError prepareImport (thenUnlessError fetch (publishImport backend))) w := by
    refine ends_thenUnlessError ((prepareImport_ends h).weaken fun _ => Fresh.unrecorded)
      fun t ht => ?_
    exact ends_thenUnlessError ((fetch_ends ht).weaken fun _ => Fresh.unrecorded)
      fun t ht => publishImport_ends ht backend
  exact herr.mono fun r t hr => conclude_ends bounded hr

/-- However it goes, the end of a job tells the truth, when nothing fails after
the record is stored and no job whose files were moved without one is cancelled. -/
theorem importJob_truthful (bounded : String → String) (backend : String) {w t : World}
    {cs : List Choice} {e : Ended} (hw : Fresh w)
    (h : (importJob bounded backend).after (sem.under Steady) w cs = some (.done e, t)) :
    Truthful e t :=
  (importJob_ends bounded backend hw).ends h

/-- Cancelled while the model is being recorded: the import is done. -/
theorem cancelled_too_late :
    Truthful { state := .done } ⟨false, some .job, true, true, ["mine"]⟩ := by
  have hfresh : Fresh ⟨true, none, false, false, ["mine"]⟩ := ⟨by decide, rfl⟩
  have hrun : (importJob id "mine").after (sem.under Steady) ⟨true, none, false, false, ["mine"]⟩
      [{}, {}, {}, {}, {}, {}, {}, { cancel := true }, {}, {}, {}, {}, {}] =
      some (.done { state := .done }, ⟨false, some .job, true, true, ["mine"]⟩) := rfl
  exact importJob_truthful id "mine" hfresh hrun

/-- The chosen backend goes just after the model was recorded. -/
theorem recorded_and_failed :
    ¬ ∀ (bounded : String → String) (backend : String) (w t : World) (cs : List Choice) (e : Ended),
      Fresh w → (importJob bounded backend).after sem w cs = some (.done e, t) →
        Truthful e t := by
  intro hlaw
  have hfresh : Fresh ⟨true, none, false, false, ["mine"]⟩ := ⟨by decide, rfl⟩
  have htruth := hlaw id "mine" ⟨true, none, false, false, ["mine"]⟩
    ⟨false, some .job, true, false, []⟩
    [{}, {}, {}, {}, {}, {}, {}, {}, {}, { backends := some [] }, {}, {}]
    (failedEnd id ⟨"backend \"mine\" is not registered", none⟩ false) hfresh rfl
  exact absurd (htruth.recorded rfl) (by decide)

end LocalBase.Library
