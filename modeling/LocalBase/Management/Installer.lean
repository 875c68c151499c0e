import LocalBase.Lib.Machine
import Mathlib.Logic.Function.Basic

/-!
# The model installer

Model management runs one install at a time, in the background. A request asks
whether an install is going on, and later claims the installer for its own, in
two sections under the management lock; the install's goroutine gives the claim
back in a third, and a request whose install was refused clears it in a fourth.
An install goes by the number of its request: `cancelInstall` and `installDone`
hold whose context and channel they are.

What the checks under the root's operation lease find, and what the download
does, is decided from outside. The lease is one for the whole root.
-/

namespace LocalBase.Management

open Machine

inductive Action
  | install
  | uninstall
  | enable
  | disable
  | activate
  | cancel
deriving DecidableEq

inductive OpState
  | running
  | complete
  | failed
  | cancelled
deriving DecidableEq

structure Operation where
  action : Action
  state : OpState
  detail : String
  downloadedBytes : Option Nat := none
  totalBytes : Option Nat := none
  /-- Why a failed install failed. -/
  error : Option String := none
deriving DecidableEq

/-- A rejection before an operation is accepted, or any other failure. -/
structure MgmtError where
  code : String
  message : String
deriving DecidableEq

def busyError : MgmtError :=
  { code := "conflict", message := "Wait for the current installation to finish." }

def notRunningError : MgmtError :=
  { code := "conflict", message := "No installation of this model is running." }

def cancelDetail : String :=
  "Installation cancelled. The downloaded part is kept, so installing again resumes it."

def interruptedDetail : String :=
  "Interrupted when the gateway stopped. Install again to resume."

def failedDetail : String :=
  "Installation failed. Check storage, network access, and catalog verification."

def partialKeptDetail : String :=
  "The downloaded part is kept, so installing again continues from it " ++
    "(or starts over if the file has changed)."

def failedInstallDetail (kept : Bool) : String :=
  if kept then failedDetail ++ " " ++ partialKeptDetail else failedDetail

/-- Where a request is, in `runManagement` or in `stopInstall`. -/
inductive RequestPc
  | idle
  | begun
  /-- No install was going on when it asked. -/
  | passed
  /-- Its install is started; it waits for `admitted`. -/
  | awaiting
  | clearing (err : MgmtError)
  /-- Changing the files or the configuration, under the lease. -/
  | working
  | recording
  /-- A cancel waits for the install it cancelled. -/
  | waiting (done : Nat)
  | answering
  | returned (result : Except MgmtError Operation)

structure Request where
  model : String := ""
  action : Action := .install
  pc : RequestPc := .idle

/-- Where the goroutine of an install is. -/
inductive InstallPc
  | none
  | starting
  /-- Under the lease, before it is accepted. -/
  | checking
  | downloading
  /-- The work under the lease is over. -/
  | ended (err : Option MgmtError)
  /-- The claim is given back; `admitted` hears of a refusal. -/
  | sending (err : Option MgmtError)
  | closing
  | finished
deriving DecidableEq

structure Install where
  pc : InstallPc := .none
  accepted : Bool := false
  /-- Its context is cancelled. -/
  cancelled : Bool := false
  totalBytes : Option Nat := none
  /-- What is in the `admitted` channel; `some none` is the acceptance. -/
  admitted : Option (Option MgmtError) := none

/-- `running`, with the total once it is known. -/
def Install.running (i : Install) : Operation :=
  { action := .install, state := .running, detail := "Preparing installation"
    downloadedBytes := some 0, totalBytes := i.totalBytes }

structure Installer where
  operations : String → Option Operation := fun _ => none
  installing : String := ""
  cancelInstall : Option Nat := none
  installDone : Option Nat := none
  /-- The gateway interrupts its installs. -/
  stopped : Bool := false
  /-- Who holds the root's operation lease. -/
  lease : Option Nat := none
  /-- The requests so far. -/
  calls : Nat := 0
  request : Nat → Request := fun _ => {}
  install : Nat → Install := fun _ => {}

inductive RequestEvent
  /-- The busy check. -/
  | ask
  /-- The model may not be installed, enabled or activated. -/
  | refuse (err : MgmtError)
  | claim
  | receive
  | clear
  | lease
  | leaseFails (err : MgmtError)
  | work (err : Option MgmtError)
  | record
  | stop
  | done
  /-- It has waited long enough. -/
  | timeout
  | answer

inductive InstallEvent
  | lease
  | leaseFails (err : MgmtError)
  | refuse (err : MgmtError)
  | accept (total : Nat)
  | progress (detail : String) (bytes : Nat)
  | ended (err : Option MgmtError)
  /-- The last section: whether a part is kept, and the error's reason. -/
  | settle (kept : Bool) (reason : String)
  | send
  | close

inductive Event
  | request (model : String) (action : Action)
  | call (r : Nat) (e : RequestEvent)
  | install (i : Nat) (e : InstallEvent)
  /-- The gateway stops. -/
  | shutdown

namespace Installer

def setRequest (w : Installer) (r : Nat) (pc : RequestPc) : Installer :=
  { w with request := Function.update w.request r { w.request r with pc := pc } }

def setInstall (w : Installer) (i : Nat) (x : Install) : Installer :=
  { w with install := Function.update w.install i x }

def setOperation (w : Installer) (model : String) (op : Operation) : Installer :=
  { w with operations := Function.update w.operations model (some op) }

def addRequest (w : Installer) (q : Request) : Installer :=
  { w with request := Function.update w.request w.calls q, calls := w.calls + 1 }

/-- `startInstall`'s section: the installer is this request's, and its goroutine starts. -/
def claim (w : Installer) (r : Nat) : Installer :=
  { (w.setRequest r .awaiting).setInstall r { pc := .starting } with
    installing := (w.request r).model, cancelInstall := some r, installDone := some r }

/-- `stopInstall`'s first section. -/
def stop (w : Installer) (r : Nat) : Installer :=
  let model := (w.request r).model
  match w.cancelInstall with
  | some i =>
    if w.installing ≠ model then
      w.setRequest r (.returned (match w.operations model with
        | some op => .ok op
        | none => .error notRunningError))
    else
      -- `installDone` is set with `cancelInstall`, and unset with it.
      (w.setInstall i { w.install i with cancelled := true }).setRequest r
        (match w.installDone with
          | some d => .waiting d
          | none => .answering)
  | none =>
    w.setRequest r (.returned (match w.operations model with
      | some op => .ok op
      | none => .error notRunningError))

/-- A request's next section, wait or call. -/
def stepRequest (w : Installer) (r : Nat) : RequestEvent → Option Installer
  | .ask =>
    match (w.request r).pc with
    | .begun =>
      if (w.request r).action = .cancel then none
      else some (w.setRequest r
        (if w.installing ≠ "" then .returned (.error busyError) else .passed))
    | _ => none
  | .refuse err =>
    match (w.request r).pc with
    | .passed => some (w.setRequest r (.returned (.error err)))
    | _ => none
  | .claim =>
    match (w.request r).pc with
    | .passed => if (w.request r).action = .install then some (w.claim r) else none
    | _ => none
  | .receive =>
    match (w.request r).pc with
    | .awaiting =>
      match (w.install r).admitted with
      | some none => some (w.setRequest r (.returned (.ok (w.install r).running)))
      | some (some err) => some (w.setRequest r (.clearing err))
      | none => none
    | _ => none
  | .clear =>
    match (w.request r).pc with
    | .clearing err =>
      some { w.setRequest r (.returned (.error err)) with installing := "" }
    | _ => none
  | .lease =>
    match (w.request r).pc with
    | .passed =>
      if (w.request r).action ≠ .install ∧ w.lease = none then
        some { w.setRequest r .working with lease := some r }
      else none
    | _ => none
  | .leaseFails err =>
    match (w.request r).pc with
    | .passed =>
      if (w.request r).action ≠ .install then some (w.setRequest r (.returned (.error err)))
      else none
    | _ => none
  | .work err =>
    match (w.request r).pc with
    | .working =>
      some { w.setRequest r (match err with
        | some e => .returned (.error e)
        | none => .recording) with lease := none }
    | _ => none
  | .record =>
    match (w.request r).pc with
    | .recording =>
      let done : Operation :=
        { action := (w.request r).action, state := .complete, detail := "Complete" }
      some ((w.setOperation (w.request r).model done).setRequest r (.returned (.ok done)))
    | _ => none
  | .stop =>
    match (w.request r).pc with
    | .begun => if (w.request r).action = .cancel then some (w.stop r) else none
    | _ => none
  | .done =>
    match (w.request r).pc with
    | .waiting i =>
      if (w.install i).pc = .finished then some (w.setRequest r .answering) else none
    | _ => none
  | .timeout =>
    match (w.request r).pc with
    | .waiting _ => some (w.setRequest r .answering)
    | _ => none
  | .answer =>
    match (w.request r).pc with
    | .answering => some (w.setRequest r (.returned (.ok
        ((w.operations (w.request r).model).getD
          { action := .install, state := .cancelled, detail := cancelDetail }))))
    | _ => none

/-- How an install's operation reads in the end; `none` leaves it alone. -/
def outcome (w : Installer) (i : Nat) (err : Option MgmtError) (kept : Bool) (reason : String) :
    Option Operation :=
  let x := w.install i
  match err with
  | none => some { x.running with
      state := .complete, detail := "Installation complete", downloadedBytes := x.totalBytes }
  | some _ =>
    if !x.accepted then none
    else
      (w.operations (w.request i).model).map fun op =>
        if (x.cancelled || w.stopped) && !w.stopped then
          { op with state := .cancelled, detail := cancelDetail, error := none }
        else if w.stopped then
          { op with state := .failed, detail := interruptedDetail, error := some "interrupted" }
        else
          { op with
            state := .failed, detail := failedInstallDetail kept, error := some reason }

/-- The goroutine's last section. -/
def settle (w : Installer) (i : Nat) (err : Option MgmtError) (kept : Bool) (reason : String) :
    Installer :=
  let w' := match w.outcome i err kept reason with
    | some op => w.setOperation (w.request i).model op
    | none => w
  { w'.setInstall i { w.install i with pc := .sending err } with
    installing := "", cancelInstall := none, installDone := none }

/-- The next step of an install's goroutine. -/
def stepInstall (w : Installer) (i : Nat) : InstallEvent → Option Installer
  | .lease =>
    match (w.install i).pc with
    | .starting =>
      if w.lease = none then
        some { w.setInstall i { w.install i with pc := .checking } with lease := some i }
      else none
    | _ => none
  | .leaseFails err =>
    match (w.install i).pc with
    | .starting => some (w.setInstall i { w.install i with pc := .ended (some err) })
    | _ => none
  | .refuse err =>
    match (w.install i).pc with
    | .checking => some
        { w.setInstall i { w.install i with pc := .ended (some err) } with lease := none }
    | _ => none
  | .accept total =>
    match (w.install i).pc with
    | .checking =>
      let x := { w.install i with
        pc := .downloading, accepted := true, totalBytes := some total, admitted := some none }
      some ((w.setInstall i x).setOperation (w.request i).model x.running)
    | _ => none
  | .progress detail bytes =>
    match (w.install i).pc with
    | .downloading => some (w.setOperation (w.request i).model
        { (w.install i).running with detail := detail, downloadedBytes := some bytes })
    | _ => none
  | .ended err =>
    match (w.install i).pc with
    | .downloading => some
        { w.setInstall i { w.install i with pc := .ended err } with lease := none }
    | _ => none
  | .settle kept reason =>
    match (w.install i).pc with
    | .ended err => some (w.settle i err kept reason)
    | _ => none
  | .send =>
    match (w.install i).pc with
    | .sending err =>
      let x := w.install i
      some (w.setInstall i { x with
        pc := .closing, admitted := if x.accepted then x.admitted else some err })
    | _ => none
  | .close =>
    match (w.install i).pc with
    | .closing => some (w.setInstall i { w.install i with pc := .finished, cancelled := true })
    | _ => none

def step (w : Installer) : Event → Option Installer
  | .request model action =>
    -- The API takes no empty model ID, and the catalog has none.
    if model = "" then none
    else some (w.addRequest { model := model, action := action, pc := .begun })
  | .call r e => w.stepRequest r e
  | .install i e => w.stepInstall i e
  | .shutdown => some { w with stopped := true }

/-- As the gateway starts: the operations it has on record, and nothing running. -/
structure Started (w : Installer) : Prop where
  installing : w.installing = ""
  cancelInstall : w.cancelInstall = none
  installDone : w.installDone = none
  lease : w.lease = none
  calls : w.calls = 0
  request : ∀ r, w.request r = {}
  install : ∀ i, w.install i = {}

end Installer

def installer : System Installer Event where
  init := Installer.Started
  step := Installer.step

end LocalBase.Management
