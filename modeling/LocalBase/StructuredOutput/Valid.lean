import LocalBase.Lib.Fuel
import LocalBase.StructuredOutput.Prepare

/-!
# Checking an answer

`valid` checks a value against an accepted schema under two limits, one on the
depth of its calls and one on their number, which all of a check's calls share.
A call past a limit answers false.

Two things in a `Check` are not in the source: the schemas the check was called
with, and whether it ran into a limit. They are there to say what a check meets
and when its answer is about the value.
-/

namespace LocalBase.StructuredOutput

def maxValidationDepth : Nat := 1000
def maxValidationSteps : Nat := 2000000

def jsonEqual (go : Go) (a b : Json) : Bool :=
  match number go a, number go b with
  | some fa, some fb => fa == fb
  | none, none => marshal a == marshal b
  | _, _ => false

/-- `schemaCheck`, of one root. -/
structure Check where
  steps : Nat := 0
  /-- The schemas met. -/
  met : List Object := []
  /-- A limit was exceeded. -/
  stopped : Bool := false

def Check.meet (c : Check) (s : Object) : Check :=
  { c with steps := c.steps + 1, met := s :: c.met }

def Check.stop (c : Check) : Check := { c with stopped := true }

/-- The limits, on a check's steps and a call's depth. -/
def limits (steps depth : Nat) : Bool :=
  decide (maxValidationSteps < steps) || decide (maxValidationDepth < depth)

def noLimits (_steps _depth : Nat) : Bool := false

/-! ## The parts of a check -/

/-- `type`, `const` and `enum`. -/
def literalOk (go : Go) (s : Object) (v : Json) : Bool :=
  (!s.has "type" || matchesAnyType go v (schemaTypesOf s)) &&
    (s.lookup "const").all (jsonEqual go · v) &&
    (s.array? "enum").all fun literals => literals.any (jsonEqual go · v)

def countOk (go : Go) (s : Object) (count : Nat) : Bool :=
  (numberAt go s "minItems").all (fun lo => lo ≤ (count : ℚ)) &&
    (numberAt go s "maxItems").all (fun hi => (count : ℚ) ≤ hi)

/-- `utf8.RuneCountInString` is the number of characters. -/
def lengthOk (go : Go) (s : Object) (t : String) : Bool :=
  (numberAt go s "maxLength").all fun hi => (t.length : ℚ) ≤ hi

def boundsOk (go : Go) (s : Object) (f : ℚ) : Bool :=
  (numberAt go s "minimum").all (· ≤ f) && (numberAt go s "maximum").all (f ≤ ·) &&
    (numberAt go s "exclusiveMinimum").all (· < f) &&
    (numberAt go s "exclusiveMaximum").all (f < ·)

/-- The alternatives of an `anyOf`, until one holds. -/
def tryAlternatives (check : Object → Check → Run (Bool × Check)) :
    List Json → Check → Run (Bool × Check)
  | [], c => .ok (false, c)
  | alt :: alts, c =>
    match alt.object? with
    | none => tryAlternatives check alts c
    | some m =>
      check m c >>= fun
        | (true, c) => .ok (true, c)
        | (false, c) => tryAlternatives check alts c

/-- `required`, with the assertion that each of its names is a string. -/
def requiredOk (val : Object) : List Json → Run Bool
  | [] => .ok true
  | r :: rest =>
    match r.string? with
    | none => .error .panic
    | some name => if val.has name then requiredOk val rest else .ok false

/-- The members of an object, in the order of a range. -/
def checkMembers (check : Object → Json → Check → Run (Bool × Check)) (s : Object) :
    Object → Check → Run (Bool × Check)
  | [], c => .ok (true, c)
  | (k, x) :: rest, c =>
    match ((s.object? "properties").getD []).object? k with
    | none => if closed s then .ok (false, c) else checkMembers check s rest c
    | some p =>
      check p x c >>= fun
        | (true, c) => checkMembers check s rest c
        | (false, c) => .ok (false, c)

def checkItems (check : Json → Check → Run (Bool × Check)) :
    List Json → Check → Run (Bool × Check)
  | [], c => .ok (true, c)
  | x :: rest, c =>
    check x c >>= fun
      | (true, c) => checkItems check rest c
      | (false, c) => .ok (false, c)

/-- The part of a call after its references and alternatives; `check` is the
call for a member or an item. -/
def validKeywords (go : Go) (check : Object → Json → Check → Run (Bool × Check))
    (s : Object) (v : Json) (c : Check) : Run (Bool × Check) :=
  if !literalOk go s v then .ok (false, c)
  else
    match v with
    | .obj val =>
      requiredOk val ((s.array? "required").getD []) >>= fun
        | true => checkMembers check s (go.range c.steps val) c
        | false => .ok (false, c)
    | .arr xs =>
      if !countOk go s xs.length then .ok (false, c)
      else
        match s.object? "items" with
        | some items => checkItems (check items) xs c
        | none => .ok (true, c)
    | .str t => .ok (lengthOk go s t, c)
    | v => .ok ((number go v).all (boundsOk go s), c)

/-- `schemaCheck.valid`. -/
def valid (go : Go) (exceeds : Nat → Nat → Bool) (root : Object) :
    Nat → Object → Json → Nat → Check → Run (Bool × Check)
  | 0, _, _, _, _ => .error .fuel
  | n + 1, s, v, depth, c =>
    if exceeds (c.meet s).steps depth then .ok (false, (c.meet s).stop)
    else
      match s.string? "$ref" with
      | some ref =>
        match schemaAt root ref with
        | none => .ok (false, c.meet s)
        | some target => valid go exceeds root n target v (depth + 1) (c.meet s)
      | none =>
        match s.array? "anyOf" with
        | some alts =>
          tryAlternatives (fun m => valid go exceeds root n m v (depth + 1)) alts
            (c.meet s)
        | none =>
          validKeywords go (fun p x => valid go exceeds root n p x (depth + 1)) s v
            (c.meet s)

/-- `validateSchema`'s check. A call deeper than the limit calls no other, so
this much fuel is enough. -/
def check (go : Go) (root s : Object) (v : Json) : Run (Bool × Check) :=
  valid go limits root (maxValidationDepth + 2) s v 0 {}

/-- Checks `v` against an accepted schema. An answer it can't finish checking
within the limits counts as not matching. -/
def validateSchema (go : Go) (root s : Object) (v : Json) : Run Bool :=
  (check go root s v).map (·.1)

end LocalBase.StructuredOutput
