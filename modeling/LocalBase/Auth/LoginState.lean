import LocalBase.Lib.Base64
import LocalBase.Lib.Machine
import LocalBase.Lib.Records
import Mathlib.Logic.Function.Basic

/-!
# The state of a sign-in

A sign-in in progress keeps nothing on the server. Its state is a text that
carries random bytes, an expiry and a MAC of both; the PKCE verifier and the nonce
are derived from it. A callback that uses a state puts the text in `spent`, and
takes it out again if the exchange with the provider fails.

Callbacks run side by side: what one does under the lock is a step, and so are
the checks before, the exchange and the session. `hmac` is the MAC under the key
of this process, and the provider decides how an exchange ends. Times are
nanoseconds.
-/

namespace LocalBase.Auth

open Machine

def loginStateRandom : Nat := 24

def macSize : Nat := 32

def maxSpentStates : Nat := 4096

structure LoginState where
  registration : String
  verifier : List Char
  nonce : List Char
  expires : Int
deriving DecidableEq

def uint64Size : Nat := 0x10000000000000000

/-- `binary.BigEndian.Uint64`. -/
def uint64Of (bytes : List UInt8) : Nat := bytes.foldl (fun n b => n * 256 + b.toNat) 0

/-- `binary.BigEndian.PutUint64`. -/
def putUint64 (n : Nat) : List UInt8 :=
  [56, 48, 40, 32, 24, 16, 8, 0].map fun s => UInt8.ofNat (n >>> s)

section

variable (hmac : List UInt8 → List UInt8) (oidc : List String)

def loginStateMac (purpose registration : String) (data : List UInt8) : List UInt8 :=
  hmac (purpose.toUTF8.toList ++ [0] ++ registration.toUTF8.toList ++ [0] ++ data)

/-- The state value for a registration, with what was drawn for it. -/
def newLoginState (registration : String) (random : List UInt8) (expires : Int) : List Char :=
  let body := random ++ putUint64 (expires / 1000000000 % uint64Size).toNat
  Base64.encode (body ++ loginStateMac hmac "state" registration body)

/-- What a state value stands for, if this process made it for a registration that
is still configured. -/
def loginStateOf (value : List Char) : Option LoginState :=
  match Base64.decode value with
  | none => none
  | some raw =>
    if raw.length ≠ loginStateRandom + 8 + macSize then none
    else
      let body := raw.take (loginStateRandom + 8)
      let mac := raw.drop (loginStateRandom + 8)
      (oidc.find? fun id => mac = loginStateMac hmac "state" id body).map fun id =>
        { registration := id
          verifier := Base64.encode (loginStateMac hmac "verifier" id body)
          nonce := Base64.encode (loginStateMac hmac "nonce" id body)
          expires :=
            Int.bmod (uint64Of (body.drop loginStateRandom)) uint64Size * 1000000000 }

end

/-! ## Requests -/

structure Callback where
  state : List Char
  cookies : List (List Char)
  code : String
  error : Bool := false

/-- `cookieValueRe`. -/
def cookieValue (value : List Char) : Bool :=
  decide (32 ≤ value.length ∧ value.length ≤ 128) && value.all fun c => c ∈ Base64.alphabet

/-- The one cookie with the name, if its value is one it could have. -/
def cookie : List (List Char) → List Char
  | [value] => if cookieValue value then value else []
  | _ => []

/-! ## Callbacks side by side -/

inductive LoginPc
  | idle
  /-- It may go on, and has not used the state. -/
  | checked (text : List Char) (state : LoginState)
  | exchanging (text : List Char) (state : LoginState)
  /-- The exchange has failed. -/
  | failing (text : List Char) (state : LoginState)
  | exchanged (text : List Char) (state : LoginState)
  /-- It has started a session. -/
  | established (text : List Char) (state : LoginState)
  /-- Whoever signed in has no permissions here, or no session could be made. -/
  | denied (text : List Char) (state : LoginState)
  | failed
deriving DecidableEq

/-- The states in use or used, by text, with when they expire. -/
abbrev Spent := AList fun _ : List Char => Int

structure Browser where
  clock : Int
  spent : Spent := ∅
  call : Nat → LoginPc := fun _ => .idle

inductive LoginMove
  | tick (t : Int)
  | callback (request : Callback)
  /-- `victims` are the records it forgets to make room, in order. -/
  | spend (victims : List (List Char))
  | exchange (succeeds : Bool)
  | unspend
  | establish (session : Bool)

/-- The records that have not expired. -/
def sweep (spent : Spent) (now : Int) : Spent := Rows.keep (fun r => decide (now < r.2)) spent

/-- Forgets records until there is room for one more. -/
def makeRoom (spent : Spent) : List (List Char) → Option Spent
  | [] => if maxSpentStates ≤ spent.entries.length then none else some spent
  | k :: ks =>
    if maxSpentStates ≤ spent.entries.length ∧ k ∈ spent then makeRoom (spent.erase k) ks
    else none

namespace Browser

def goto (b : Browser) (i : Nat) (pc : LoginPc) : Browser :=
  { b with call := Function.update b.call i pc }

/-- `spendLoginState`. -/
def spend (b : Browser) (i : Nat) (text : List Char) (state : LoginState)
    (victims : List (List Char)) : Option Browser :=
  if (b.spent.lookup text).isSome then some (b.goto i .failed)
  else
    (makeRoom (sweep b.spent b.clock) victims).map fun spent =>
      { b.goto i (.exchanging text state) with spent := spent.insert text state.expires }

/-- The next step of the callback `i`. -/
def stepCall (hmac : List UInt8 → List UInt8) (oidc : List String) (b : Browser) (i : Nat) :
    LoginPc → LoginMove → Option Browser
  | .idle, .callback request =>
    match loginStateOf hmac oidc request.state with
    | none => some (b.goto i .failed)
    | some state =>
      if state.expires ≤ b.clock ∨ request.state ≠ cookie request.cookies ∨
          request.error = true ∨ request.code = "" ∨ 8192 < request.code.utf8ByteSize then
        some (b.goto i .failed)
      else some (b.goto i (.checked request.state state))
  | .checked text state, .spend victims => b.spend i text state victims
  | .exchanging text state, .exchange true => some (b.goto i (.exchanged text state))
  | .exchanging text state, .exchange false => some (b.goto i (.failing text state))
  | .failing text _, .unspend =>
    some { b.goto i .failed with spent := b.spent.erase text }
  | .exchanged text state, .establish true => some (b.goto i (.established text state))
  | .exchanged text state, .establish false => some (b.goto i (.denied text state))
  | _, _ => none

def step (hmac : List UInt8 → List UInt8) (oidc : List String) (b : Browser) :
    Nat × LoginMove → Option Browser
  | (_, .tick t) => if b.clock ≤ t then some { b with clock := t } else none
  | (i, m) => b.stepCall hmac oidc i (b.call i) m

end Browser

/-- A process that has seen no callback. -/
def browser (hmac : List UInt8 → List UInt8) (oidc : List String) :
    System Browser (Nat × LoginMove) where
  init b := b.spent = ∅ ∧ ∀ i, b.call i = .idle
  step := Browser.step hmac oidc

end LocalBase.Auth
