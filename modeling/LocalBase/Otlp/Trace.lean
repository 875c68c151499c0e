import LocalBase.Lib.Double
import LocalBase.Lib.Bytes
import Mathlib.Tactic.Common

/-!
# Trace context

A span's context crosses to another process in the `traceparent` header. `extract` reads
what `inject` wrote, so a trace keeps its id from process to process, and a sampler that
asks the parent keeps its decision: `one_decision` says that a trace is sampled in whole
or not at all.
-/

namespace LocalBase.Otlp

abbrev Id (n : Nat) := { b : List UInt8 // b.length = n }

namespace Id

variable {n : Nat}

def zero : Id n := ⟨List.replicate n 0, List.length_replicate⟩

/-- `copy` into a new array. -/
def copy (b : List UInt8) : Id n :=
  ⟨(b ++ List.replicate n 0).take n, by simp⟩

theorem copy_val (id : Id n) : copy id.val = id := by
  refine Subtype.ext ?_
  show (id.val ++ List.replicate n 0).take n = id.val
  rw [List.take_append_of_le_length (Nat.le_of_eq id.property.symm)]
  exact List.take_of_length_le (Nat.le_of_eq id.property)

end Id

structure SpanContext where
  traceID : Id 16 := .zero
  spanID : Id 8 := .zero
  sampled : Bool := false
  remote : Bool := false
  traceState : List Char := []
  deriving DecidableEq

def SpanContext.valid (c : SpanContext) : Bool := c.traceID ≠ .zero && c.spanID ≠ .zero

/-! ## The header -/

/-- `\s`. -/
def isSpace (c : Char) : Bool := c = ' ' || c = '\t' || c = '\n' || c = '\r' || c = '\x0c'

/-- `[0-9a-f]` so many times. -/
def takeHex (n : Nat) (text : List Char) : Option (List Char × List Char) :=
  if (text.take n).length = n ∧ (text.take n).all Hex.isLower = true then
    some (text.take n, text.drop n)
  else none

def dash : List Char → Option (List Char)
  | '-' :: text => some text
  | _ => none

/-- `(-.*)?\s?$`, and what the group matches. -/
def rest (text : List Char) : Option (List Char) :=
  match text with
  | [] => some []
  | '-' :: _ =>
    -- `.` is not a line break, and only the last one is left to `\s?`.
    match text.dropWhile (· ≠ '\n') with
    | [] | ['\n'] => some (text.takeWhile (· ≠ '\n'))
    | _ => none
  | [c] => if isSpace c then some [] else none
  | _ => none

/-- What the groups of `traceparentRe` match, after the space. -/
def groups (text : List Char) :
    Option (List Char × List Char × List Char × List Char × List Char) := do
  let (version, text) ← takeHex 2 text
  let text ← dash text
  let (trace, text) ← takeHex 32 text
  let text ← dash text
  let (span, text) ← takeHex 16 text
  let text ← dash text
  let (flags, text) ← takeHex 2 text
  let more ← rest text
  some (version, trace, span, flags, more)

/-- `traceparentRe.FindStringSubmatch`. -/
def traceparent : List Char → Option (List Char × List Char × List Char × List Char × List Char)
  | [] => groups []
  | c :: text => groups (if isSpace c then text else c :: text)

/-- The two headers, each with its values. -/
structure Headers where
  traceparent : List (List Char) := []
  tracestate : List (List Char) := []

/-- The span context that `Extract` puts in the context, if any. -/
def extract (h : Headers) : Option SpanContext :=
  match Otlp.traceparent (h.traceparent.headD []) with
  | none => none
  | some (version, trace, span, flags, more) =>
    if version = "ff".toList || (version = "00".toList && more ≠ []) then none
    else
      let c : SpanContext :=
        { traceID := .copy ((Hex.decode trace).getD [])
          spanID := .copy ((Hex.decode span).getD []) }
      if c.valid then
        some { c with
          sampled := (((Hex.decode flags).getD []).headD 0) &&& 1 == 1
          remote := true
          traceState := List.intercalate [','] h.tracestate }
      else none

/-- `Inject`, of the active span's context. -/
def inject (c : SpanContext) (h : Headers) : Headers :=
  if c.valid then
    let flags := if c.sampled then "01".toList else "00".toList
    { traceparent := ["00-".toList ++ Hex.encode c.traceID.val ++ '-' ::
        Hex.encode c.spanID.val ++ '-' :: flags]
      tracestate := if c.traceState ≠ [] then [c.traceState] else h.tracestate }
  else h

/-! ## Sampling -/

inductive Sampler
  | alwaysOn | alwaysOff | traceIDRatio
  | parentBasedAlwaysOn | parentBasedAlwaysOff | parentBasedTraceIDRatio
  deriving DecidableEq

structure Config where
  sampler : Sampler
  sampleRatio : ℚ

def word (a b c d : UInt8) : UInt32 :=
  a.toUInt32 <<< 24 ||| b.toUInt32 <<< 16 ||| c.toUInt32 <<< 8 ||| d.toUInt32

def xorWords (acc : UInt32) : List UInt8 → UInt32
  | a :: b :: c :: d :: bytes => xorWords (acc ^^^ word a b c d) bytes
  | _ => acc

/-- A product of floats is rounded. -/
def ratioBound (ratio : ℚ) : Nat :=
  if 1 ≤ ratio then 0x100000000
  else
    let product := ratio * 0xffffffff
    ((Float64.nearest product.num.toNat product.den).elim 0 Int.floor).toNat

def ratioSample (ratio : ℚ) (id : Id 16) : Bool :=
  if ratio ≤ 0 then false else (xorWords 0 id.val).toNat < ratioBound ratio

namespace Config

/-- The decision where there is no parent to ask. -/
def root (cfg : Config) (id : Id 16) : Bool :=
  match cfg.sampler with
  | .alwaysOn | .parentBasedAlwaysOn => true
  | .alwaysOff | .parentBasedAlwaysOff => false
  | _ => ratioSample cfg.sampleRatio id

def sample (cfg : Config) (parent : SpanContext) (id : Id 16) : Bool :=
  match cfg.sampler with
  | .alwaysOn | .alwaysOff | .traceIDRatio => cfg.root id
  | _ => if parent.valid then parent.sampled else cfg.root id

/-- Whether the sampler asks the parent. -/
def parentBased (cfg : Config) : Bool :=
  match cfg.sampler with
  | .alwaysOn | .alwaysOff | .traceIDRatio => false
  | _ => true

/-- The context of the span that `Start` makes, with what `randomID` gave it. -/
def start (cfg : Config) (parent : SpanContext) (trace : Id 16) (span : Id 8) : SpanContext :=
  let c : SpanContext :=
    if parent.valid then { traceID := parent.traceID, traceState := parent.traceState }
    else { traceID := trace }
  { c with spanID := span, sampled := cfg.sample parent c.traceID }

end Config

/-! ## What is injected is extracted -/

theorem takeHex_encode {n : Nat} (bytes : List UInt8) (text : List Char)
    (hn : n = 2 * bytes.length) :
    takeHex n (Hex.encode bytes ++ text) = some (Hex.encode bytes, text) := by
  have hlen : (Hex.encode bytes).length = n := by rw [Hex.length_encode, hn]
  have htake : (Hex.encode bytes ++ text).take n = Hex.encode bytes := by
    rw [← hlen, List.take_left]
  have hdrop : (Hex.encode bytes ++ text).drop n = text := by
    rw [← hlen, List.drop_left]
  rw [takeHex, htake, hdrop, if_pos ⟨hlen, List.all_eq_true.mpr (Hex.isLower_encode bytes)⟩]

theorem groups_written (trace : Id 16) (span : Id 8) (flags : UInt8) :
    groups ('0' :: '0' :: '-' :: (Hex.encode trace.val ++ '-' :: (Hex.encode span.val ++
      '-' :: Hex.encode [flags]))) =
      some ("00".toList, Hex.encode trace.val, Hex.encode span.val, Hex.encode [flags], []) := by
  have hversion : ∀ text, takeHex 2 ('0' :: '0' :: text) = some ("00".toList, text) :=
    fun text => takeHex_encode [0] text rfl
  have hflags : takeHex 2 (Hex.encode [flags]) = some (Hex.encode [flags], []) := by
    have h := takeHex_encode (n := 2) [flags] [] rfl
    rwa [List.append_nil] at h
  simp only [groups, hversion, Option.bind_eq_bind, Option.bind_some, dash,
    takeHex_encode trace.val _ (show 32 = 2 * trace.val.length by rw [trace.property]),
    takeHex_encode span.val _ (show 16 = 2 * span.val.length by rw [span.property]), hflags, rest]

theorem extract_inject {c : SpanContext} {h : Headers} (hc : c.valid = true)
    (hstate : c.traceState = [] → h.tracestate = []) :
    extract (inject c h) = some { c with remote := true } := by
  have hflags : (if c.sampled then "01".toList else "00".toList) =
      Hex.encode [if c.sampled then 1 else 0] := by
    cases c.sampled <;> rfl
  have hgroups := groups_written c.traceID c.spanID (if c.sampled then 1 else 0)
  have hmatch : traceparent ("00-".toList ++ Hex.encode c.traceID.val ++ '-' ::
      Hex.encode c.spanID.val ++ '-' :: Hex.encode [if c.sampled then 1 else 0]) =
      some ("00".toList, Hex.encode c.traceID.val, Hex.encode c.spanID.val,
        Hex.encode [if c.sampled then 1 else 0], []) := by
    rw [← hgroups]
    simp [traceparent, isSpace, List.append_assoc]
  have htracestate : List.intercalate [','] (inject c h).tracestate = c.traceState := by
    rw [inject, if_pos hc]
    simp only []
    split
    · simp [List.intercalate]
    · next hempty =>
      have hnil : c.traceState = [] := by simpa using hempty
      rw [hstate hnil, hnil]
      rfl
  have hheader : (inject c h).traceparent.headD [] = "00-".toList ++ Hex.encode c.traceID.val ++
      '-' :: Hex.encode c.spanID.val ++ '-' :: Hex.encode [if c.sampled then 1 else 0] := by
    rw [inject, if_pos hc, ← hflags]
    rfl
  have hsampled : ((if c.sampled then (1 : UInt8) else 0) &&& 1 == 1) = c.sampled := by
    cases c.sampled <;> rfl
  have hvalid : SpanContext.valid { traceID := c.traceID, spanID := c.spanID } = true := hc
  rw [extract, hheader, hmatch, htracestate]
  simp only [Hex.decode_encode, Option.getD_some, Id.copy_val, hvalid, List.headD_cons, hsampled]
  rfl

/-! ## One decision -/

/-- A span of the trace of `first`, in whatever process: a child, under a sampler that asks
its parent or decides of the trace as it was decided; or what another process extracts from
the headers of a request. -/
inductive Within (first : SpanContext) : SpanContext → Prop
  | first : Within first first
  | child {c : SpanContext} (cfg : Config) (trace : Id 16) (span : Id 8) :
      Within first c → span ≠ .zero →
      cfg.parentBased = true ∨ cfg.root first.traceID = first.sampled →
      Within first (cfg.start c trace span)
  | request {c c' : SpanContext} (h : Headers) :
      Within first c → (first.traceState = [] → h.tracestate = []) →
      extract (inject c h) = some c' → Within first c'

theorem start_child {c : SpanContext} (cfg : Config) (trace : Id 16) (span : Id 8)
    (hc : c.valid = true) :
    cfg.start c trace span =
      { traceID := c.traceID, spanID := span, traceState := c.traceState
        sampled := cfg.sample c c.traceID } := by
  simp [Config.start, hc]

theorem sample_child {first c : SpanContext} {cfg : Config} (hc : c.valid = true)
    (hsampled : c.sampled = first.sampled)
    (hown : cfg.parentBased = true ∨ cfg.root first.traceID = first.sampled) :
    cfg.sample c first.traceID = first.sampled := by
  unfold Config.sample
  split
  -- A sampler that does not ask has to decide the same.
  case h_4 => rw [if_pos hc, hsampled]
  all_goals
    next hsampler =>
      rcases hown with hasks | hsame
      · rw [Config.parentBased, hsampler] at hasks
        cases hasks
      · exact hsame

/-- Every span of a trace has the trace's id and state, and is recorded if and only if the
first is. -/
theorem one_decision {first c : SpanContext} (hfirst : first.valid = true)
    (h : Within first c) :
    c.valid = true ∧ c.traceID = first.traceID ∧ c.sampled = first.sampled ∧
      c.traceState = first.traceState := by
  induction h with
  | first => exact ⟨hfirst, rfl, rfl, rfl⟩
  | @child c cfg trace span _ hspan hown ih =>
    obtain ⟨hvalid, hid, hsampled, hstate⟩ := ih
    rw [start_child cfg trace span hvalid]
    refine ⟨?_, hid, ?_, hstate⟩
    · have htrace : c.traceID ≠ .zero := by
        intro hzero
        simp [SpanContext.valid, hzero] at hvalid
      simp [SpanContext.valid, htrace, hspan]
    · rw [hid]
      exact sample_child hvalid hsampled hown
  | @request c c' headers _ hheaders hget ih =>
    obtain ⟨hvalid, hid, hsampled, hstate⟩ := ih
    rw [extract_inject hvalid fun hnone => hheaders (hstate ▸ hnone)] at hget
    cases hget
    exact ⟨hvalid, hid, hsampled, hstate⟩

/-- A sampled span of one process, and a child of it in the next. -/
def firstSpan : SpanContext :=
  { traceID := .copy [0xab], spanID := .copy [1], sampled := true }

theorem child_of_request :
    (Config.start ⟨.parentBasedAlwaysOff, 0⟩ { firstSpan with remote := true } (.copy [7])
      (.copy [2])).sampled = firstSpan.sampled := by
  have hrequest : Within firstSpan { firstSpan with remote := true } :=
    .request {} .first (fun _ => rfl) (extract_inject (by decide) fun _ => rfl)
  exact (one_decision (by decide)
    (.child ⟨.parentBasedAlwaysOff, 0⟩ (.copy [7]) (.copy [2]) hrequest (by decide)
      (Or.inl rfl))).2.2.1

end LocalBase.Otlp
