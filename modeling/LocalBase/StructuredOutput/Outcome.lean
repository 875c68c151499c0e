import LocalBase.Lib.JsonText
import LocalBase.StructuredOutput.Order

/-!
# The outcome of an answer

A completed response passes if every choice that is checked holds a document
that the schema's validation accepts. The content is read by a decoder made for
streams of values: it takes the first value off the front, and then only asks
whether more is to come, which it is not where a container would end.
-/

namespace LocalBase.StructuredOutput

open JsonText

/-! ## Decoding -/

def replacement : Char := Char.ofNat 0xFFFD

def highSurrogate (u : Nat) : Bool := 0xD800 ≤ u && u < 0xDC00

def lowSurrogate (u : Nat) : Bool := 0xDC00 ≤ u && u < 0xE000

def unitChar (u : Nat) : Char :=
  if highSurrogate u || lowSurrogate u then replacement else Char.ofNat u

def surrogatePair (u u' : Nat) : Char :=
  Char.ofNat ((u - 0xD800) * 0x400 + (u' - 0xDC00) + 0x10000)

def unquote : List Piece → List Char
  | [] => []
  | .char c :: ps => c :: unquote ps
  | .unit u :: .unit u' :: ps =>
    if highSurrogate u && lowSurrogate u' then surrogatePair u u' :: unquote ps
    else unitChar u :: unquote (.unit u' :: ps)
  | .unit u :: ps => unitChar u :: unquote ps

def digitsValue (ds : List Char) : Nat := ds.foldl (fun n d => n * 10 + (d.toNat - 48)) 0

/-- The power of ten that ends a number. -/
def exponentValue : List Char → Int
  | [] => 0
  | _ :: cs =>
    if (exponentSign cs).1 = ['-'] then -(digitsValue (exponentSign cs).2 : Int)
    else digitsValue (exponentSign cs).2

def fractionDigits (cs : List Char) : List Char := (cs.drop 1).takeWhile Char.isDigit

/-- What a number's text denotes. -/
def numberValue (cs : List Char) : ℚ :=
  let unsigned := (sign cs).2
  let digits := unsigned.takeWhile Char.isDigit
  let rest := unsigned.dropWhile Char.isDigit
  let fraction := if rest.head? = some '.' then fractionDigits rest else []
  let rest := if rest.head? = some '.' then rest.drop (fraction.length + 1) else rest
  (if (sign cs).1 = ['-'] then -1 else 1) * digitsValue (digits ++ fraction) *
    (10 : ℚ) ^ (exponentValue rest - fraction.length)

def Object.put (m : Object) (k : String) (v : Json) : Object :=
  (k, v) :: m.filter fun e => e.1 ≠ k

/-- `any`, as the decoder fills it with `UseNumber`. -/
def decoded : Build Json where
  null := .null
  bool := .bool
  num cs := .num ⟨String.ofList cs, numberValue cs⟩
  str ps := .str (String.ofList (unquote ps))
  arr := .arr
  obj ms := .obj (ms.foldl (fun m e => Object.put m (String.ofList (unquote e.1)) e.2) [])

def maxNestingDepth : Nat := 10000

/-- `Decoder.Decode`, and what it leaves. -/
def decode (content : String) : Option (Json × List Char) :=
  value decoded maxNestingDepth content.toList

/-- `Decoder.More`. -/
def more (rest : List Char) : Bool := (spaces rest).head?.any fun c => c ≠ ']' ∧ c ≠ '\x7d'

/-! ## The outcome -/

inductive Outcome
  | passed
  | failed
  | skipped
deriving DecidableEq

def message (choice : Json) : Option Object := (choice.object?.getD []).object? "message"

/-- A message with a refusal or tool calls, and a choice that did not stop, is
not checked. -/
def unchecked (choice : Json) (msg : Object) : Bool :=
  (match msg.lookup "refusal" with
    | none | some .null => false
    | some _ => true) ||
  !((msg.array? "tool_calls").getD []).isEmpty ||
  (choice.object?.getD []).string? "finish_reason" ≠ some "stop"

def judgeContent (go : Go) (schema : Object) (content : String) : Run Outcome :=
  match decode content with
  | none => .ok .failed
  | some (v, rest) =>
    if more rest then .ok .failed
    else (validateSchema go schema schema v).map fun ok => if ok then .passed else .failed

def judge (go : Go) (schema : Object) (choice : Json) : Run Outcome :=
  match message choice with
  | none => .ok .failed
  | some msg =>
    if unchecked choice msg then .ok .skipped
    else
      match msg.string? "content" with
      | none => .ok .failed
      | some content => judgeContent go schema content

/-- The choices from the `i`-th on; the ranges of each check go in orders of
its own. -/
def judgeAll (go : Go) (o : Nat → Order) (schema : Object) :
    List Json → Nat → Bool → Run Outcome
  | [], _, validated => .ok (if validated then .passed else .skipped)
  | choice :: rest, i, validated =>
    judge (go.visiting (o i)) schema choice >>= fun
      | .failed => .ok .failed
      | .skipped => judgeAll go o schema rest (i + 1) validated
      | .passed => judgeAll go o schema rest (i + 1) true

/-- `Outcome`. -/
def outcome (go : Go) (o : Nat → Order) (resp schema : Object) : Run Outcome :=
  judgeAll go o schema ((resp.array? "choices").getD []) 0 false

/-! ## What passes -/

variable {go : Go} {o : Nat → Order} {resp schema : Object}

/-- The `i`-th choice is checked, and this is its message. -/
def Judged (resp : Object) (i : Nat) (msg : Object) : Prop :=
  ∃ choice, ((resp.array? "choices").getD [])[i]? = some choice ∧ message choice = some msg ∧
    unchecked choice msg = false

/-- One JSON document that is accepted, and spaces around it. -/
def Document (accepts : Json → Prop) (cs : List Char) : Prop :=
  ∃ ws t ws' v, cs = ws ++ t ++ ws' ∧ Spaces ws ∧ Written decoded (.value v) t ∧ Spaces ws' ∧
    accepts v

/-- A first value, and after it and spaces what would close a container. -/
def Closes (cs : List Char) : Prop :=
  ∃ ws t ws' v c rest, cs = ws ++ t ++ (ws' ++ c :: rest) ∧ Spaces ws ∧
    Written decoded (.value v) t ∧ Spaces ws' ∧ (c = ']' ∨ c = '\x7d')

def Accepts (go : Go) (schema : Object) (v : Json) : Prop :=
  validateSchema go schema schema v = .ok true

theorem ends_of_closing {c : Char} (h : c = ']' ∨ c = '\x7d') (rest : List Char) :
    JsonText.Ends (c :: rest) := by
  rintro _ ⟨⟩
  rcases h with rfl | rfl <;> decide

theorem Closes.not_document {cs : List Char} (h : Closes cs) (accepts : Json → Prop) :
    ¬ Document accepts cs := by
  rintro ⟨ws, t, ws', v, hcs, hws, ht, hws', _⟩
  obtain ⟨us, t', us', w, c, rest, hcs', hus, ht', hus', hc⟩ := h
  obtain ⟨_, rfl⟩ := first_unique hcs hws ht (ends_of_spaces hws') hcs' hus ht'
    (ends_append hus' (ends_of_closing hc rest))
  have hspace := hws' c (List.mem_append_right _ List.mem_cons_self)
  rcases hc with rfl | rfl <;> cases hspace

theorem more_eq_false {rest : List Char} (h : more rest = false) :
    Spaces rest ∨ ∃ ws c rest', rest = ws ++ c :: rest' ∧ Spaces ws ∧ (c = ']' ∨ c = '\x7d') := by
  obtain ⟨ws, hws, he⟩ := spaces_split rest
  cases hs : spaces rest with
  | nil => exact .inl (spaces_eq_nil.mp hs)
  | cons c rest' =>
    rw [hs] at he
    refine .inr ⟨ws, c, rest', he, hws, ?_⟩
    simp only [more, hs, List.head?_cons, Option.any_some, decide_eq_false_iff_not] at h
    by_contra hne
    exact h (not_or.mp hne)

theorem judgeContent_passed {content : String}
    (h : judgeContent go schema content = .ok .passed) :
    Document (Accepts go schema) content.toList ∨ Closes content.toList := by
  unfold judgeContent at h
  split at h
  · cases h
  · next v rest hdecode =>
    split at h
    · cases h
    · next hmore =>
      obtain ⟨ws, t, hcs, hws, ht⟩ := value_sound _ _ _ _ hdecode
      rcases more_eq_false (Bool.eq_false_iff.mpr hmore) with
        hspaces | ⟨ws', c, rest', rfl, hws', hc⟩
      · cases hv : validateSchema go schema schema v with
        | error e => rw [hv] at h; cases h
        | ok b =>
          cases b with
          | false => rw [hv] at h; cases h
          | true => exact .inl ⟨ws, t, rest, v, hcs, hws, ht, hspaces, hv⟩
      · exact .inr ⟨ws, t, ws', v, c, rest', hcs, hws, ht, hws', hc⟩

theorem judgeContent_not_skipped {content : String} :
    judgeContent go schema content ≠ .ok .skipped := by
  intro h
  unfold judgeContent at h
  split at h
  · cases h
  · next v rest _ =>
    split at h
    · cases h
    · cases hv : validateSchema go schema schema v with
      | error e => rw [hv] at h; cases h
      | ok b => rw [hv] at h; cases b <;> cases h

theorem judge_checked {choice : Json} {msg : Object} (hmsg : message choice = some msg)
    (hchecked : unchecked choice msg = false)
    (h : judge go schema choice = .ok .passed ∨ judge go schema choice = .ok .skipped) :
    ∃ content, msg.string? "content" = some content ∧
      (Document (Accepts go schema) content.toList ∨ Closes content.toList) := by
  cases hcontent : msg.string? "content" with
  | none =>
    have hjudge : judge go schema choice = .ok .failed := by
      simp [judge, hmsg, hchecked, hcontent]
    rcases h with h | h <;> rw [hjudge] at h <;> cases h
  | some content =>
    have hjudge : judge go schema choice = judgeContent go schema content := by
      simp [judge, hmsg, hchecked, hcontent]
    refine ⟨content, rfl, ?_⟩
    rcases h with h | h
    · exact judgeContent_passed (hjudge.symm.trans h)
    · exact absurd (hjudge.symm.trans h) judgeContent_not_skipped

theorem judgeAll_passed {choices : List Json} {i : Nat} {validated : Bool}
    (h : judgeAll go o schema choices i validated = .ok .passed) {k : Nat} {choice : Json}
    (hk : choices[k]? = some choice) :
    judge (go.visiting (o (i + k))) schema choice = .ok .passed ∨
      judge (go.visiting (o (i + k))) schema choice = .ok .skipped := by
  induction choices generalizing i k validated with
  | nil => cases hk
  | cons first rest ih =>
    rw [judgeAll] at h
    cases hjudge : judge (go.visiting (o i)) schema first with
    | error e => rw [hjudge] at h; cases h
    | ok r =>
      rw [hjudge] at h
      cases r with
      | failed => cases h
      | passed =>
        cases k with
        | zero =>
          cases hk
          exact .inl hjudge
        | succ k =>
          have hrest := ih h (k := k) hk
          rwa [Nat.add_right_comm, Nat.add_assoc] at hrest
      | skipped =>
        cases k with
        | zero =>
          cases hk
          exact .inr hjudge
        | succ k =>
          have hrest := ih h (k := k) hk
          rwa [Nat.add_right_comm, Nat.add_assoc] at hrest

/-- Where an outcome is a pass, what every checked choice holds is a document
that the validation accepts, and nothing more, exactly if no such choice's
first value is followed by a bracket or a brace that closes. -/
theorem passed_documents_iff (h : outcome go o resp schema = .ok .passed) :
    (∀ i msg, Judged resp i msg → ∃ content, msg.string? "content" = some content ∧
      Document (Accepts (go.visiting (o i)) schema) content.toList) ↔
    (∀ i msg content, Judged resp i msg → msg.string? "content" = some content →
      ¬ Closes content.toList) := by
  constructor
  · intro hall i msg content hjudged hcontent hcloses
    obtain ⟨content', hcontent', hdocument⟩ := hall i msg hjudged
    rw [hcontent] at hcontent'
    cases hcontent'
    exact hcloses.not_document _ hdocument
  · intro hnone i msg hjudged
    have hopen := fun content => hnone i msg content hjudged
    obtain ⟨choice, hchoice, hmsg, hchecked⟩ := hjudged
    have hpassed := judgeAll_passed h hchoice
    rw [Nat.zero_add] at hpassed
    obtain ⟨content, hcontent, hdocument | hcloses⟩ := judge_checked hmsg hchecked hpassed
    · exact ⟨content, hcontent, hdocument⟩
    · exact absurd hcloses (hopen content hcontent)

/-! ### A brace too many -/

def yesSchema : Object :=
  [("type", .str "object"), ("properties", .obj [("ok", .obj [("type", .str "boolean")])]),
    ("required", .arr [.str "ok"]), ("additionalProperties", .bool false)]

def answered (content : String) : Object :=
  [("choices", .arr [.obj [("finish_reason", .str "stop"),
    ("message", .obj [("content", .str content)])]])]

def yesText : List Char :=
  ['\x7b', '"', 'o', 'k', '"', ':', 't', 'r', 'u', 'e', '\x7d']

def yes : String := "\x7b\"ok\":true\x7d"

/-- The same, with the brace twice. -/
def yesTwice : String := "\x7b\"ok\":true\x7d\x7d"

def yesAnswer : Json := .obj [("ok", .bool true)]

theorem yes_read (rest : List Char) :
    value decoded 1 (yesText ++ rest) = some (yesAnswer, rest) := by
  have hread : value decoded 1 (yesText ++ rest) =
      some (.obj [(String.ofList ['o', 'k'], .bool true)], rest) := rfl
  have hkey : String.ofList ['o', 'k'] = "ok" := by decide
  rw [hread, hkey]
  rfl

theorem yesAnswer_accepted :
    validateSchema (plainGo.visiting default) yesSchema yesSchema yesAnswer = .ok true := by
  decide

theorem answered_passes {content : String} (rest : List Char)
    (hcontent : content.toList = yesText ++ rest)
    (hrest : more rest = false) :
    outcome plainGo (fun _ => default) (answered content) yesSchema = .ok .passed := by
  have hdecode : decode content = some (yesAnswer, rest) := by
    rw [decode, hcontent]
    exact value_extends (by decide) _ _ (yes_read rest)
  have hjudge : judgeContent (plainGo.visiting default) yesSchema content = .ok .passed := by
    rw [judgeContent, hdecode]
    simp only [hrest, yesAnswer_accepted]
    rfl
  show (judgeContent (plainGo.visiting default) yesSchema content >>= _) = _
  rw [hjudge]
  rfl

theorem yesTwice_closes : Closes yesTwice.toList := by
  have hread := yes_read ['\x7d']
  obtain ⟨ws, t, hcs, hws, ht⟩ := value_sound _ _ _ _ hread
  exact ⟨ws, t, [], _, '\x7d', [], hcs, hws, ht, (by intro _ h; cases h), .inr rfl⟩

theorem brace_passes :
    outcome plainGo (fun _ => default) (answered yesTwice) yesSchema = .ok .passed ∧
    ¬ ∀ i msg, Judged (answered yesTwice) i msg → ∃ content,
      msg.string? "content" = some content ∧
      Document (Accepts (plainGo.visiting default) yesSchema) content.toList := by
  refine ⟨answered_passes ['\x7d'] (by decide) (by decide), fun hall => ?_⟩
  obtain ⟨content, hcontent, hdocument⟩ := hall 0 _ ⟨_, rfl, rfl, by decide⟩
  cases hcontent
  exact yesTwice_closes.not_document _ hdocument

theorem yes_passes :
    outcome plainGo (fun _ => default) (answered yes) yesSchema = .ok .passed ∧
    ((∀ i msg, Judged (answered yes) i msg → ∃ content, msg.string? "content" = some content ∧
      Document (Accepts (plainGo.visiting default) yesSchema) content.toList) ↔
    (∀ i msg content, Judged (answered yes) i msg → msg.string? "content" = some content →
      ¬ Closes content.toList)) := by
  have h : outcome plainGo (fun _ => default) (answered yes) yesSchema = .ok .passed :=
    answered_passes [] (by decide) (by decide)
  exact ⟨h, passed_documents_iff h⟩

end LocalBase.StructuredOutput
