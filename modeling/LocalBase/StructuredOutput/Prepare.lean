import LocalBase.StructuredOutput.Json

/-!
# What `Prepare` accepts

`Prepare` passes over a schema five times before it lets a request through: a
budget, a compile as ajv's strict mode would do it, the subset the native
grammar converter takes, the references and alternatives that consume nothing
of an answer, and the type of the root. Each of them walks the schema by
itself, and the validator relies on all five having seen the same subschemas.

The recursions run on fuel. `ways` follows references, so what bounds it is not
the schema's size but that it refuses to come back to one; and a schema is
accepted when `Prepare` answers so on some fuel, which is when the code does.
-/

namespace LocalBase.StructuredOutput

/-- Why a run has no answer: out of fuel, which a run that is given more of it
may not be, or a type assertion that failed. -/
inductive Stop
  | fuel
  | panic
  deriving DecidableEq

abbrev Run := Except Stop

def maxSchemaDepth : Nat := 10
def maxSchemaProperties : Nat := 5000
def maxSchemaObjectProps : Nat := 1000
def maxSchemaBytes : Nat := 256 * 1024
def maxSchemaReferences : Nat := 1000
def maxNativeRepetition : ℚ := 10000
def maxSchemaAlternatives : Nat := 1024
def draft7URI : String := "http://json-schema.org/draft-07/schema#"
def codeInvalidJSONSchema : String := "invalid_json_schema"
def codeUnsupportedJSONSchma : String := "unsupported_json_schema"

def annotationKeywords : List String := ["$comment", "$schema", "description", "title"]

def supportedKeywords : List String :=
  ["$defs", "$ref", "additionalProperties", "anyOf", "const", "definitions", "enum",
    "exclusiveMaximum", "exclusiveMinimum", "format", "items", "maxItems", "maxLength",
    "maximum", "minItems", "minLength", "minimum", "properties", "required", "type"]

structure Rejection where
  code : String
  message : String
  deriving DecidableEq

/-! ## Subschemas and references -/

def sortedValues (m : Object) : List Json := (sortedKeys m).filterMap fun k => m.lookup k

/-- The children in a map of schemas. An entry named "$ref" is refused: the
converter mistakes it for a reference. -/
def mapChildren (s : Object) (key : String) : Option (List Object) :=
  match s.lookup key with
  | none => some []
  | some (.obj m) => if Object.has m "$ref" then none else (sortedValues m).mapM Json.object?
  | some _ => none

def itemChildren (s : Object) : Option (List Object) :=
  match s.lookup "items" with
  | none => some []
  | some v => v.object?.map ([·])

def anyOfChildren (s : Object) : Option (List Object) :=
  match s.lookup "anyOf" with
  | none => some []
  | some (.arr xs) => xs.mapM Json.object?
  | some _ => none

/-- The subschemas the subset can nest, or `none` when a container is
malformed. -/
def childSchemas (s : Object) : Option (List Object) := do
  let properties ← mapChildren s "properties"
  let defs ← mapChildren s "$defs"
  let definitions ← mapChildren s "definitions"
  let items ← itemChildren s
  let anyOf ← anyOfChildren s
  return properties ++ defs ++ definitions ++ items ++ anyOf

def afterPrefix (p cs : List Char) : Option (List Char) :=
  if p.isPrefixOf cs then some (cs.drop p.length) else none

def refChar (c : Char) : Bool := c.isAlphanum || c == '_' || c == '-'

/-- `supportedRefRe`. -/
def supportedRef (ref : String) : Bool :=
  match (afterPrefix "#/$defs/".toList ref.toList).orElse
      fun _ => afterPrefix "#/definitions/".toList ref.toList with
  | some name => !name.isEmpty && name.all refChar
  | none => false

/-- Finds what a direct local reference names, or `none`. -/
def schemaAt (root : Object) (ref : String) : Option Object :=
  let cs := (afterPrefix "#/".toList ref.toList).getD ref.toList
  match cs.dropWhile (· ≠ '/') with
  | [] => none
  | _ :: name => do
      let defs ← root.object? (String.ofList (cs.takeWhile (· ≠ '/')))
      defs.object? (String.ofList name)

/-! ## The budget -/

def budgetIssue (s : Object) (depth props refs : Nat) : Option String :=
  if maxSchemaDepth < depth then
    some "Structured output schema exceeds OpenAI's nesting limit."
  else if (s.object? "properties").any fun p => maxSchemaObjectProps < p.length then
    some "Structured output schema object exceeds LocalBase's 1,000-property compilation limit."
  else if (s.object? "properties").any fun p => maxSchemaProperties < props + p.length then
    some "Structured output schema exceeds OpenAI's property limit."
  else if s.has "$ref" && decide (maxSchemaReferences < refs + 1) then
    some "Structured output schema exceeds LocalBase's reference limit."
  else if (s.string? "$ref").any fun r => !supportedRef r then
    some "Structured output schema references must target direct local definitions."
  else none

def precompileBudgetIssue : Nat → List (Object × Nat) → Nat → Nat → Run (Option String)
  | _, [], _, _ => .ok none
  | 0, _ :: _, _, _ => .error .fuel
  | n + 1, (s, depth) :: pending, props, refs =>
    match budgetIssue s depth props refs with
    | some msg => .ok (some msg)
    | none =>
      -- The last child is the next to come off the stack.
      precompileBudgetIssue n
        (((childSchemas s).getD []).reverse.map (·, depth + 1) ++ pending)
        (props + ((s.object? "properties").getD []).length)
        (refs + (s.has "$ref").toNat)

/-! ## References and alternatives -/

/-- The alternatives of an `anyOf`, with `ways` for each. -/
def waysAll (ways : List (String × Nat) → Object → Run (Option Nat × List (String × Nat))) :
    Nat → List (String × Nat) → List Json → Run (Option Nat × List (String × Nat))
  | total, finished, [] => .ok (some total, finished)
  | total, finished, alt :: alts =>
    match alt.object? with
    | none => waysAll ways total finished alts
    | some m =>
      ways finished m >>= fun
        | (none, finished) => .ok (none, finished)
        | (some n, finished) =>
          waysAll ways (min (total + n) (maxSchemaAlternatives + 1)) finished alts

/-- In how many ways a schema can be tried on one value, or `none` where its
references come back to themselves. -/
def ways (root : Object) : Nat → List String → List (String × Nat) → Object →
    Run (Option Nat × List (String × Nat))
  | 0, _, _, _ => .error .fuel
  | n + 1, following, finished, s =>
    match s.string? "$ref" with
    | some ref =>
      if following.contains ref then .ok (none, finished)
      else
        match finished.lookup ref with
        | some k => .ok (some k, finished)
        | none =>
          match schemaAt root ref with
          | none => .ok (some 1, finished)
          | some target =>
            ways root n (ref :: following) finished target >>= fun
              | (none, finished) => .ok (none, finished)
              | (some k, finished) => .ok (some k, (ref, k) :: finished)
    | none =>
      match s.array? "anyOf" with
      | none => .ok (some 1, finished)
      | some alts => waysAll (ways root n following) 0 finished alts

def alternativesIssue (root : Object) : Nat → List Object → List (String × Nat) →
    Run (Option String)
  | _, [], _ => .ok none
  | 0, _ :: _, _ => .error .fuel
  | n + 1, s :: pending, finished =>
    ways root n [] finished s >>= fun
      | (none, _) => .ok (some
          "Structured output schema references must not loop without consuming part of the answer.")
      | (some k, finished) =>
        if maxSchemaAlternatives < k then
          .ok (some "Structured output schema has too many alternatives.")
        else
          alternativesIssue root n (((childSchemas s).getD []).reverse ++ pending) finished

/-! ## The strict compile -/

def simpleTypes : List String :=
  ["array", "boolean", "integer", "null", "number", "object", "string"]

def ajvKeywords : List String :=
  ["$id", "$schema", "$ref", "$comment", "$defs", "definitions", "title", "description",
    "default", "examples", "readOnly", "writeOnly", "type", "enum", "const", "nullable",
    "multipleOf", "maximum", "exclusiveMaximum", "minimum", "exclusiveMinimum",
    "maxLength", "minLength", "pattern", "format", "items", "additionalItems", "maxItems",
    "minItems", "uniqueItems", "contains", "maxProperties", "minProperties", "required",
    "properties", "patternProperties", "additionalProperties", "dependencies",
    "propertyNames", "if", "then", "else", "allOf", "anyOf", "oneOf", "not",
    "contentMediaType", "contentEncoding"]

def keywordTypes : List (String × String) :=
  [("multipleOf", "number"), ("maximum", "number"), ("exclusiveMaximum", "number"),
    ("minimum", "number"), ("exclusiveMinimum", "number"), ("maxLength", "string"),
    ("minLength", "string"), ("pattern", "string"), ("format", "string"),
    ("items", "array"), ("additionalItems", "array"), ("maxItems", "array"),
    ("minItems", "array"), ("uniqueItems", "array"), ("contains", "array"),
    ("maxProperties", "object"), ("minProperties", "object"), ("required", "object"),
    ("properties", "object"), ("patternProperties", "object"),
    ("additionalProperties", "object"), ("dependencies", "object"),
    ("propertyNames", "object")]

def nonNegIntKeys : List String :=
  ["maxLength", "minLength", "maxItems", "minItems", "maxProperties", "minProperties"]

def numberKeys : List String := ["maximum", "exclusiveMaximum", "minimum", "exclusiveMinimum"]

def schemaKeys : List String :=
  ["additionalProperties", "additionalItems", "contains", "propertyNames", "not", "if",
    "then", "else"]

def schemaMapKeys : List String := ["properties", "patternProperties", "definitions", "$defs"]

def schemaArrKeys : List String := ["allOf", "anyOf", "oneOf"]

def isSchema : Json → Bool
  | .bool _ | .obj _ => true
  | _ => false

def schemaTypesOf (s : Object) : List String :=
  match s.lookup "type" with
  | some (.str t) => [t]
  | some (.arr ts) => ts.filterMap Json.string?
  | _ => []

def applicable (types : List String) (kwType : String) : Bool :=
  types.contains kwType || (kwType == "number" && types.contains "integer")

/-- `f == math.Trunc(f)`. -/
def integral (f : ℚ) : Bool := f.den == 1

/-- A list of strings that pass, each named once. -/
def distinctStrings (ok : String → Bool) : List String → List Json → Bool
  | _, [] => true
  | seen, .str t :: rest =>
    ok t && !seen.contains t && distinctStrings ok (t :: seen) rest
  | _, _ :: _ => false

/-- The values a local JSON pointer goes through. -/
def follow : Json → List (List Char) → Option Json
  | cur, [] => some cur
  | cur, part :: parts =>
    match cur.object? with
    | none => none
    | some m => (m.lookup (String.ofList part)).bind (follow · parts)

/-- `strings.ReplaceAll` of `~` and a second character. -/
def replaceTilde (second result : Char) : List Char → List Char
  | a :: b :: rest =>
    if a = '~' ∧ b = second then result :: replaceTilde second result rest
    else a :: replaceTilde second result (b :: rest)
  | cs => cs

/-- Follows a local JSON pointer ref. -/
def resolvable (root : Object) (ref : String) : Bool :=
  ref == "#" ||
    match afterPrefix "#/".toList ref.toList with
    | none => false
    | some rest =>
      ((follow (.obj root) ((rest.splitOn '/').map fun part =>
        replaceTilde '0' '~' (replaceTilde '1' '/' part))).map isSchema).getD false

/-- What ajv asks of one keyword's value. -/
def keywordOk (go : Go) (root s : Object) (k : String) (v : Json) : Bool :=
  if !ajvKeywords.contains k then false
  else if k = "type" then
    match v with
    | .str t => simpleTypes.contains t
    | .arr ts => distinctStrings simpleTypes.contains [] ts
    | _ => false
  else if k = "enum" ∨ k = "examples" then v.array?.isSome
  else if k = "multipleOf" then (number go v).any fun f => 0 < f
  else if numberKeys.contains k then (number go v).isSome
  else if nonNegIntKeys.contains k then (number go v).any fun f => 0 ≤ f && integral f
  else if k = "required" then
    match v with
    | .arr names => distinctStrings ((s.object? "properties").getD []).has [] names
    | _ => false
  else if k = "uniqueItems" ∨ k = "readOnly" ∨ k = "writeOnly" ∨ k = "nullable" then
    match v with
    | .bool _ => true
    | _ => false
  else if k = "$ref" then v.string?.any (resolvable root)
  else if k = "pattern" then v.string?.any go.compiles
  else if k = "format" ∨ k = "title" ∨ k = "description" ∨ k = "$comment" ∨ k = "$id" ∨
      k = "$schema" ∨ k = "contentMediaType" ∨ k = "contentEncoding" then
    v.string?.isSome
  else if k = "items" then
    match v with
    | .arr xs => xs.all isSchema
    | v => isSchema v
  else if schemaKeys.contains k then isSchema v
  else if schemaMapKeys.contains k ∨ k = "dependencies" then
    v.object?.any fun m =>
      m.all fun e => isSchema e.2 || (k == "dependencies" && e.2.array?.isSome)
  else if schemaArrKeys.contains k then
    v.array?.any fun xs => !xs.isEmpty && xs.all isSchema
  else true

/-- The types known of a schema's data: its own, or the parent's. -/
def knownTypes (s : Object) (ctx : List String) : List String :=
  if (schemaTypesOf s).isEmpty then ctx else schemaTypesOf s

/-- Everything ajv's strict mode asks of a schema but its subschemas. -/
def compileOk (go : Go) (root s : Object) (ctx : List String) : Bool :=
  s.all (fun e => keywordOk go root s e.1 e.2) &&
    ((schemaTypesOf s).isEmpty || ctx.isEmpty ||
      (schemaTypesOf s).all fun t =>
        applicable ctx t || (t == "integer" && ctx.contains "number")) &&
    s.all (fun e => (keywordTypes.lookup e.1).all (applicable (knownTypes s ctx))) &&
    (s.has "if" || (!s.has "then" && !s.has "else"))

/-- The values the compile goes on to, and the types known of their data:
data-changing subschemas start without any. -/
def subschemas (s : Object) (known : List String) : List (Json × List String) :=
  (sortedKeys s).flatMap fun k =>
    match s.lookup k with
    | none => []
    | some v =>
      if schemaMapKeys.contains k ∨ k = "dependencies" then
        (sortedValues (v.object?.getD [])).map (·, [])
      else if k = "items" then
        match v with
        | .arr xs => xs.map (·, [])
        | v => [(v, [])]
      else if k = "additionalProperties" ∨ k = "additionalItems" ∨ k = "contains" ∨
          k = "propertyNames" then
        [(v, [])]
      else if k = "not" ∨ k = "if" ∨ k = "then" ∨ k = "else" then [(v, known)]
      else if schemaArrKeys.contains k then (v.array?.getD []).map (·, known)
      else []

/-- Whether a check passes on every value; only an object is a schema to
check. -/
def compileAll (compile : Object → List String → Run Bool) :
    List (Json × List String) → Run Bool
  | [] => .ok true
  | (v, ctx) :: rest =>
    match v.object? with
    | none => compileAll compile rest
    | some m =>
      compile m ctx >>= fun
        | true => compileAll compile rest
        | false => .ok false

/-- What ajv (strict, with union types) compiles; `ctx` is what is known of the
data's types from the parent. -/
def strictCompile (go : Go) (root : Object) : Nat → Object → List String → Run Bool
  | 0, _, _ => .error .fuel
  | n + 1, s, ctx =>
    if compileOk go root s ctx then
      compileAll (strictCompile go root n) (subschemas s (knownTypes s ctx))
    else .ok false

/-! ## The native subset -/

def matchesType (go : Go) (v : Json) (t : String) : Bool :=
  match t, v with
  | "null", .null => true
  | "boolean", .bool _ => true
  | "string", .str _ => true
  | "number", v => (number go v).isSome
  | "integer", v => (number go v).any integral
  | "array", .arr _ => true
  | "object", .obj _ => true
  | _, _ => false

def matchesAnyType (go : Go) (v : Json) (types : List String) : Bool :=
  types.any (matchesType go v)

/-- Whether a schema constrains more than `primary`, its annotations and, where
allowed, its type. -/
def hasValidationSiblings (s : Object) (primary : String) (allowType : Bool) : Bool :=
  s.any fun e => e.1 != primary && !(allowType && e.1 == "type") &&
    !annotationKeywords.contains e.1

def hasOnlyType (s : Object) (want : String) : Bool :=
  (schemaTypesOf s).filter (· ≠ "null") == [want]

/-- `number(s[k])`. -/
def numberAt (go : Go) (s : Object) (k : String) : Option ℚ := (s.lookup k).bind (number go)

def repetitionIssue (go : Go) (s : Object) (minKey maxKey : String) : Option String :=
  let lo := numberAt go s minKey
  let hi := numberAt go s maxKey
  if lo.any (maxNativeRepetition < ·) || hi.any (maxNativeRepetition < ·) then
    some ("Structured output schema " ++ minKey ++ "/" ++ maxKey ++
      " exceeds LocalBase's native repetition limit.")
  else if lo.any fun lo => hi.any (· < lo) then
    some ("Structured output schema " ++ minKey ++ " cannot exceed " ++ maxKey ++ ".")
  else none

def maxSafeInteger : ℚ := 2 ^ 53 - 1

def safeInt (f : ℚ) : Bool := integral f && decide (|f| ≤ maxSafeInteger)

def scalar : Json → Bool
  | .arr _ | .obj _ => false
  | _ => true

def literalsMatchType (go : Go) (s : Object) : Bool :=
  ((s.array? "enum").getD [(s.lookup "const").getD .null]).all fun v =>
    scalar v && (!s.has "type" || matchesAnyType go v (schemaTypesOf s))

def keywordIssue (s : Object) : Option String :=
  ((sortedKeys s).find? fun k =>
    !supportedKeywords.contains k && !annotationKeywords.contains k).map fun k =>
    "Structured output schema uses unsupported keyword '" ++ k ++ "'."

def refIssue (s : Object) : Option String :=
  if !(s.string? "$ref").any supportedRef then
    some "Structured output schema references must target direct local definitions."
  else if hasValidationSiblings s "$ref" false then
    some "Structured output schema reference siblings are unsupported."
  else none

def anyOfIssue (s : Object) : Option String :=
  if s.has "anyOf" && hasValidationSiblings s "anyOf" false then
    some "Structured output schema anyOf siblings are unsupported."
  else none

def literalIssue (go : Go) (s : Object) : Option String :=
  let primary := if s.has "enum" then "enum" else "const"
  if !s.has "enum" && !s.has "const" then none
  else if s.has "enum" && s.has "const" then
    some "Structured output schema cannot combine enum and const."
  else if hasValidationSiblings s primary true then
    some ("Structured output schema " ++ primary ++
      " cannot be combined with other constraints.")
  else if !literalsMatchType go s then
    some ("Structured output schema " ++ primary ++
      " values must be scalar and satisfy the declared type.")
  else none

/-- Keywords that are taken with one type only. -/
def typedIssue (s : Object) (keys : List String) (want msg : String) : Option String :=
  if keys.any s.has && !hasOnlyType s want then some msg else none

def refusedIssue (s : Object) (key msg : String) : Option String :=
  if s.has key then some msg else none

def arrayIssue (s : Object) : Option String :=
  if (schemaTypesOf s).contains "array" && (s.object? "items").isNone then
    some "Structured output arrays require an object-valued items schema."
  else none

def boundsIssue (go : Go) (s : Object) : Option String :=
  let lo := (numberAt go s "minimum").orElse
    fun _ => (numberAt go s "exclusiveMinimum").map (· + 1)
  let hi := (numberAt go s "maximum").orElse
    fun _ => (numberAt go s "exclusiveMaximum").map (· - 1)
  if !(["minimum", "maximum", "exclusiveMinimum", "exclusiveMaximum"].any s.has) then none
  else if !hasOnlyType s "integer" then
    some "The managed runtime supports numeric bounds only for integer schemas."
  else if numberKeys.any fun k => (numberAt go s k).any fun f => !safeInt f then
    some "Structured output integer bounds must be safe integers."
  else if (s.has "minimum" && s.has "exclusiveMinimum") ||
      (s.has "maximum" && s.has "exclusiveMaximum") then
    some ("Structured output integer bounds cannot combine inclusive and exclusive " ++
      "limits on the same side.")
  else if lo.any (fun f => !safeInt f) || hi.any (fun f => !safeInt f) then
    some ("Structured output exclusive integer bounds must remain within the safe " ++
      "integer range.")
  else if lo.any fun lo => hi.any (· < lo) then
    some "Structured output integer bounds must contain at least one value."
  else none

/-- `s["additionalProperties"] == false`. -/
def closed (s : Object) : Bool :=
  match s.lookup "additionalProperties" with
  | some (.bool false) => true
  | _ => false

def objectIssue (s : Object) : Option String :=
  if !(schemaTypesOf s).contains "object" then none
  else
    match s.object? "properties" with
    | none =>
      some "Structured output objects require properties and additionalProperties: false."
    | some props =>
      if !closed s then
        some "Structured output objects require properties and additionalProperties: false."
      else
        match s.array? "required" with
        | none => some "Structured output objects must require every declared property."
        | some req =>
          if req.length ≠ props.length || props.any fun e =>
              !req.any fun r => r.string? == some e.1 then
            some "Structured output objects must require every declared property."
          else none

/-- What the subset asks of a schema that is no reference, but for its
subschemas. -/
def constraintIssue (go : Go) (s : Object) : Option String :=
  anyOfIssue s <|> literalIssue go s <|>
  refusedIssue s "format"
    "Structured output schema formats are unsupported by the managed runtime contract." <|>
  typedIssue s ["properties", "required", "additionalProperties"] "object"
    "Structured output object constraints require an object or nullable object type." <|>
  typedIssue s ["items", "minItems", "maxItems"] "array"
    "Structured output array constraints require an array or nullable array type." <|>
  arrayIssue s <|> repetitionIssue go s "minItems" "maxItems" <|>
  typedIssue s ["minLength", "maxLength"] "string"
    "Structured output string lengths require a string or nullable string type." <|>
  refusedIssue s "minLength"
    "Structured output schema minLength is unsupported by the managed runtime contract." <|>
  repetitionIssue go s "minLength" "maxLength" <|> boundsIssue go s <|> objectIssue s

/-- The first child with an issue. -/
def firstIssue (inspect : Object → Run (Option String)) :
    List Object → Run (Option String)
  | [] => .ok none
  | s :: rest =>
    inspect s >>= fun
      | some msg => .ok (some msg)
      | none => firstIssue inspect rest

def inspectNative (go : Go) : Nat → Object → Run (Option String)
  | 0, _ => .error .fuel
  | n + 1, s =>
    match keywordIssue s with
    | some msg => .ok (some msg)
    | none =>
      -- A reference's siblings are annotations, so it has no children.
      if s.has "$ref" then .ok (refIssue s)
      else
        match constraintIssue go s with
        | some msg => .ok (some msg)
        | none =>
          match childSchemas s with
          | none => .ok (some "The managed runtime requires object-valued subschemas.")
          | some children => firstIssue (inspectNative go n) children

/-! ## `Prepare` -/

def bytesIssue (schema : Object) : Option String :=
  if maxSchemaBytes < byteLength (marshal (.obj schema)) then
    some "Structured output schema exceeds LocalBase's 256 KiB compile limit."
  else none

def dialectIssue (schema : Object) : Option String :=
  if schema.has "$schema" && schema.string? "$schema" != some draft7URI then
    some "Structured output schemas must use JSON Schema draft 7."
  else none

def compileIssue (go : Go) (n : Nat) (schema : Object) : Run (Option String) :=
  (strictCompile go schema n schema []).map fun ok =>
    if ok then none else some "Structured output schema is not valid JSON Schema draft 7."

def rootIssue (schema : Object) : Option String :=
  if schema.string? "type" ≠ some "object" then
    some "Structured output schema root must be an object type."
  else none

/-- A pass that finds an issue ends the run with a rejection. -/
def orReject {α : Type} (code : String) (pass : Run (Option String))
    (next : Run (Except Rejection α)) : Run (Except Rejection α) :=
  pass >>= fun
    | some msg => .ok (.error ⟨code, msg⟩)
    | none => next

/-- The schema to validate completed responses against, `none` when the request
has no json_schema format, or a rejection. -/
def prepare (go : Go) (n : Nat) (responseFormat : Json) :
    Run (Except Rejection (Option Object)) :=
  let rf := responseFormat.object?.getD []
  if rf.string? "type" ≠ some "json_schema" then .ok (.ok none)
  else
    let schema := (((rf.object? "json_schema").getD []).object? "schema").getD []
    orReject codeUnsupportedJSONSchma (.ok (bytesIssue schema)) <|
    orReject codeUnsupportedJSONSchma (precompileBudgetIssue n [(schema, 1)] 0 0) <|
    orReject codeUnsupportedJSONSchma (.ok (dialectIssue schema)) <|
    orReject codeInvalidJSONSchema (compileIssue go n schema) <|
    orReject codeUnsupportedJSONSchma (inspectNative go n schema) <|
    orReject codeUnsupportedJSONSchma (alternativesIssue schema n [schema] []) <|
    orReject codeUnsupportedJSONSchma (.ok (rootIssue schema)) <|
    .ok (.ok (some schema))

end LocalBase.StructuredOutput
