import LocalBase.StructuredOutput.Accepted
import LocalBase.StructuredOutput.Valid

/-!
# Checking against an accepted schema is safe

What a check reads off a schema is of the shape it reads it as, for every
subschema of an accepted root, and what it goes on to is a subschema again. So a
check meets nothing else, its assertions hold and its references resolve.

It ends by a pair: a member or an item is smaller than the value it is in, and
at one value the references and alternatives are grounded.
-/

namespace LocalBase.StructuredOutput

variable {go : Go} {root s : Object} {n : Nat} {k r : String} {v : Json} {c : Check}
  {alts xs : List Json} {m : Object}

/-! ## Shapes -/

/-- Every keyword a check reads is of the shape it reads it as. -/
structure Readable (go : Go) (root s : Object) : Prop where
  ref : ∀ v, s.lookup "$ref" = some v →
    ∃ r t, v = .str r ∧ schemaAt root r = some t
  anyOf : ∀ v, s.lookup "anyOf" = some v →
    ∃ alts, v = .arr alts ∧ ∀ x ∈ alts, ∃ m, x = .obj m
  type : ∀ v, s.lookup "type" = some v →
    (∃ t, v = .str t) ∨ ∃ ts, v = .arr ts ∧ ∀ x ∈ ts, ∃ t, x = .str t
  enum : ∀ v, s.lookup "enum" = some v → ∃ literals, v = .arr literals
  properties : ∀ v, s.lookup "properties" = some v →
    ∃ m, v = .obj m ∧ ∀ k x, m.lookup k = some x → ∃ p, x = .obj p
  required : ∀ v, s.lookup "required" = some v →
    ∃ names, v = .arr names ∧ ∀ x ∈ names, ∃ t, x = .str t
  additionalProperties : ∀ v, s.lookup "additionalProperties" = some v → v = .bool false
  items : ∀ v, s.lookup "items" = some v → ∃ m, v = .obj m
  numbers : ∀ k ∈ ["minItems", "maxItems", "maxLength", "minimum", "maximum",
      "exclusiveMinimum", "exclusiveMaximum"],
    ∀ v, s.lookup k = some v → (number go v).isSome = true

theorem distinctStrings_strings {ok : String → Bool} {seen : List String}
    (h : distinctStrings ok seen xs = true) : ∀ x ∈ xs, ∃ t, x = .str t := by
  induction xs generalizing seen with
  | nil => simp
  | cons x xs ih =>
    cases x with
    | str t =>
      rw [distinctStrings, Bool.and_eq_true] at h
      intro x' hx'
      rcases List.mem_cons.mp hx' with rfl | hx'
      · exact ⟨t, rfl⟩
      · exact ih h.2 x' hx'
    | _ => cases h

theorem number_isSome_of_any {p : ℚ → Bool}
    (h : (number go v).any p = true) : (number go v).isSome = true := by
  cases hn : number go v with
  | none => simp [hn] at h
  | some f => rfl

section Keywords

variable {ctx : List String} (h : compileOk go root s ctx = true)

include h

theorem compiled_keyword (hk : s.lookup k = some v) :
    keywordOk go root s k v = true := by
  simp only [compileOk, Bool.and_eq_true, List.all_eq_true] at h
  exact h.1.1.1 (k, v) (mem_of_lookup hk)

theorem compiled_type (hv : s.lookup "type" = some v) :
    (∃ t, v = .str t) ∨ ∃ ts, v = .arr ts ∧ ∀ x ∈ ts, ∃ t, x = .str t := by
  have hok := compiled_keyword h hv
  unfold keywordOk at hok
  rw [if_neg (by decide), if_pos rfl] at hok
  cases v with
  | str t => exact Or.inl ⟨t, rfl⟩
  | arr ts => exact Or.inr ⟨ts, rfl, distinctStrings_strings hok⟩
  | _ => cases hok

theorem compiled_enum (hv : s.lookup "enum" = some v) :
    ∃ literals, v = .arr literals := by
  have hok := compiled_keyword h hv
  unfold keywordOk at hok
  rw [if_neg (by decide), if_neg (by decide), if_pos (by decide)] at hok
  obtain ⟨literals, hl⟩ := Option.isSome_iff_exists.mp hok
  exact ⟨literals, Json.array?_eq_some.mp hl⟩

theorem compiled_required (hv : s.lookup "required" = some v) :
    ∃ names, v = .arr names ∧ ∀ x ∈ names, ∃ t, x = .str t := by
  have hok := compiled_keyword h hv
  unfold keywordOk at hok
  rw [if_neg (by decide), if_neg (by decide), if_neg (by decide),
    if_neg (by decide), if_neg (by decide), if_neg (by decide), if_pos rfl] at hok
  cases v with
  | arr names => exact ⟨names, rfl, distinctStrings_strings hok⟩
  | _ => cases hok

theorem compiled_number (hk : k ∈ ["minItems", "maxItems", "maxLength", "minimum", "maximum",
      "exclusiveMinimum", "exclusiveMaximum"]) (hv : s.lookup k = some v) :
    (number go v).isSome = true := by
  have hok := compiled_keyword h hv
  simp only [List.mem_cons, List.not_mem_nil, or_false] at hk
  rcases hk with rfl | rfl | rfl | rfl | rfl | rfl | rfl
  all_goals
    unfold keywordOk at hok
    rw [if_neg (by decide), if_neg (by decide), if_neg (by decide),
      if_neg (by decide)] at hok
    first
    | rw [if_pos (by decide)] at hok
      exact hok
    | rw [if_neg (by decide), if_pos (by decide)] at hok
      exact number_isSome_of_any hok

theorem compiled_ref (hv : s.lookup "$ref" = some v) :
    ∃ r, v = .str r ∧ resolvable root r = true := by
  have hok := compiled_keyword h hv
  unfold keywordOk at hok
  rw [if_neg (by decide), if_neg (by decide), if_neg (by decide),
    if_neg (by decide), if_neg (by decide), if_neg (by decide), if_neg (by decide),
    if_neg (by decide), if_pos rfl] at hok
  cases v with
  | str r => exact ⟨r, rfl, by simpa [Json.string?] using hok⟩
  | _ => simp [Json.string?] at hok

end Keywords

/-! ## References -/

theorem afterPrefix_append (p cs : List Char) : afterPrefix p (p ++ cs) = some cs := by
  rw [afterPrefix, if_pos (by simp), List.drop_left]

theorem eq_of_afterPrefix {p cs rest : List Char} (h : afterPrefix p cs = some rest) :
    cs = p ++ rest := by
  unfold afterPrefix at h
  split at h
  · next hp =>
    obtain ⟨t, rfl⟩ := List.isPrefixOf_iff_prefix.mp hp
    cases h
    rw [List.drop_left]
  · cases h

theorem replaceTilde_eq {second result : Char} {cs : List Char} (h : '~' ∉ cs) :
    replaceTilde second result cs = cs := by
  induction cs with
  | nil => rfl
  | cons a cs ih =>
    rw [List.mem_cons, not_or] at h
    cases cs with
    | nil => rfl
    | cons b cs =>
      rw [replaceTilde, if_neg (fun hab => h.1 hab.1.symm), ih h.2]

theorem supportedRef_parts (h : supportedRef r = true) :
    ∃ key ∈ ["$defs", "definitions"], ∃ name : List Char,
      r.toList = "#/".toList ++ (key.toList ++ '/' :: name) ∧ '/' ∉ name ∧ '~' ∉ name := by
  unfold supportedRef at h
  split at h
  · next name hname =>
    simp only [Bool.and_eq_true, List.all_eq_true] at h
    have hslash : '/' ∉ name := fun hm => absurd (h.2 _ hm) (by decide)
    have htilde : '~' ∉ name := fun hm => absurd (h.2 _ hm) (by decide)
    cases hdefs : afterPrefix "#/$defs/".toList r.toList with
    | some rest =>
      rw [hdefs] at hname
      cases hname
      refine ⟨"$defs", by simp, name, ?_, hslash, htilde⟩
      simpa using eq_of_afterPrefix hdefs
    | none =>
      rw [hdefs, Option.orElse_none] at hname
      refine ⟨"definitions", by simp, name, ?_, hslash, htilde⟩
      simpa using eq_of_afterPrefix hname
  · cases h

theorem schemaAt_parts {key : String} {name : List Char}
    (hr : r.toList = "#/".toList ++ (key.toList ++ '/' :: name)) (hkey : '/' ∉ key.toList) :
    schemaAt root r = (root.object? key).bind (Object.object? · (String.ofList name)) := by
  have hpos : ∀ c ∈ key.toList, decide (c ≠ '/') = true := by
    intro c hc
    simp only [decide_eq_true_eq]
    rintro rfl
    exact hkey hc
  unfold schemaAt
  rw [hr, afterPrefix_append]
  simp only [Option.getD_some]
  rw [List.dropWhile_append_of_pos hpos, List.takeWhile_append_of_pos hpos]
  simp [Option.bind_eq_bind]

theorem resolvable_parts {key : String} {name : List Char}
    (hr : r.toList = "#/".toList ++ (key.toList ++ '/' :: name)) (hkey : '/' ∉ key.toList)
    (hkey' : '~' ∉ key.toList) (hname : '/' ∉ name) (hname' : '~' ∉ name)
    (h : resolvable root r = true) :
    ∃ m x, root.lookup key = some (.obj m) ∧ m.lookup (String.ofList name) = some x := by
  have hne : (r == "#") = false := by
    refine beq_false_of_ne fun heq => ?_
    subst heq
    simp at hr
  rw [resolvable, hne, Bool.false_or, hr, afterPrefix_append] at h
  simp only at h
  rw [List.splitOn_append_cons_self_of_not_mem hkey, List.splitOn_eq_singleton hname] at h
  simp only [List.map_cons, List.map_nil, replaceTilde_eq hkey', replaceTilde_eq hname',
    follow, Json.object?, String.ofList_toList] at h
  cases hm : root.lookup key with
  | none => simp [hm] at h
  | some y =>
    cases y with
    | obj m =>
      cases hx : m.lookup (String.ofList name) with
      | none => simp [hm, hx] at h
      | some x => exact ⟨m, x, rfl, hx⟩
    | _ => simp [hm] at h

theorem reference_target {cs : List Object} (hroot : childSchemas root = some cs)
    (hsup : supportedRef r = true)
    (hres : resolvable root r = true) : ∃ t ∈ cs, schemaAt root r = some t := by
  obtain ⟨key, hkey, name, hr, hslash, htilde⟩ := supportedRef_parts hsup
  have hkeys : '/' ∉ key.toList ∧ '~' ∉ key.toList ∧
      key ∈ ["properties", "$defs", "definitions"] := by
    simp only [List.mem_cons, List.not_mem_nil, or_false] at hkey
    rcases hkey with rfl | rfl <;> decide
  obtain ⟨m, x, hm, hx⟩ := resolvable_parts hr hkeys.1 hkeys.2.1 hslash htilde hres
  obtain ⟨m', hm', hall⟩ := child_of_map hroot hkeys.2.2 hm
  cases hm'
  obtain ⟨t, rfl, ht⟩ := hall _ x hx
  refine ⟨t, ht, ?_⟩
  rw [schemaAt_parts hr hkeys.1, Object.object?_eq_some.mpr hm, Option.bind_some,
    Object.object?_eq_some.mpr hx]

/-! ## Accepted schemas are readable -/

theorem orElse_eq_none {α : Type} {a b : Option α} :
    (a <|> b) = none ↔ a = none ∧ b = none := by
  cases a <;> simp

theorem constraintIssue_none (h : constraintIssue go s = none) :
    anyOfIssue s = none ∧ literalIssue go s = none ∧
      (["properties", "required", "additionalProperties"].any s.has = true →
        closed s = true) := by
  unfold constraintIssue at h
  simp only [orElse_eq_none] at h
  obtain ⟨hany, hliteral, _, htyped, _, _, _, _, _, _, _, hobject⟩ := h
  refine ⟨hany, hliteral, fun hkeys => ?_⟩
  have honly : hasOnlyType s "object" = true := by
    unfold typedIssue at htyped
    rw [hkeys, Bool.true_and] at htyped
    by_contra hno
    rw [Bool.not_eq_true] at hno
    rw [hno] at htyped
    cases htyped
  have hmem : (schemaTypesOf s).contains "object" = true := by
    have heq : (schemaTypesOf s).filter (· ≠ "null") = ["object"] := by
      simpa [hasOnlyType] using honly
    have hin : "object" ∈ (schemaTypesOf s).filter (· ≠ "null") := by
      rw [heq]
      exact List.mem_singleton_self _
    exact List.contains_iff_mem.mpr (List.mem_filter.mp hin).1
  by_contra hclosed
  rw [Bool.not_eq_true] at hclosed
  rw [objectIssue, hmem] at hobject
  simp only [Bool.not_true, Bool.false_eq_true, if_false, hclosed, Bool.not_false,
    if_true] at hobject
  split at hobject <;> cases hobject

theorem closed_lookup (h : closed s = true) :
    s.lookup "additionalProperties" = some (.bool false) := by
  unfold closed at h
  split at h
  · next hv => exact hv
  · cases h

theorem Accepted.children (h : Accepted go root) : ∃ cs, childSchemas root = some cs := by
  rcases (h.checked (.refl root)).native with ⟨_, hissue⟩ | ⟨_, _, hcs⟩
  · have htype := refIssue_lookup hissue (k := "type") (by decide) (by decide)
    rw [Object.string?_eq_some.mp h.rootType] at htype
    cases htype
  · exact hcs

theorem lookup_of_has (h : s.has k = false) : s.lookup k = none := by
  simpa [Object.has] using h

theorem Checked.reference (h : Accepted go root) (hs : Checked go root s)
    (hv : s.lookup "$ref" = some v) :
    ∃ r t, v = .str r ∧ schemaAt root r = some t ∧ Below root t := by
  obtain ⟨cs, hcs⟩ := h.children
  obtain ⟨ctx, hcompiled⟩ := hs.compiled
  obtain ⟨r, rfl, hres⟩ := compiled_ref hcompiled hv
  rcases hs.native with ⟨_, hissue⟩ | ⟨hno, _, _⟩
  · have hsup : supportedRef r = true := by
      have hr : s.string? "$ref" = some r := Object.string?_eq_some.mpr hv
      rw [refIssue, hr] at hissue
      by_contra hnot
      rw [Bool.not_eq_true] at hnot
      simp [hnot] at hissue
    obtain ⟨t, ht, hat⟩ := reference_target hcs hsup hres
    exact ⟨r, t, rfl, hat, (Below.refl root).step hcs ht⟩
  · rw [lookup_of_has hno] at hv
    cases hv

theorem Checked.readable (h : Accepted go root) (hs : Checked go root s) :
    Readable go root s := by
  obtain ⟨ctx, hcompiled⟩ := hs.compiled
  have href : ∀ v, s.lookup "$ref" = some v →
      ∃ r t, v = .str r ∧ schemaAt root r = some t := by
    intro v hv
    obtain ⟨r, t, hr, hat, _⟩ := hs.reference h hv
    exact ⟨r, t, hr, hat⟩
  have hread : (∀ v, s.lookup "anyOf" = some v →
        ∃ alts, v = .arr alts ∧ ∀ x ∈ alts, ∃ m, x = .obj m) ∧
      (∀ v, s.lookup "properties" = some v →
        ∃ m, v = .obj m ∧ ∀ k x, m.lookup k = some x → ∃ p, x = .obj p) ∧
      (∀ v, s.lookup "additionalProperties" = some v → v = .bool false) ∧
      ∀ v, s.lookup "items" = some v → ∃ m, v = .obj m := by
    rcases hs.native with ⟨_, hissue⟩ | ⟨_, hissue, cs, hcs⟩
    · refine ⟨fun v hv => ?_, fun v hv => ?_, fun v hv => ?_, fun v hv => ?_⟩
      all_goals
        rw [refIssue_lookup hissue (by decide) (by decide)] at hv
        cases hv
    · refine ⟨fun v hv => ?_, fun v hv => ?_, fun v hv => ?_, fun v hv => ?_⟩
      · obtain ⟨alts, rfl, hall⟩ := child_of_anyOf hcs hv
        exact ⟨alts, rfl, fun x hx => (hall x hx).imp fun _ ho => ho.1⟩
      · obtain ⟨m, rfl, hall⟩ := child_of_map hcs (by decide) hv
        exact ⟨m, rfl, fun k x hx => (hall k x hx).imp fun _ ho => ho.1⟩
      · have hhas : s.has "additionalProperties" = true := by simp [Object.has, hv]
        have hclosed := closed_lookup ((constraintIssue_none hissue).2.2 (by simp [hhas]))
        rw [hv] at hclosed
        exact Option.some.inj hclosed
      · obtain ⟨o, rfl, _⟩ := child_of_items hcs hv
        exact ⟨o, rfl⟩
  exact {
    ref := href
    anyOf := hread.1
    type := fun v hv => compiled_type hcompiled hv
    enum := fun v hv => compiled_enum hcompiled hv
    properties := hread.2.1
    required := fun v hv => compiled_required hcompiled hv
    additionalProperties := hread.2.2.1
    items := hread.2.2.2
    numbers := fun k hk v hv => compiled_number hcompiled hk hv }

/-! ## What a call goes on to -/

theorem Checked.alternative (hs : Checked go root s) (hv : s.array? "anyOf" = some alts)
    (hm : .obj m ∈ alts) : Below root m := by
  rw [Object.array?_eq_some] at hv
  rcases hs.native with ⟨_, hissue⟩ | ⟨_, _, cs, hcs⟩
  · rw [refIssue_lookup hissue (by decide) (by decide)] at hv
    cases hv
  · obtain ⟨_, hxs, hall⟩ := child_of_anyOf hcs hv
    cases hxs
    obtain ⟨_, ho, hmem⟩ := hall _ hm
    cases ho
    exact hs.below.step hcs hmem

theorem Checked.property (hs : Checked go root s) {p : Object}
    (hp : ((s.object? "properties").getD []).object? k = some p) : Below root p := by
  cases hprops : s.object? "properties" with
  | none =>
    rw [hprops] at hp
    cases hp
  | some props =>
    rw [hprops, Option.getD_some, Object.object?_eq_some] at hp
    rw [Object.object?_eq_some] at hprops
    rcases hs.native with ⟨_, hissue⟩ | ⟨_, _, cs, hcs⟩
    · rw [refIssue_lookup hissue (by decide) (by decide)] at hprops
      cases hprops
    · obtain ⟨_, hm, hall⟩ := child_of_map hcs (by decide) hprops
      cases hm
      obtain ⟨_, ho, hmem⟩ := hall k _ hp
      cases ho
      exact hs.below.step hcs hmem

theorem Checked.item (hs : Checked go root s) {items : Object}
    (hi : s.object? "items" = some items) : Below root items := by
  rw [Object.object?_eq_some] at hi
  rcases hs.native with ⟨_, hissue⟩ | ⟨_, _, cs, hcs⟩
  · rw [refIssue_lookup hissue (by decide) (by decide)] at hi
    cases hi
  · obtain ⟨_, ho, hmem⟩ := child_of_items hcs hi
    cases ho
    exact hs.below.step hcs hmem

theorem Checked.target (h : Accepted go root) (hs : Checked go root s)
    (hr : s.string? "$ref" = some r) : ∃ t, schemaAt root r = some t ∧ Below root t := by
  obtain ⟨_, t, hr', hat, hbelow⟩ := hs.reference h (Object.string?_eq_some.mp hr)
  cases hr'
  exact ⟨t, hat, hbelow⟩

theorem Readable.required_strings (h : Readable go root s) :
    ∀ x ∈ (s.array? "required").getD [], ∃ t, x = .str t := by
  cases hreq : s.array? "required" with
  | none => simp
  | some names =>
    obtain ⟨_, hnames, hall⟩ := h.required _ (Object.array?_eq_some.mp hreq)
    cases hnames
    exact hall

theorem requiredOk_total (val : Object) {names : List Json}
    (h : ∀ x ∈ names, ∃ t, x = .str t) : ∃ b, requiredOk val names = .ok b := by
  induction names with
  | nil => exact ⟨true, rfl⟩
  | cons r rest ih =>
    obtain ⟨t, rfl⟩ := h r List.mem_cons_self
    rw [requiredOk]
    simp only [Json.string?]
    split
    · exact ih fun x hx => h x (List.mem_cons_of_mem _ hx)
    · exact ⟨false, rfl⟩

/-! ## Termination -/

/-- All that was met is below the root. -/
def Check.Within (root : Object) (c : Check) : Prop := ∀ s ∈ c.met, Below root s

/-- The run comes to an answer, and has met nothing but what is below the
root. -/
def Ends (root : Object) (run : Nat → Run (Bool × Check)) : Prop :=
  ∃ b c, Fuel.Settles run (b, c) ∧ c.Within root

theorem ends_ok {b : Bool} (hc : c.Within root) :
    Ends root fun _ => .ok (b, c) :=
  ⟨b, c, Fuel.settles_of_eq fun _ => rfl, hc⟩

theorem Ends.bind {run : Nat → Run (Bool × Check)}
    {next : Nat → Bool × Check → Run (Bool × Check)} (h : Ends root run)
    (h' : ∀ b c, c.Within root → Ends root fun n => next n (b, c)) :
    Ends root fun n => run n >>= next n := by
  obtain ⟨b, c, hrun, hc⟩ := h
  obtain ⟨b', c', hnext, hc'⟩ := h' b c hc
  exact ⟨b', c', hrun.bind hnext, hc'⟩

theorem tryAlternatives_ends {check : Nat → Object → Check → Run (Bool × Check)}
    (h : ∀ m, .obj m ∈ alts → ∀ c, c.Within root → Ends root fun n => check n m c)
    (hc : c.Within root) :
    Ends root fun n => tryAlternatives (check n) alts c := by
  induction alts generalizing c with
  | nil => exact ends_ok hc
  | cons alt alts ih =>
    have hrest : ∀ m, .obj m ∈ alts → ∀ c, c.Within root → Ends root fun n => check n m c :=
      fun m hm => h m (List.mem_cons_of_mem _ hm)
    cases halt : alt.object? with
    | none =>
      simp only [tryAlternatives, halt]
      exact ih hrest hc
    | some m =>
      rw [Json.object?_eq_some] at halt
      subst halt
      refine (h m List.mem_cons_self c hc).bind fun b c hc => ?_
      cases b with
      | true => exact ends_ok hc
      | false => exact ih hrest hc

theorem checkItems_ends {check : Nat → Json → Check → Run (Bool × Check)}
    (h : ∀ x ∈ xs, ∀ c, c.Within root → Ends root fun n => check n x c)
    (hc : c.Within root) : Ends root fun n => checkItems (check n) xs c := by
  induction xs generalizing c with
  | nil => exact ends_ok hc
  | cons x xs ih =>
    refine (h x List.mem_cons_self c hc).bind fun b c hc => ?_
    cases b with
    | true => exact ih (fun x hx => h x (List.mem_cons_of_mem _ hx)) hc
    | false => exact ends_ok hc

theorem checkMembers_ends {check : Nat → Object → Json → Check → Run (Bool × Check)}
    (h : ∀ k x p, (k, x) ∈ m → ((s.object? "properties").getD []).object? k = some p →
      ∀ c, c.Within root → Ends root fun n => check n p x c)
    (hc : c.Within root) : Ends root fun n => checkMembers (check n) s m c := by
  induction m generalizing c with
  | nil => exact ends_ok hc
  | cons e m ih =>
    obtain ⟨k, x⟩ := e
    have hrest : ∀ c, c.Within root → Ends root fun n => checkMembers (check n) s m c :=
      fun c hc => ih (fun k x p hm => h k x p (List.mem_cons_of_mem _ hm)) hc
    cases hp : ((s.object? "properties").getD []).object? k with
    | none =>
      simp only [checkMembers, hp]
      split
      · exact ends_ok hc
      · exact hrest c hc
    | some p =>
      simp only [checkMembers, hp]
      refine (h k x p List.mem_cons_self hp c hc).bind fun b c hc => ?_
      cases b with
      | true => exact hrest c hc
      | false => exact ends_ok hc

theorem Ends.succ {run : Nat → Run (Bool × Check)} (h : Ends root fun n => run (n + 1)) :
    Ends root run := by
  obtain ⟨b, c, hrun, hc⟩ := h
  exact ⟨b, c, hrun.succ, hc⟩

theorem Check.Within.meet (hc : c.Within root) (hs : Below root s) :
    (c.meet s).Within root := by
  intro t ht
  rcases List.mem_cons.mp ht with rfl | ht
  · exact hs
  · exact hc t ht

/-- The part of a call after its references ends where those for the members
and the items do. -/
theorem validKeywords_ends (h : Accepted go root) (hs : Checked go root s)
    {check : Nat → Object → Json → Check → Run (Bool × Check)}
    (hcheck : ∀ x p, sizeOf x < sizeOf v → Below root p →
      ∀ c, c.Within root → Ends root fun n => check n p x c) (hc : c.Within root) :
    Ends root fun n => validKeywords go (check n) s v c := by
  unfold validKeywords
  split
  · exact ends_ok hc
  · cases v with
    | obj val =>
      obtain ⟨b, hb⟩ := requiredOk_total val (hs.readable h).required_strings
      simp only [hb, Bind.bind, Except.bind]
      cases b with
      | false => exact ends_ok hc
      | true =>
        refine checkMembers_ends (fun k x p hm hp => hcheck x p ?_ (hs.property hp)) hc
        have hmem : (k, x) ∈ val := (go.range_perm c.steps val).mem_iff.mp hm
        have hlt := List.sizeOf_lt_of_mem hmem
        simp only [Prod.mk.sizeOf_spec, Json.obj.sizeOf_spec] at hlt ⊢
        omega
    | arr xs =>
      simp only
      split
      · exact ends_ok hc
      · split
        · next items hi =>
          refine checkItems_ends (fun x hx => hcheck x items ?_ (hs.item hi)) hc
          have hlt := List.sizeOf_lt_of_mem hx
          simp only [Json.arr.sizeOf_spec]
          omega
        · exact ends_ok hc
    | _ => exact ends_ok hc

/-- Without the limits, a check against a subschema of an accepted root ends.
The outer induction is on the value, and the inner one on how references and
alternatives are grounded. -/
theorem valid_ends (h : Accepted go root) (v : Json) :
    ∀ s, Below root s → ∀ depth c, c.Within root →
      Ends root fun n => valid go noLimits root n s v depth c := by
  induction hsize : sizeOf v using Nat.strong_induction_on generalizing v with
  | _ size ihv =>
    subst hsize
    intro s hs
    have hground := (h.checked hs).grounded
    induction hground with
    | @ref s r href _ ih =>
      intro depth c hc
      obtain ⟨t, hat, ht⟩ := (h.checked hs).target h href
      refine Ends.succ ?_
      simp only [valid, noLimits, href, hat]
      exact ih t hat ht (depth + 1) _ (hc.meet hs)
    | @anyOf s alts href hany _ ih =>
      intro depth c hc
      refine Ends.succ ?_
      simp only [valid, noLimits, href, hany]
      exact tryAlternatives_ends
        (fun m hm c hc => ih m hm ((h.checked hs).alternative hany hm) (depth + 1) c hc)
        (hc.meet hs)
    | @keywords s href hany =>
      intro depth c hc
      refine Ends.succ ?_
      simp only [valid, noLimits, href, hany]
      exact validKeywords_ends h (h.checked hs)
        (fun x p hx hp c hc => ihv (sizeOf x) hx x rfl p hp (depth + 1) c hc)
        (hc.meet hs)

/-! ## No assertion fails -/

section Total

variable {exceeds : Nat → Nat → Bool} {e : Stop}

theorem tryAlternatives_total {check : Object → Check → Run (Bool × Check)}
    (h : ∀ m, .obj m ∈ alts → ∀ c, check m c ≠ .error e)
    (c : Check) : tryAlternatives check alts c ≠ .error e := by
  induction alts generalizing c with
  | nil => exact fun hp => (by cases hp)
  | cons alt alts ih =>
    have hrest := ih fun m hm => h m (List.mem_cons_of_mem _ hm)
    rw [tryAlternatives]
    split
    · exact hrest c
    · next m halt =>
      rw [Json.object?_eq_some] at halt
      subst halt
      intro hp
      rcases Fuel.bind_eq_error.mp hp with hp | ⟨⟨b, c'⟩, _, hp⟩
      · exact h m List.mem_cons_self c hp
      · cases b with
        | true => cases hp
        | false => exact hrest c' hp

theorem checkItems_total {check : Json → Check → Run (Bool × Check)}
    (h : ∀ x c, check x c ≠ .error e) (c : Check) :
    checkItems check xs c ≠ .error e := by
  induction xs generalizing c with
  | nil => exact fun hp => (by cases hp)
  | cons x xs ih =>
    rw [checkItems]
    intro hp
    rcases Fuel.bind_eq_error.mp hp with hp | ⟨⟨b, c'⟩, _, hp⟩
    · exact h x c hp
    · cases b with
      | true => exact ih c' hp
      | false => cases hp

theorem checkMembers_total {check : Object → Json → Check → Run (Bool × Check)}
    (h : ∀ k p, ((s.object? "properties").getD []).object? k = some p →
      ∀ x c, check p x c ≠ .error e) (c : Check) :
    checkMembers check s m c ≠ .error e := by
  induction m generalizing c with
  | nil => exact fun hp => (by cases hp)
  | cons entry m ih =>
    obtain ⟨k, x⟩ := entry
    rw [checkMembers]
    split
    · split
      · exact fun hp => (by cases hp)
      · exact ih c
    · next p hkp =>
      intro hp
      rcases Fuel.bind_eq_error.mp hp with hp | ⟨⟨b, c'⟩, _, hp⟩
      · exact h k p hkp x c hp
      · cases b with
        | true => exact ih c' hp
        | false => cases hp

theorem validKeywords_total (h : Accepted go root) (hs : Checked go root s)
    {check : Object → Json → Check → Run (Bool × Check)}
    (hcheck : ∀ p, Below root p → ∀ x c, check p x c ≠ .error e) (c : Check) :
    validKeywords go check s v c ≠ .error e := by
  unfold validKeywords
  split
  · exact fun hp => (by cases hp)
  · cases v with
    | obj val =>
      obtain ⟨b, hb⟩ := requiredOk_total val (hs.readable h).required_strings
      simp only [hb, Bind.bind, Except.bind]
      cases b with
      | false => exact fun hp => (by cases hp)
      | true => exact checkMembers_total (fun k p hp => hcheck p (hs.property hp)) c
    | arr xs =>
      simp only
      split
      · exact fun hp => (by cases hp)
      · split
        · next items hi => exact checkItems_total (hcheck items (hs.item hi)) c
        · exact fun hp => (by cases hp)
    | _ => exact fun hp => (by cases hp)

/-- No assertion of a check against an accepted schema fails, whatever its
limits. -/
theorem valid_total (h : Accepted go root) {n depth : Nat}
    (hs : Below root s) : valid go exceeds root n s v depth c ≠ .error .panic := by
  induction n generalizing s v depth c with
  | zero => exact fun hp => (by cases hp)
  | succ n ih =>
    have hchecked := h.checked hs
    rw [valid]
    split
    · exact fun hp => (by cases hp)
    · split
      · next r href =>
        obtain ⟨t, hat, ht⟩ := hchecked.target h href
        rw [hat]
        exact ih ht
      · split
        · next alts hany =>
          exact tryAlternatives_total
            (fun m hm c => ih (hchecked.alternative hany hm)) _
        · exact validKeywords_total h hchecked (fun p hp x c => ih hp) _

end Total

/-- A check against an accepted schema, without its limits: it ends, whatever
the order of its ranges, no assertion in it fails, and it meets only schemas
whose keywords read as it reads them, references included. -/
theorem accepted_is_safe {go : Go} {n : Nat} {rf : Json} {root : Object}
    (h : prepare go n rf = .ok (.ok (some root))) (v : Json) :
    (∃ b c, Fuel.Settles (fun n => valid go noLimits root n root v 0 {}) (b, c) ∧
        ∀ s ∈ c.met, Readable go root s) ∧
      ∀ n, valid go noLimits root n root v 0 {} ≠ .error .panic := by
  have hacc := accepted_of_prepare h
  obtain ⟨b, c, hends, hc⟩ := valid_ends hacc v root (.refl root) 0 {} (fun s hs => by cases hs)
  exact ⟨⟨b, c, hends, fun s hs => (hacc.checked (hc s hs)).readable hacc⟩,
    fun n => valid_total hacc (.refl root)⟩

/-- A list that holds itself twice over, and a check of it. -/
theorem listSchema_safe :
    (∃ b c, Fuel.Settles (fun n => valid plainGo noLimits listSchema n listSchema
        (.obj [("p", .arr [.arr [.arr []], .num ⟨"4", 4⟩])]) 0 {}) (b, c) ∧
        ∀ s ∈ c.met, Readable plainGo listSchema s) ∧
      ∀ n, valid plainGo noLimits listSchema n listSchema
        (.obj [("p", .arr [.arr [.arr []], .num ⟨"4", 4⟩])]) 0 {} ≠ .error .panic :=
  accepted_is_safe listSchema_accepted _

end LocalBase.StructuredOutput
