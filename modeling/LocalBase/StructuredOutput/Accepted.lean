import LocalBase.Lib.Fuel
import LocalBase.StructuredOutput.Prepare

/-!
# What acceptance says of every subschema

The passes agree on what they visit. The budget, the native subset and the
alternatives go by `childSchemas`; the strict compile goes through every
container ajv knows, and those are among them. So each subschema of an accepted
root was compiled, was inspected, and had its references and alternatives
followed to an end. A reference has no children of its own, because its only
siblings are annotations, and what it names is a child of the root.
-/

namespace LocalBase.StructuredOutput

variable {go : Go} {root s : Object} {n : Nat} {key : String} {cs : List Object}
  {ctx : List String} {v : Json} {c : Object}

/-! ## Children -/

theorem mapM_option_mem {α β : Type} {f : α → Option β} {xs : List α} {ys : List β}
    (h : xs.mapM f = some ys) :
    (∀ x ∈ xs, ∃ y, f x = some y ∧ y ∈ ys) ∧ ∀ y ∈ ys, ∃ x, f x = some y ∧ x ∈ xs := by
  induction xs generalizing ys with
  | nil =>
    rw [List.mapM_nil] at h
    cases h
    simp
  | cons x xs ih =>
    rw [List.mapM_cons] at h
    simp only [Option.bind_eq_bind, Option.bind_eq_some_iff, Option.pure_def,
      Option.some.injEq] at h
    obtain ⟨y, hy, zs, hzs, rfl⟩ := h
    obtain ⟨h1, h2⟩ := ih hzs
    refine ⟨fun x' hx' => ?_, fun y' hy' => ?_⟩
    · rcases List.mem_cons.mp hx' with rfl | hx'
      · exact ⟨y, hy, List.mem_cons_self⟩
      · obtain ⟨y', hf, hmem⟩ := h1 x' hx'
        exact ⟨y', hf, List.mem_cons_of_mem _ hmem⟩
    · rcases List.mem_cons.mp hy' with rfl | hy'
      · exact ⟨x, hy, List.mem_cons_self⟩
      · obtain ⟨x', hf, hmem⟩ := h2 y' hy'
        exact ⟨x', hf, List.mem_cons_of_mem _ hmem⟩

theorem mem_sortedValues {m : Object} {k : String} {x : Json} (h : m.lookup k = some x) :
    x ∈ sortedValues m :=
  List.mem_filterMap.mpr ⟨k, mem_sortedKeys h, h⟩

theorem mapChildren_values (h : mapChildren s key = some cs) (hv : s.lookup key = some v) :
    ∃ m, v = .obj m ∧ ∀ k x, m.lookup k = some x → ∃ o, x = .obj o ∧ o ∈ cs := by
  unfold mapChildren at h
  rw [hv] at h
  cases v with
  | obj m =>
    simp only at h
    split at h
    · cases h
    · refine ⟨m, rfl, fun k x hx => ?_⟩
      obtain ⟨o, ho, hmem⟩ := (mapM_option_mem h).1 x (mem_sortedValues hx)
      exact ⟨o, Json.object?_eq_some.mp ho, hmem⟩
  | _ => cases h

theorem mapChildren_mem (h : mapChildren s key = some cs) (hc : c ∈ cs) :
    ∃ m, s.lookup key = some (.obj m) ∧ .obj c ∈ sortedValues m := by
  unfold mapChildren at h
  split at h
  · cases h
    cases hc
  · next m hm =>
    split at h
    · cases h
    · obtain ⟨x, hx, hmem⟩ := (mapM_option_mem h).2 c hc
      rw [Json.object?_eq_some] at hx
      subst hx
      exact ⟨m, hm, hmem⟩
  · cases h

theorem childSchemas_parts (h : childSchemas s = some cs) :
    ∃ properties defs definitions items anyOf,
      mapChildren s "properties" = some properties ∧ mapChildren s "$defs" = some defs ∧
      mapChildren s "definitions" = some definitions ∧ itemChildren s = some items ∧
      anyOfChildren s = some anyOf ∧
      cs = properties ++ defs ++ definitions ++ items ++ anyOf := by
  simp only [childSchemas, Option.bind_eq_bind, Option.bind_eq_some_iff, Option.pure_def,
    Option.some.injEq] at h
  obtain ⟨a, ha, b, hb, c, hc, d, hd, e, he, rfl⟩ := h
  exact ⟨a, b, c, d, e, ha, hb, hc, hd, he, rfl⟩

theorem child_of_map (h : childSchemas s = some cs)
    (hk : key ∈ ["properties", "$defs", "definitions"]) (hv : s.lookup key = some v) :
    ∃ m, v = .obj m ∧ ∀ k x, m.lookup k = some x → ∃ o, x = .obj o ∧ o ∈ cs := by
  obtain ⟨a, b, c, d, e, ha, hb, hc, _, _, rfl⟩ := childSchemas_parts h
  simp only [List.mem_cons, List.not_mem_nil, or_false] at hk
  rcases hk with rfl | rfl | rfl
  · obtain ⟨m, hm, hall⟩ := mapChildren_values ha hv
    refine ⟨m, hm, fun k x hx => ?_⟩
    obtain ⟨o, ho, hmem⟩ := hall k x hx
    exact ⟨o, ho, by simp [hmem]⟩
  · obtain ⟨m, hm, hall⟩ := mapChildren_values hb hv
    refine ⟨m, hm, fun k x hx => ?_⟩
    obtain ⟨o, ho, hmem⟩ := hall k x hx
    exact ⟨o, ho, by simp [hmem]⟩
  · obtain ⟨m, hm, hall⟩ := mapChildren_values hc hv
    refine ⟨m, hm, fun k x hx => ?_⟩
    obtain ⟨o, ho, hmem⟩ := hall k x hx
    exact ⟨o, ho, by simp [hmem]⟩

theorem child_of_items (h : childSchemas s = some cs)
    (hv : s.lookup "items" = some v) : ∃ o, v = .obj o ∧ o ∈ cs := by
  obtain ⟨a, b, c, d, e, _, _, _, hd, _, rfl⟩ := childSchemas_parts h
  unfold itemChildren at hd
  rw [hv] at hd
  simp only [Option.map_eq_some_iff, Json.object?_eq_some] at hd
  obtain ⟨o, rfl, rfl⟩ := hd
  exact ⟨o, rfl, by simp⟩

theorem child_of_anyOf (h : childSchemas s = some cs) (hv : s.lookup "anyOf" = some v) :
    ∃ xs, v = .arr xs ∧ ∀ x ∈ xs, ∃ o, x = .obj o ∧ o ∈ cs := by
  obtain ⟨a, b, c, d, e, _, _, _, _, he, rfl⟩ := childSchemas_parts h
  unfold anyOfChildren at he
  rw [hv] at he
  cases v with
  | arr xs =>
    refine ⟨xs, rfl, fun x hx => ?_⟩
    obtain ⟨o, ho, hmem⟩ := (mapM_option_mem he).1 x hx
    exact ⟨o, Json.object?_eq_some.mp ho, by simp [hmem]⟩
  | _ => cases he

theorem child_subschema (h : childSchemas s = some cs) (hc : c ∈ cs)
    (known : List String) : ∃ ctx, (.obj c, ctx) ∈ subschemas s known := by
  have hmap : ∀ key, key ∈ ["properties", "$defs", "definitions"] →
      ∀ m, s.lookup key = some (.obj m) → .obj c ∈ sortedValues m →
      (.obj c, []) ∈ subschemas s known := by
    intro key hk m hm hmem
    refine List.mem_flatMap.mpr ⟨key, mem_sortedKeys hm, ?_⟩
    have hkeys : schemaMapKeys.contains key = true ∨ key = "dependencies" := by
      simp only [List.mem_cons, List.not_mem_nil, or_false] at hk
      rcases hk with rfl | rfl | rfl <;> decide
    simp only [hm, if_pos hkeys]
    exact List.mem_map_of_mem (f := (·, [])) hmem
  obtain ⟨a, b, d, e, f, ha, hb, hd, he, hf, rfl⟩ := childSchemas_parts h
  simp only [List.mem_append] at hc
  rcases hc with (((hc | hc) | hc) | hc) | hc
  · obtain ⟨m, hm, hmem⟩ := mapChildren_mem ha hc
    exact ⟨[], hmap "properties" (by decide) m hm hmem⟩
  · obtain ⟨m, hm, hmem⟩ := mapChildren_mem hb hc
    exact ⟨[], hmap "$defs" (by decide) m hm hmem⟩
  · obtain ⟨m, hm, hmem⟩ := mapChildren_mem hd hc
    exact ⟨[], hmap "definitions" (by decide) m hm hmem⟩
  · unfold itemChildren at he
    split at he
    · cases he
      cases hc
    · next v hv =>
      simp only [Option.map_eq_some_iff, Json.object?_eq_some] at he
      obtain ⟨o, rfl, rfl⟩ := he
      rw [List.mem_singleton] at hc
      subst hc
      refine ⟨[], List.mem_flatMap.mpr ⟨"items", mem_sortedKeys hv, ?_⟩⟩
      simp [hv, schemaMapKeys]
  · unfold anyOfChildren at hf
    split at hf
    · cases hf
      cases hc
    · next xs hv =>
      obtain ⟨x, hx, hmem⟩ := (mapM_option_mem hf).2 c hc
      rw [Json.object?_eq_some] at hx
      subst hx
      refine ⟨known, List.mem_flatMap.mpr ⟨"anyOf", mem_sortedKeys hv, ?_⟩⟩
      simp [hv, schemaMapKeys, schemaArrKeys, Json.array?, hmem]
    · cases hf

/-- `t` is `s`, or a subschema of it. -/
inductive Below : Object → Object → Prop
  | refl (s : Object) : Below s s
  | child {s c t : Object} {cs : List Object} :
      childSchemas s = some cs → c ∈ cs → Below c t → Below s t

theorem Below.trans {t u : Object} (h : Below s t) (h' : Below t u) : Below s u := by
  induction h with
  | refl => exact h'
  | child hcs hc _ ih => exact .child hcs hc (ih h')

theorem Below.step (h : Below root s) (hcs : childSchemas s = some cs)
    (hc : c ∈ cs) : Below root c :=
  h.trans (.child hcs hc (.refl c))

/-! ## The strict compile -/

theorem compileAll_mem {compile : Object → List String → Run Bool}
    {vs : List (Json × List String)} (h : compileAll compile vs = .ok true) {m : Object}
    (hm : (.obj m, ctx) ∈ vs) : compile m ctx = .ok true := by
  induction vs with
  | nil => cases hm
  | cons e vs ih =>
    obtain ⟨v, ctx'⟩ := e
    rw [compileAll] at h
    split at h
    · next hv =>
      rcases List.mem_cons.mp hm with heq | hm
      · cases heq
        cases hv
      · exact ih h hm
    · next m' hv =>
      obtain ⟨b, hb, hrest⟩ := Fuel.bind_eq_ok.mp h
      cases b with
      | false => cases hrest
      | true =>
        rcases List.mem_cons.mp hm with heq | hm
        · cases heq
          cases hv
          exact hb
        · exact ih hrest hm

theorem strictCompile_true (h : strictCompile go root n s ctx = .ok true) :
    compileOk go root s ctx = true ∧ ∀ cs, childSchemas s = some cs → ∀ c ∈ cs,
      ∃ n' ctx', strictCompile go root n' c ctx' = .ok true := by
  cases n with
  | zero => cases h
  | succ n =>
    rw [strictCompile] at h
    split at h
    · next hok =>
      refine ⟨hok, fun cs hcs c hc => ?_⟩
      obtain ⟨ctx', hmem⟩ := child_subschema hcs hc (knownTypes s ctx)
      exact ⟨n, ctx', compileAll_mem h hmem⟩
    · cases h

theorem Below.compiled {t : Object} (h : Below s t)
    (hs : strictCompile go root n s ctx = .ok true) :
    ∃ ctx', compileOk go root t ctx' = true := by
  induction h generalizing n ctx with
  | refl => exact ⟨ctx, (strictCompile_true hs).1⟩
  | child hcs hc _ ih =>
    obtain ⟨n', ctx', hc'⟩ := (strictCompile_true hs).2 _ hcs _ hc
    exact ih hc'

/-! ## The native subset -/

theorem lookup_of_siblings {primary k : String} {allowType : Bool}
    (h : hasValidationSiblings s primary allowType = false) (hk : k ≠ primary)
    (htype : (allowType && k == "type") = false)
    (hann : annotationKeywords.contains k = false) : s.lookup k = none := by
  rw [List.lookup_eq_none_iff]
  intro e he
  by_contra heq
  have hek : k = e.1 := by simpa using heq
  have hno := List.any_eq_false.mp h e he
  rw [← hek] at hno
  simp [hk, htype] at hno
  rw [List.contains_iff_mem.mpr hno] at hann
  cases hann

theorem refIssue_lookup (h : refIssue s = none) {k : String} (hk : k ≠ "$ref")
    (hann : annotationKeywords.contains k = false) : s.lookup k = none := by
  unfold refIssue at h
  split at h
  · cases h
  · split at h
    · cases h
    · next hno => exact lookup_of_siblings (Bool.eq_false_iff.mpr hno) hk rfl hann

theorem refIssue_children (h : refIssue s = none) : childSchemas s = some [] := by
  simp [childSchemas, mapChildren, itemChildren, anyOfChildren,
    refIssue_lookup h (k := "properties") (by decide) (by decide),
    refIssue_lookup h (k := "$defs") (by decide) (by decide),
    refIssue_lookup h (k := "definitions") (by decide) (by decide),
    refIssue_lookup h (k := "items") (by decide) (by decide),
    refIssue_lookup h (k := "anyOf") (by decide) (by decide)]

theorem firstIssue_none {inspect : Object → Run (Option String)}
    (h : firstIssue inspect cs = .ok none) : ∀ c ∈ cs, inspect c = .ok none := by
  induction cs with
  | nil => simp
  | cons c cs ih =>
    rw [firstIssue] at h
    obtain ⟨r, hr, hrest⟩ := Fuel.bind_eq_ok.mp h
    cases r with
    | some msg => cases hrest
    | none =>
      intro c' hc'
      rcases List.mem_cons.mp hc' with rfl | hc'
      · exact hr
      · exact ih hrest c' hc'

/-- The subset takes the schema itself: a reference that is only that, or
constraints and children in their place. -/
def Native (go : Go) (s : Object) : Prop :=
  (s.has "$ref" = true ∧ refIssue s = none) ∨
    (s.has "$ref" = false ∧ constraintIssue go s = none ∧ ∃ cs, childSchemas s = some cs)

theorem inspectNative_none (h : inspectNative go n s = .ok none) :
    Native go s ∧ ∀ cs, childSchemas s = some cs → ∀ c ∈ cs,
      ∃ n', inspectNative go n' c = .ok none := by
  cases n with
  | zero => cases h
  | succ n =>
    rw [inspectNative] at h
    split at h
    · cases h
    · split at h
      · next href =>
        have hissue : refIssue s = none := by simpa using h
        refine ⟨Or.inl ⟨href, hissue⟩, fun cs hcs c hc => ?_⟩
        rw [refIssue_children hissue] at hcs
        cases hcs
        cases hc
      · next href =>
        split at h
        · cases h
        · next hissue =>
          split at h
          · cases h
          · next children hchildren =>
            refine ⟨Or.inr ⟨by simpa using href, hissue, children, hchildren⟩, ?_⟩
            intro cs hcs c hc
            rw [hchildren] at hcs
            cases hcs
            exact ⟨n, firstIssue_none h c hc⟩

theorem Below.native {t : Object} (h : Below s t) (hs : inspectNative go n s = .ok none) :
    Native go t := by
  induction h generalizing n with
  | refl => exact (inspectNative_none hs).1
  | child hcs hc _ ih =>
    obtain ⟨n', hn'⟩ := (inspectNative_none hs).2 _ hcs _ hc
    exact ih hn'

/-! ## References and alternatives -/

/-- Following references and alternatives comes to an end. -/
inductive Grounded (root : Object) : Object → Prop
  | ref {s : Object} {r : String} : s.string? "$ref" = some r →
      (∀ t, schemaAt root r = some t → Grounded root t) → Grounded root s
  | anyOf {s : Object} {alts : List Json} : s.string? "$ref" = none →
      s.array? "anyOf" = some alts → (∀ m, .obj m ∈ alts → Grounded root m) →
      Grounded root s
  | keywords {s : Object} : s.string? "$ref" = none → s.array? "anyOf" = none →
      Grounded root s

/-- The references that were finished do come to an end. -/
def Finished (root : Object) (finished : List (String × Nat)) : Prop :=
  ∀ r k, finished.lookup r = some k → ∀ t, schemaAt root r = some t → Grounded root t

theorem waysAll_grounded
    {ways : List (String × Nat) → Object → Run (Option Nat × List (String × Nat))}
    (hways : ∀ fin m k fin', ways fin m = .ok (some k, fin') → Finished root fin →
      Grounded root m ∧ Finished root fin')
    {alts : List Json} {total k : Nat} {fin fin' : List (String × Nat)}
    (h : waysAll ways total fin alts = .ok (some k, fin')) (hfin : Finished root fin) :
    (∀ m, .obj m ∈ alts → Grounded root m) ∧ Finished root fin' := by
  induction alts generalizing total fin with
  | nil =>
    cases h
    exact ⟨fun m hm => (by cases hm), hfin⟩
  | cons alt alts ih =>
    rw [waysAll] at h
    split at h
    · next halt =>
      obtain ⟨hall, hfin'⟩ := ih h hfin
      refine ⟨fun m hm => ?_, hfin'⟩
      rcases List.mem_cons.mp hm with rfl | hm
      · cases halt
      · exact hall m hm
    · next m' halt =>
      obtain ⟨⟨r, fin₁⟩, hr, hrest⟩ := Fuel.bind_eq_ok.mp h
      cases r with
      | none => cases hrest
      | some k' =>
        obtain ⟨hm', hfin₁⟩ := hways _ _ _ _ hr hfin
        obtain ⟨hall, hfin'⟩ := ih hrest hfin₁
        refine ⟨fun m hm => ?_, hfin'⟩
        rcases List.mem_cons.mp hm with rfl | hm
        · cases halt
          exact hm'
        · exact hall m hm

theorem ways_grounded {following : List String} {fin fin' : List (String × Nat)} {k : Nat}
    (h : ways root n following fin s = .ok (some k, fin')) (hfin : Finished root fin) :
    Grounded root s ∧ Finished root fin' := by
  induction n generalizing following fin fin' s k with
  | zero => cases h
  | succ n ih =>
    rw [ways] at h
    split at h
    · next r href =>
      split at h
      · cases h
      · split at h
        · next k' hk' =>
          cases h
          exact ⟨.ref href (hfin r k hk'), hfin⟩
        · split at h
          · next hat =>
            cases h
            refine ⟨.ref href fun t ht => ?_, hfin⟩
            rw [hat] at ht
            cases ht
          · next target hat =>
            obtain ⟨⟨r', fin₁⟩, hr', hrest⟩ := Fuel.bind_eq_ok.mp h
            cases r' with
            | none => cases hrest
            | some k' =>
              cases hrest
              obtain ⟨htarget, hfin₁⟩ := ih hr' hfin
              have hr : ∀ t, schemaAt root r = some t → Grounded root t := by
                intro t ht
                rw [hat] at ht
                cases ht
                exact htarget
              refine ⟨.ref href hr, fun r₁ k₁ hk₁ t ht => ?_⟩
              rw [List.lookup_cons] at hk₁
              split at hk₁
              · next heq =>
                rw [beq_iff_eq.mp heq] at ht
                exact hr t ht
              · exact hfin₁ r₁ k₁ hk₁ t ht
    · next href =>
      split at h
      · next hany =>
        cases h
        exact ⟨.keywords href hany, hfin⟩
      · next alts hany =>
        obtain ⟨hall, hfin'⟩ := waysAll_grounded
          (fun _ _ _ _ hr hf => ih hr hf) h hfin
        exact ⟨.anyOf href hany hall, hfin'⟩

theorem alternativesIssue_none {pending : List Object} {fin : List (String × Nat)}
    (h : alternativesIssue root n pending fin = .ok none) (hfin : Finished root fin) :
    ∀ s ∈ pending, ∀ t, Below s t → Grounded root t := by
  induction n generalizing pending fin with
  | zero =>
    cases pending with
    | nil => simp
    | cons s pending => cases h
  | succ n ih =>
    cases pending with
    | nil => simp
    | cons s pending =>
      rw [alternativesIssue] at h
      obtain ⟨⟨r, fin'⟩, hr, hrest⟩ := Fuel.bind_eq_ok.mp h
      cases r with
      | none => cases hrest
      | some k =>
        simp only at hrest
        split at hrest
        · cases hrest
        · obtain ⟨hs, hfin'⟩ := ways_grounded hr hfin
          have hall := ih hrest hfin'
          intro s' hs' t ht
          rcases List.mem_cons.mp hs' with rfl | hs'
          · cases ht with
            | refl => exact hs
            | child hcs hc ht => exact hall _ (by simp [hcs, hc]) t ht
          · exact hall s' (List.mem_append_right _ hs') t ht

/-! ## Together -/

theorem orReject_ok {α : Type} {code : String} {pass : Run (Option String)}
    {next : Run (Except Rejection α)} {a : α}
    (h : orReject code pass next = .ok (.ok a)) : pass = .ok none ∧ next = .ok (.ok a) := by
  obtain ⟨r, hr, hrest⟩ := Fuel.bind_eq_ok.mp h
  cases r with
  | some msg => cases hrest
  | none => exact ⟨hr, hrest⟩

/-- A root that `Prepare` accepts, as its passes left it. -/
structure Accepted (go : Go) (root : Object) : Prop where
  compile : ∃ n, strictCompile go root n root [] = .ok true
  native : ∃ n, inspectNative go n root = .ok none
  alternatives : ∃ n, alternativesIssue root n [root] [] = .ok none
  rootType : root.string? "type" = some "object"

theorem compileIssue_none (h : compileIssue go n root = .ok none) :
    strictCompile go root n root [] = .ok true := by
  unfold compileIssue at h
  cases hr : strictCompile go root n root [] with
  | error e =>
    rw [hr] at h
    cases h
  | ok b =>
    rw [hr] at h
    cases b with
    | false => cases h
    | true => rfl

theorem rootIssue_none (h : rootIssue root = none) : root.string? "type" = some "object" := by
  unfold rootIssue at h
  split at h
  · cases h
  · next hne => exact not_not.mp hne

theorem accepted_of_prepare {rf : Json} (h : prepare go n rf = .ok (.ok (some root))) :
    Accepted go root := by
  unfold prepare at h
  simp only at h
  split at h
  · cases h
  · obtain ⟨_, h⟩ := orReject_ok h
    obtain ⟨_, h⟩ := orReject_ok h
    obtain ⟨_, h⟩ := orReject_ok h
    obtain ⟨hcompile, h⟩ := orReject_ok h
    obtain ⟨hnative, h⟩ := orReject_ok h
    obtain ⟨halternatives, h⟩ := orReject_ok h
    obtain ⟨hroot, h⟩ := orReject_ok h
    cases h
    exact ⟨⟨n, compileIssue_none hcompile⟩, ⟨n, hnative⟩, ⟨n, halternatives⟩,
      rootIssue_none (Except.ok.inj hroot)⟩

/-- Every subschema of an accepted root went through the passes. -/
structure Checked (go : Go) (root s : Object) : Prop where
  below : Below root s
  compiled : ∃ ctx, compileOk go root s ctx = true
  native : Native go s
  grounded : Grounded root s

theorem Accepted.checked (h : Accepted go root) (hs : Below root s) :
    Checked go root s := by
  obtain ⟨_, hcompile⟩ := h.compile
  obtain ⟨_, hnative⟩ := h.native
  obtain ⟨_, halternatives⟩ := h.alternatives
  refine ⟨hs, hs.compiled hcompile, hs.native hnative, ?_⟩
  refine alternativesIssue_none halternatives ?_ root List.mem_cons_self s hs
  intro r k hk
  cases hk

/-! ## A recursive schema -/

/-- The schema a request asks for. -/
def requestedSchema (rf : Json) : Object :=
  ((((rf.object?.getD []).object? "json_schema").getD []).object? "schema").getD []

def accepts (r : Run (Except Rejection (Option Object))) : Bool :=
  match r with
  | .ok (.ok (some _)) => true
  | _ => false

theorem prepare_of_accepts {rf : Json} (h : accepts (prepare go n rf) = true) :
    prepare go n rf = .ok (.ok (some (requestedSchema rf))) := by
  cases hp : prepare go n rf with
  | error e =>
    rw [hp] at h
    cases h
  | ok r =>
    cases r with
    | error e =>
      rw [hp] at h
      cases h
    | ok o =>
      cases o with
      | none =>
        rw [hp] at h
        cases h
      | some root =>
        unfold prepare at hp
        simp only at hp
        split at hp
        · cases hp
        · obtain ⟨_, hp⟩ := orReject_ok hp
          obtain ⟨_, hp⟩ := orReject_ok hp
          obtain ⟨_, hp⟩ := orReject_ok hp
          obtain ⟨_, hp⟩ := orReject_ok hp
          obtain ⟨_, hp⟩ := orReject_ok hp
          obtain ⟨_, hp⟩ := orReject_ok hp
          obtain ⟨_, hp⟩ := orReject_ok hp
          cases hp
          rfl

/-- Numbers read exactly, every pattern compiles, a map is visited as it is
written. -/
def plainGo : Go := ⟨fun n => some n.value, fun _ => true, fun _ m => m, fun _ _ => .refl _⟩

/-- Lists of lists and of integers from three on. -/
def listSchema : Object :=
  [("type", .str "object"),
    ("properties", .obj [("p", .obj [("$ref", .str "#/$defs/list")])]),
    ("required", .arr [.str "p"]), ("additionalProperties", .bool false),
    ("$defs", .obj [("list", .obj [("type", .str "array"),
      ("items", .obj [("anyOf", .arr [.obj [("$ref", .str "#/$defs/list")],
        .obj [("type", .str "integer"), ("minimum", .num ⟨"3", 3⟩)]])])])])]

def listFormat : Json :=
  .obj [("type", .str "json_schema"), ("json_schema", .obj [("schema", .obj listSchema)])]

theorem listSchema_accepted :
    prepare plainGo 30 listFormat = .ok (.ok (some listSchema)) :=
  prepare_of_accepts (by decide +kernel)

end LocalBase.StructuredOutput
