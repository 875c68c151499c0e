import LocalBase.StructuredOutput.Safe

/-!
# References that loop and alternatives that multiply

`alternativesIssue` keeps the references it is following, what it counted for
those it finished, and cuts a count off at the limit. None of that is in what it
is after: a chain of references and alternatives that comes back to a reference
it follows, and the number of leaves a schema unfolds to. A count made while an
outer reference was being followed is right for every later use, because a
reference that led back to an outer one would have ended the pass.
-/

namespace LocalBase.StructuredOutput

variable {root s t u : Object} {r : String} {n : Nat} {k : Nat} {alts : List Json}
  {following : List String} {fin : List (String × Nat)}

/-! ## What it is after -/

/-- A chain of references and alternatives, with the references it follows. -/
inductive Chain (root : Object) : List String → Object → Object → Prop
  | refl (s : Object) : Chain root [] s s
  | ref {s t u : Object} {r : String} {rs : List String} : s.string? "$ref" = some r →
      schemaAt root r = some t → Chain root rs t u → Chain root (r :: rs) s u
  | anyOf {s m u : Object} {alts : List Json} {rs : List String} :
      s.string? "$ref" = none → s.array? "anyOf" = some alts → .obj m ∈ alts →
      Chain root rs m u → Chain root rs s u

/-- A chain from the schema comes back to a reference it is following. -/
def Loops (root s : Object) : Prop :=
  ∃ rs t r, Chain root rs s t ∧ t.string? "$ref" = some r ∧ r ∈ rs

/-- The alternatives of an `anyOf` that are schemas. -/
def alternatives (alts : List Json) : List Object := alts.filterMap Json.object?

/-- Through references and alternatives alone, the schema unfolds to this many
leaves. -/
inductive Unfolds (root : Object) : Object → Nat → Prop
  | ref {s t : Object} {r : String} {k : Nat} : s.string? "$ref" = some r →
      schemaAt root r = some t → Unfolds root t k → Unfolds root s k
  | dangling {s : Object} {r : String} : s.string? "$ref" = some r →
      schemaAt root r = none → Unfolds root s 1
  | anyOf {s : Object} {alts : List Json} (count : Object → Nat) :
      s.string? "$ref" = none → s.array? "anyOf" = some alts →
      (∀ m ∈ alternatives alts, Unfolds root m (count m)) →
      Unfolds root s ((alternatives alts).map count).sum
  | leaf {s : Object} : s.string? "$ref" = none → s.array? "anyOf" = none →
      Unfolds root s 1

/-- What a check of the schema could not finish, or not in time. -/
def Runaway (root s : Object) : Prop :=
  Loops root s ∨ ∃ k, Unfolds root s k ∧ maxSchemaAlternatives < k

theorem mem_alternatives {m : Object} :
    m ∈ alternatives alts ↔ .obj m ∈ alts := by
  simp [alternatives]

theorem Unfolds.unique {k' : Nat} (h : Unfolds root s k) (h' : Unfolds root s k') :
    k = k' := by
  induction h generalizing k' with
  | ref hs ht _ ih =>
    cases h' with
    | ref hs' ht' h' =>
      obtain rfl := Option.some.inj (hs.symm.trans hs')
      obtain rfl := Option.some.inj (ht.symm.trans ht')
      exact ih h'
    | dangling hs' ht' =>
      obtain rfl := Option.some.inj (hs.symm.trans hs')
      cases ht.symm.trans ht'
    | anyOf _ hs' => cases hs.symm.trans hs'
    | leaf hs' => cases hs.symm.trans hs'
  | dangling hs ht =>
    cases h' with
    | ref hs' ht' =>
      obtain rfl := Option.some.inj (hs.symm.trans hs')
      cases ht.symm.trans ht'
    | dangling => rfl
    | anyOf _ hs' => cases hs.symm.trans hs'
    | leaf hs' => cases hs.symm.trans hs'
  | anyOf count hs ha _ ih =>
    cases h' with
    | ref hs' => cases hs.symm.trans hs'
    | dangling hs' => cases hs.symm.trans hs'
    | anyOf count' _ ha' hall' =>
      obtain rfl := Option.some.inj (ha.symm.trans ha')
      exact congrArg List.sum (List.map_congr_left fun m hm => ih m hm (hall' m hm))
    | leaf _ ha' => cases ha.symm.trans ha'
  | leaf hs ha =>
    cases h' with
    | ref hs' => cases hs.symm.trans hs'
    | dangling hs' => cases hs.symm.trans hs'
    | anyOf _ _ ha' => cases ha.symm.trans ha'
    | leaf => rfl

/-! ### What unfolds does not loop -/

/-- The second schema leads to the first. -/
inductive Leads (root : Object) : Object → Object → Prop
  | ref {s t : Object} {r : String} : s.string? "$ref" = some r →
      schemaAt root r = some t → Leads root t s
  | anyOf {s m : Object} {alts : List Json} : s.string? "$ref" = none →
      s.array? "anyOf" = some alts → .obj m ∈ alts → Leads root m s

theorem Grounded.acc (h : Grounded root s) : Acc (Leads root) s := by
  induction h with
  | ref hs _ ih =>
    refine ⟨_, fun t ht => ?_⟩
    cases ht with
    | ref hs' ht =>
      obtain rfl := Option.some.inj (hs.symm.trans hs')
      exact ih t ht
    | anyOf hs' => cases hs.symm.trans hs'
  | anyOf hs ha _ ih =>
    refine ⟨_, fun m hm => ?_⟩
    cases hm with
    | ref hs' => cases hs.symm.trans hs'
    | anyOf _ ha' hm =>
      obtain rfl := Option.some.inj (ha.symm.trans ha')
      exact ih m hm
  | keywords hs ha =>
    refine ⟨_, fun m hm => ?_⟩
    cases hm with
    | ref hs' => cases hs.symm.trans hs'
    | anyOf _ ha' => cases ha.symm.trans ha'

theorem Chain.leads {rs : List String} (h : Chain root rs s t) :
    Relation.ReflTransGen (Leads root) t s := by
  induction h with
  | refl s => exact .refl
  | ref hs ht _ ih => exact ih.tail (.ref hs ht)
  | anyOf hs ha hm _ ih => exact ih.tail (.anyOf hs ha hm)

theorem Chain.through {rs : List String} (h : Chain root rs s t) (hr : r ∈ rs) :
    ∃ u, schemaAt root r = some u ∧ Relation.ReflTransGen (Leads root) t u ∧
      Relation.ReflTransGen (Leads root) u s := by
  induction h with
  | refl s => cases hr
  | ref hs ht hrest ih =>
    rcases List.mem_cons.mp hr with rfl | hr
    · exact ⟨_, ht, hrest.leads, .single (.ref hs ht)⟩
    · obtain ⟨u, hu, htu, hus⟩ := ih hr
      exact ⟨u, hu, htu, hus.tail (.ref hs ht)⟩
  | anyOf hs ha hm _ ih =>
    obtain ⟨u, hu, htu, hus⟩ := ih hr
    exact ⟨u, hu, htu, hus.tail (.anyOf hs ha hm)⟩

theorem acc_irrefl {α : Type} {rel : α → α → Prop} {a : α} (h : Acc rel a) : ¬rel a a := by
  induction h with
  | intro a _ ih => exact fun ha => ih a ha ha

theorem Grounded.not_loops (h : Grounded root s) : ¬Loops root s := by
  rintro ⟨rs, t, r, hchain, hr, hmem⟩
  obtain ⟨u, hu, htu, hus⟩ := hchain.through hmem
  have hcycle : Relation.TransGen (Leads root) u u := .head' (.ref hr hu) htu
  have hacc : Acc (Relation.TransGen (Leads root)) u := by
    refine Acc.transGen ?_
    rcases Relation.reflTransGen_iff_eq_or_transGen.mp hus with rfl | hus
    · exact h.acc
    · exact h.acc.inv_of_transGen hus
  exact acc_irrefl hacc hcycle

/-! ## What `ways` counts -/

/-- A count as it is kept: cut off past the limit. -/
def cut (k : Nat) : Nat := min k (maxSchemaAlternatives + 1)

theorem cut_add (k l : Nat) : cut (cut k + cut l) = cut (k + l) := by
  unfold cut
  omega

theorem lt_cut : maxSchemaAlternatives < cut k ↔ maxSchemaAlternatives < k := by
  unfold cut
  omega

/-- What was counted for a reference is what every schema that has it unfolds
to. -/
def Counted (root : Object) (finished : List (String × Nat)) : Prop :=
  ∀ r c, finished.lookup r = some c →
    ∀ s, s.string? "$ref" = some r → ∃ k, Unfolds root s k ∧ c = cut k

theorem waysAll_some
    {ways : List (String × Nat) → Object → Run (Option Nat × List (String × Nat))}
    (hways : ∀ fin m c fin', ways fin m = .ok (some c, fin') → Counted root fin →
      (∃ k, Unfolds root m k ∧ c = cut k) ∧ Counted root fin') {c : Nat}
    {fin' : List (String × Nat)} (total : Nat)
    (h : waysAll ways (cut total) fin alts = .ok (some c, fin')) (hfin : Counted root fin) :
    (∃ count : Object → Nat, (∀ m ∈ alternatives alts, Unfolds root m (count m)) ∧
      c = cut (total + ((alternatives alts).map count).sum)) ∧ Counted root fin' := by
  classical
  induction alts generalizing total fin with
  | nil =>
    cases h
    exact ⟨⟨fun _ => 0, fun m hm => (by cases hm), rfl⟩, hfin⟩
  | cons alt alts ih =>
    rw [waysAll] at h
    split at h
    · next halt =>
      have hsame : alternatives (alt :: alts) = alternatives alts :=
        List.filterMap_cons_none halt
      rw [hsame]
      exact ih total h hfin
    · next m halt =>
      have hcons : alternatives (alt :: alts) = m :: alternatives alts :=
        List.filterMap_cons_some halt
      obtain ⟨⟨r, fin₁⟩, hr, hrest⟩ := Fuel.bind_eq_ok.mp h
      cases r with
      | none => cases hrest
      | some c' =>
        obtain ⟨⟨k, hk, rfl⟩, hfin₁⟩ := hways _ _ _ _ hr hfin
        have hrest' : waysAll ways (cut (total + k)) fin₁ alts = .ok (some c, fin') := by
          rw [← cut_add]
          exact hrest
        obtain ⟨⟨count, hcount, rfl⟩, hfin'⟩ := ih _ hrest' hfin₁
        -- The first alternative may come again, and then it is counted the same.
        refine ⟨⟨Function.update count m k, fun m' hm' => ?_, ?_⟩, hfin'⟩
        · by_cases hmm : m' = m
          · subst hmm
            rwa [Function.update_self]
          · rw [hcons] at hm'
            rw [Function.update_of_ne hmm]
            exact hcount m' ((List.mem_cons.mp hm').resolve_left hmm)
        · have hmap : (alternatives alts).map (Function.update count m k) =
              (alternatives alts).map count := by
            refine List.map_congr_left fun m' hm' => ?_
            by_cases hmm : m' = m
            · subst hmm
              rw [Function.update_self]
              exact hk.unique (hcount m' hm')
            · exact Function.update_of_ne hmm _ _
          rw [hcons, List.map_cons, List.sum_cons, hmap, Function.update_self, Nat.add_assoc]

theorem ways_some {fin' : List (String × Nat)} {c : Nat}
    (h : ways root n following fin s = .ok (some c, fin')) (hfin : Counted root fin) :
    (∃ k, Unfolds root s k ∧ c = cut k) ∧ Counted root fin' := by
  induction n generalizing following fin fin' s c with
  | zero => cases h
  | succ n ih =>
    rw [ways] at h
    split at h
    · next r href =>
      split at h
      · cases h
      · split at h
        · next c' hc' =>
          cases h
          exact ⟨hfin r c hc' s href, hfin⟩
        · split at h
          · next hat =>
            cases h
            exact ⟨⟨1, .dangling href hat, by decide⟩, hfin⟩
          · next target hat =>
            obtain ⟨⟨r', fin₁⟩, hr', hrest⟩ := Fuel.bind_eq_ok.mp h
            cases r' with
            | none => cases hrest
            | some c' =>
              cases hrest
              obtain ⟨⟨k, hk, rfl⟩, hfin₁⟩ := ih hr' hfin
              refine ⟨⟨k, .ref href hat hk, rfl⟩, fun r₁ c₁ hc₁ s₁ hs₁ => ?_⟩
              rw [List.lookup_cons] at hc₁
              split at hc₁
              · next heq =>
                obtain rfl := beq_iff_eq.mp heq
                obtain rfl := Option.some.inj hc₁
                exact ⟨k, .ref hs₁ hat hk, rfl⟩
              · exact hfin₁ r₁ c₁ hc₁ s₁ hs₁
    · next href =>
      split at h
      · next hany =>
        cases h
        exact ⟨⟨1, .leaf href hany, by decide⟩, hfin⟩
      · next alts hany =>
        obtain ⟨⟨count, hcount, hc⟩, hfin'⟩ :=
          waysAll_some (fun _ _ _ _ hr hf => ih hr hf) 0 h hfin
        rw [Nat.zero_add] at hc
        exact ⟨⟨_, .anyOf count href hany hcount, hc⟩, hfin'⟩

theorem waysAll_none
    {ways : List (String × Nat) → Object → Run (Option Nat × List (String × Nat))} {total : Nat}
    {fin' : List (String × Nat)} (h : waysAll ways total fin alts = .ok (none, fin')) :
    ∃ m fin₁ fin₂, .obj m ∈ alts ∧ ways fin₁ m = .ok (none, fin₂) := by
  induction alts generalizing total fin with
  | nil => cases h
  | cons alt alts ih =>
    rw [waysAll] at h
    split at h
    · obtain ⟨m, fin₁, fin₂, hm, hw⟩ := ih h
      exact ⟨m, fin₁, fin₂, List.mem_cons_of_mem _ hm, hw⟩
    · next m halt =>
      obtain ⟨⟨r, fin₁⟩, hr, hrest⟩ := Fuel.bind_eq_ok.mp h
      cases r with
      | none =>
        rw [Json.object?_eq_some] at halt
        exact ⟨m, fin, fin₁, halt ▸ List.mem_cons_self, hr⟩
      | some c =>
        obtain ⟨m', fin₁, fin₂, hm', hw⟩ := ih hrest
        exact ⟨m', fin₁, fin₂, List.mem_cons_of_mem _ hm', hw⟩

/-- Where it finds a loop there is a chain back to a reference, followed on the
chain or before it. -/
theorem ways_none {fin' : List (String × Nat)}
    (h : ways root n following fin s = .ok (none, fin')) :
    ∃ rs t r, Chain root rs s t ∧ t.string? "$ref" = some r ∧ (r ∈ rs ∨ r ∈ following) := by
  induction n generalizing following fin fin' s with
  | zero => cases h
  | succ n ih =>
    rw [ways] at h
    split at h
    · next r href =>
      split at h
      · next hfollowing =>
        exact ⟨[], s, r, .refl s, href, .inr (List.contains_iff_mem.mp hfollowing)⟩
      · split at h
        · cases h
        · split at h
          · cases h
          · next target hat =>
            obtain ⟨⟨r', fin₁⟩, hr', hrest⟩ := Fuel.bind_eq_ok.mp h
            cases r' with
            | some c => cases hrest
            | none =>
              obtain ⟨rs, t, r₁, hchain, hr₁, hmem⟩ := ih hr'
              refine ⟨r :: rs, t, r₁, .ref href hat hchain, hr₁, ?_⟩
              rw [List.mem_cons] at hmem ⊢
              tauto
    · next href =>
      split at h
      · cases h
      · next alts hany =>
        obtain ⟨m, fin₁, fin₂, hm, hw⟩ := waysAll_none h
        obtain ⟨rs, t, r₁, hchain, hr₁, hmem⟩ := ih hw
        exact ⟨rs, t, r₁, .anyOf href hany hm hchain, hr₁, hmem⟩

/-! ## The verdict -/

theorem Unfolds.grounded (h : Unfolds root s k) : Grounded root s := by
  induction h with
  | ref hs ht _ ih =>
    refine .ref hs fun t' ht' => ?_
    obtain rfl := Option.some.inj (ht.symm.trans ht')
    exact ih
  | dangling hs ht => exact .ref hs fun t' ht' => by cases ht.symm.trans ht'
  | anyOf _ hs ha _ ih => exact .anyOf hs ha fun m hm => ih m (mem_alternatives.mpr hm)
  | leaf hs ha => exact .keywords hs ha

theorem Unfolds.runaway_iff (h : Unfolds root s k) :
    Runaway root s ↔ maxSchemaAlternatives < k := by
  refine ⟨fun hr => ?_, fun hk => .inr ⟨k, h, hk⟩⟩
  obtain hloops | ⟨k', hk', hlt⟩ := hr
  · exact absurd hloops h.grounded.not_loops
  · exact h.unique hk' ▸ hlt

theorem below_cases : Below s t ↔ t = s ∨ ∃ c ∈ (childSchemas s).getD [], Below c t := by
  refine ⟨fun h => ?_, fun h => ?_⟩
  · cases h with
    | refl => exact .inl rfl
    | child hcs hc ht => exact .inr ⟨_, by rw [hcs]; exact hc, ht⟩
  · obtain rfl | ⟨c, hc, ht⟩ := h
    · exact .refl _
    · cases hcs : childSchemas s with
      | none =>
        rw [hcs] at hc
        cases hc
      | some cs =>
        rw [hcs] at hc
        exact .child hcs hc ht

theorem alternativesIssue_verdict {pending : List Object} {issue : Option String}
    (h : alternativesIssue root n pending fin = .ok issue) (hfin : Counted root fin) :
    issue.isSome ↔ ∃ s ∈ pending, ∃ t, Below s t ∧ Runaway root t := by
  induction n generalizing pending fin with
  | zero =>
    cases pending with
    | nil =>
      cases h
      simp
    | cons s pending => cases h
  | succ n ih =>
    cases pending with
    | nil =>
      cases h
      simp
    | cons s pending =>
      rw [alternativesIssue] at h
      obtain ⟨⟨r, fin'⟩, hr, hrest⟩ := Fuel.bind_eq_ok.mp h
      cases r with
      | none =>
        cases hrest
        obtain ⟨rs, t, r, hchain, hr, hmem⟩ := ways_none hr
        have hloops : Loops root s := ⟨rs, t, r, hchain, hr, hmem.resolve_right (by simp)⟩
        exact iff_of_true rfl ⟨s, List.mem_cons_self, s, .refl s, .inl hloops⟩
      | some c =>
        obtain ⟨⟨k, hk, rfl⟩, hfin'⟩ := ways_some hr hfin
        simp only at hrest
        split at hrest
        · next hlt =>
          cases hrest
          have hrun : Runaway root s := hk.runaway_iff.mpr (lt_cut.mp hlt)
          exact iff_of_true rfl ⟨s, List.mem_cons_self, s, .refl s, hrun⟩
        · next hle =>
          have hrun : ¬Runaway root s := fun hr => hle (lt_cut.mpr (hk.runaway_iff.mp hr))
          rw [ih hrest hfin']
          constructor
          · rintro ⟨s', hs', t, ht, hrun'⟩
            rcases List.mem_append.mp hs' with hs' | hs'
            · have hbelow : Below s t :=
                below_cases.mpr (.inr ⟨s', List.mem_reverse.mp hs', ht⟩)
              exact ⟨s, List.mem_cons_self, t, hbelow, hrun'⟩
            · exact ⟨s', List.mem_cons_of_mem _ hs', t, ht, hrun'⟩
          · rintro ⟨s', hs', t, ht, hrun'⟩
            rcases List.mem_cons.mp hs' with rfl | hs'
            · obtain rfl | ⟨c, hc, ht⟩ := below_cases.mp ht
              · exact absurd hrun' hrun
              · exact ⟨c, List.mem_append_left _ (List.mem_reverse.mpr hc), t, ht, hrun'⟩
            · exact ⟨s', List.mem_append_right _ hs', t, ht, hrun'⟩

/-! ## It comes to an end -/

/-- Every reference that leads somewhere. -/
def references (root : Object) : List String :=
  root.flatMap fun d => (d.2.object?.getD []).flatMap fun e =>
    [String.ofList (d.1.toList ++ '/' :: e.1.toList),
      String.ofList ("#/".toList ++ (d.1.toList ++ '/' :: e.1.toList))]

theorem mem_references (h : schemaAt root r = some t) : r ∈ references root := by
  unfold schemaAt at h
  simp only at h
  split at h
  · cases h
  · next c name hname =>
    obtain ⟨defs, hdefs, htarget⟩ := Option.bind_eq_some_iff.mp h
    rw [Object.object?_eq_some] at hdefs htarget
    have hsplit := List.takeWhile_append_dropWhile (p := (· ≠ '/'))
      (l := (afterPrefix "#/".toList r.toList).getD r.toList)
    have hslash : c = '/' := by
      have hhead := List.head?_dropWhile_not (fun x => decide (x ≠ '/'))
        ((afterPrefix "#/".toList r.toList).getD r.toList)
      rw [hname] at hhead
      simpa using hhead
    rw [hname, hslash] at hsplit
    refine List.mem_flatMap.mpr ⟨_, mem_of_lookup hdefs, List.mem_flatMap.mpr
      ⟨_, mem_of_lookup htarget, ?_⟩⟩
    simp only [String.toList_ofList, hsplit, List.mem_cons, List.not_mem_nil, or_false]
    cases hp : afterPrefix "#/".toList r.toList with
    | none => exact .inl String.ofList_toList.symm
    | some rest =>
      refine .inr ?_
      rw [Option.getD_some, ← eq_of_afterPrefix hp]
      exact String.ofList_toList.symm

/-- The references that are not being followed. -/
def unfollowed (root : Object) (following : List String) : Nat :=
  ((references root).filter fun r => !following.contains r).length

theorem unfollowed_lt (h : schemaAt root r = some t) (hr : following.contains r = false) :
    unfollowed root (r :: following) < unfollowed root following := by
  have hsub : List.Sublist ((references root).filter fun r' => !(r :: following).contains r')
      ((references root).filter fun r' => !following.contains r') := by
    refine List.monotone_filter_right _ fun r' hr' => ?_
    simp only [List.contains_cons, Bool.not_or, Bool.and_eq_true] at hr'
    exact hr'.2
  refine lt_of_le_of_ne hsub.length_le fun hlen => ?_
  have hmem : r ∈ (references root).filter fun r' => !following.contains r' :=
    List.mem_filter.mpr ⟨mem_references h, by rw [hr]; rfl⟩
  rw [← hsub.eq_of_length hlen] at hmem
  simpa using (List.mem_filter.mp hmem).2

theorem sizeOf_alternative {m : Object} (ha : s.array? "anyOf" = some alts)
    (hm : .obj m ∈ alts) : sizeOf m < sizeOf s := by
  have h₁ := List.sizeOf_lt_of_mem (mem_of_lookup (Object.array?_eq_some.mp ha))
  have h₂ := List.sizeOf_lt_of_mem hm
  simp only [Prod.mk.sizeOf_spec, Json.arr.sizeOf_spec, Json.obj.sizeOf_spec] at h₁ h₂
  omega

theorem waysAll_settles
    {ways : Nat → List (String × Nat) → Object → Run (Option Nat × List (String × Nat))}
    (h : ∀ m, .obj m ∈ alts → ∀ fin, ∃ a, Fuel.Settles (fun n => ways n fin m) a) :
    ∀ total fin, ∃ a, Fuel.Settles (fun n => waysAll (ways n) total fin alts) a := by
  induction alts with
  | nil => exact fun total fin => ⟨_, Fuel.settles_of_eq fun _ => rfl⟩
  | cons alt alts ih =>
    have hrest := ih fun m hm => h m (List.mem_cons_of_mem _ hm)
    intro total fin
    simp only [waysAll]
    cases halt : alt.object? with
    | none => exact hrest total fin
    | some m =>
      rw [Json.object?_eq_some] at halt
      subst halt
      obtain ⟨⟨c, fin'⟩, hc⟩ := h m List.mem_cons_self fin
      cases c with
      | none => exact ⟨_, hc.bind (Fuel.settles_of_eq fun _ => rfl)⟩
      | some c =>
        obtain ⟨a, ha⟩ := hrest (min (total + c) (maxSchemaAlternatives + 1)) fin'
        exact ⟨a, hc.bind ha⟩

theorem ways_settles (following : List String) (fin : List (String × Nat)) (s : Object) :
    ∃ a, Fuel.Settles (fun n => ways root n following fin s) a := by
  induction hu : unfollowed root following using Nat.strong_induction_on
    generalizing following fin s with
  | _ f ihf =>
    subst hu
    induction hsize : sizeOf s using Nat.strong_induction_on generalizing fin s with
    | _ k ihs =>
      subst hsize
      refine (?_ : ∃ a, Fuel.Settles (fun n => ways root (n + 1) following fin s) a).imp
        fun _ => Fuel.Settles.succ
      cases href : s.string? "$ref" with
      | none =>
        cases hany : s.array? "anyOf" with
        | none =>
          simp only [ways, href, hany]
          exact ⟨_, Fuel.settles_of_eq fun _ => rfl⟩
        | some alts =>
          simp only [ways, href, hany]
          exact waysAll_settles (fun m hm fin =>
            ihs _ (sizeOf_alternative hany hm) fin m rfl) 0 fin
      | some r =>
        cases hfollowing : following.contains r with
        | true =>
          simp only [ways, href, hfollowing, if_true]
          exact ⟨_, Fuel.settles_of_eq fun _ => rfl⟩
        | false =>
          simp only [ways, href, hfollowing, Bool.false_eq_true, if_false]
          cases fin.lookup r with
          | some c => exact ⟨_, Fuel.settles_of_eq fun _ => rfl⟩
          | none =>
            cases hat : schemaAt root r with
            | none => exact ⟨_, Fuel.settles_of_eq fun _ => rfl⟩
            | some target =>
              obtain ⟨⟨c, fin'⟩, hc⟩ := ihf _ (unfollowed_lt hat hfollowing)
                (r :: following) fin target rfl
              cases c with
              | none => exact ⟨_, hc.bind (Fuel.settles_of_eq fun _ => rfl)⟩
              | some c => exact ⟨_, hc.bind (Fuel.settles_of_eq fun _ => rfl)⟩

theorem sizeOf_child {c : Object} (hc : c ∈ (childSchemas s).getD []) : sizeOf c < sizeOf s := by
  cases hcs : childSchemas s with
  | none =>
    rw [hcs] at hc
    cases hc
  | some cs =>
    rw [hcs, Option.getD_some] at hc
    obtain ⟨a, b, d, e, f, ha, hb, hd, he, hf, rfl⟩ := childSchemas_parts hcs
    have hmap : ∀ key cs', mapChildren s key = some cs' → c ∈ cs' → sizeOf c < sizeOf s := by
      intro key cs' hkey hmem
      obtain ⟨m, hm, hval⟩ := mapChildren_mem hkey hmem
      obtain ⟨k, _, hk⟩ := List.mem_filterMap.mp hval
      have h₁ := List.sizeOf_lt_of_mem (mem_of_lookup hm)
      have h₂ := List.sizeOf_lt_of_mem (mem_of_lookup hk)
      simp only [Prod.mk.sizeOf_spec, Json.obj.sizeOf_spec] at h₁ h₂
      omega
    simp only [List.mem_append] at hc
    rcases hc with (((hc | hc) | hc) | hc) | hc
    · exact hmap _ _ ha hc
    · exact hmap _ _ hb hc
    · exact hmap _ _ hd hc
    · unfold itemChildren at he
      split at he
      · cases he
        cases hc
      · next v hv =>
        obtain ⟨o, ho, rfl⟩ := Option.map_eq_some_iff.mp he
        rw [Json.object?_eq_some] at ho
        obtain rfl := List.mem_singleton.mp hc
        subst ho
        have h₁ := List.sizeOf_lt_of_mem (mem_of_lookup hv)
        simp only [Prod.mk.sizeOf_spec, Json.obj.sizeOf_spec] at h₁
        omega
    · unfold anyOfChildren at hf
      split at hf
      · cases hf
        cases hc
      · next xs hv =>
        obtain ⟨x, hx, hmem⟩ := (mapM_option_mem hf).2 c hc
        rw [Json.object?_eq_some] at hx
        subst hx
        exact sizeOf_alternative (Object.array?_eq_some.mpr hv) hmem
      · cases hf

/-- Children are smaller, so a schema on the stack adds nothing endless to
it. -/
theorem alternativesIssue_push (s : Object) : ∀ pending : List Object,
    (∀ fin, ∃ a, Fuel.Settles (fun n => alternativesIssue root n pending fin) a) →
      ∀ fin, ∃ a, Fuel.Settles (fun n => alternativesIssue root n (s :: pending) fin) a := by
  induction hsize : sizeOf s using Nat.strong_induction_on generalizing s with
  | _ k ih =>
    subst hsize
    intro pending hpending fin
    have hall : ∀ cs : List Object, (∀ c ∈ cs, sizeOf c < sizeOf s) → ∀ fin, ∃ a,
        Fuel.Settles (fun n => alternativesIssue root n (cs ++ pending) fin) a := by
      intro cs
      induction cs with
      | nil => exact fun _ => hpending
      | cons c cs ihcs =>
        intro hcs
        exact ih _ (hcs c List.mem_cons_self) c rfl _
          (ihcs fun c' hc' => hcs c' (List.mem_cons_of_mem _ hc'))
    refine (?_ : ∃ a, Fuel.Settles (fun n => alternativesIssue root (n + 1) (s :: pending) fin)
      a).imp fun _ => Fuel.Settles.succ
    simp only [alternativesIssue]
    have hsettles : ∃ a, Fuel.Settles (fun n => ways root n [] fin s) a :=
      ways_settles [] fin s
    obtain ⟨⟨c, fin'⟩, hc⟩ := hsettles
    cases c with
    | none => exact ⟨_, hc.bind (Fuel.settles_of_eq fun _ => rfl)⟩
    | some c =>
      by_cases hlt : maxSchemaAlternatives < c
      · refine ⟨some "Structured output schema has too many alternatives.",
          hc.bind (Fuel.settles_of_eq fun _ => ?_)⟩
        exact if_pos hlt
      · obtain ⟨a, ha⟩ := hall ((childSchemas s).getD []).reverse
          (fun c' hc' => sizeOf_child (List.mem_reverse.mp hc')) fin'
        refine ⟨a, hc.bind ?_⟩
        simpa only [if_neg hlt] using ha

/-- The pass comes to an end, and refuses exactly the roots that have a
subschema which loops or unfolds to more leaves than the limit. -/
theorem alternativesIssue_exact (root : Object) :
    ∃ issue, Fuel.Settles (fun n => alternativesIssue root n [root] []) issue ∧
      (issue.isSome ↔ ∃ s, Below root s ∧
        (Loops root s ∨ ∃ k, Unfolds root s k ∧ maxSchemaAlternatives < k)) := by
  have hempty : ∀ fin, ∃ a, Fuel.Settles (fun n => alternativesIssue root n [] fin) a :=
    fun fin => ⟨none, Fuel.settles_of_eq fun n => by rw [alternativesIssue]⟩
  obtain ⟨issue, n, hn⟩ := alternativesIssue_push root [] hempty []
  refine ⟨issue, ⟨n, hn⟩, ?_⟩
  rw [alternativesIssue_verdict (hn n (Nat.le_refl n)) fun r c hr => by cases hr]
  simp [Runaway]

end LocalBase.StructuredOutput
