import LocalBase.Imports.Staging

/-!
# What was fetched

Each file is checked when it is in place, and from then on it stays as it is:
what comes after it changes other files. A plan can name a file that another is
downloaded to, and then it is gone when the other is in place, which the last
look at the directory does not miss.
-/

namespace LocalBase.Imports

open Program Files

variable {sum : Bytes → String} {short : String → String} {p : Run} {w t u : World} {d : Dir}
  {work : Work} {n i : Nat} {es es' : Entries} {x y : Name} {xs : List Name} {bs : Bytes}
  {α : Type} {a : Artifact} {arts : List Artifact} {f : PlannedFile} {plan : Plan} {c : Choice}
  {rest : List Artifact} {acc : Inspection} {ff : FileFacts}

/-! ## A file -/

theorem partialName_ne (x : Name) : partialName x ≠ x := fun h => by
  have hlen := congrArg String.length h
  have hsuffix : 0 < ".partial".length := by decide
  rw [partialName, String.length_append] at hlen
  omega

theorem partialFile_ne : f.partialFile ≠ f.filename := partialName_ne _

/-- A file is in place: as it was, or new, and nothing is left of its
partial. -/
def Secured (f : PlannedFile) (es es' : Entries) : Prop :=
  es' = es ∨ es' f.partialFile = none ∧
    ∀ y, y ∉ [f.partialFile, f.validatorFile, f.filename] → es' y = es y

theorem stat_spec {r : Option Nat} (h : Mine short p work n es t)
    (hact : act p t (.stat (.staging (work.staging short)) x) c = some (r, u)) {size : Nat}
    (hr : r = some size) : ∃ e, es x = some e ∧ e.2.length = size := by
  subst hr
  cases c <;> simp only [act, reduceCtorEq, Option.some.injEq, Prod.mk.injEq, false_and] at hact
  obtain ⟨e, he, hsize⟩ := Option.map_eq_some_iff.mp hact.1
  obtain ⟨e', he', rfl⟩ := Option.map_eq_some_iff.mp he
  exact ⟨e', h.file.symm.trans he', hsize⟩

theorem bring_runs (hw : Mine short p work n es w) :
    Runs sum short p
      (fun _ u => Near short p work n [f.partialFile, f.validatorFile] es u)
      (bring plan (.staging (work.staging short)) f) w := by
  have hx : f.partialFile ∈ [f.partialFile, f.validatorFile] := List.mem_cons_self
  have hv : validatorName f.partialFile ∈ [f.partialFile, f.validatorFile] :=
    List.mem_cons_of_mem _ List.mem_cons_self
  unfold bring
  split
  · exact copyFile_runs hx hw.near
  · exact download_runs hx hv 2 hw.near

theorem secure_runs (hw : Mine short p work n es w) :
    Runs sum short p
      (fun r u => ∃ es', Mine short p work n es' u ∧ (r = none → Secured f es es'))
      (secure plan (.staging (work.staging short)) f) w := by
  refine runs_quiet mine_stable hw rfl fun r t _ ht _ _ => ?_
  cases r with
  | some size => exact ⟨es, ht, fun _ => .inl rfl⟩
  | none =>
    refine Runs.bind (bring_runs ht) fun r u hu => ?_
    cases r with
    | some err =>
      obtain ⟨es', hm, _⟩ := hu
      exact ⟨es', hm, fun h => by cases h⟩
    | none =>
      refine runs_own (k := .done) near_stable hu (fun _ h _ => h.owns)
        fun v c r z hv _ hact => ?_
      obtain ⟨es', hm, hes⟩ := hv
      cases c <;> simp only [act, reduceCtorEq, Option.map_eq_some_iff, Option.some.injEq,
        Prod.mk.injEq] at hact
      · obtain ⟨z', hz, rfl, rfl⟩ := hact
        obtain ⟨htouches, hm'⟩ := renamed_spec hm partialFile_ne hz
        refine ⟨htouches, _, hm', fun _ => .inr ⟨?_, fun y hy => ?_⟩⟩
        · rw [Function.update_of_ne partialFile_ne]
          exact Function.update_self ..
        · simp only [List.mem_cons, List.not_mem_nil, or_false, not_or] at hy
          rw [Function.update_of_ne hy.2.2, Function.update_of_ne hy.1]
          exact hes y (by simp [hy.1, hy.2.1])
      · obtain ⟨rfl, rfl⟩ := hact
        exact ⟨.refl _ v, es', hm, fun h => by cases h⟩

theorem readAll_runs (hx : es x = some (i, bs)) (sizes : List Nat) :
    ∀ {got : Bytes} {w : World}, Mine short p work n es w → got <+: bs →
      Runs sum short p (fun r u => Mine short p work n es u ∧ ∀ all, r = .ok all → all = bs)
        (readAll i got sizes) w := by
  have hbytes : ∀ {t : World}, Mine short p work n es t → t.folders.disk.bytes i = bs :=
    fun h => (Folders.names_of_entry ((congrFun h.entry x).trans hx)).2
  induction sizes with
  | nil =>
    intro got w hw hgot
    refine runs_quiet mine_stable hw rfl fun r t c ht _ hact => ?_
    cases r with
    | some err => exact ⟨ht, fun _ h => by cases h⟩
    | none =>
      refine ⟨ht, fun all hall => ?_⟩
      cases hall
      cases c <;> simp only [act, reduceCtorEq, Option.ite_none_right_eq_some,
        Option.some.injEq, Prod.mk.injEq, false_and] at hact
      rw [hbytes ht] at hact
      exact hgot.eq_of_length_le hact.1
  | cons k sizes ih =>
    intro got w hw hgot
    refine runs_quiet mine_stable hw rfl fun r t c ht _ hact => ?_
    cases r with
    | error err => exact ⟨ht, fun _ h => by cases h⟩
    | ok piece =>
      refine ih ht ?_
      cases c <;> simp only [act, reduceCtorEq, Option.ite_none_right_eq_some,
        Option.some.injEq, Prod.mk.injEq, Except.ok.injEq, false_and] at hact
      rw [hbytes ht] at hact
      obtain ⟨rest, hrest⟩ := hgot
      rw [← hact.2.1, ← hrest, List.drop_left]
      exact List.prefix_append_right_inj got |>.mpr (List.take_prefix k rest)

theorem fileSHA256_runs (hw : Mine short p work n es w) :
    Runs sum short p
      (fun r u => Mine short p work n es u ∧ ∀ s, r = .ok s → ∃ e, es x = some e ∧ s = sum e.2)
      (fileSHA256 sum (.staging (work.staging short)) x) w := by
  refine runs_quiet mine_stable hw rfl fun r t c ht _ hact => ?_
  cases r with
  | error err => exact ⟨ht, fun _ h => by cases h⟩
  | ok found =>
    cases c <;> simp only [act, reduceCtorEq, Option.map_eq_some_iff, Option.some.injEq,
      Prod.mk.injEq, Except.ok.injEq, false_and] at hact
    obtain ⟨e, he, rfl, _⟩ := hact
    rw [ht.file] at he
    refine Runs.bind (readAll_runs he _ ht List.nil_prefix) fun r u hu => ?_
    cases r with
    | error err => exact ⟨hu.1, fun _ h => by cases h⟩
    | ok all =>
      refine ⟨hu.1, fun s hs => ?_⟩
      cases hs
      exact ⟨e, he, congrArg sum (hu.2 all rfl)⟩

/-- An artifact's file is there, and what it says. -/
def Found (sum : Bytes → String) (es : Entries) (a : Artifact) : Prop :=
  ∃ e, es a.filename = some e ∧ a.Matches sum e.2

theorem near_some (h : Near short p work n xs es w) : ∃ es', Mine short p work n es' w := by
  obtain ⟨es', hm, _⟩ := h
  exact ⟨es', hm⟩

theorem check_runs (hw : Mine short p work n es w) :
    Runs sum short p
      (fun r u => ∃ es', Mine short p work n es' u ∧ ∀ a, r = .ok a →
        es' = es ∧ a.filename = f.filename ∧ a.required = f.required ∧ Found sum es a)
      (check sum (.staging (work.staging short)) f) w := by
  have hremove : ∀ {err : Err} {w : World}, Mine short p work n es w →
      Runs sum short p
        (fun (r : Except Err Artifact) u => ∃ es', Mine short p work n es' u ∧ ∀ a, r = .ok a →
          es' = es ∧ a.filename = f.filename ∧ a.required = f.required ∧ Found sum es a)
        (remove (.staging (work.staging short)) f.filename >>= fun _ => pure (.error err)) w :=
    fun hw => runs_remove (List.mem_singleton_self f.filename) hw.near fun u hu => by
      obtain ⟨es', hm⟩ := near_some hu
      exact ⟨es', hm, fun _ h => by cases h⟩
  refine runs_quiet mine_stable hw rfl fun r t c ht _ hact => ?_
  cases r with
  | none => exact ⟨es, ht, fun _ h => by cases h⟩
  | some size =>
    obtain ⟨e, he, hsize⟩ := stat_spec ht hact rfl
    dsimp only
    split
    · exact hremove ht
    · refine Runs.bind (fileSHA256_runs ht) fun r u hu => ?_
      cases r with
      | error err => exact ⟨es, hu.1, fun _ h => by cases h⟩
      | ok actual =>
        dsimp only
        split
        · exact hremove hu.1
        · refine ⟨es, hu.1, fun a ha => ?_⟩
          cases ha
          obtain ⟨e', he', hactual⟩ := hu.2 actual rfl
          obtain rfl : e = e' := Option.some.inj (he.symm.trans he')
          refine ⟨rfl, rfl, rfl, e, he, fun k hk => ?_, fun s hs => ?_⟩
          · cases hk
            exact hsize
          · cases hs
            exact hactual.symm

/-! ## The files of a plan -/

/-- Each is there as it was recorded, or required and gone. -/
def Kept (sum : Bytes → String) (es : Entries) (arts : List Artifact) : Prop :=
  ∀ a ∈ arts, a.required = true ∧ es a.filename = none ∨ Found sum es a

theorem Kept.cons (ha : Found sum es a) (h : Kept sum es arts) : Kept sum es (a :: arts) :=
  List.forall_mem_cons.mpr ⟨.inr ha, h⟩

/-- A file of the plan, recorded. -/
def Planned (plan : Plan) (a : Artifact) : Prop :=
  ∃ f ∈ plan.files, a.filename = f.filename ∧ a.required = f.required

theorem Kept.secured (h : Kept sum es arts) (hapart : plan.Apart) (hf : f ∈ plan.files)
    (hplanned : ∀ a ∈ arts, Planned plan a) (hother : ∀ a ∈ arts, a.filename ≠ f.filename)
    (hes : Secured f es es') : Kept sum es' arts := by
  intro a ha
  obtain rfl | ⟨hgone, hsame⟩ := hes
  · exact h a ha
  · obtain ⟨g, hg, hname, hreq⟩ := hplanned a ha
    obtain ⟨hvalidator, hpartial⟩ := hapart g hg f hf
    by_cases hp : a.filename = f.partialFile
    · obtain hrequired | hne := hpartial
      · exact .inl ⟨hreq.trans hrequired, hp ▸ hgone⟩
      · exact absurd (hname ▸ hp) hne
    · have hsame' : es' a.filename = es a.filename := hsame _ (by
        simp only [List.mem_cons, List.not_mem_nil, or_false, not_or]
        exact ⟨hp, hname ▸ hvalidator, hother a ha⟩)
      unfold Found
      rw [hsame']
      exact h a ha

theorem fetchFiles_runs (hapart : plan.Apart) (todo : List PlannedFile) :
    ∀ (done : List Artifact) {es : Entries} {w : World}, Mine short p work n es w →
      (∀ f ∈ todo, f ∈ plan.files) → (todo.map (·.filename)).Nodup →
      (∀ a ∈ done, Planned plan a) → (∀ a ∈ done, ∀ f ∈ todo, a.filename ≠ f.filename) →
      Kept sum es done →
      Runs sum short p
        (fun r u => ∃ es', Mine short p work n es' u ∧ ∀ arts, r = .ok arts →
          Kept sum es' (done ++ arts))
        (fetchFiles sum plan (.staging (work.staging short)) todo) w := by
  induction todo with
  | nil =>
    intro done es w hw _ _ _ _ hkept
    refine ⟨es, hw, fun arts harts => ?_⟩
    cases harts
    rwa [List.append_nil]
  | cons f rest ih =>
    intro done es w hw hmem hnodup hplanned hother hkept
    have hf := hmem f List.mem_cons_self
    rw [List.map_cons, List.nodup_cons] at hnodup
    refine Runs.bind (secure_runs hw) fun r t ht => ?_
    obtain ⟨es₁, hm₁, hsecured⟩ := ht
    cases r with
    | some err => exact ⟨es₁, hm₁, fun _ h => by cases h⟩
    | none =>
      have hkept₁ := hkept.secured hapart hf hplanned
        (fun a ha => hother a ha f List.mem_cons_self) (hsecured rfl)
      refine Runs.bind (check_runs hm₁) fun r u hu => ?_
      obtain ⟨es₂, hm₂, hchecked⟩ := hu
      cases r with
      | error err => exact ⟨es₂, hm₂, fun _ h => by cases h⟩
      | ok a =>
        obtain ⟨rfl, hname, hreq, hfound⟩ := hchecked a rfl
        have hplanned' : ∀ b ∈ a :: done, Planned plan b :=
          List.forall_mem_cons.mpr ⟨⟨f, hf, hname, hreq⟩, hplanned⟩
        have hother' : ∀ b ∈ a :: done, ∀ g ∈ rest, b.filename ≠ g.filename :=
          List.forall_mem_cons.mpr
            ⟨fun g hg he => hnodup.1 (List.mem_map.mpr ⟨g, hg, (hname.symm.trans he).symm⟩),
              fun b hb g hg => hother b hb g (List.mem_cons_of_mem _ hg)⟩
        refine Runs.bind (ih _ hm₂ (fun g hg => hmem g (List.mem_cons_of_mem _ hg)) hnodup.2
          hplanned' hother' (.cons hfound hkept₁)) fun r v hv => ?_
        obtain ⟨es₃, hm₃, hrest⟩ := hv
        cases r with
        | error err => exact ⟨es₃, hm₃, fun _ h => by cases h⟩
        | ok arts =>
          refine ⟨es₃, hm₃, fun all hall => ?_⟩
          cases hall
          have hall := hrest arts rfl
          intro b hb
          refine hall b ?_
          simp only [List.mem_append, List.mem_cons] at hb ⊢
          tauto

/-! ## Inspecting -/

theorem found_withRole : Found sum es (a.withRole ff) ↔ Found sum es a := by
  unfold Artifact.withRole
  split
  · rfl
  · split <;> rfl

theorem Kept.withRole (h : Kept sum es [a]) : Kept sum es [a.withRole ff] := by
  have hsame : (a.withRole ff).filename = a.filename ∧ (a.withRole ff).required = a.required := by
    unfold Artifact.withRole
    split
    · exact ⟨rfl, rfl⟩
    · split <;> exact ⟨rfl, rfl⟩
  intro b hb
  obtain rfl := List.mem_singleton.mp hb
  rw [hsame.1, hsame.2, found_withRole]
  exact h a (List.mem_singleton_self a)

theorem inspectRoles_runs (arts : List Artifact) : ∀ {w : World}, Mine short p work n es w →
    Kept sum es arts →
    Runs sum short p
      (fun r u => ∃ es', Mine short p work n es' u ∧ ∀ arts', r = .ok arts' →
        es' = es ∧ Kept sum es arts')
      (inspectRoles (.staging (work.staging short)) arts) w := by
  induction arts with
  | nil =>
    refine fun hw _ => ⟨es, hw, fun arts' h => ?_⟩
    cases h
    exact ⟨rfl, fun _ h => by cases h⟩
  | cons a rest ih =>
    intro w hw hkept
    refine runs_quiet mine_stable hw rfl fun ff t _ ht _ _ => ?_
    split
    · refine runs_remove (List.mem_singleton_self a.filename) ht.near fun u hu => ?_
      obtain ⟨es', hm⟩ := near_some hu
      exact ⟨es', hm, fun _ h => by cases h⟩
    · refine Runs.bind (ih ht fun b hb => hkept b (List.mem_cons_of_mem _ hb)) fun r u hu => ?_
      obtain ⟨es', hm, hrest⟩ := hu
      cases r with
      | error err => exact ⟨es', hm, fun _ h => by cases h⟩
      | ok arts =>
        obtain ⟨rfl, hkept'⟩ := hrest arts rfl
        refine ⟨es', hm, fun all hall => ⟨rfl, ?_⟩⟩
        cases hall
        have ha : Kept sum es' [a] := fun b hb =>
          hkept b (List.mem_singleton.mp hb ▸ List.mem_cons_self)
        exact List.forall_mem_cons.mpr ⟨ha.withRole _ (List.mem_singleton_self _), hkept'⟩

/-- As long as nothing is missing, each artifact is there or still to be looked
at. -/
def Inspected (sum : Bytes → String) (es : Entries) (rest : List Artifact) (acc : Inspection) :
    Prop :=
  acc.missing = [] → ∀ a ∈ acc.artifacts, a ∈ rest ∨ Found sum es a

theorem addShards_runs {stem : String} {count : Nat} (left : Nat) :
    ∀ {i : Nat} {acc : Inspection} {w : World}, Mine short p work n es w →
      Inspected sum es rest acc →
      Runs sum short p (fun r u => Mine short p work n es u ∧ Inspected sum es rest r)
        (addShards (.staging (work.staging short)) stem count left i acc) w := by
  induction left with
  | zero => exact fun hw h => ⟨hw, h⟩
  | succ left ih =>
    intro i acc w hw h
    unfold addShards
    dsimp only
    split
    · exact ih hw h
    · split
      · exact ⟨hw, h⟩
      · refine runs_quiet mine_stable hw rfl fun found t c ht _ hact => ih ht ?_
        cases found with
        | none => exact fun hmiss => absurd hmiss (by simp)
        | some size =>
          obtain ⟨e, he, _⟩ := stat_spec ht hact rfl
          intro hmiss a ha
          obtain ha | ha := List.mem_append.mp ha
          · exact h hmiss a ha
          · obtain rfl := List.mem_singleton.mp ha
            exact .inr ⟨e, he, (fun _ h => by cases h), fun _ h => by cases h⟩

theorem inspectShards_runs (hw : Mine short p work n es w) (h : Inspected sum es rest acc) :
    Runs sum short p (fun r u => Mine short p work n es u ∧ Inspected sum es rest r)
      (inspectShards (.staging (work.staging short)) a ff acc) w := by
  unfold inspectShards
  split
  · split
    · exact addShards_runs _ hw h
    · exact ⟨hw, h⟩
  · exact ⟨hw, h⟩

theorem Inspected.next (h : Inspected sum es (a :: rest) acc)
    (ha : Found sum es a) : Inspected sum es rest acc := by
  intro hmiss b hb
  obtain hb | hb := h hmiss b hb
  · obtain rfl | hb := List.mem_cons.mp hb
    · exact .inr ha
    · exact .inl hb
  · exact .inr hb

theorem Inspected.missed (h : Inspected sum es (a :: rest) acc)
    (ha : a.required = true ∨ Found sum es a) :
    Inspected sum es rest
      (if a.required then { acc with missing := acc.missing ++ [a.filename] } else acc) := by
  split
  · exact fun hmiss => absurd hmiss (by simp)
  · next hreq => exact h.next (ha.resolve_left hreq)

theorem inspectArtifacts_runs (arts : List Artifact) :
    ∀ {acc : Inspection} {w : World}, Mine short p work n es w → Kept sum es arts →
      Inspected sum es arts acc →
      Runs sum short p (fun r u => Mine short p work n es u ∧ Inspected sum es [] r)
        (inspectArtifacts (.staging (work.staging short)) arts acc) w := by
  induction arts with
  | nil => exact fun hw _ h => ⟨hw, h⟩
  | cons a rest ih =>
    intro acc w hw hkept h
    have hrest : Kept sum es rest := fun b hb => hkept b (List.mem_cons_of_mem _ hb)
    have ha : a.required = true ∨ Found sum es a :=
      (hkept a List.mem_cons_self).imp And.left id
    refine runs_quiet mine_stable hw rfl fun r t c ht _ hact => ?_
    cases r with
    | none => exact ih ht hrest (h.missed ha)
    | some size =>
      dsimp only
      split
      · exact ih ht hrest (h.missed ha)
      · refine runs_quiet mine_stable ht rfl fun ff u _ hu _ _ => ?_
        obtain ⟨e, he, _⟩ := stat_spec ht hact rfl
        have hfound : Found sum es a := (hkept a List.mem_cons_self).resolve_left fun hgone => by
          rw [hgone.2] at he
          cases he
        refine Runs.bind (inspectShards_runs hu (h.next hfound)) fun acc' v hv => ih hv.1 hrest ?_
        split
        · exact hv.2
        · exact hv.2

theorem inspect_runs (hw : Mine short p work n es w) (hkept : Kept sum es arts) :
    Runs sum short p
      (fun r u => ∃ es', Mine short p work n es' u ∧ ∀ m, r = .ok m →
        m.id = plan.id ∧ Present sum es' m.artifacts)
      (inspect plan (.staging (work.staging short)) arts) w := by
  refine Runs.bind (inspectRoles_runs arts hw hkept) fun r t ht => ?_
  obtain ⟨es', hm, hroles⟩ := ht
  cases r with
  | error err => exact ⟨es', hm, fun _ h => by cases h⟩
  | ok arts' =>
    obtain ⟨rfl, hkept'⟩ := hroles arts' rfl
    refine Runs.bind (inspectArtifacts_runs arts' hm hkept' fun _ a ha => .inl ha)
      fun i u hu => ?_
    split
    · exact ⟨es', hu.1, fun _ h => by cases h⟩
    · next hmiss =>
      cases hvalid : (plan.model arts' i).validate with
      | some err => exact ⟨es', hu.1, fun _ h => by cases h⟩
      | none =>
        refine ⟨es', hu.1, fun m h => ?_⟩
        cases h
        exact ⟨rfl, fun a ha => (hu.2 (not_not.mp hmiss) a ha).resolve_left List.not_mem_nil⟩

end LocalBase.Imports
