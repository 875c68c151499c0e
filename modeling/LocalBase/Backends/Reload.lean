import LocalBase.Backends.Selection

/-!
# Reloads between reads

Calls read the registry, and a reload puts another in its place, with the same
built-ins and whatever is registered by then. A backend that a call found and
will ask for again without a look has to stay until it has: `needs` says which
these are. Where reloads spare them, no call asks a definition that is not there.
-/

namespace LocalBase.Backends

/-! ## The system -/

/-- A call, and the registries there were at its reads. -/
structure Call where
  args : Args
  stage : Stage
  seen : List Registry

structure World (ι : Type) where
  registry : Registry
  calls : ι → Option Call

inductive Event (ι : Type) where
  | reload (files : List CustomFile)
  | begin (i : ι) (a : Args)
  | read (i : ι)

variable {ι : Type} [DecidableEq ι]

def Call.read (c : Call) (r : Registry) : Call :=
  { c with stage := c.args.next r c.stage, seen := r :: c.seen }

def step (b : Embedded) (w : World ι) : Event ι → Option (World ι)
  | .reload files => some { w with registry := b.load files }
  | .begin i a =>
    some { w with calls := Function.update w.calls i (some ⟨a, .rules, [w.registry]⟩) }
  | .read i => (w.calls i).map fun c =>
    { w with calls := Function.update w.calls i (some (c.read w.registry)) }

/-- The gateway, from no calls on. -/
def gateway (b : Embedded) : Machine.System (World ι) (Event ι) where
  init w := (∃ files, w.registry = b.load files) ∧ ∀ i, w.calls i = none
  step := step b

/-! ## What a call needs -/

/-- A backend that automatic selection takes. -/
def Args.picks (a : Args) (r : Registry) (id : String) : Bool :=
  (look a.model a.inspections a.host id (r.get id)).any (·.isSome)

/-- The backends of a preference that are asked whether they are automatic. -/
def Args.ahead (a : Args) (r : Registry) (ids : List String) : List String :=
  (ids.takeWhile fun id => !a.picks r id).filter fun id => !a.host.skips id

/-- The backends that a call has found and will ask for again. -/
def Args.needs (a : Args) (r : Registry) : Stage → List String
  | .prefer _ out => a.ahead r out
  | .choose ids => a.ahead r ids
  | .rate s _ => [s.backendID]
  | .launch _ s => [s.backendID]
  | _ => []

/-- A reload leaves what the calls need. -/
def Spares (b : Embedded) (w : World ι) : Event ι → Prop
  | .reload files => ∀ i c, w.calls i = some c →
      ∀ id ∈ c.args.needs w.registry c.stage, ((b.load files).get id).isSome = true
  | .begin _ _ => True
  | .read _ => True

/-! ## The law -/

/-- Registered at some moment of a call. -/
def Seen (seen : List Registry) (id : String) : Prop := ∃ r ∈ seen, (r.get id).isSome = true

/-- A launch goes on with a target whose files it may still get. -/
def GateError.stops : GateError → Bool
  | .launch _ _ => true
  | .notInstalled _ => false
  | .fetch _ => true

/-- An answer: what it names was registered, and what is gone on with is there. -/
def Outcome.Sound (seen : List Registry) : Outcome → Prop
  | .recommended rec => rec.backendID = "" ∨ Seen seen rec.backendID
  | .selected s => s.unavailable = true ∨ s.backendID = "" ∨ Seen seen s.backendID
  | .gated t err => err.any GateError.stops = true ∨ t.backend.isSome = true

variable {b : Embedded} {a : Args} {r : Registry} {seen : List Registry} {id : String}
  {files files' : List CustomFile} {d : Definition} {s : Selection} {out ids : List String}

theorem load_builtIn (hd : d ∈ b.builtIns) (files : List CustomFile) :
    ((b.load files).get d.id).isSome = true := by
  have hmem := ((loadAll_kept b files).builtIns d (b.builtIn d hd)).mpr hd
  have hget : (b.load files).get d.id = some d := Registry.get_of_mem hmem
  rw [hget]
  rfl

theorem look_picks {variantID : String}
    (h : look a.model a.inspections a.host id (r.get id) = some (some variantID)) :
    (∃ d, r.get id = some d ∧ d.builtIn = true) ∧
      ∃ v ∈ a.model.variants, (a.inspections.inspected v).id = variantID := by
  unfold look at h
  split at h
  · cases h
  · obtain ⟨d, hget, hd⟩ := Option.map_eq_some_iff.mp h
    split at hd
    · next hauto =>
      rw [pick_eq] at hd
      obtain ⟨v, hv, hvid⟩ := Option.map_eq_some_iff.mp hd
      exact ⟨⟨d, hget, Definition.automaticFor_builtIn hauto⟩, v, List.mem_of_find?_eq_some hv,
        hvid⟩
    · cases hd

theorem picks_iff : a.picks r id = true ↔
    ∃ variantID, look a.model a.inspections a.host id (r.get id) = some (some variantID) := by
  rw [Args.picks, Option.any_eq_true]
  constructor
  · rintro ⟨chosen, hlook, hsome⟩
    obtain ⟨variantID, rfl⟩ := Option.isSome_iff_exists.mp hsome
    exact ⟨variantID, hlook⟩
  · rintro ⟨variantID, hlook⟩
    exact ⟨some variantID, hlook, rfl⟩

theorem picks_load (a : Args) (id : String) :
    a.picks (b.load files) id = a.picks (b.load files') id := by
  have hkeeps : ∀ files files', a.picks (b.load files) id = true →
      a.picks (b.load files') id = true := by
    intro files files' hpicks
    obtain ⟨variantID, hlook⟩ := picks_iff.mp hpicks
    obtain ⟨⟨d, hget, hbuilt⟩, _⟩ := look_picks hlook
    have hget' := (load_sameBuiltIns b files files').get hbuilt hget
    rw [hget, ← hget'] at hlook
    exact picks_iff.mpr ⟨variantID, hlook⟩
  exact Bool.eq_iff_iff.mpr ⟨hkeeps files files', hkeeps files' files⟩

theorem ahead_load (a : Args) (ids : List String) :
    a.ahead (b.load files) ids = a.ahead (b.load files') ids := by
  have hpicks : a.picks (b.load files) = a.picks (b.load files') := funext fun id => picks_load a id
  rw [Args.ahead, Args.ahead, hpicks]

theorem mem_ahead_append {more : List String} (h : id ∈ a.ahead r (out ++ more)) :
    id ∈ a.ahead r out ∨ id ∈ more := by
  obtain ⟨htake, hskips⟩ := List.mem_filter.mp h
  rw [List.takeWhile_append] at htake
  split at htake
  · next hall =>
    obtain hid | hid := List.mem_append.mp htake
    · refine .inl (List.mem_filter.mpr ⟨?_, hskips⟩)
      rwa [(List.takeWhile_sublist _).eq_of_length hall]
    · exact .inr ((List.takeWhile_sublist _).subset hid)
  · exact .inl (List.mem_filter.mpr ⟨htake, hskips⟩)

theorem foldl_addNew (ids out : List String) :
    ∃ more, ids.foldl addNew out = out ++ more ∧ ∀ id ∈ more, id ∈ ids := by
  induction ids generalizing out with
  | nil => exact ⟨[], (List.append_nil out).symm, fun id hid => by cases hid⟩
  | cons x ids ih =>
    obtain ⟨more, hmore, hids⟩ := ih (addNew out x)
    rw [List.foldl_cons, hmore]
    unfold addNew
    split
    · exact ⟨more, rfl, fun id hid => List.mem_cons_of_mem _ (hids id hid)⟩
    · refine ⟨x :: more, List.append_assoc .., fun id hid => ?_⟩
      obtain rfl | hid := List.mem_cons.mp hid
      · exact List.mem_cons_self
      · exact List.mem_cons_of_mem _ (hids id hid)

theorem preferEntry_append (r : Registry) (out : List String) (entry : String) :
    ∃ more, r.preferEntry out entry = out ++ more ∧ ∀ id ∈ more, (r.get id).isSome = true := by
  unfold Registry.preferEntry
  split
  · next engine _ =>
    obtain ⟨more, hmore, hids⟩ :=
      foldl_addNew ((r.all.filter (·.engine = engine)).map (·.id)) out
    refine ⟨more, hmore, fun id hid => ?_⟩
    obtain ⟨d, hd, rfl⟩ := List.mem_map.mp (hids id hid)
    rw [Registry.get_of_mem (mem_all.mp (List.mem_filter.mp hd).1)]
    rfl
  · split
    · next hget =>
      obtain ⟨more, hmore, hids⟩ := foldl_addNew [entry] out
      refine ⟨more, hmore, fun id hid => ?_⟩
      rwa [List.mem_singleton.mp (hids id hid)]
    · exact ⟨[], (List.append_nil out).symm, fun id hid => by cases hid⟩

/-! ### One read -/

/-- A backend that was found, and is still there. -/
def Found (r : Registry) (seen : List Registry) (id : String) : Prop :=
  (r.get id).isSome = true ∧ Seen seen id

/-- A choice of a built-in backend, or none. -/
def BuiltInOrNone (b : Embedded) (id : String) : Prop := id = "" ∨ ∃ d ∈ b.builtIns, d.id = id

/-- What holds at the stages of a call. -/
def Args.Holds (a : Args) (b : Embedded) (r : Registry) (seen : List Registry) : Stage → Prop
  | .rules => True
  | .prefer _ out => ∀ id ∈ a.ahead r out, (r.get id).isSome = true
  | .choose ids => ∀ id ∈ a.ahead r ids, (r.get id).isSome = true
  | .all backendID variantID =>
    BuiltInOrNone b backendID ∧ Offered a.model a.inspections backendID variantID
  | .rulesAgain backendID _ _ => BuiltInOrNone b backendID
  | .preferAgain backendID _ _ _ _ => BuiltInOrNone b backendID
  | .check _ _ => True
  | .rate s _ => Found r seen s.backendID
  | .launch _ s => Found r seen s.backendID
  | .ended o => o.Sound seen
  | .panicked => False

theorem Seen.cons (h : Seen seen id) (r : Registry) : Seen (r :: seen) id :=
  let ⟨r', hr', hget⟩ := h
  ⟨r', List.mem_cons_of_mem _ hr', hget⟩

theorem Outcome.Sound.cons {o : Outcome} (h : o.Sound seen) (r : Registry) :
    o.Sound (r :: seen) := by
  cases o with
  | recommended rec => exact h.imp_right fun hs => hs.cons r
  | selected s => exact h.imp_right (.imp_right fun hs => hs.cons r)
  | gated t err => exact h

theorem seen_now (h : (r.get id).isSome = true) : Seen (r :: seen) id :=
  ⟨r, List.mem_cons_self, h⟩

theorem resolved_holds
    (h : s.unavailable = true ∨ s.backendID = "" ∨ Found r seen s.backendID) :
    a.Holds b r seen (a.resolved s) := by
  have hsound : (Outcome.selected s).Sound seen := h.imp_right (.imp_right And.right)
  unfold Args.resolved
  cases a.kind with
  | recommend => exact hsound
  | resolve c => exact hsound
  | gate c l =>
    simp only [notSelected]
    split
    · next e he =>
      refine .inl ?_
      split at he
      · cases he
        rfl
      · split at he
        · cases he
          rfl
        · cases he
    · next he =>
      split at he
      · cases he
      · next hthere =>
        split at he
        · cases he
        · next hnamed => exact (h.resolve_left hthere).resolve_left hnamed

theorem toRate_holds (h : s.backendID = "" ∨ Found r seen s.backendID) :
    a.Holds b r seen (a.toRate s) := by
  unfold Args.toRate
  split
  · exact resolved_holds (.inr h)
  · next hnamed =>
    split
    · exact resolved_holds (.inr h)
    · exact h.resolve_left hnamed

theorem BuiltInOrNone.found (h : BuiltInOrNone b id)
    (hseen : ∀ d ∈ b.builtIns, Seen seen d.id) :
    id = "" ∨ Found (b.load files) seen id := by
  obtain rfl | ⟨d, hd, rfl⟩ := h
  · exact .inl rfl
  · exact .inr ⟨load_builtIn hd files, hseen d hd⟩

theorem recommended_holds {rec : Recommendation} (h : BuiltInOrNone b rec.backendID)
    (hseen : ∀ d ∈ b.builtIns, Seen seen d.id) :
    a.Holds b (b.load files) seen (a.recommended rec) := by
  have hresolve : ∀ c, a.Holds b (b.load files) seen (a.toResolve c rec) := by
    intro c
    unfold Args.toResolve
    split
    · split
      · exact trivial
      · exact toRate_holds (h.found hseen)
    · exact toRate_holds (h.found hseen)
  unfold Args.recommended
  split
  · have hfound : _ ∨ Found (b.load files) seen rec.backendID := h.found hseen
    exact hfound.imp_right And.right
  · exact hresolve _
  · exact hresolve _

theorem toChoose_holds (h : ∀ id ∈ a.ahead r ids, (r.get id).isSome = true) :
    a.Holds b r seen (toChoose ids) := by
  cases ids with
  | nil => exact ⟨.inl rfl, .inl rfl⟩
  | cons id ids => exact h

theorem toPrefer_holds {entries : List String}
    (h : ∀ id ∈ a.ahead r out, (r.get id).isSome = true) :
    a.Holds b r seen (toPrefer entries out) := by
  cases entries with
  | nil => exact toChoose_holds h
  | cons entry entries => exact h

theorem toPreferAgain_holds {backendID variantID : String} {fs : List Finding}
    {entries : List String} (h : BuiltInOrNone b backendID)
    (hseen : ∀ d ∈ b.builtIns, Seen seen d.id) :
    a.Holds b (b.load files) seen (a.toPreferAgain backendID variantID fs entries out) := by
  cases entries with
  | nil => exact recommended_holds h hseen
  | cons entry entries => exact h

theorem choose_holds (h : ∀ x ∈ a.ahead (b.load files) (id :: ids),
      ((b.load files).get x).isSome = true) :
    a.Holds b (b.load files) seen (a.next (b.load files) (.choose (id :: ids))) := by
  rw [Args.next]
  split
  · next hlook =>
    -- Asked of nothing, it would be one that the call needs.
    have hskips : a.host.skips id = false := by
      by_contra hyes
      rw [look, if_pos (by simpa using hyes)] at hlook
      cases hlook
    have hnot : a.picks (b.load files) id = false := by
      rw [Args.picks, hlook]
      rfl
    have hahead : id ∈ a.ahead (b.load files) (id :: ids) :=
      List.mem_filter.mpr ⟨by simp [hnot], by simp [hskips]⟩
    obtain ⟨d, hget⟩ := Option.isSome_iff_exists.mp (h id hahead)
    rw [look, hskips, hget] at hlook
    cases hlook
  · next variantID hlook =>
    obtain ⟨⟨d, hget, hbuilt⟩, hoffered⟩ := look_picks hlook
    obtain ⟨hmem, hid⟩ := get_eq_some.mp hget
    exact ⟨.inr ⟨d, ((loadAll_kept b files).builtIns d hbuilt).mp hmem, hid⟩, .inr hoffered⟩
  · next hlook =>
    have hnot : a.picks (b.load files) id = false := by
      rw [Args.picks, hlook]
      rfl
    refine toChoose_holds fun x hx => h x ?_
    obtain ⟨htake, hskips⟩ := List.mem_filter.mp hx
    refine List.mem_filter.mpr ⟨?_, hskips⟩
    rw [List.takeWhile_cons, hnot]
    exact List.mem_cons_of_mem _ htake

theorem gate_sound {l : Launch} {m : Model} (hd : (r.get s.backendID).isSome = true) :
    (l.gate m s (r.get s.backendID)).Sound seen := by
  unfold Launch.gate
  simp only []
  repeat' split
  all_goals exact .inr hd

theorem next_holds {stage : Stage} (hseen : ∀ d ∈ b.builtIns, Seen seen d.id)
    (h : a.Holds b (b.load files) seen stage) :
    a.Holds b (b.load files) (b.load files :: seen) (a.next (b.load files) stage) := by
  have hseen' : ∀ d ∈ b.builtIns, Seen (b.load files :: seen) d.id := fun d hd =>
    (hseen d hd).cons _
  cases stage with
  | rules => exact toPrefer_holds fun id hid => by cases hid
  | prefer entries out =>
    cases entries with
    | nil => exact toChoose_holds h
    | cons entry entries =>
      refine toPrefer_holds fun id hid => ?_
      obtain ⟨more, hmore, hthere⟩ := preferEntry_append (b.load files) out entry
      rw [hmore] at hid
      obtain hid | hid := mem_ahead_append hid
      · exact h id hid
      · exact hthere id hid
  | choose ids =>
    cases ids with
    | nil => exact ⟨.inl rfl, .inl rfl⟩
    | cons id ids => exact choose_holds h
  | all backendID variantID =>
    obtain ⟨fs, hfs⟩ := Option.isSome_iff_exists.mp (options_isSome (h := a.host) h.2
      fun d hd => (b.load files).named d (mem_all.mp hd))
    rw [Args.next, hfs]
    exact h.1
  | rulesAgain backendID variantID fs => exact toPreferAgain_holds h hseen'
  | preferAgain backendID variantID fs entries out =>
    cases entries with
    | nil =>
      show a.Holds b _ _ (a.toPreferAgain backendID variantID fs [] out)
      exact toPreferAgain_holds h hseen'
    | cons entry entries => exact toPreferAgain_holds h hseen'
  | check c rec =>
    rw [Args.next]
    split
    · exact resolved_holds (.inl rfl)
    · next hthere =>
      have hget : ((b.load files).get c.backendID).isSome = true :=
        Option.isSome_iff_ne_none.mpr (by simpa using hthere)
      exact toRate_holds (.inr ⟨hget, seen_now hget⟩)
  | rate s v =>
    obtain ⟨d, hget⟩ := Option.isSome_iff_exists.mp h.1
    rw [Args.next, hget]
    exact resolved_holds (.inr (.inr ⟨h.1, h.2.cons _⟩))
  | launch l s => exact gate_sound h.1
  | ended o => exact Outcome.Sound.cons h _
  | panicked => exact h

theorem reload_holds {stage : Stage} (h : a.Holds b (b.load files) seen stage)
    (hspares : ∀ id ∈ a.needs (b.load files) stage, ((b.load files').get id).isSome = true) :
    a.Holds b (b.load files') seen stage := by
  have hahead : ∀ ids, (∀ id ∈ a.ahead (b.load files) ids,
      ((b.load files').get id).isSome = true) →
      ∀ id ∈ a.ahead (b.load files') ids, ((b.load files').get id).isSome = true := by
    intro ids hids
    rwa [ahead_load a ids]
  cases stage with
  | prefer entries out => exact hahead out hspares
  | choose ids => exact hahead ids hspares
  | rate s v => exact ⟨hspares _ (List.mem_singleton.mpr rfl), h.2⟩
  | launch l s => exact ⟨hspares _ (List.mem_singleton.mpr rfl), h.2⟩
  | rules => exact h
  | all backendID variantID => exact h
  | rulesAgain backendID variantID fs => exact h
  | preferAgain backendID variantID fs entries out => exact h
  | check c rec => exact h
  | ended o => exact h
  | panicked => exact h

/-! ### Runs -/

structure Call.Safe (b : Embedded) (r : Registry) (c : Call) : Prop where
  builtIns : ∀ d ∈ b.builtIns, Seen c.seen d.id
  holds : c.args.Holds b r c.seen c.stage

structure Safe (b : Embedded) (w : World ι) : Prop where
  loaded : ∃ files, w.registry = b.load files
  calls : ∀ i c, w.calls i = some c → c.Safe b w.registry

theorem step_safe {w t : World ι} {e : Event ι} (hw : Safe b w) (hg : Spares b w e)
    (he : step b w e = some t) : Safe b t := by
  obtain ⟨files, hfiles⟩ := hw.loaded
  have hupdate : ∀ i c, Call.Safe b w.registry c → ∀ j c',
      Function.update w.calls i (some c) j = some c' → c'.Safe b w.registry := by
    intro i c hc j c' hj
    by_cases hji : j = i
    · rw [hji, Function.update_self] at hj
      cases hj
      exact hc
    · rw [Function.update_of_ne hji] at hj
      exact hw.calls j c' hj
  cases e with
  | reload files' =>
    cases he
    refine ⟨⟨files', rfl⟩, fun i c hc => ?_⟩
    obtain ⟨hbuilt, hholds⟩ := hw.calls i c hc
    have hspares := hg i c hc
    rw [hfiles] at hholds hspares
    exact ⟨hbuilt, reload_holds hholds hspares⟩
  | begin i a =>
    cases he
    refine ⟨hw.loaded,
      hupdate i _ ⟨fun d hd => ⟨w.registry, List.mem_singleton.mpr rfl, ?_⟩, trivial⟩⟩
    rw [hfiles]
    exact load_builtIn hd files
  | read i =>
    obtain ⟨c, hc, rfl⟩ := Option.map_eq_some_iff.mp he
    refine ⟨hw.loaded, hupdate i _ ?_⟩
    obtain ⟨hbuilt, hholds⟩ := hw.calls i c hc
    refine ⟨fun d hd => (hbuilt d hd).cons _, ?_⟩
    rw [hfiles] at hholds ⊢
    have hnext := next_holds hbuilt hholds
    unfold Call.read
    exact hnext

/-- Where reloads spare the backends that calls have found and will ask for
again, no call asks one that is not there. A selection names one that was
registered during the call, unless it says that it is not available, and a launch
goes on with one that is there. -/
theorem choosing_safe {w : World ι}
    (h : Machine.ReachesUnder (gateway b) (Spares b) w) (i : ι) (c : Call)
    (hc : w.calls i = some c) :
    c.stage ≠ .panicked ∧ ∀ o, c.stage = .ended o → o.Sound c.seen := by
  have hsafe : Safe b w := by
    refine Machine.ReachesUnder.invariant ?_ ?_ h
    · rintro w ⟨hloaded, hnone⟩
      exact ⟨hloaded, fun i c hc => by rw [hnone i] at hc; cases hc⟩
    · exact fun w e t hw hg he => step_safe hw hg he
  have hholds := (hsafe.calls i c hc).holds
  constructor
  · intro hpanicked
    rw [hpanicked] at hholds
    exact hholds
  · intro o ho
    rw [ho] at hholds
    exact hholds

/-! ### Two runs -/

def linux : Host where
  os := "linux"
  arch := "x64"
  accelerators := ["cpu"]
  install _ := some .installed

/-- The selection of a model that someone set on their own backend. -/
def setOnMine : Args where
  model := qwen
  host := linux
  inspections _ := none
  kind := .resolve (some ⟨.manual, "mine", ""⟩)

def withMine : World Unit := ⟨metalOnly.load [mineFile], fun _ => none⟩

/-- A reload takes the registered backend away before the look at it. -/
theorem removed_before_the_look :
    ∃ c, ((gateway metalOnly).after withMine [.begin () setOnMine, .read (), .reload [], .read (),
      .read (), .read ()]).calls () = some c ∧
      c.stage ≠ .panicked ∧ ∀ o, c.stage = .ended o → o.Sound c.seen := by
  have hneeds : setOnMine.needs withMine.registry
      (setOnMine.next withMine.registry .rules) = [] := by decide
  have hobeys : (gateway metalOnly).Obeys (Spares metalOnly) withMine [.begin () setOnMine,
      .read (), .reload [], .read (), .read (), .read ()] := by
    refine ⟨trivial, fun w hw => ?_⟩
    cases hw
    refine ⟨trivial, fun w hw => ?_⟩
    cases hw
    refine ⟨fun i c hc id hid => ?_, fun w _ => ⟨trivial, fun w _ => ⟨trivial, fun w _ =>
      ⟨trivial, fun w _ => trivial⟩⟩⟩⟩
    cases hc
    have hnone : id ∈ setOnMine.needs withMine.registry
        (setOnMine.next withMine.registry .rules) := hid
    rw [hneeds] at hnone
    cases hnone
  have hsome : (((gateway metalOnly).after withMine [.begin () setOnMine, .read (), .reload [],
      .read (), .read (), .read ()]).calls ()).isSome = true := by decide
  obtain ⟨c, hc⟩ := Option.isSome_iff_exists.mp hsome
  exact ⟨c, hc, choosing_safe (Machine.reaches_under_after ⟨⟨[mineFile], rfl⟩, fun _ => rfl⟩ hobeys
    (by decide)) () c hc⟩

def Stage.isPanicked : Stage → Bool
  | .panicked => true
  | _ => false

theorem isPanicked_iff {stage : Stage} : stage.isPanicked = true ↔ stage = .panicked := by
  cases stage <;> simp [Stage.isPanicked]

/-- The backend of a manual choice goes between the look at it and its rating. -/
theorem removed_backend_panics :
    ¬ ∀ w : World Unit, Machine.Reachable (gateway metalOnly) w → ∀ i c, w.calls i = some c →
      c.stage ≠ .panicked ∧ ∀ o, c.stage = .ended o → o.Sound c.seen := by
  intro hlaw
  have hrun : ((gateway metalOnly).run withMine [.begin () setOnMine, .read (), .read (), .read (),
      .read (), .reload [], .read ()]).isSome = true := by decide
  have hpanicked : (((gateway metalOnly).after withMine [.begin () setOnMine, .read (), .read (),
      .read (), .read (), .reload [], .read ()]).calls ()).any
        (fun c => c.stage.isPanicked) = true := by decide
  obtain ⟨c, hc, hp⟩ := (Option.any_eq_true _ _).mp hpanicked
  exact (hlaw _ (Machine.reachable_after ⟨⟨[mineFile], rfl⟩, fun _ => rfl⟩ hrun) () c hc).1
    (isPanicked_iff.mp hp)

end LocalBase.Backends
