import LocalBase.ModelCatalog.Layers

/-!
# What a feed can take away

Loading with a feed and without goes through the same user files. An id the feed
has no entry for fares alike in both (`Alike`), and a user's file for one it has
becomes a patch of the feed's entry. Then the feed's entries that name another
model's file are taken out, a user's model among them if it has become one.

Which of them stay is told by the documents (`Settles`): an entry stays exactly
when its files fit beside those of the models that are not the feed's, and of the
entries before it that stay.
-/

namespace LocalBase.ModelCatalog

open StructuredOutput (Json Number Object)

variable {F : Type} {go : Go F} {b l l' l₀ l₁ : Layers} {path id : String} {m : Object}
  {ids : List String} {owners : String → Option Owner} {e : Layered}

/-- The object decodes to a model. -/
def Decodes (go : Go F) (m : Object) : Prop := ∃ s, decodeStrict go m = .ok s

instance decidableDecodes : Decidable (Decodes go m) :=
  match h : decodeStrict go m with
  | .ok s => isTrue ⟨s, h⟩
  | .error _ => isFalse fun ⟨s, hs⟩ => by
      rw [hs] at h
      cases h

/-! ## What the documents say -/

/-- The id of a document with the schema's fields alone, and its object. -/
def told (data : Json) : Option (String × Object) :=
  data.object?.bind fun m =>
    if textOf m "modelId" = "" ∨ unknownKeys data ≠ [] then none else some (textOf m "modelId", m)

/-- The entries of a feed that are taken, while the ids `taken` are not free: the
first for each id that decodes. -/
def fed (go : Go F) (taken : List String) : List Json → List (String × Object)
  | [] => []
  | data :: rest =>
    match told data with
    | none => fed go taken rest
    | some (id, m) =>
      if id ∈ taken ∨ ¬ Decodes go m then fed go taken rest
      else (id, m) :: fed go (id :: taken) rest

/-- An entry with the user's file for its id laid over it: the first that decodes
so. -/
def laid (go : Go F) (id : String) (m : Object) : List UserFile → Object
  | [] => m
  | f :: rest =>
    match told f.data with
    | none => laid go id m rest
    | some (id', u) =>
      if id' = id ∧ Decodes go (merged m u) then merged m u else laid go id m rest

/-- The entries a feed has beside the built-in ones. -/
def fedBeside (go : Go F) (builtIn : List Object) (remote : RemoteLayer) :
    List (String × Object) :=
  fed go (builtIn.map (textOf · "modelId")) remote.entries

/-- The models of a feed's entries, each with its entry's id, the user's files laid
over them. -/
def modelsOf (go : Go F) (files : List UserFile) (entries : List (String × Object)) :
    List (String × Decoded F) :=
  entries.filterMap fun p =>
    (decodeStrict go (laid go p.1 p.2 files)).toOption.map fun s => (p.1, s)

/-- The models of the entries that are not a feed's. -/
def modelsBeside (go : Go F) (l : Layers) (entries : List (String × Object)) : List (Decoded F) :=
  (l.ids.filter fun id => id ∉ entries.map (·.1)).filterMap fun id =>
    (specOf go id (l.entries id)).toOption.map (·.toDecoded)

/-- The names of a model's files on the disk, each with the model's id and the
checksum it has. -/
def filesOf (go : Go F) (s : Decoded F) : List (String × Owner) :=
  s.artifacts.map fun a => (s.kind ++ "/" ++ go.toLower a.filename, ⟨s.modelID, a.sha256⟩)

/-- Each file of a model whose name is held already is the same, as far as its
checksum says. -/
def Fits (go : Go F) (held : List (String × Owner)) (s : Decoded F) : Prop :=
  ∀ f ∈ filesOf go s, ∀ o, held.lookup f.1 = some o →
    f.2.sha ≠ "" ∧ go.equalFold f.2.sha o.sha = true

/-- A choice of a feed's models, by the ids of their entries: each that fits beside
the files that are held, and those of the chosen ones before it. -/
def Settles (go : Go F) (held : List (String × Owner)) (models : List (String × Decoded F))
    (keep : String → Bool) : Prop :=
  ∀ before id s after, models = before ++ (id, s) :: after →
    (keep id = true ↔
      Fits go (held ++ (before.filter (keep ·.1)).flatMap (filesOf go ·.2)) s)

section
variable {data : Json} {taken : List String} {entries : List Json}

theorem fed_spec {m : Object} (h : (id, m) ∈ fed go taken entries) :
    id ∉ taken ∧ Decodes go m := by
  induction entries generalizing taken with
  | nil => cases h
  | cons data rest ih =>
    unfold fed at h
    split at h
    · exact ih h
    · split at h
      · exact ih h
      · next hfree =>
        rw [not_or, not_not] at hfree
        obtain h | h := List.mem_cons.mp h
        · cases h
          exact hfree
        · exact (ih h).imp_left fun hid hmem => hid (List.mem_cons_of_mem _ hmem)

theorem fed_nodup : ((fed go taken entries).map (·.1)).Nodup := by
  induction entries generalizing taken with
  | nil => exact List.nodup_nil
  | cons data rest ih =>
    unfold fed
    split
    · exact ih
    · split
      · exact ih
      · refine List.nodup_cons.mpr ⟨fun hid => ?_, ih⟩
        obtain ⟨⟨id', m⟩, hmem, rfl⟩ := List.mem_map.mp hid
        exact (fed_spec hmem).1 List.mem_cons_self

end

/-- They differ in what they report. -/
structure Same (l l' : Layers) : Prop where
  entries : l'.entries = l.entries
  ids : l'.ids = l.ids
  seen : l'.seen = l.seen

theorem same_report {tier : Tier} {message : String} :
    Same l (l.report tier path id message) := ⟨rfl, rfl, rfl⟩

/-! ## What stands over the built-in layer -/

/-- The built-in ids are kept, and the others stand for entries that decode. -/
structure Over (go : Go F) (b l : Layers) : Prop where
  kept : ∀ id, (b.entries id).isSome → ∃ e, l.entries id = some e ∧ e.origin = .builtIn
  added : ∀ id e, l.entries id = some e → b.entries id = none →
    e.origin ≠ .builtIn ∧ Decodes go e.raw
  ids : ∀ id, id ∈ l.ids ↔ (l.entries id).isSome

theorem Over.same (h : Over go b l) (hs : Same l l') : Over go b l' where
  kept := by rw [hs.entries]; exact h.kept
  added := by rw [hs.entries]; exact h.added
  ids := by rw [hs.entries, hs.ids]; exact h.ids

theorem isSome_set {α : Type} {f : String → Option α} {id' : String} {a : α} :
    (set f id a id').isSome ↔ id' = id ∨ (f id').isSome := by
  unfold set
  split
  · next h => simp [h]
  · next h => simp [h]

theorem Over.add (h : Over go b l) (hnone : l.entries id = none) (horigin : e.origin ≠ .builtIn)
    (hdec : Decodes go e.raw) (he : l'.entries = set l.entries id e)
    (hids : l'.ids = l.ids ++ [id]) : Over go b l' where
  kept id' hb := by
    obtain ⟨e', he', ho⟩ := h.kept id' hb
    have hne : id' ≠ id := by
      rintro rfl
      rw [hnone] at he'
      cases he'
    exact ⟨e', by rw [he, set_of_ne hne, he'], ho⟩
  added id' e' he' hb := by
    by_cases hid : id' = id
    · subst hid
      rw [he, set_self, Option.some.injEq] at he'
      exact he' ▸ ⟨horigin, hdec⟩
    · rw [he, set_of_ne hid] at he'
      exact h.added id' e' he' hb
  ids id' := by
    rw [he, hids, isSome_set, List.mem_append, List.mem_singleton, h.ids, or_comm]

theorem Over.replace (h : Over go b l) {e' : Layered} (hsome : l.entries id = some e)
    (horigin : e'.origin = e.origin) (hdec : Decodes go e'.raw)
    (he : l'.entries = set l.entries id e') (hids : l'.ids = l.ids) : Over go b l' where
  kept id' hb := by
    obtain ⟨e₁, he₁, ho⟩ := h.kept id' hb
    by_cases hid : id' = id
    · subst hid
      rw [hsome, Option.some.injEq] at he₁
      exact ⟨e', by rw [he, set_self], by rw [horigin, he₁, ho]⟩
    · exact ⟨e₁, by rw [he, set_of_ne hid, he₁], ho⟩
  added id' e₁ he₁ hb := by
    by_cases hid : id' = id
    · subst hid
      rw [he, set_self, Option.some.injEq] at he₁
      exact he₁ ▸ ⟨horigin ▸ (h.added _ e hsome hb).1, hdec⟩
    · rw [he, set_of_ne hid] at he₁
      exact h.added id' e₁ he₁ hb
  ids id' := by
    rw [he, hids, isSome_set, h.ids]
    constructor
    · exact .inr
    · rintro (rfl | hid)
      · rw [hsome]; rfl
      · exact hid

theorem builtInLayer_over (go : Go F) (builtIn : List Object) :
    Over go (builtInLayer builtIn) (builtInLayer builtIn) := by
  have hall : ∀ (ms : List Object) (l : Layers),
      ((∀ id e, l.entries id = some e → e.origin = .builtIn) ∧
        ∀ id, id ∈ l.ids ↔ (l.entries id).isSome) →
      (∀ id e, (ms.foldl builtInEntry l).entries id = some e → e.origin = .builtIn) ∧
        ∀ id, id ∈ (ms.foldl builtInEntry l).ids ↔
          ((ms.foldl builtInEntry l).entries id).isSome := by
    intro ms
    induction ms with
    | nil => exact fun l h => h
    | cons m rest ih =>
      rintro l ⟨horigin, hids⟩
      refine ih _ ⟨fun id e he => ?_, fun id => ?_⟩
      · simp only [builtInEntry] at he
        by_cases hid : id = textOf m "modelId"
        · rw [hid, set_self, Option.some.injEq] at he
          rw [← he]
        · rw [set_of_ne hid] at he
          exact horigin id e he
      · simp only [builtInEntry]
        rw [isSome_set, List.mem_append, List.mem_singleton, hids, or_comm]
  obtain ⟨horigin, hids⟩ := hall builtIn ⟨fun _ => none, [], fun _ => none, []⟩
    ⟨fun _ _ h => absurd h (Option.some_ne_none _).symm,
      fun _ => iff_of_false List.not_mem_nil (by simp)⟩
  refine ⟨fun id hb => ?_, fun id e he hb => ?_, hids⟩
  · obtain ⟨e, he⟩ := Option.isSome_iff_exists.mp hb
    exact ⟨e, he, horigin id e he⟩
  · rw [show (builtInLayer builtIn).entries id = some e from he] at hb
    cases hb

theorem builtInLayer_ids (builtIn : List Object) :
    (builtInLayer builtIn).ids = builtIn.map (textOf · "modelId") := by
  have hall : ∀ (ms : List Object) (l : Layers),
      (ms.foldl builtInEntry l).ids = l.ids ++ ms.map (textOf · "modelId") := by
    intro ms
    induction ms with
    | nil => exact fun l => (List.append_nil _).symm
    | cons m rest ih =>
      intro l
      rw [List.foldl_cons, ih, List.map_cons]
      simp [builtInEntry]
  exact hall builtIn _

/-! ## The remote layer -/

theorem remoteEntry_told {url : String} {i : Nat} {data : Json} (h : told data = none) :
    Same l (remoteEntry go url l i data) := by
  unfold told at h
  unfold remoteEntry
  cases hm : data.object? with
  | none => exact same_report
  | some m =>
    rw [hm, Option.bind_some, ite_eq_left_iff, not_or, not_not] at h
    dsimp only
    split
    · exact same_report
    · next hid =>
      split
      · exact ⟨rfl, rfl, rfl⟩
      · unfold remoteModel
        rw [if_pos fun hun => absurd (h ⟨hid, hun⟩) (Option.some_ne_none _)]
        exact same_report

theorem remoteEntry_takes (go : Go F) (l : Layers) (url : String) (i : Nat) {data : Json}
    (h : told data = some (id, m)) :
    ((l.fromBuiltIn id = true ∨ (l.seen id).isSome ∨ ¬ Decodes go m) ∧
      Same l (remoteEntry go url l i data)) ∨
    (l.fromBuiltIn id = false ∧ l.seen id = none ∧ Decodes go m ∧ ∃ path,
      (remoteEntry go url l i data).entries =
        set l.entries id ⟨m, .community, .remote, .remote, path, []⟩ ∧
      (remoteEntry go url l i data).ids = l.ids ++ [id] ∧
      (remoteEntry go url l i data).seen = set l.seen id path) := by
  unfold told at h
  cases hm : data.object? with
  | none =>
    rw [hm] at h
    cases h
  | some m' =>
    rw [hm, Option.bind_some] at h
    split at h
    · cases h
    · next hid =>
      cases h
      rw [not_or, not_not] at hid
      unfold remoteEntry
      rw [hm]
      dsimp only
      rw [if_neg hid.1]
      split
      · next hbuilt => exact .inl ⟨.inl hbuilt, rfl, rfl, rfl⟩
      · next hbuilt =>
        rw [remoteModel, if_neg (not_not.mpr hid.2)]
        split
        · next earlier hseen => exact .inl ⟨.inr (.inl (by rw [hseen]; rfl)), same_report⟩
        · next hseen =>
          split
          · next err herr =>
            refine .inl ⟨.inr (.inr ?_), same_report⟩
            rintro ⟨s, hs⟩
            rw [herr] at hs
            cases hs
          · next s hs =>
            exact .inr ⟨by simpa using hbuilt, hseen, ⟨s, hs⟩, _, rfl, rfl, rfl⟩

/-- The remote layer `l`, over the built-in one, when a feed has these entries. -/
structure Fed (b l : Layers) (entries : List (String × Object)) : Prop where
  ids : l.ids = b.ids ++ entries.map (·.1)
  taken : ∀ id m, (id, m) ∈ entries → ∃ path,
    l.entries id = some ⟨m, .community, .remote, .remote, path, []⟩
  same : ∀ id, id ∉ entries.map (·.1) → l.entries id = b.entries id

/-- The entries of the feed that are taken are those the documents tell. -/
theorem remoteEntries_fed {url : String} {i : Nat} {entries : List Json} {taken : List String}
    (h : ∀ id, id ∈ taken ↔ l.fromBuiltIn id = true ∨ (l.seen id).isSome) :
    Fed l (remoteEntries go url i l entries) (fed go taken entries) := by
  induction entries generalizing i l taken with
  | nil => exact ⟨(List.append_nil _).symm, fun _ _ h => (by cases h), fun _ _ => rfl⟩
  | cons data rest ih =>
    have hskip : ∀ t, Same l t →
        Fed l (remoteEntries go url (i + 1) t rest) (fed go taken rest) := by
      intro t hs
      obtain ⟨hids, hin, hout⟩ :
          Fed t (remoteEntries go url (i + 1) t rest) (fed go taken rest) := ih fun id => by
        rw [h, Layers.fromBuiltIn, Layers.fromBuiltIn, hs.entries, hs.seen]
      exact ⟨hs.ids ▸ hids, hin, hs.entries ▸ hout⟩
    rw [remoteEntries, fed]
    cases htold : told data with
    | none => exact hskip _ (remoteEntry_told htold)
    | some p =>
      obtain ⟨id, m⟩ := p
      dsimp only
      obtain ⟨hno, hs⟩ | ⟨hbuilt, hseen, hdec, path, he, hids, hs⟩ :=
        remoteEntry_takes go l url i htold
      · rw [if_pos (by rw [h, or_assoc]; exact hno)]
        exact hskip _ hs
      · have hfree : ¬ (id ∈ taken ∨ ¬ Decodes go m) := by
          rw [h, hbuilt, hseen]
          simpa using hdec
        rw [if_neg hfree]
        obtain ⟨hids', hin, hout⟩ : Fed (remoteEntry go url l i data)
            (remoteEntries go url (i + 1) (remoteEntry go url l i data) rest)
            (fed go (id :: taken) rest) := ih fun id' => by
          rw [List.mem_cons, h, Layers.fromBuiltIn, Layers.fromBuiltIn, he, hs]
          by_cases hid : id' = id
          · simp [hid]
          · simp [set_of_ne hid, hid]
        refine ⟨?_, fun id' m' hmem => ?_, fun id' hid' => ?_⟩
        · rw [hids', hids, List.append_assoc]
          rfl
        · obtain hmem | hmem := List.mem_cons.mp hmem
          · cases hmem
            refine ⟨path, (hout id fun hid => ?_).trans (by rw [he, set_self])⟩
            obtain ⟨⟨id', m'⟩, hmem, rfl⟩ := List.mem_map.mp hid
            exact (fed_spec hmem).1 List.mem_cons_self
          · exact hin id' m' hmem
        · rw [List.map_cons, List.mem_cons, not_or] at hid'
          rw [hout id' hid'.2, he, set_of_ne hid'.1]

/-- An entry of the feed has an id the binary does not, and decodes. -/
theorem fedBeside_spec {builtIn : List Object} {remote : RemoteLayer}
    (h : (id, m) ∈ fedBeside go builtIn remote) :
    (builtInLayer builtIn).entries id = none ∧ Decodes go m := by
  obtain ⟨hfree, hdec⟩ := fed_spec h
  rw [← builtInLayer_ids, (builtInLayer_over go builtIn).ids,
    Option.not_isSome_iff_eq_none] at hfree
  exact ⟨hfree, hdec⟩

theorem not_fed_of_builtIn {builtIn : List Object} {remote : RemoteLayer}
    (h : ((builtInLayer builtIn).entries id).isSome) :
    id ∉ (fedBeside go builtIn remote).map (·.1) := by
  intro hid
  obtain ⟨⟨id, m⟩, hmem, rfl⟩ := List.mem_map.mp hid
  rw [(fedBeside_spec hmem).1] at h
  cases h

theorem remoteLayer_fed (go : Go F) (builtIn : List Object) (remote : RemoteLayer) :
    Fed (builtInLayer builtIn) (remoteLayer go (builtInLayer builtIn) (some remote))
      (fedBeside go builtIn remote) := by
  have hb := builtInLayer_over go builtIn
  have hnone : ∀ (ms : List Object) (l : Layers), (ms.foldl builtInEntry l).seen = l.seen := by
    intro ms
    induction ms with
    | nil => exact fun _ => rfl
    | cons m rest ih => exact fun l => ih _
  refine remoteEntries_fed fun id => ?_
  rw [← builtInLayer_ids, hb.ids,
    show (builtInLayer builtIn).seen = fun _ => none from hnone builtIn _]
  constructor
  · intro hid
    obtain ⟨e, he, horigin⟩ := hb.kept id hid
    exact .inl (by simp [Layers.fromBuiltIn, he, horigin])
  · rintro (hid | hid)
    · cases he : (builtInLayer builtIn).entries id with
      | none => simp [Layers.fromBuiltIn, he] at hid
      | some e => rfl
    · cases hid

theorem remoteLayer_over (go : Go F) (builtIn : List Object) (remote : RemoteLayer) :
    Over go (builtInLayer builtIn) (remoteLayer go (builtInLayer builtIn) (some remote)) := by
  have h := remoteLayer_fed go builtIn remote
  have hb := builtInLayer_over go builtIn
  refine ⟨fun id hid => ?_, fun id e he hnone => ?_, fun id => ?_⟩
  · rw [h.same id (not_fed_of_builtIn hid)]
    exact hb.kept id hid
  · by_cases hmem : id ∈ (fedBeside go builtIn remote).map (·.1)
    · obtain ⟨⟨id, m⟩, hentry, rfl⟩ := List.mem_map.mp hmem
      obtain ⟨path, he'⟩ := h.taken id m hentry
      rw [he', Option.some.injEq] at he
      subst he
      exact ⟨by simp, (fedBeside_spec hentry).2⟩
    · rw [h.same id hmem, hnone] at he
      cases he
  · rw [h.ids, List.mem_append, hb.ids]
    by_cases hmem : id ∈ (fedBeside go builtIn remote).map (·.1)
    · refine iff_of_true (.inr hmem) ?_
      obtain ⟨⟨id, m⟩, hentry, rfl⟩ := List.mem_map.mp hmem
      obtain ⟨path, he⟩ := h.taken id m hentry
      rw [he]
      rfl
    · rw [h.same id hmem, or_iff_left hmem]

/-! ## The user layer -/

/-- What becomes of an id's entry when a file is laid over it: nothing where
the file is refused, and no other entry where it is set aside. -/
def overlay (go : Go F) (path : String) (m : Object) (e : Option Layered) :
    Option (Option Layered) :=
  match e with
  | none =>
    match decodeStrict go m with
    | .error _ => none
    | .ok _ => some (some ⟨m, .user, .user, .user, path, []⟩)
  | some base =>
    if base.tier = .builtIn ∧ supersededByBuiltIn go base.raw m then some none
    else
      match decodeStrict go (merged base.raw m) with
      | .error _ => none
      | .ok _ => some (some (patch go base path m))

theorem overlay_new {r : Option Layered} (h : overlay go path m none = some r) :
    Decodes go m ∧ r = some ⟨m, .user, .user, .user, path, []⟩ := by
  unfold overlay at h
  dsimp only at h
  split at h
  · cases h
  · next s hs =>
    cases h
    exact ⟨⟨s, hs⟩, rfl⟩

theorem overlay_patch {base : Layered} (h : overlay go path m (some base) = some (some e)) :
    e.origin = base.origin ∧ Decodes go e.raw := by
  unfold overlay at h
  dsimp only at h
  split at h
  · cases h
  · split at h
    · cases h
    · next s hs =>
      cases h
      exact ⟨rfl, s, hs⟩

theorem userModel_cases (go : Go F) (path : String) (m : Object) (id : String) (l : Layers) :
    let t := userModel go path m id l
    (overlay go path m (l.entries id) = none ∧ Same l t) ∨
    (overlay go path m (l.entries id) = some none ∧ (l.entries id).isSome ∧
      t.entries = l.entries ∧ t.ids = l.ids ∧ t.seen = set l.seen id path) ∨
    ∃ e, overlay go path m (l.entries id) = some (some e) ∧ t.entries = set l.entries id e ∧
      t.ids = (if (l.entries id).isSome then l.ids else l.ids ++ [id]) ∧
      t.seen = set l.seen id path := by
  intro t
  unfold t userModel overlay
  cases he : l.entries id with
  | none =>
    dsimp only
    cases decodeStrict go m with
    | error err => exact .inl ⟨rfl, same_report⟩
    | ok s => exact .inr (.inr ⟨_, rfl, rfl, rfl, rfl⟩)
  | some base =>
    dsimp only
    split
    · exact .inr (.inl ⟨rfl, rfl, rfl, rfl, rfl⟩)
    · cases decodeStrict go (merged base.raw m) with
      | error err => exact .inl ⟨rfl, same_report⟩
      | ok s => exact .inr (.inr ⟨_, rfl, rfl, rfl, rfl⟩)

theorem userModel_over (h : Over go b l) : Over go b (userModel go path m id l) := by
  rcases userModel_cases go path m id l with
    ⟨-, hs⟩ | ⟨-, -, he, hids, -⟩ | ⟨e, hov, he, hids, -⟩
  · exact h.same hs
  · exact ⟨by rw [he]; exact h.kept, by rw [he]; exact h.added, by rw [he, hids]; exact h.ids⟩
  · cases hbase : l.entries id with
    | none =>
      rw [hbase] at hov hids
      obtain ⟨hdec, hr⟩ := overlay_new hov
      cases hr
      exact h.add hbase (by simp) hdec he hids
    | some base =>
      rw [hbase] at hov hids
      obtain ⟨horigin, hdec⟩ := overlay_patch hov
      exact h.replace hbase horigin hdec he hids

theorem userEntry_cases (go : Go F) (f : UserFile) :
    (told f.data = none ∧ ∀ l, Same l (userEntry go l f)) ∨
      ∃ m id, told f.data = some (id, m) ∧ ∀ l, userEntry go l f = takeFile go f.path m id l := by
  unfold userEntry told
  cases f.data.object? with
  | none => exact .inl ⟨rfl, fun l => same_report⟩
  | some m =>
    dsimp only [Option.bind_some]
    by_cases hid : textOf m "modelId" = ""
    · simp only [hid, if_true, true_or]
      exact .inl ⟨trivial, fun l => same_report⟩
    · by_cases hun : unknownKeys f.data = []
      · simp only [hid, hun, ne_eq, not_true, if_false, or_false]
        exact .inr ⟨m, _, rfl, fun l => rfl⟩
      · simp only [hid, hun, ne_eq, not_false_eq_true, if_true, if_false, or_true]
        exact .inl ⟨trivial, fun l => same_report⟩

theorem takeFile_over (h : Over go b l) : Over go b (takeFile go path m id l) := by
  unfold takeFile
  split
  · exact h.same same_report
  · exact userModel_over h

/-- Without a feed, nothing is of a feed. -/
def Unfed (l : Layers) : Prop := ∀ id e, l.entries id = some e → e.origin ≠ .remote

theorem takeFile_unfed (h : Unfed l) : Unfed (takeFile go path m id l) := by
  unfold takeFile
  split
  · exact h
  · rcases userModel_cases go path m id l with ⟨-, hs⟩ | ⟨-, -, he, -, -⟩ | ⟨e, hov, he, -, -⟩
    · rw [Unfed, hs.entries]
      exact h
    · rw [Unfed, he]
      exact h
    · intro id' e' he'
      rw [he] at he'
      by_cases hid : id' = id
      · subst hid
        rw [set_self, Option.some.injEq] at he'
        subst he'
        cases hbase : l.entries id' with
        | none =>
          rw [hbase] at hov
          cases (overlay_new hov).2
          simp
        | some base =>
          rw [hbase] at hov
          exact (overlay_patch hov).1 ▸ h id' base hbase
      · rw [set_of_ne hid] at he'
        exact h id' e' he'

/-! ## With a feed and without -/

/-- `l₀` is without a feed, `l₁` with one that has entries for `ids`. -/
structure Alike (go : Go F) (b : Layers) (ids : List String) (l₀ l₁ : Layers) : Prop where
  same : ∀ id, id ∉ ids → l₁.entries id = l₀.entries id ∧ l₁.seen id = l₀.seen id
  order : (l₁.ids.filter fun id => id ∉ ids) = l₀.ids.filter fun id => id ∉ ids
  fed : (l₁.ids.filter fun id => id ∈ ids) = ids
  unfed : Unfed l₀
  over₀ : Over go b l₀
  over₁ : Over go b l₁

theorem Alike.of_same {l₀' l₁' : Layers} (h : Alike go b ids l₀ l₁) (h₀ : Same l₀ l₀')
    (h₁ : Same l₁ l₁') : Alike go b ids l₀' l₁' where
  same := by rw [h₀.entries, h₀.seen, h₁.entries, h₁.seen]; exact h.same
  order := by rw [h₀.ids, h₁.ids]; exact h.order
  fed := by rw [h₁.ids]; exact h.fed
  unfed := by rw [Unfed, h₀.entries]; exact h.unfed
  over₀ := h.over₀.same h₀
  over₁ := h.over₁.same h₁

theorem Alike.there (h : Alike go b ids l₀ l₁) (hid : id ∈ ids) :
    (l₁.entries id).isSome := by
  rw [← h.fed] at hid
  exact (h.over₁.ids id).mp (List.mem_of_mem_filter hid)

/-- What is there without the feed is there with it. -/
theorem Alike.has (h : Alike go b ids l₀ l₁) (hid : (l₀.entries id).isSome) :
    (l₁.entries id).isSome := by
  by_cases hmem : id ∈ ids
  · exact h.there hmem
  · rwa [(h.same id hmem).1]

theorem takeFile_other {id' : String} (hne : id' ≠ id) :
    (takeFile go path m id l).entries id' = l.entries id' ∧
      (takeFile go path m id l).seen id' = l.seen id' := by
  unfold takeFile
  split
  · exact ⟨rfl, rfl⟩
  · rcases userModel_cases go path m id l with
      ⟨-, hs⟩ | ⟨-, -, he, -, hseen⟩ | ⟨e, -, he, -, hseen⟩
    · rw [hs.entries, hs.seen]
      exact ⟨rfl, rfl⟩
    · rw [he, hseen, set_of_ne hne]
      exact ⟨rfl, rfl⟩
    · rw [he, hseen, set_of_ne hne, set_of_ne hne]
      exact ⟨rfl, rfl⟩

theorem takeFile_congr (he : l₁.entries id = l₀.entries id) (hs : l₁.seen id = l₀.seen id) :
    (takeFile go path m id l₁).entries id = (takeFile go path m id l₀).entries id ∧
      (takeFile go path m id l₁).seen id = (takeFile go path m id l₀).seen id := by
  unfold takeFile
  rw [hs]
  split
  · exact ⟨he, hs⟩
  · rcases userModel_cases go path m id l₀ with
      ⟨h₀, ht₀⟩ | ⟨h₀, -, he₀, -, hs₀⟩ | ⟨e, h₀, he₀, -, hs₀⟩ <;>
    rcases userModel_cases go path m id l₁ with
      ⟨h₁, ht₁⟩ | ⟨h₁, -, he₁, -, hs₁⟩ | ⟨e', h₁, he₁, -, hs₁⟩ <;>
    rw [he, h₀] at h₁ <;> try cases h₁
    · rw [ht₀.entries, ht₁.entries, ht₀.seen, ht₁.seen]
      exact ⟨he, hs⟩
    · rw [he₀, he₁, hs₀, hs₁, set_self, set_self]
      exact ⟨he, rfl⟩
    · rw [he₀, he₁, hs₀, hs₁]
      simp only [set_self, and_self]

/-- The id is appended where it had no entry and has one now. -/
theorem takeFile_ids : (takeFile go path m id l).ids =
    l.ids ++ if (l.entries id).isNone ∧ ((takeFile go path m id l).entries id).isSome then [id]
      else [] := by
  have hsame : l.ids =
      l.ids ++ if (l.entries id).isNone ∧ (l.entries id).isSome then [id] else [] := by
    cases l.entries id <;> simp
  unfold takeFile
  split
  · exact hsame
  · rcases userModel_cases go path m id l with
      ⟨-, hs⟩ | ⟨-, -, he, hids, -⟩ | ⟨e, -, he, hids, -⟩
    · rw [hs.ids, hs.entries]
      exact hsame
    · rw [hids, he]
      exact hsame
    · rw [hids, he, set_self]
      cases l.entries id <;> simp

theorem Alike.takeFile (h : Alike go b ids l₀ l₁) :
    Alike go b ids (takeFile go path m id l₀) (takeFile go path m id l₁) where
  same id' hid' := by
    obtain ⟨he, hs⟩ := h.same id' hid'
    by_cases hid : id' = id
    · subst hid
      exact takeFile_congr he hs
    · rw [(takeFile_other hid).1, (takeFile_other hid).1, (takeFile_other hid).2,
        (takeFile_other hid).2]
      exact ⟨he, hs⟩
  order := by
    rw [takeFile_ids, takeFile_ids, List.filter_append, List.filter_append, h.order]
    by_cases hid : id ∈ ids
    · split <;> split <;> simp [hid]
    · obtain ⟨he, hs⟩ := h.same id hid
      rw [he, (takeFile_congr he hs).1]
  fed := by
    rw [takeFile_ids, List.filter_append, h.fed]
    by_cases hid : id ∈ ids
    · rw [if_neg fun hnone => absurd (h.there hid) (by simpa using hnone.1)]
      simp
    · split <;> simp [hid]
  unfed := takeFile_unfed h.unfed
  over₀ := takeFile_over h.over₀
  over₁ := takeFile_over h.over₁

section
variable {builtIn : List Object} {files : List UserFile} {fileDiags : List Diagnostic}
  {remote : RemoteLayer}

theorem composed_alike (go : Go F) (builtIn : List Object) (files : List UserFile)
    (fileDiags : List Diagnostic) (remote : RemoteLayer) :
    Alike go (builtInLayer builtIn) ((fedBeside go builtIn remote).map (·.1))
      (composeLayers go builtIn files fileDiags none)
      (composeLayers go builtIn files fileDiags (some remote)) := by
  have hr := remoteLayer_fed go builtIn remote
  have hb := builtInLayer_over go builtIn
  have ho := remoteLayer_over go builtIn remote
  have hfold : ∀ (files : List UserFile) (l₀ l₁ : Layers),
      Alike go (builtInLayer builtIn) ((fedBeside go builtIn remote).map (·.1)) l₀ l₁ →
      Alike go (builtInLayer builtIn) ((fedBeside go builtIn remote).map (·.1))
        (files.foldl (userEntry go) l₀) (files.foldl (userEntry go) l₁) := by
    intro files
    induction files with
    | nil => exact fun _ _ h => h
    | cons f rest ih =>
      intro l₀ l₁ h
      refine ih _ _ ?_
      obtain ⟨-, hsame⟩ | ⟨m, id, -, htake⟩ := userEntry_cases go f
      · exact h.of_same (hsame l₀) (hsame l₁)
      · rw [htake, htake]
        exact h.takeFile
  have hnot : ((builtInLayer builtIn).ids.filter fun id =>
      id ∈ (fedBeside go builtIn remote).map (·.1)) = [] :=
    List.filter_eq_nil_iff.mpr fun id hid hmem =>
      not_fed_of_builtIn ((hb.ids id).mp hid) (of_decide_eq_true hmem)
  refine hfold files _ _ ⟨fun id hid => ⟨hr.same id hid, rfl⟩, ?_, ?_, fun id e he => ?_,
    ⟨hb.kept, hb.added, hb.ids⟩, ⟨ho.kept, ho.added, ho.ids⟩⟩
  · change ((remoteLayer go (builtInLayer builtIn) (some remote)).ids.filter _) = _
    have hout : (((fedBeside go builtIn remote).map (·.1)).filter fun id =>
        id ∉ (fedBeside go builtIn remote).map (·.1)) = [] :=
      List.filter_eq_nil_iff.mpr fun id hid hno => of_decide_eq_true hno hid
    rw [hr.ids, List.filter_append, hout, List.append_nil]
    rfl
  · change ((remoteLayer go (builtInLayer builtIn) (some remote)).ids.filter _) = _
    rw [hr.ids, List.filter_append, hnot, List.nil_append]
    exact List.filter_eq_self.mpr fun id hid => decide_eq_true hid
  · obtain ⟨e', he', horigin⟩ :=
      hb.kept id (by rw [show (builtInLayer builtIn).entries id = _ from he]; rfl)
    rw [show (builtInLayer builtIn).entries id = some e from he, Option.some.injEq] at he'
    rw [he', horigin]
    simp

/-! ## The entries of the feed -/

theorem userFiles_seen (hseen : (l.seen id).isSome) (files : List UserFile) :
    (files.foldl (userEntry go) l).entries id = l.entries id := by
  induction files generalizing l with
  | nil => rfl
  | cons f rest ih =>
    obtain ⟨-, hsame⟩ | ⟨m, id', -, htake⟩ := userEntry_cases go f
    · rw [List.foldl_cons, ih (by rw [(hsame l).seen]; exact hseen), (hsame l).entries]
    · rw [List.foldl_cons, htake]
      have hstays : (takeFile go f.path m id' l).entries id = l.entries id ∧
          (takeFile go f.path m id' l).seen id = l.seen id := by
        by_cases hid : id = id'
        · subst hid
          obtain ⟨earlier, he⟩ := Option.isSome_iff_exists.mp hseen
          unfold takeFile
          rw [he]
          exact ⟨rfl, he⟩
        · exact takeFile_other hid
      rw [ih (by rw [hstays.2]; exact hseen), hstays.1]

/-- An entry that is not the binary's, with the user's files laid over it. -/
theorem userFiles_laid (hseen : l.seen id = none) (he : l.entries id = some e)
    (htier : e.tier ≠ .builtIn) (files : List UserFile) :
    ∃ e', (files.foldl (userEntry go) l).entries id = some e' ∧ e'.origin = e.origin ∧
      e'.raw = laid go id e.raw files := by
  induction files generalizing l with
  | nil => exact ⟨e, he, rfl, rfl⟩
  | cons f rest ih =>
    rw [List.foldl_cons, laid]
    obtain ⟨htold, hsame⟩ | ⟨u, id', htold, htake⟩ := userEntry_cases go f
    · rw [htold]
      exact ih (by rw [(hsame l).seen]; exact hseen) (by rw [(hsame l).entries]; exact he)
    · rw [htold, htake]
      dsimp only
      by_cases hid : id' = id
      · subst hid
        rw [takeFile, hseen]
        dsimp only
        rw [userModel, he]
        dsimp only
        rw [if_neg fun h => htier h.1]
        cases hdec : decodeStrict go (merged e.raw u) with
        | error err =>
          have hno : ¬ (id' = id' ∧ Decodes go (merged e.raw u)) := by
            rintro ⟨-, s, hs⟩
            rw [hdec] at hs
            cases hs
          rw [if_neg hno]
          exact ih hseen he
        | ok s =>
          rw [if_pos ⟨rfl, s, hdec⟩]
          refine ⟨patch go e f.path u, ?_, rfl, rfl⟩
          exact (userFiles_seen (by simp) rest).trans (by simp)
      · rw [if_neg fun h => hid h.1]
        obtain ⟨hentries, hseen'⟩ : (takeFile go f.path u id' l).entries id = l.entries id ∧
            (takeFile go f.path u id' l).seen id = l.seen id := takeFile_other (Ne.symm hid)
        exact ih (by rw [hseen']; exact hseen) (by rw [hentries]; exact he)

theorem composed_fed (files : List UserFile) (fileDiags : List Diagnostic)
    (h : (id, m) ∈ fedBeside go builtIn remote) :
    ∃ e, (composeLayers go builtIn files fileDiags (some remote)).entries id = some e ∧
      e.origin = .remote ∧ e.raw = laid go id m files := by
  obtain ⟨path, he⟩ := (remoteLayer_fed go builtIn remote).taken id m h
  exact userFiles_laid (l := { remoteLayer go (builtInLayer builtIn) (some remote) with
    seen := fun _ => none
    diagnostics := (remoteLayer go (builtInLayer builtIn) (some remote)).diagnostics ++ fileDiags })
    rfl he (by simp) files

end

/-! ## The catalog of the layers -/

variable {c c' : Catalog F} {s : Spec F}

theorem specOf_of_decodes (h : Decodes go e.raw) : ∃ s, specOf go id (some e) = .ok s := by
  obtain ⟨s, hs⟩ := h
  unfold specOf
  dsimp only
  rw [hs]
  exact ⟨_, rfl⟩

theorem specOf_origin {e : Option Layered} (h : specOf go id e = .ok s) :
    ∃ e', e = some e' ∧ s.origin = e'.origin := by
  unfold specOf at h
  split at h
  · cases h
  · next e' =>
    split at h
    · cases h
    · cases h
      exact ⟨e', rfl, rfl⟩

theorem addModels_ok (h : addModels go l ids c = .ok c') :
    (∀ id ∈ ids, ∃ s, specOf go id (l.entries id) = .ok s ∧ c'.byID id = some s ∧
      s ∈ c'.models) ∧ (∀ id, id ∉ ids → c'.byID id = c.byID id) ∧ c.models ⊆ c'.models := by
  induction ids generalizing c with
  | nil =>
    cases h
    exact ⟨fun _ h => absurd h List.not_mem_nil, fun _ _ => rfl, fun _ h => h⟩
  | cons id rest ih =>
    simp only [addModels] at h
    cases hs : specOf go id (l.entries id) with
    | error err =>
      rw [hs] at h
      cases h
    | ok s =>
      rw [hs] at h
      obtain ⟨hin, hout, hmodels⟩ := ih h
      refine ⟨fun id' hid' => ?_, fun id' hid' => ?_, fun s' hs' =>
        hmodels (List.mem_append_left _ hs')⟩
      · by_cases hr : id' ∈ rest
        · exact hin id' hr
        · obtain rfl : id' = id := (List.mem_cons.mp hid').resolve_right hr
          exact ⟨s, hs, (hout _ hr).trans set_self,
            hmodels (List.mem_append_right _ List.mem_cons_self)⟩
      · rw [List.mem_cons, not_or] at hid'
        exact (hout id' hid'.2).trans (set_of_ne hid'.1)

theorem addModels_models (h : addModels go l ids c = .ok c') :
    ∃ ss, c'.models = c.models ++ ss ∧
      List.Forall₂ (fun id s => specOf go id (l.entries id) = .ok s) ids ss := by
  induction ids generalizing c with
  | nil =>
    cases h
    exact ⟨[], (List.append_nil _).symm, .nil⟩
  | cons id rest ih =>
    simp only [addModels] at h
    cases hs : specOf go id (l.entries id) with
    | error err =>
      rw [hs] at h
      cases h
    | ok s =>
      rw [hs] at h
      obtain ⟨ss, hmodels, hspecs⟩ := ih h
      exact ⟨s :: ss, by rw [hmodels, List.append_assoc]; rfl, .cons hs hspecs⟩

theorem addModels_of_specs (go : Go F)
    (h : ∀ id ∈ ids, ∃ s, specOf go id (l.entries id) = .ok s) :
    ∃ c', addModels go l ids c = .ok c' := by
  induction ids generalizing c with
  | nil => exact ⟨c, rfl⟩
  | cons id rest ih =>
    obtain ⟨s, hs⟩ := h id List.mem_cons_self
    simp only [addModels, hs]
    exact ih fun id' hid' => h id' (List.mem_cons_of_mem _ hid')

theorem buildCatalog_byID (hids : ∀ id, id ∈ l.ids ↔ (l.entries id).isSome)
    (h : buildCatalog go l = .ok c) :
    c.byID id = some s ↔ specOf go id (l.entries id) = .ok s := by
  obtain ⟨hin, hout, _⟩ := addModels_ok h
  by_cases hid : id ∈ l.ids
  · obtain ⟨s', hs', hc, _⟩ := hin id hid
    rw [hs', hc, Option.some.injEq, Except.ok.injEq]
  · rw [hout id hid]
    refine iff_of_false (fun he => absurd he.symm (Option.some_ne_none _)) fun hs => ?_
    obtain ⟨e, he, _⟩ := specOf_origin hs
    exact hid ((hids id).mpr (by rw [he]; rfl))

theorem buildCatalog_listed (hids : ∀ id, id ∈ l.ids ↔ (l.entries id).isSome)
    (h : buildCatalog go l = .ok c) (hs : c.byID id = some s) : s ∈ c.models := by
  obtain ⟨e, he, _⟩ := specOf_origin ((buildCatalog_byID hids h).mp hs)
  obtain ⟨s', _, hs', hmem⟩ := (addModels_ok h).1 id ((hids id).mpr (by rw [he]; rfl))
  rw [hs, Option.some.injEq] at hs'
  exact hs' ▸ hmem

/-! ## Taking out -/

theorem filesOf_spec (go : Go F) (s : Spec F) :
    filesOf go s.toDecoded = s.artifacts.map fun a => (fileKey go s a, ⟨s.modelID, a.sha256⟩) := rfl

/-- A name that is claimed stays with its owner, and else is of the first file that
has it. -/
theorem claim_eq (owners : String → Option Owner) (s : Spec F) (k : String) :
    claim go owners s k = (owners k).or ((filesOf go s.toDecoded).lookup k) := by
  have hall : ∀ (as : List Artifact) (owners : String → Option Owner),
      as.foldl (fun owners a =>
        if (owners (fileKey go s a)).isSome then owners
        else set owners (fileKey go s a) ⟨s.modelID, a.sha256⟩) owners k =
      (owners k).or
        ((as.map fun a => (fileKey go s a, (⟨s.modelID, a.sha256⟩ : Owner))).lookup k) := by
    intro as
    induction as with
    | nil => exact fun _ => Option.or_none.symm
    | cons a as ih =>
      intro owners
      rw [List.foldl_cons, ih, List.map_cons, List.lookup_cons]
      by_cases hk : k = fileKey go s a
      · subst hk
        cases ho : owners (fileKey go s a) with
        | some o => simp [ho]
        | none => simp
      · rw [beq_eq_false_iff_ne.mpr hk]
        split
        · rfl
        · rw [set_of_ne hk]
  exact hall s.artifacts owners

theorem firstOwners_eq (models : List (Spec F)) (k : String) : firstOwners go models k =
    ((models.filter fun s => s.origin ≠ .remote).flatMap (filesOf go ·.toDecoded)).lookup k := by
  have hall : ∀ (ms : List (Spec F)) (owners : String → Option Owner),
      ms.foldl (claim go) owners k =
        (owners k).or ((ms.flatMap (filesOf go ·.toDecoded)).lookup k) := by
    intro ms
    induction ms with
    | nil => exact fun _ => Option.or_none.symm
    | cons m ms ih =>
      intro owners
      rw [List.foldl_cons, ih, claim_eq, List.flatMap_cons, List.lookup_append, Option.or_assoc]
  exact hall _ _

/-- The pass finds no file taken exactly when the model fits. -/
theorem takes_none_iff {held : List (String × Owner)} (howners : ∀ k, owners k = held.lookup k) :
    takes go owners s = none ↔ Fits go held s.toDecoded := by
  unfold takes Fits
  rw [List.findSome?_eq_none_iff, filesOf_spec, List.forall_mem_map]
  refine forall_congr' fun a => imp_congr_right fun _ => ?_
  rw [Option.map_eq_none_iff, takenBy, howners]
  cases held.lookup (fileKey go s a) with
  | none => simp
  | some o => simp

/-- The feed's models that name a file another has by then, of those in a
list. -/
def takenOut (go : Go F) (owners : String → Option Owner) : List (Spec F) → List (Spec F)
  | [] => []
  | s :: rest =>
    if s.origin = .remote then
      if (takes go owners s).isSome then s :: takenOut go owners rest
      else takenOut go (claim go owners s) rest
    else takenOut go owners rest

theorem dropTaking_byID (owners : String → Option Owner) (models : List (Spec F))
    (c : Catalog F) (id : String) :
    (dropTaking go owners models c).byID id =
      if id ∈ (takenOut go owners models).map (·.modelID) then none else c.byID id := by
  induction models generalizing owners c with
  | nil => rfl
  | cons s rest ih =>
    unfold dropTaking takenOut
    by_cases hr : s.origin = .remote
    · rw [if_pos hr, if_pos hr]
      cases ht : takes go owners s with
      | none => exact ih _ _
      | some taken =>
        rw [show (some taken).isSome = true from rfl, if_pos rfl, List.map_cons]
        refine (ih _ _).trans ?_
        by_cases hid : id = s.modelID
        · simp [hid]
        · simp only [hid, List.mem_cons, false_or, if_false]
    · rw [if_neg hr, if_neg hr]
      exact ih _ _

theorem takenOut_remote {models : List (Spec F)}
    (h : s ∈ takenOut go owners models) : s ∈ models ∧ s.origin = .remote := by
  induction models generalizing owners with
  | nil => cases h
  | cons s' rest ih =>
    unfold takenOut at h
    split at h
    · next hr =>
      split at h
      · obtain rfl | h := List.mem_cons.mp h
        · exact ⟨List.mem_cons_self, hr⟩
        · exact (ih h).imp_left (List.mem_cons_of_mem _)
      · exact (ih h).imp_left (List.mem_cons_of_mem _)
    · exact (ih h).imp_left (List.mem_cons_of_mem _)

theorem mem_dropTaking {models : List (Spec F)} :
    (s ∈ c.models → s ∈ (dropTaking go owners models c).models) ∧
      (s ∈ models → s.origin ≠ .remote → s ∈ (dropTaking go owners models c).models) := by
  induction models generalizing owners c with
  | nil => exact ⟨id, fun h => by cases h⟩
  | cons s' rest ih =>
    unfold dropTaking
    split
    · next hr =>
      split
      · refine ⟨fun h => ih.1 h, fun h hs => ih.2 ((List.mem_cons.mp h).resolve_left ?_) hs⟩
        rintro rfl
        exact hs hr
      · refine ⟨fun h => ih.1 (List.mem_append_left _ h), fun h hs =>
          ih.2 ((List.mem_cons.mp h).resolve_left ?_) hs⟩
        rintro rfl
        exact hs hr
    · refine ⟨fun h => ih.1 (List.mem_append_left _ h), fun h hs => ?_⟩
      obtain rfl | h := List.mem_cons.mp h
      · exact ih.1 (List.mem_append_right _ List.mem_cons_self)
      · exact ih.2 h hs

theorem takenOut_filter (owners : String → Option Owner) (models : List (Spec F)) :
    takenOut go owners models =
      takenOut go owners (models.filter fun s => s.origin = .remote) := by
  induction models generalizing owners with
  | nil => rfl
  | cons s rest ih =>
    by_cases hr : s.origin = .remote
    · rw [List.filter_cons_of_pos (by simpa using hr), takenOut, takenOut, ← ih, ← ih]
    · rw [List.filter_cons_of_neg (by simpa using hr), takenOut, if_neg hr, ih]

/-- The feed's models, of their entries. -/
abbrev OfFeed : List (String × Decoded F) → List (Spec F) → Prop :=
  List.Forall₂ fun p s => p.2 = s.toDecoded ∧ s.origin = .remote

/-- What the documents tell to stay is what the pass leaves. -/
theorem takenOut_settles {keep : String → Bool} {models : List (String × Decoded F)}
    {ss : List (Spec F)} {held : List (String × Owner)} (h : OfFeed models ss)
    (howners : ∀ k, owners k = held.lookup k) (hkeep : Settles go held models keep) :
    (takenOut go owners ss).map (·.modelID) =
      (models.filter fun p => !keep p.1).map (·.2.modelID) := by
  induction h generalizing held owners with
  | nil => rfl
  | @cons p s models ss hp _ ih =>
    obtain ⟨id, d⟩ := p
    obtain ⟨rfl, horigin⟩ := hp
    have hfirst : keep id = true ↔ Fits go held s.toDecoded := by
      have := hkeep [] id s.toDecoded models rfl
      rwa [List.filter_nil, List.flatMap_nil, List.append_nil] at this
    unfold takenOut
    rw [if_pos horigin]
    cases hid : keep id with
    | true =>
      have hfits := hfirst.mp hid
      rw [if_neg (by rw [(takes_none_iff howners).mpr hfits]; simp),
        List.filter_cons_of_neg (by simp [hid])]
      have hclaim : ∀ k, claim go owners s k = (held ++ filesOf go s.toDecoded).lookup k :=
        fun k => by rw [claim_eq, howners, List.lookup_append]
      refine ih hclaim ?_
      rintro before id' s' after rfl
      have := hkeep ((id, s.toDecoded) :: before) id' s' after rfl
      rwa [List.filter_cons_of_pos (by simpa using hid), List.flatMap_cons,
        ← List.append_assoc] at this
    | false =>
      have hno : ¬ Fits go held s.toDecoded := by
        rw [← hfirst, hid]
        simp
      rw [if_pos (Option.isSome_iff_ne_none.mpr fun hnone =>
          hno ((takes_none_iff howners).mp hnone)),
        List.filter_cons_of_pos (by simp [hid]), List.map_cons, List.map_cons]
      refine congrArg _ (ih howners ?_)
      rintro before id' s' after rfl
      have := hkeep ((id, s.toDecoded) :: before) id' s' after rfl
      rwa [List.filter_cons_of_neg (by simp [hid])] at this

theorem modelsOf_nodup {entries : List (String × Object)} (files : List UserFile)
    (h : (entries.map (·.1)).Nodup) : ((modelsOf go files entries).map (·.1)).Nodup := by
  induction entries with
  | nil => exact List.nodup_nil
  | cons p rest ih =>
    obtain ⟨hid, hrest⟩ := List.nodup_cons.mp h
    rw [modelsOf, List.filterMap_cons]
    cases (decodeStrict go (laid go p.1 p.2 files)).toOption with
    | none => exact ih hrest
    | some s =>
      refine List.nodup_cons.mpr ⟨fun hmem => hid ?_, ih hrest⟩
      obtain ⟨q, hq, he⟩ := List.mem_map.mp hmem
      obtain ⟨q', hq', hmap⟩ := List.mem_filterMap.mp hq
      obtain ⟨s', -, rfl⟩ := Option.map_eq_some_iff.mp hmap
      exact he ▸ List.mem_map_of_mem hq'

theorem exists_settles {models : List (String × Decoded F)} (hids : (models.map (·.1)).Nodup)
    (held : List (String × Owner)) : ∃ keep, Settles go held models keep := by
  classical
  induction models generalizing held with
  | nil => exact ⟨fun _ => true, fun before _ _ _ h => by cases before <;> cases h⟩
  | cons p rest ih =>
    obtain ⟨id, s⟩ := p
    obtain ⟨hid, hids⟩ := List.nodup_cons.mp hids
    have hother : ∀ p ∈ rest, p.1 ≠ id := fun p hp he =>
      hid (List.mem_map.mpr ⟨p, hp, he⟩)
    obtain ⟨keep, hkeep⟩ := ih hids (if Fits go held s then held ++ filesOf go s else held)
    refine ⟨fun id' => if id' = id then decide (Fits go held s) else keep id', ?_⟩
    intro before id' s' after he
    cases before with
    | nil =>
      cases he
      simp
    | cons q before =>
      cases he
      have hout : id' ≠ id := hother (id', s') (by simp)
      have hbefore :
          (before.filter fun p => if p.1 = id then decide (Fits go held s) else keep p.1) =
          before.filter (keep ·.1) :=
        List.filter_congr fun p hp => if_neg (hother p (List.mem_append_left _ hp))
      have hrest := hkeep before id' s' after rfl
      dsimp only
      rw [if_neg hout, List.filter_cons, hbefore]
      by_cases hfits : Fits go held s
      · rw [if_pos hfits, List.append_assoc] at hrest
        simpa [hfits] using hrest
      · rw [if_neg hfits] at hrest
        simpa [hfits] using hrest

/-! ## Loading -/

variable {builtIn : List Object} {files : List UserFile} {fileDiags : List Diagnostic}
  {remote : RemoteLayer}

theorem loadLayers_ok {remote : Option RemoteLayer}
    (h : loadLayers go builtIn files fileDiags remote = .ok c) :
    ∃ c₀, buildCatalog go (composeLayers go builtIn files fileDiags remote) = .ok c₀ ∧
      c = dropFeedEntriesTakingFiles go c₀ := by
  unfold loadLayers at h
  cases hb : buildCatalog go (composeLayers go builtIn files fileDiags remote) with
  | error err =>
    rw [hb] at h
    cases h
  | ok c₀ =>
    rw [hb] at h
    cases h
    exact ⟨c₀, rfl, rfl⟩

/-- The pass takes out, of a catalog, the feed's models that the documents tell to go. -/
theorem drop_settled {keep : String → Bool} {models : List (String × Decoded F)}
    (hfed : OfFeed models (c.models.filter fun s => s.origin = .remote))
    (hkeep : Settles go ((c.models.filter fun s => s.origin ≠ .remote).flatMap
      (filesOf go ·.toDecoded)) models keep) (id : String) :
    (dropFeedEntriesTakingFiles go c).byID id =
      if id ∈ (models.filter fun p => !keep p.1).map (·.2.modelID) then none
      else c.byID id := by
  rw [dropFeedEntriesTakingFiles, dropTaking_byID, takenOut_filter,
    takenOut_settles hfed (firstOwners_eq c.models) hkeep]

theorem byID_of_drop (h : (dropFeedEntriesTakingFiles go c).byID id = some s) :
    c.byID id = some s := by
  unfold dropFeedEntriesTakingFiles at h
  rw [dropTaking_byID] at h
  split at h
  · cases h
  · exact h

theorem composed_specs
    (h : buildCatalog go (composeLayers go builtIn files fileDiags none) = .ok c)
    (hid : ((composeLayers go builtIn files fileDiags (some remote)).entries id).isSome) :
    ∃ s, specOf go id ((composeLayers go builtIn files fileDiags (some remote)).entries id) =
      .ok s := by
  have halike := composed_alike go builtIn files fileDiags remote
  cases hb : (builtInLayer builtIn).entries id with
  | none =>
    obtain ⟨e, he⟩ := Option.isSome_iff_exists.mp hid
    rw [he]
    exact specOf_of_decodes (halike.over₁.added id e he hb).2
  | some e =>
    have hsame := (halike.same id (not_fed_of_builtIn (by rw [hb]; rfl))).1
    rw [hsame] at hid ⊢
    obtain ⟨s, hs, _, _⟩ := (addModels_ok h).1 id ((halike.over₀.ids id).mpr hid)
    exact ⟨s, hs⟩

/-- A model that is there without the feed, in the catalog with it, before
anything is taken out. -/
theorem built_with_feed {c₀ c₁ : Catalog F}
    (h₀ : buildCatalog go (composeLayers go builtIn files fileDiags none) = .ok c₀)
    (h₁ : buildCatalog go (composeLayers go builtIn files fileDiags (some remote)) = .ok c₁)
    (hs : c₀.byID id = some s) :
    (s.origin = .builtIn → c₁.byID id = some s) ∧ (c₁.byID id).isSome ∧ s.origin ≠ .remote := by
  have halike := composed_alike go builtIn files fileDiags remote
  have hspec := (buildCatalog_byID halike.over₀.ids h₀).mp hs
  obtain ⟨e, he, horigin⟩ := specOf_origin hspec
  refine ⟨fun hb => ?_, ?_, horigin ▸ halike.unfed id e he⟩
  · have hbuilt : ((builtInLayer builtIn).entries id).isSome := by
      cases hn : (builtInLayer builtIn).entries id with
      | none => exact absurd (horigin ▸ hb) (halike.over₀.added id e he hn).1
      | some _ => rfl
    rw [buildCatalog_byID halike.over₁.ids h₁, (halike.same id (not_fed_of_builtIn hbuilt)).1]
    exact hspec
  · obtain ⟨s₁, hs₁⟩ := composed_specs h₀ (halike.has (by rw [he]; rfl))
    rw [(buildCatalog_byID halike.over₁.ids h₁).mpr hs₁]
    rfl

/-- The models of a catalog built with a feed: those that are not the feed's are as
without it, and the others are of the feed's entries, one after another. -/
theorem built_models
    (h : buildCatalog go (composeLayers go builtIn files fileDiags (some remote)) = .ok c) :
    ((c.models.filter fun s => s.origin ≠ .remote).map (·.toDecoded)) =
        modelsBeside go (composeLayers go builtIn files fileDiags none)
          (fedBeside go builtIn remote) ∧
      OfFeed (modelsOf go files (fedBeside go builtIn remote))
        (c.models.filter fun s => s.origin = .remote) := by
  have halike := composed_alike go builtIn files fileDiags remote
  obtain ⟨ss, hmodels, hspecs⟩ := addModels_models h
  rw [List.nil_append] at hmodels
  subst hmodels
  have horigin : ∀ id s,
      specOf go id ((composeLayers go builtIn files fileDiags (some remote)).entries id) = .ok s →
      (id ∈ (fedBeside go builtIn remote).map (·.1) ↔ s.origin = .remote) := by
    intro id s hs
    obtain ⟨e, he, horigin⟩ := specOf_origin hs
    rw [horigin]
    by_cases hid : id ∈ (fedBeside go builtIn remote).map (·.1)
    · refine iff_of_true hid ?_
      obtain ⟨⟨id, m⟩, hmem, rfl⟩ := List.mem_map.mp hid
      obtain ⟨e', he', hremote, _⟩ := composed_fed files fileDiags hmem
      rw [he, Option.some.injEq] at he'
      exact he' ▸ hremote
    · rw [(halike.same id hid).1] at he
      exact iff_of_false hid (halike.unfed id e he)
  constructor
  · have hrest := List.rel_filter (p := fun id => id ∉ (fedBeside go builtIn remote).map (·.1))
      (q := fun s => s.origin ≠ .remote)
      (fun id s hs => by simpa using not_congr (horigin id s hs)) hspecs
    rw [halike.order] at hrest
    rw [modelsBeside]
    have hout : ∀ id ∈ (composeLayers go builtIn files fileDiags none).ids.filter fun id =>
        id ∉ (fedBeside go builtIn remote).map (·.1),
        (composeLayers go builtIn files fileDiags (some remote)).entries id =
          (composeLayers go builtIn files fileDiags none).entries id := fun id hid =>
      (halike.same id (of_decide_eq_true (List.mem_filter.mp hid).2)).1
    generalize ((composeLayers go builtIn files fileDiags none).ids.filter fun id =>
      id ∉ (fedBeside go builtIn remote).map (·.1)) = ids at hrest hout
    generalize (c.models.filter fun s => s.origin ≠ .remote) = ss at hrest ⊢
    induction hrest with
    | nil => rfl
    | cons hs _ ih =>
      obtain ⟨hid, hout⟩ := List.forall_mem_cons.mp hout
      rw [List.map_cons, ih hout, List.filterMap_cons, ← hid, hs]
      rfl
  · have hrest := List.rel_filter (p := fun id => id ∈ (fedBeside go builtIn remote).map (·.1))
      (q := fun s => s.origin = .remote) (fun id s hs => by simpa using horigin id s hs) hspecs
    rw [halike.fed, List.forall₂_map_left_iff] at hrest
    have hfed : ∀ p ∈ fedBeside go builtIn remote, ∃ e,
        (composeLayers go builtIn files fileDiags (some remote)).entries p.1 = some e ∧
          e.origin = .remote ∧ e.raw = laid go p.1 p.2 files := fun p hp =>
      composed_fed files fileDiags hp
    rw [modelsOf]
    generalize fedBeside go builtIn remote = ps at hrest hfed ⊢
    generalize (c.models.filter fun s => s.origin = .remote) = ss at hrest ⊢
    induction hrest with
    | nil => exact .nil
    | @cons p s _ _ hs _ ih =>
      obtain ⟨⟨e, he, hremote, hraw⟩, hfed⟩ := List.forall_mem_cons.mp hfed
      unfold specOf at hs
      rw [he] at hs
      dsimp only at hs
      split at hs
      · cases hs
      · next d hd =>
        cases hs
        rw [hraw] at hd
        rw [List.filterMap_cons, hd]
        exact .cons ⟨rfl, hremote⟩ (ih hfed)

/-- The built-in models are in the second catalog as they are in the first, and
the user's models are in it. -/
def Keeps (c c' : Catalog F) : Prop :=
  ∀ id s, c.byID id = some s →
    (s.origin = .builtIn → c'.byID id = some s ∧ s ∈ c'.models) ∧
      (s.origin = .user → (c'.byID id).isSome)

/-- A feed leaves the catalog what it has, exactly when each of the feed's models
that has the id of one of the catalog's stays, by what the documents say. -/
theorem feed_keeps_iff (remote : RemoteLayer)
    (h : loadLayers go builtIn files fileDiags none = .ok c) :
    ∃ c', loadLayers go builtIn files fileDiags (some remote) = .ok c' ∧
      (Keeps c c' ↔
        ∃ keep,
          Settles go
            ((modelsBeside go (composeLayers go builtIn files fileDiags none)
              (fedBeside go builtIn remote)).flatMap (filesOf go))
            (modelsOf go files (fedBeside go builtIn remote)) keep ∧
          ∀ p ∈ modelsOf go files (fedBeside go builtIn remote),
            (c.byID p.2.modelID).isSome → keep p.1 = true) := by
  obtain ⟨c₀, h₀, rfl⟩ := loadLayers_ok h
  have halike := composed_alike go builtIn files fileDiags remote
  obtain ⟨c₁, h₁⟩ := addModels_of_specs go
    (l := composeLayers go builtIn files fileDiags (some remote))
    (c := ⟨[], fun _ => none, (composeLayers go builtIn files fileDiags (some remote)).diagnostics⟩)
    fun id hid => composed_specs h₀ ((halike.over₁.ids id).mp hid)
  refine ⟨dropFeedEntriesTakingFiles go c₁, by rw [loadLayers, buildCatalog, h₁]; rfl, ?_⟩
  obtain ⟨hbeside, hfed⟩ := built_models (c := c₁) h₁
  rw [← hbeside, List.flatMap_map]
  constructor
  · intro hkeeps
    obtain ⟨keep, hkeep⟩ := exists_settles (modelsOf_nodup files fed_nodup)
      ((c₁.models.filter fun s => s.origin ≠ .remote).flatMap (filesOf go ·.toDecoded))
    refine ⟨keep, hkeep, fun p hp hsome => ?_⟩
    by_contra hno
    obtain ⟨s₀, hc⟩ := Option.isSome_iff_exists.mp hsome
    obtain ⟨hbuilt, huser⟩ := hkeeps _ _ hc
    have hgone : (dropFeedEntriesTakingFiles go c₁).byID p.2.modelID = none := by
      rw [drop_settled hfed hkeep, if_pos]
      exact List.mem_map.mpr ⟨p, List.mem_filter.mpr ⟨hp, by simpa using hno⟩, rfl⟩
    cases ho : s₀.origin with
    | builtIn =>
      rw [hgone] at hbuilt
      exact absurd (hbuilt ho).1.symm (Option.some_ne_none _)
    | user =>
      rw [hgone] at huser
      exact absurd (huser ho) Bool.false_ne_true
    | remote => exact absurd ho (built_with_feed h₀ h₁ (byID_of_drop hc)).2.2
  · rintro ⟨keep, hkeep, hstay⟩ id s hs
    obtain ⟨hbuilt, hsome, _⟩ := built_with_feed h₀ h₁ (byID_of_drop hs)
    have hout : id ∉ ((modelsOf go files (fedBeside go builtIn remote)).filter
        fun p => !keep p.1).map (·.2.modelID) := by
      intro hid
      obtain ⟨p, hp, rfl⟩ := List.mem_map.mp hid
      obtain ⟨hp, hgone⟩ := List.mem_filter.mp hp
      rw [hstay p hp (by rw [hs]; rfl)] at hgone
      cases hgone
    rw [drop_settled hfed hkeep, if_neg hout]
    refine ⟨fun ho => ⟨hbuilt ho, ?_⟩, fun _ => hsome⟩
    have hlisted := buildCatalog_listed halike.over₁.ids h₁ (hbuilt ho)
    exact mem_dropTaking.2 hlisted (by rw [ho]; simp)

/-! ### A feed that takes a user's model away -/

def decodeArtifact (a : Json) : Artifact :=
  let m := a.object?.getD []
  ⟨textOf m "filename", textOf m "sha256", textOf m "role"⟩

/-- Objects with fields of the right types, and lower-case names. -/
def plain : Go Unit where
  float64 := some
  quote s := "\"" ++ s ++ "\""
  toLower s := s
  equalFold s t := s = t
  decode m := .ok
    { modelID := textOf m "modelId"
      qualificationState := textOf m "qualificationState"
      kind := textOf m "kind"
      artifacts := ((m.array? "artifacts").getD []).map decodeArtifact
      inputModalities := ((m.array? "inputModalities").getD []).map fun v => v.string?.getD ""
      outputModalities := ((m.array? "outputModalities").getD []).map fun v => v.string?.getD ""
      rest := () }

/-- A language model with one file. -/
def oneFile (id filename sha : String) : Object :=
  [("modelId", .str id), ("kind", .str "llm"),
    ("artifacts", .arr [.obj
      [("filename", .str filename), ("sha256", .str sha), ("role", .str "primary")]]),
    ("inputModalities", .arr [.str "text"]), ("outputModalities", .arr [.str "text"])]

def shipped : List Object := [oneFile "shipped" "shipped.gguf" "aa"]

def mine : UserFile := ⟨"/catalog.d/mine.json", .obj (oneFile "mine" "mine.gguf" "bb")⟩

/-- The feed has an entry for the name of its file, and one for its id. -/
def takingFeed : RemoteLayer :=
  ⟨"feed", [.obj (oneFile "taking" "mine.gguf" "cc"), .obj (oneFile "mine" "other.gguf" "dd")]⟩

/-- The user's model is gone. -/
theorem feed_takes_a_users_model :
    ∃ c c', loadLayers plain shipped [mine] [] none = .ok c ∧
      loadLayers plain shipped [mine] [] (some takingFeed) = .ok c' ∧ ¬ Keeps c c' := by
  refine ⟨_, _, rfl, rfl, fun hkeeps => ?_⟩
  have hmine := (hkeeps "mine" _ rfl).2 rfl
  revert hmine
  decide

/-- A feed with a file of its own. -/
def ownFeed : RemoteLayer := ⟨"feed", [.obj (oneFile "new" "new.gguf" "cc")]⟩

theorem own_feed_keeps_iff :
    ∃ c, loadLayers plain shipped [mine] [] none = .ok c ∧
      ∃ c', loadLayers plain shipped [mine] [] (some ownFeed) = .ok c' ∧
        (Keeps c c' ↔
          ∃ keep,
            Settles plain
              ((modelsBeside plain (composeLayers plain shipped [mine] [] none)
                (fedBeside plain shipped ownFeed)).flatMap (filesOf plain))
              (modelsOf plain [mine] (fedBeside plain shipped ownFeed)) keep ∧
            ∀ p ∈ modelsOf plain [mine] (fedBeside plain shipped ownFeed),
              (c.byID p.2.modelID).isSome → keep p.1 = true) :=
  ⟨_, rfl, feed_keeps_iff ownFeed rfl⟩

end LocalBase.ModelCatalog
