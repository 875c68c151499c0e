import LocalBase.ModelCatalog.Feed

/-!
# Files that models share

Taking out the feed's entries goes over the models once, with an owner for each
name that has been seen. A name is one with its kind and up to case, and an entry
that stays has at each name the bytes of the owner. But only the first file that a
model has at a name is its owner: an entry with two files whose names differ in
case alone, which validation lets through, is kept with both.
-/

namespace LocalBase.ModelCatalog

variable {F : Type} {go : Go F} {c : Catalog F} {owners : String → Option Owner}
  {models : List (Spec F)} {s m : Spec F} {a : Artifact} {o : Owner} {k : String}

/-- What `EqualFold` is relied on for. -/
structure Folds (go : Go F) : Prop where
  equivalence : Equivalence fun a b => go.equalFold a b = true
  empty : ∀ a, go.equalFold a "" = true → a = ""

/-- The ids of the models differ, and each model is found by its own. -/
structure Indexed (c : Catalog F) : Prop where
  ids : (c.models.map (·.modelID)).Nodup
  byID : ∀ id s, c.byID id = some s ↔ s ∈ c.models ∧ s.modelID = id

/-- The same bytes, which are known. -/
def SameBytes (go : Go F) (a b : Artifact) : Prop :=
  a.sha256 ≠ "" ∧ go.equalFold a.sha256 b.sha256 = true

/-- Files of the two models that are one on disk have the same bytes. -/
def Shares (go : Go F) (s m : Spec F) : Prop :=
  ∀ a ∈ s.artifacts, ∀ b ∈ m.artifacts, fileKey go s a = fileKey go m b → SameBytes go a b

/-- The model has a file at this name. -/
def Names (go : Go F) (s : Spec F) (k : String) : Prop := ∃ a ∈ s.artifacts, fileKey go s a = k

/-- All the files it has at this name have the same checksum. -/
def OneSum (go : Go F) (s : Spec F) (k : String) : Prop :=
  ∀ a ∈ s.artifacts, ∀ b ∈ s.artifacts, fileKey go s a = k → fileKey go s b = k →
    go.equalFold a.sha256 b.sha256 = true

/-! ## Owners -/

theorem claim_some (h : owners k = some o) : claim go owners s k = some o := by
  rw [claim_eq, h, Option.some_or]

theorem claim_free (hk : owners k = none) (h : Names go s k) :
    ∃ a ∈ s.artifacts, fileKey go s a = k ∧ claim go owners s k = some ⟨s.modelID, a.sha256⟩ := by
  rw [claim_eq, hk, Option.none_or, filesOf_spec]
  cases ho : (s.artifacts.map fun a =>
      (fileKey go s a, (⟨s.modelID, a.sha256⟩ : Owner))).lookup k with
  | none =>
    obtain ⟨a, ha, rfl⟩ := h
    have := List.lookup_eq_none_iff.mp ho _ (List.mem_map_of_mem ha)
    simp at this
  | some o =>
    obtain ⟨l₁, l₂, he, -⟩ := List.lookup_eq_some_iff.mp ho
    obtain ⟨a, ha, hfile⟩ := List.mem_map.mp (he ▸ List.mem_append_right l₁ List.mem_cons_self)
    cases hfile
    exact ⟨a, ha, rfl, rfl⟩

theorem claim_other (h : ¬ Names go s k) : claim go owners s k = owners k := by
  rw [claim_eq, filesOf_spec, List.lookup_eq_none_iff.mpr, Option.or_none]
  rintro f hf
  obtain ⟨a, ha, rfl⟩ := List.mem_map.mp hf
  simpa using fun hk => h ⟨a, ha, hk.symm⟩

/-- The name has this owner by a file of the model. -/
def OwnedBy (go : Go F) (m : Spec F) (k : String) (o : Owner) : Prop :=
  ∃ a ∈ m.artifacts, fileKey go m a = k ∧ o = ⟨m.modelID, a.sha256⟩

/-- Every file of the model has a name with an owner, and either has the owner's
bytes or is owned by the model, or by another if neither is the feed's. -/
def Backed (go : Go F) (models : List (Spec F)) (owners : String → Option Owner) (s : Spec F) :
    Prop :=
  ∀ a ∈ s.artifacts, ∃ o, owners (fileKey go s a) = some o ∧
    ((a.sha256 ≠ "" ∧ go.equalFold a.sha256 o.sha = true) ∨
      ∃ m ∈ models, (m = s ∨ (m.origin ≠ .remote ∧ s.origin ≠ .remote)) ∧
        OwnedBy go m (fileKey go s a) o)

theorem Backed.claim (h : Backed go models owners s) (m : Spec F) :
    Backed go models (claim go owners m) s := by
  intro a ha
  obtain ⟨o, ho, hback⟩ := h a ha
  exact ⟨o, claim_some ho, hback⟩

theorem takes_none (h : takes go owners s = none) (ha : a ∈ s.artifacts)
    (ho : owners (fileKey go s a) = some o) :
    a.sha256 ≠ "" ∧ go.equalFold a.sha256 o.sha = true := by
  have hfile := List.findSome?_eq_none_iff.mp h a ha
  rw [Option.map_eq_none_iff, takenBy, ho, Option.filter_eq_none_iff] at hfile
  have := hfile o rfl
  simpa using this

theorem backed_claim (hs : s ∈ models) (h : takes go owners s = none) :
    Backed go models (claim go owners s) s := by
  intro a ha
  cases ho : owners (fileKey go s a) with
  | some o => exact ⟨o, claim_some ho, .inl (takes_none h ha ho)⟩
  | none =>
    obtain ⟨b, hb, hkey, hclaim⟩ := claim_free ho ⟨a, ha, rfl⟩
    exact ⟨_, hclaim, .inr ⟨s, hs, .inl rfl, b, hb, hkey, rfl⟩⟩

theorem firstOwners_backed (hs : s ∈ models) (hown : s.origin ≠ .remote) :
    Backed go models (firstOwners go models) s := by
  -- Along the list the owners stay with models that are not the feed's.
  have hall : ∀ (ms : List (Spec F)) (owners : String → Option Owner),
      (∀ m ∈ ms, m ∈ models ∧ m.origin ≠ .remote) →
      (∀ k o, owners k = some o → ∃ m ∈ models, m.origin ≠ .remote ∧ OwnedBy go m k o) →
      s ∈ ms ∨ Backed go models owners s →
      Backed go models (ms.foldl (ModelCatalog.claim go) owners) s := by
    intro ms
    induction ms with
    | nil => exact fun _ _ _ h => h.resolve_left List.not_mem_nil
    | cons m ms ih =>
      intro owners hms howners h
      obtain ⟨hm, hms⟩ := List.forall_mem_cons.mp hms
      have hnext : ∀ k o, ModelCatalog.claim go owners m k = some o →
          ∃ m ∈ models, m.origin ≠ .remote ∧ OwnedBy go m k o := by
        intro k o ho
        cases hk : owners k with
        | some o' =>
          rw [claim_some hk] at ho
          exact howners k o (Option.some.inj ho ▸ hk)
        | none =>
          by_cases hnames : Names go m k
          · obtain ⟨a, ha, hkey, hclaim⟩ := claim_free hk hnames
            rw [hclaim] at ho
            exact ⟨m, hm.1, hm.2, a, ha, hkey, (Option.some.inj ho).symm⟩
          · rw [claim_other hnames, hk] at ho
            cases ho
      refine ih _ hms hnext ?_
      rcases h with h | h
      · rcases List.mem_cons.mp h with rfl | h
        · refine .inr fun a ha => ?_
          have hsome : ∃ o, ModelCatalog.claim go owners s (fileKey go s a) = some o := by
            cases hk : owners (fileKey go s a) with
            | some o => exact ⟨o, claim_some hk⟩
            | none =>
              obtain ⟨b, -, -, hclaim⟩ := claim_free hk ⟨a, ha, rfl⟩
              exact ⟨_, hclaim⟩
          obtain ⟨o, ho⟩ := hsome
          obtain ⟨m', hm', horigin, howned⟩ := hnext _ o ho
          exact ⟨o, ho, .inr ⟨m', hm', .inr ⟨horigin, hown⟩, howned⟩⟩
        · exact .inl h
      · exact .inr (h.claim m)
  refine hall _ _ (fun m hm => ?_) (fun _ _ h => by cases h) (.inl ?_)
  · obtain ⟨hm, horigin⟩ := List.mem_filter.mp hm
    exact ⟨hm, of_decide_eq_true horigin⟩
  · exact List.mem_filter.mpr ⟨hs, decide_eq_true hown⟩

/-! ## What is kept -/

def keptOf (go : Go F) (owners : String → Option Owner) : List (Spec F) → List (Spec F)
  | [] => []
  | s :: rest =>
    if s.origin = .remote then
      if (takes go owners s).isSome then keptOf go owners rest
      else s :: keptOf go (claim go owners s) rest
    else s :: keptOf go owners rest

theorem dropTaking_models :
    (dropTaking go owners models c).models = c.models ++ keptOf go owners models := by
  induction models generalizing owners c with
  | nil => exact (List.append_nil _).symm
  | cons s rest ih =>
    unfold dropTaking keptOf
    by_cases hr : s.origin = .remote
    · rw [if_pos hr, if_pos hr]
      cases ht : takes go owners s with
      | some taken => exact ih
      | none =>
        refine ih.trans ?_
        rw [if_neg (by simp), List.append_assoc]
        rfl
    · rw [if_neg hr, if_neg hr]
      refine ih.trans ?_
      rw [List.append_assoc]
      rfl

theorem kept_or_taken (hs : s ∈ models) :
    s ∈ keptOf go owners models ∨ s ∈ takenOut go owners models := by
  induction models generalizing owners with
  | nil => cases hs
  | cons m rest ih =>
    unfold keptOf takenOut
    split
    · split
      · exact (List.mem_cons.mp hs).elim (fun h => .inr (List.mem_cons.mpr (.inl h)))
          fun h => (ih h).imp_right (List.mem_cons_of_mem _)
      · exact (List.mem_cons.mp hs).elim (fun h => .inl (List.mem_cons.mpr (.inl h)))
          fun h => (ih h).imp_left (List.mem_cons_of_mem _)
    · exact (List.mem_cons.mp hs).elim (fun h => .inl (List.mem_cons.mpr (.inl h)))
        fun h => (ih h).imp_left (List.mem_cons_of_mem _)

theorem keptOf_sublist : (keptOf go owners models).Sublist models := by
  induction models generalizing owners with
  | nil => exact .slnil
  | cons m rest ih =>
    unfold keptOf
    split
    · split
      · exact ih.cons _
      · exact ih.cons_cons _
    · exact ih.cons_cons _

theorem kept_not_taken (hids : (models.map (·.modelID)).Nodup) (hs : s ∈ keptOf go owners models)
    (hm : m ∈ takenOut go owners models) : s.modelID ≠ m.modelID := by
  induction models generalizing owners with
  | nil => cases hs
  | cons x rest ih =>
    rw [List.map_cons, List.nodup_cons] at hids
    have hout {y : Spec F} (hy : y ∈ rest) : y.modelID ≠ x.modelID :=
      fun h => hids.1 (h ▸ List.mem_map_of_mem hy)
    unfold keptOf at hs
    unfold takenOut at hm
    split at hs
    · next hr =>
      rw [if_pos hr] at hm
      split at hs
      · next ht =>
        rw [if_pos ht] at hm
        rcases List.mem_cons.mp hm with rfl | hm
        · exact hout (keptOf_sublist.subset hs)
        · exact ih hids.2 hs hm
      · next ht =>
        rw [if_neg ht] at hm
        rcases List.mem_cons.mp hs with rfl | hs
        · exact (hout (takenOut_remote hm).1).symm
        · exact ih hids.2 hs hm
    · next hr =>
      rw [if_neg hr] at hm
      rcases List.mem_cons.mp hs with rfl | hs
      · exact (hout (takenOut_remote hm).1).symm
      · exact ih hids.2 hs hm

theorem keptOf_backed (all : List (Spec F)) (hsub : ∀ s ∈ models, s ∈ all)
    (hback : ∀ s ∈ all, s.origin ≠ .remote → Backed go all owners s) :
    ∃ last, (∀ k o, owners k = some o → last k = some o) ∧
      ∀ s ∈ keptOf go owners models, Backed go all last s := by
  induction models generalizing owners with
  | nil => exact ⟨owners, fun _ _ h => h, fun _ hs => absurd hs List.not_mem_nil⟩
  | cons x rest ih =>
    obtain ⟨hx, hsub⟩ := List.forall_mem_cons.mp hsub
    unfold keptOf
    split
    · split
      · exact ih hsub hback
      · next ht =>
        obtain ⟨last, hlast, hkept⟩ := ih hsub fun s hs hown => (hback s hs hown).claim x
        refine ⟨last, fun k o h => hlast k o (claim_some h),
          List.forall_mem_cons.mpr ⟨fun a ha => ?_, hkept⟩⟩
        obtain ⟨o, ho, hb⟩ :=
          backed_claim hx (Option.not_isSome_iff_eq_none.mp ht) a ha
        exact ⟨o, hlast _ o ho, hb⟩
    · next hown =>
      obtain ⟨last, hlast, hkept⟩ := ih hsub hback
      refine ⟨last, hlast, List.forall_mem_cons.mpr ⟨fun a ha => ?_, hkept⟩⟩
      obtain ⟨o, ho, hb⟩ := hback x hx hown a ha
      exact ⟨o, hlast _ o ho, hb⟩

/-! ## Sharing -/

theorem SameBytes.symm {a b : Artifact} (hfold : Folds go) (h : SameBytes go a b) :
    SameBytes go b a := by
  refine ⟨fun hempty => h.1 (hfold.empty _ ?_), hfold.equivalence.symm h.2⟩
  rw [← hempty]
  exact h.2

/-- Two models that stay and are backed by the same owners share nothing but equal
bytes, if each has one checksum at the names they share. -/
theorem shares_of_backed (hfold : Folds go) (hids : (models.map (·.modelID)).Nodup)
    (hclean : ∀ s ∈ models, ∀ m ∈ models, s.origin ≠ .remote → m.origin ≠ .remote →
      s.modelID ≠ m.modelID → Shares go s m)
    (hs : s ∈ models) (hm : m ∈ models) (hremote : s.origin = .remote)
    (hne : s.modelID ≠ m.modelID) (hbs : Backed go models owners s)
    (hbm : Backed go models owners m)
    (hone : ∀ k, Names go s k → Names go m k → OneSum go s k ∧ OneSum go m k) :
    Shares go s m := by
  intro a ha b hb hkey
  obtain ⟨o, ho, hback⟩ := hbs a ha
  obtain ⟨o', ho', hback'⟩ := hbm b hb
  rw [← hkey, ho] at ho'
  obtain rfl := Option.some.inj ho'
  obtain ⟨hones, honem⟩ := hone _ ⟨a, ha, rfl⟩ ⟨b, hb, hkey.symm⟩
  have htrans {x y z : String} (h : go.equalFold x y = true) (h' : go.equalFold y z = true) :
      go.equalFold x z = true := hfold.equivalence.trans h h'
  have hsymm {x y : String} (h : go.equalFold x y = true) : go.equalFold y x = true :=
    hfold.equivalence.symm h
  -- A name of the feed's entry is owned by the entry or by the other model's bytes.
  rcases hback with ⟨hsome, hfold₁⟩ | ⟨x, hx, hown, a₁, ha₁, hkey₁, rfl⟩
  · refine ⟨hsome, htrans hfold₁ ?_⟩
    rcases hback' with ⟨-, hfold₂⟩ | ⟨y, hy, hown', b₁, hb₁, hkey₂, rfl⟩
    · exact hsymm hfold₂
    · rcases hown' with rfl | ⟨hy', hm'⟩
      · exact honem b₁ hb₁ b hb (hkey₂.trans hkey.symm) hkey.symm
      · by_cases hym : y.modelID = m.modelID
        · obtain rfl := List.inj_on_of_nodup_map hids hy hm hym
          exact honem b₁ hb₁ b hb (hkey₂.trans hkey.symm) hkey.symm
        · exact (hclean y hy m hm hy' hm' hym b₁ hb₁ b hb hkey₂).2
  · obtain rfl : x = s := hown.resolve_right fun h => h.2 hremote
    rcases hback' with ⟨hsome, hfold₂⟩ | ⟨y, hy, hown', b₁, hb₁, hkey₂, heq⟩
    · have hab : SameBytes go b a :=
        ⟨hsome, htrans hfold₂ (hones a₁ ha₁ a ha hkey₁ rfl)⟩
      exact hab.symm hfold
    · have hyx : x.modelID = y.modelID := congrArg Owner.modelID heq
      obtain rfl := List.inj_on_of_nodup_map hids hx hy hyx
      rcases hown' with rfl | ⟨hy', -⟩
      · exact absurd rfl hne
      · exact absurd hremote hy'

theorem oneSum_of_shares (hfold : Folds go) (h : Shares go s m) (hs : Names go s k)
    (hm : Names go m k) : OneSum go s k ∧ OneSum go m k := by
  obtain ⟨a, ha, rfl⟩ := hs
  obtain ⟨b, hb, hbk⟩ := hm
  constructor
  · intro x hx y hy hxk hyk
    exact hfold.equivalence.trans (h x hx b hb (hxk.trans hbk.symm)).2
      (hfold.equivalence.symm (h y hy b hb (hyk.trans hbk.symm)).2)
  · intro x hx y hy hxk hyk
    exact hfold.equivalence.trans (hfold.equivalence.symm (h a ha x hx hxk.symm).2)
      (h a ha y hy hyk.symm).2

/-- What stays of a catalog: all models but the feed's, each found by its id; and an
entry of the feed shares files with another model only for the same bytes, if and only
if each of the two has one checksum at each name that they share. -/
theorem drop_shares_iff (hfold : Folds go) (hc : Indexed c)
    (hclean : ∀ s ∈ c.models, ∀ m ∈ c.models, s.origin ≠ .remote → m.origin ≠ .remote →
      s.modelID ≠ m.modelID → Shares go s m) :
    (∀ s ∈ c.models, s.origin ≠ .remote → s ∈ (dropFeedEntriesTakingFiles go c).models) ∧
      Indexed (dropFeedEntriesTakingFiles go c) ∧
      ∀ s ∈ (dropFeedEntriesTakingFiles go c).models,
        ∀ m ∈ (dropFeedEntriesTakingFiles go c).models,
          s.origin = .remote → s.modelID ≠ m.modelID →
          (Shares go s m ↔
            ∀ k, Names go s k → Names go m k → OneSum go s k ∧ OneSum go m k) := by
  have hmodels : (dropFeedEntriesTakingFiles go c).models =
      keptOf go (firstOwners go c.models) c.models := dropTaking_models
  have hsub : (keptOf go (firstOwners go c.models) c.models).Sublist c.models := keptOf_sublist
  refine ⟨fun s hs hown => mem_dropTaking.2 hs hown, ⟨?_, fun id s => ?_⟩, ?_⟩
  · rw [hmodels]
    exact hc.ids.sublist (hsub.map _)
  · unfold dropFeedEntriesTakingFiles
    rw [dropTaking_byID, dropTaking_models, List.nil_append]
    split
    · next hout =>
      obtain ⟨m, hm, hid⟩ := List.mem_map.mp hout
      refine iff_of_false (by simp) fun h => ?_
      exact kept_not_taken hc.ids h.1 hm (h.2.trans hid.symm)
    · next hout =>
      rw [hc.byID]
      refine and_congr_left fun hid => ⟨fun hs => ?_, fun hs => hsub.subset hs⟩
      refine (kept_or_taken hs).resolve_right fun htaken => hout ?_
      exact List.mem_map.mpr ⟨s, htaken, hid⟩
  · rw [hmodels]
    have hfirst : ∀ s ∈ c.models, s.origin ≠ .remote →
        Backed go c.models (firstOwners go c.models) s := fun s hs hown =>
      firstOwners_backed hs hown
    obtain ⟨last, -, hback⟩ := keptOf_backed c.models (fun s hs => hs) hfirst
    intro s hs m hm hremote hne
    refine ⟨fun h k hks hkm => oneSum_of_shares hfold h hks hkm, fun hone => ?_⟩
    exact shares_of_backed hfold hc.ids hclean (hsub.subset hs) (hsub.subset hm) hremote hne
      (hback s hs) (hback m hm) hone

/-! ### A feed entry with two files at one name -/

/-- Two entries of the feed for one file. -/
def sharing (id : String) : Spec Unit where
  modelID := id
  qualificationState := "qualified"
  kind := "llm"
  artifacts := [⟨"a.gguf", "aa", "primary"⟩]
  inputModalities := ["text"]
  outputModalities := ["text"]
  rest := ()
  trust := .community
  origin := .remote
  tier := .remote
  layerPath := "feed"
  patchedFields := []

def sharingCatalog : Catalog Unit where
  models := [sharing "one", sharing "two"]
  byID := fun id => if id = "one" ∨ id = "two" then some (sharing id) else none
  diagnostics := []

theorem sharing_kept : Shares plain (sharing "one") (sharing "two") := by
  have hfold : Folds plain := by
    refine ⟨⟨fun _ => decide_eq_true rfl, fun h => ?_, fun h h' => ?_⟩, fun a h => ?_⟩
    · exact decide_eq_true (of_decide_eq_true h).symm
    · exact decide_eq_true ((of_decide_eq_true h).trans (of_decide_eq_true h'))
    · exact of_decide_eq_true h
  have hindexed : Indexed sharingCatalog := by
    refine ⟨by decide, fun id s => ?_⟩
    simp only [sharingCatalog, List.mem_cons, List.not_mem_nil, or_false]
    constructor
    · intro h
      split at h
      · next hid =>
        obtain rfl := Option.some.inj h
        exact ⟨hid.imp (fun h => by rw [h]) fun h => by rw [h], rfl⟩
      · cases h
    · rintro ⟨rfl | rfl, rfl⟩ <;> rfl
  have hkept :
      (dropFeedEntriesTakingFiles plain sharingCatalog).models = sharingCatalog.models := by
    decide
  obtain ⟨-, -, hshares⟩ := drop_shares_iff hfold hindexed fun s hs m _ hown => by
    simp only [sharingCatalog, List.mem_cons, List.not_mem_nil, or_false] at hs
    rcases hs with rfl | rfl <;> exact absurd rfl hown
  rw [hkept] at hshares
  refine (hshares _ List.mem_cons_self _ (List.mem_cons_of_mem _ List.mem_cons_self) rfl
    (by decide)).mpr fun k _ _ => ?_
  have hone (id : String) : OneSum plain (sharing id) k := by
    intro a ha b hb _ _
    obtain rfl := List.mem_singleton.mp ha
    obtain rfl := List.mem_singleton.mp hb
    exact hfold.equivalence.refl _
  exact ⟨hone _, hone _⟩

/-- Names are compared as a disk does that does not care about case. -/
def cased : Go Unit :=
  { plain with
    toLower := fun s => String.ofList (s.toList.map Char.toLower)
    equalFold := fun s t => s.toList.map Char.toLower = t.toList.map Char.toLower }

/-- One entry with two files at one name, and another with the first of them. -/
def twinFeed : RemoteLayer where
  url := "feed"
  entries :=
    [.obj
      [("modelId", .str "twins"), ("kind", .str "llm"),
        ("artifacts", .arr
          [.obj [("filename", .str "a.gguf"), ("sha256", .str "aa"), ("role", .str "primary")],
            .obj [("filename", .str "A.gguf"), ("sha256", .str "bb"), ("role", .str "other")]]),
        ("inputModalities", .arr [.str "text"]), ("outputModalities", .arr [.str "text"])],
      .obj (oneFile "single" "a.gguf" "aa")]

/-- Both stay, and the second file of the one has the name of the other's. -/
theorem twins_kept : ∃ c, loadLayers cased shipped [] [] (some twinFeed) = .ok c ∧
    ∃ s ∈ c.models, ∃ m ∈ c.models, s.origin = .remote ∧ m.origin = .remote ∧
      s.modelID ≠ m.modelID ∧ ¬ Shares cased s m := by
  refine ⟨_, rfl, ?_⟩
  unfold Shares SameBytes
  decide

end LocalBase.ModelCatalog
