import LocalBase.Lib.JsonText

/-!
# What a text says, before anything is made of it

A document keeps the text of its numbers and the pieces of its strings. Every
reader answers the fold of one document by what it builds from, so what is
proved of documents holds of every reader. How deeply a document nests is its
own, and a reader that takes it at some depth takes it at any depth that holds
it.
-/

namespace JsonText

variable {β : Type} {k : Nat} {cs rest : List Char}

inductive Doc where
  | null
  | bool (x : Bool)
  | num (cs : List Char)
  | str (ps : List Piece)
  | arr (ds : List Doc)
  | obj (ms : List (List Piece × Doc))

def docs : Build Doc where
  null := .null
  bool := .bool
  num := .num
  str := .str
  arr := .arr
  obj := .obj

section
variable (b : Build β)

mutual

def Doc.fold : Doc → β
  | .null => b.null
  | .bool x => b.bool x
  | .num cs => b.num cs
  | .str ps => b.str ps
  | .arr ds => b.arr (foldItems ds)
  | .obj ms => b.obj (foldMembers ms)

def foldItems : List Doc → List β
  | [] => []
  | d :: ds => d.fold :: foldItems ds

def foldMembers : List (List Piece × Doc) → List (List Piece × β)
  | [] => []
  | (ps, d) :: ms => (ps, d.fold) :: foldMembers ms

end

@[simp] theorem foldItems_eq (ds : List Doc) : foldItems b ds = ds.map (Doc.fold b) := by
  induction ds with
  | nil => rfl
  | cons d ds ih => rw [foldItems, ih, List.map_cons]

@[simp] theorem foldMembers_eq (ms : List (List Piece × Doc)) :
    foldMembers b ms = ms.map fun m => (m.1, m.2.fold b) := by
  induction ms with
  | nil => rfl
  | cons m ms ih => rw [foldMembers, ih, List.map_cons]

@[simp] theorem fold_arr (ds : List Doc) : (Doc.arr ds).fold b = b.arr (ds.map (Doc.fold b)) := by
  rw [Doc.fold, foldItems_eq]

@[simp] theorem fold_obj (ms : List (List Piece × Doc)) :
    (Doc.obj ms).fold b = b.obj (ms.map fun m => (m.1, m.2.fold b)) := by
  rw [Doc.fold, foldMembers_eq]

/-! ## A reader answers a fold -/

/-- What is read is then folded. -/
def folded (x : Option (Doc × List Char)) : Option (β × List Char) :=
  x.map fun x => (x.1.fold b, x.2)

/-- Reads what `f` reads, folded. -/
def Folds (f : Reader Doc) (g : Reader β) : Prop := ∀ cs, g cs = folded b (f cs)

variable {b} {f : Reader Doc} {g : Reader β}

theorem elements_fold (h : Folds b f g) (k : Nat) (cs : List Char) :
    elements g k cs = (elements f k cs).map fun x => (x.1.map (Doc.fold b), x.2) := by
  induction k generalizing cs with
  | zero => rfl
  | succ k ih =>
    simp only [elements, h cs, folded, Option.bind_eq_bind]
    cases f cs with
    | none => rfl
    | some x =>
      simp only [Option.map_some, Option.bind_some]
      split
      · rw [ih]
        simp only [Option.map_map]
        rfl
      · rfl
      · rfl

theorem members_fold (h : Folds b f g) (k : Nat) (cs : List Char) :
    members g k cs =
      (members f k cs).map fun x => (x.1.map fun m => (m.1, m.2.fold b), x.2) := by
  induction k generalizing cs with
  | zero => rfl
  | succ k ih =>
    simp only [members, Option.bind_eq_bind]
    cases key cs with
    | none => rfl
    | some y =>
      simp only [Option.bind_some, h y.2, folded]
      cases f y.2 with
      | none => rfl
      | some x =>
        simp only [Option.map_some, Option.bind_some]
        split
        · rw [ih]
          simp only [Option.map_map]
          rfl
        · rfl
        · rfl

theorem literal_fold (text cs : List Char) (d : Doc) :
    literal text (d.fold b) cs = folded b (literal text d cs) := by
  unfold literal folded
  split <;> rfl

theorem array_fold (h : Folds b f g) (cs : List Char) :
    array b g cs = folded b (array docs f cs) := by
  unfold array folded
  split
  · rw [Option.map_some]
    show _ = some ((Doc.arr []).fold b, _)
    rw [fold_arr, List.map_nil]
  · rw [elements_fold h, Option.map_map, Option.map_map]
    refine Option.map_congr fun x _ => ?_
    show (b.arr (x.1.map (Doc.fold b)), x.2) = ((Doc.arr x.1).fold b, x.2)
    rw [fold_arr]

theorem object_fold (h : Folds b f g) (cs : List Char) :
    object b g cs = folded b (object docs f cs) := by
  unfold object folded
  split
  · rw [Option.map_some]
    show _ = some ((Doc.obj []).fold b, _)
    rw [fold_obj, List.map_nil]
  · rw [members_fold h, Option.map_map, Option.map_map]
    refine Option.map_congr fun x _ => ?_
    show (b.obj (x.1.map fun m => (m.1, m.2.fold b)), x.2) = ((Doc.obj x.1).fold b, x.2)
    rw [fold_obj]

theorem valueOf_fold {f : Option (Reader Doc)} {g : Option (Reader β)}
    (h : Option.Rel (Folds b) f g) : Folds b (valueOf docs f) (valueOf b g) := by
  intro cs
  unfold valueOf
  split
  · simp only [folded, Option.map_map]
    rfl
  · cases h with
    | none => rfl
    | some h => exact array_fold h _
  · cases h with
    | none => rfl
    | some h => exact object_fold h _
  · exact literal_fold _ _ (.bool true)
  · exact literal_fold _ _ (.bool false)
  · exact literal_fold _ _ .null
  · simp only [folded, Option.map_map]
    rfl

theorem value_fold (b : Build β) (n : Nat) : Folds b (value docs n) (value b n) := by
  induction n with
  | zero => exact valueOf_fold .none
  | succ n ih => exact valueOf_fold (.some ih)

end

/-! ## How deeply a document nests -/

/-- No more than this many containers in one another. -/
inductive Within : Nat → Doc → Prop
  | null {n : Nat} : Within n .null
  | bool {n : Nat} {x : Bool} : Within n (.bool x)
  | num {n : Nat} {cs : List Char} : Within n (.num cs)
  | str {n : Nat} {ps : List Piece} : Within n (.str ps)
  | arr {n : Nat} {ds : List Doc} : (∀ d ∈ ds, Within n d) → Within (n + 1) (.arr ds)
  | obj {n : Nat} {ms : List (List Piece × Doc)} : (∀ m ∈ ms, Within n m.2) →
      Within (n + 1) (.obj ms)

/-- Two readers agree on a document. -/
def Agrees (f g : Reader Doc) (d : Doc) : Prop :=
  ∀ cs rest, f cs = some (d, rest) → g cs = some (d, rest)

theorem elements_agree {f g : Reader Doc} {ds : List Doc} (h : elements f k cs = some (ds, rest))
    (hfg : ∀ d ∈ ds, Agrees f g d) :
    elements g k cs = some (ds, rest) := by
  induction k generalizing cs ds with
  | zero => cases h
  | succ k ih =>
    obtain ⟨d, cs₁, hd, hrest⟩ := elements_succ.mp h
    rcases hrest with ⟨hlast, rfl⟩ | ⟨cs₂, ds', hcomma, hmore, rfl⟩
    · exact elements_succ.mpr ⟨d, cs₁, hfg d (by simp) _ _ hd, .inl ⟨hlast, rfl⟩⟩
    · refine elements_succ.mpr ⟨d, cs₁, hfg d (by simp) _ _ hd, .inr ⟨cs₂, ds', hcomma, ?_, rfl⟩⟩
      exact ih hmore fun d' hd' => hfg d' (List.mem_cons_of_mem _ hd')

theorem members_agree {f g : Reader Doc} {ms : List (List Piece × Doc)}
    (h : members f k cs = some (ms, rest))
    (hfg : ∀ m ∈ ms, Agrees f g m.2) : members g k cs = some (ms, rest) := by
  induction k generalizing cs ms with
  | zero => cases h
  | succ k ih =>
    obtain ⟨ps, cs₀, d, cs₁, hkey, hd, hrest⟩ := members_succ.mp h
    rcases hrest with ⟨hlast, rfl⟩ | ⟨cs₂, ms', hcomma, hmore, rfl⟩
    · exact members_succ.mpr
        ⟨ps, cs₀, d, cs₁, hkey, hfg (ps, d) (by simp) _ _ hd, .inl ⟨hlast, rfl⟩⟩
    · refine members_succ.mpr ⟨ps, cs₀, d, cs₁, hkey, hfg (ps, d) (by simp) _ _ hd,
        .inr ⟨cs₂, ms', hcomma, ?_, rfl⟩⟩
      exact ih hmore fun m hm => hfg m (List.mem_cons_of_mem _ hm)

variable {P : Doc → Prop}

theorem elements_all {f : Reader Doc} {ds : List Doc} (h : elements f k cs = some (ds, rest))
    (hf : ∀ cs d rest, f cs = some (d, rest) → P d) : ∀ d ∈ ds, P d := by
  induction k generalizing cs ds with
  | zero => cases h
  | succ k ih =>
    obtain ⟨d, cs₁, hd, ⟨_, rfl⟩ | ⟨cs₂, ds', _, hmore, rfl⟩⟩ := elements_succ.mp h
    · exact List.forall_mem_singleton.mpr (hf _ _ _ hd)
    · exact List.forall_mem_cons.mpr ⟨hf _ _ _ hd, ih hmore⟩

theorem members_all {f : Reader Doc} {ms : List (List Piece × Doc)}
    (h : members f k cs = some (ms, rest))
    (hf : ∀ cs d rest, f cs = some (d, rest) → P d) : ∀ m ∈ ms, P m.2 := by
  induction k generalizing cs ms with
  | zero => cases h
  | succ k ih =>
    obtain ⟨ps, cs₀, d, cs₁, _, hd, ⟨_, rfl⟩ | ⟨cs₂, ms', _, hmore, rfl⟩⟩ := members_succ.mp h
    · exact List.forall_mem_singleton.mpr (hf _ _ _ hd)
    · exact List.forall_mem_cons.mpr ⟨hf _ _ _ hd, ih hmore⟩

variable {d : Doc}

/-- What holds of the containers that hold what is read, and of all else, holds of what is
read. -/
theorem valueOf_all {f : Option (Reader Doc)} (h : valueOf docs f cs = some (d, rest))
    (hnull : P .null) (hbool : ∀ x, P (.bool x)) (hnum : ∀ cs, P (.num cs))
    (hstr : ∀ ps, P (.str ps))
    (harr : ∀ r ∈ f, ∀ ds : List Doc, (∀ d ∈ ds, ∃ cs rest, r cs = some (d, rest)) → P (.arr ds))
    (hobj : ∀ r ∈ f, ∀ ms : List (List Piece × Doc),
      (∀ m ∈ ms, ∃ cs rest, r cs = some (m.2, rest)) → P (.obj ms)) : P d := by
  unfold valueOf at h
  split at h
  · obtain ⟨x, _, hx⟩ := Option.map_eq_some_iff.mp h
    cases hx
    exact hstr x.1
  · obtain ⟨r, hr, h⟩ := Option.bind_eq_some_iff.mp h
    unfold array at h
    split at h
    · cases h
      exact harr r hr [] (by simp)
    · obtain ⟨x, hx, he⟩ := Option.map_eq_some_iff.mp h
      cases he
      exact harr r hr x.1 (elements_all hx fun cs d rest h => ⟨cs, rest, h⟩)
  · obtain ⟨r, hr, h⟩ := Option.bind_eq_some_iff.mp h
    unfold object at h
    split at h
    · cases h
      exact hobj r hr [] (by simp)
    · obtain ⟨x, hx, he⟩ := Option.map_eq_some_iff.mp h
      cases he
      exact hobj r hr x.1 (members_all (P := fun d => ∃ cs rest, r cs = some (d, rest)) hx
        fun cs d rest h => ⟨cs, rest, h⟩)
  · cases (literal_eq_some.mp h).1
    exact hbool true
  · cases (literal_eq_some.mp h).1
    exact hbool false
  · cases (literal_eq_some.mp h).1
    exact hnull
  · obtain ⟨x, _, hx⟩ := Option.map_eq_some_iff.mp h
    cases hx
    exact hnum x.1

theorem value_within {n : Nat} (h : value docs n cs = some (d, rest)) : Within n d := by
  induction n generalizing cs rest d with
  | zero =>
    exact valueOf_all h .null (fun _ => .bool) (fun _ => .num) (fun _ => .str)
      (fun _ hr => by cases hr) fun _ hr => by cases hr
  | succ n ih =>
    refine valueOf_all h .null (fun _ => .bool) (fun _ => .num) (fun _ => .str) ?_ ?_
    · rintro _ ⟨⟩ ds hds
      refine .arr fun d hd => ?_
      obtain ⟨_, _, h⟩ := hds d hd
      exact ih h
    · rintro _ ⟨⟩ ms hms
      refine .obj fun m hm => ?_
      obtain ⟨_, _, h⟩ := hms m hm
      exact ih h

/-- A value is read alike where the readers agree on what it holds. -/
theorem valueOf_agree {f g : Option (Reader Doc)} (h : valueOf docs f cs = some (d, rest))
    (harr : ∀ ds, d = .arr ds → ∀ r ∈ f, ∃ r' ∈ g, ∀ d ∈ ds, Agrees r r' d)
    (hobj : ∀ ms, d = .obj ms → ∀ r ∈ f, ∃ r' ∈ g, ∀ m ∈ ms, Agrees r r' m.2) :
    valueOf docs g cs = some (d, rest) := by
  unfold valueOf at h ⊢
  split at h
  · exact h
  · obtain ⟨r, hr, h⟩ := Option.bind_eq_some_iff.mp h
    unfold array at h
    split at h
    · next he =>
      cases h
      obtain ⟨r', hr', _⟩ := harr [] rfl r hr
      rw [Option.mem_def.mp hr', Option.bind_some, array, he]
      rfl
    · next hne =>
      obtain ⟨x, hx, hd⟩ := Option.map_eq_some_iff.mp h
      cases hd
      obtain ⟨r', hr', hagree⟩ := harr x.1 rfl r hr
      rw [Option.mem_def.mp hr', Option.bind_some, array]
      split
      · next he => exact absurd he (hne _)
      · rw [elements_agree hx hagree]
        rfl
  · obtain ⟨r, hr, h⟩ := Option.bind_eq_some_iff.mp h
    unfold object at h
    split at h
    · next he =>
      cases h
      obtain ⟨r', hr', _⟩ := hobj [] rfl r hr
      rw [Option.mem_def.mp hr', Option.bind_some, object, he]
      rfl
    · next hne =>
      obtain ⟨x, hx, hd⟩ := Option.map_eq_some_iff.mp h
      cases hd
      obtain ⟨r', hr', hagree⟩ := hobj x.1 rfl r hr
      rw [Option.mem_def.mp hr', Option.bind_some, object]
      split
      · next he => exact absurd he (hne _)
      · rw [members_agree hx hagree]
        rfl
  · exact h
  · exact h
  · exact h
  · exact h

/-- A document that is read is read at any depth that holds it. -/
theorem value_of_within {n m : Nat} (hd : Within m d) :
    Agrees (value docs n) (value docs m) d := by
  induction n generalizing m d with
  | zero =>
    intro cs rest h
    have hnone : ∀ g, valueOf docs g cs = some (d, rest) := fun g =>
      valueOf_agree h (fun _ _ _ hr => by cases hr) fun _ _ _ hr => by cases hr
    cases m with
    | zero => exact h
    | succ m => exact hnone _
  | succ n ih =>
    intro cs rest h
    cases hd with
    | arr hds =>
      refine valueOf_agree h ?_ fun _ hd => by cases hd
      rintro _ ⟨⟩ _ ⟨⟩
      exact ⟨_, rfl, fun d hd => ih (hds d hd)⟩
    | obj hms =>
      refine valueOf_agree h (fun _ hd => by cases hd) ?_
      rintro _ ⟨⟩ _ ⟨⟩
      exact ⟨_, rfl, fun m hm => ih (hms m hm)⟩
    | null | bool | num | str =>
      cases m with
      | zero => exact valueOf_agree h (fun _ hd => by cases hd) fun _ hd => by cases hd
      | succ m => exact valueOf_agree h (fun _ hd => by cases hd) fun _ hd => by cases hd

/-! ## Documents and their texts -/

/-- A text that says a document, with spaces around it. -/
def Says (d : Doc) (cs : List Char) : Prop :=
  ∃ ws t ws', cs = ws ++ t ++ ws' ∧ Spaces ws ∧ Written docs (.value d) t ∧ Spaces ws'

/-- What a reader takes to the end of a text is the fold of the one document it says, where that
is not too deep. -/
theorem value_spaces {n : Nat} {v : β} {b : Build β} :
    (∃ rest, value b n cs = some (v, rest) ∧ Spaces rest) ↔
      ∃ d, Says d cs ∧ Within n d ∧ v = d.fold b := by
  constructor
  · rintro ⟨rest, h, hrest⟩
    rw [value_fold b n cs] at h
    obtain ⟨⟨d, rest⟩, hd, he⟩ := Option.map_eq_some_iff.mp h
    cases he
    obtain ⟨ws, t, hcs, hws, ht⟩ := value_sound n _ _ _ hd
    exact ⟨d, ⟨ws, t, rest, hcs, hws, ht, hrest⟩, value_within hd, rfl⟩
  · rintro ⟨d, ⟨ws, t, ws', rfl, hws, ht, hws'⟩, hd, rfl⟩
    obtain ⟨k, hk⟩ := ht.taken
    refine ⟨ws', ?_, hws'⟩
    rw [value_fold b n, value_of_within hd _ _ (hk ws ws' hws (ends_of_spaces hws'))]
    rfl

/-- A text says one document at most. -/
theorem says_unique {d d' : Doc} (h : Says d cs) (h' : Says d' cs) : d = d' := by
  obtain ⟨ws, t, rest, hcs, hws, ht, hrest⟩ := h
  obtain ⟨ws', t', rest', hcs', hws', ht', hrest'⟩ := h'
  exact (first_unique hcs hws ht (ends_of_spaces hrest) hcs' hws' ht'
    (ends_of_spaces hrest')).1

end JsonText
