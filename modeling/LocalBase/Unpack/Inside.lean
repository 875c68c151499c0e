import LocalBase.Lib.Subtree
import LocalBase.Unpack.Extract

/-!
# Nothing is written outside

A path under the package is clear when no directory on the way to its last name
is a link. The check before an entry establishes it for the entry's target, and
making directories and files on the way keeps it: only a link that is made takes
it away, and that is the last thing done for an entry. So whatever the entries
before it have made, each is written where its path says.
-/

namespace LocalBase.Unpack

open Program Tree

variable {os : Os} {dir : Path} {pkg : Real} {w₀ w t : World} {q : List Name} {x : Name}
  {links : List Path} {p : Path} {r : Real} {s : List Name}

/-- A disk where `dir` leads to an empty directory, and nothing was written yet. -/
structure Fresh (os : Os) (dir : Path) (pkg : Real) (w : World) : Prop where
  grown : Grown w.tree
  root : isDir w.tree [] = true
  there : ∃ m, walk w.tree os.maxLinks [] ((dir.map os.fold).map .down) = .ok (pkg, m)
  isDir : isDir w.tree pkg = true
  empty : ∀ p, Below pkg p → w.tree p = none
  untouched : w.touched = []

/-- What was written is below the package, and all else is as it was. -/
structure Inside (pkg : Real) (w₀ w : World) : Prop where
  grown : Grown w.tree
  touched : ∀ r ∈ w.touched, Below pkg r
  outside : ∀ p, ¬ Below pkg p → w.tree p = w₀.tree p

theorem below_append (hs : s ≠ []) : Below pkg (pkg ++ s) := ⟨s, hs, rfl⟩

theorem not_below_self : ¬ Below pkg pkg := by
  rintro ⟨s, hs, he⟩
  exact hs (List.self_eq_append_right.mp he)

theorem not_below_nil : ¬ Below pkg [] := by
  rintro ⟨s, hs, he⟩
  exact hs (List.append_eq_nil_iff.mp he.symm).2

theorem Fresh.inside (h : Fresh os dir pkg w) : Inside pkg w w where
  grown := h.grown
  touched r hr := by
    rw [h.untouched] at hr
    cases hr
  outside _ _ := rfl

theorem Inside.there (h : Inside pkg w₀ w) (h₀ : Fresh os dir pkg w₀) :
    ∃ m, walk w.tree os.maxLinks [] ((dir.map os.fold).map .down) = .ok (pkg, m) :=
  let ⟨m, hm⟩ := h₀.there
  ⟨m, walk_congr h.outside h₀.empty hm⟩

theorem Inside.isDir (h : Inside pkg w₀ w) (h₀ : Fresh os dir pkg w₀) :
    isDir w.tree pkg = true := by
  rw [Tree.isDir, h.outside pkg not_below_self]
  exact h₀.isDir

/-! ## Clear paths -/

/-- No directory of `q`, under the package, is a link, unless the path that far is
not taken. -/
def Clear (os : Os) (dir : Path) (pkg : Real) (t : Disk) (q : List Name) : Prop :=
  ∀ s, s ≠ [] → s <+: q → isLink t (pkg ++ s.map os.fold) = false ∨ os.refuses (dir ++ s) = true

theorem Clear.shorter (h : Clear os dir pkg w.tree q) (hs : s <+: q) :
    Clear os dir pkg w.tree s :=
  fun r hr hrs => h r hr (hrs.trans hs)

theorem refuses_false {s : Path} (h : os.refuses (p ++ s) = false) : os.refuses p = false := by
  cases hp : os.refuses p with
  | false => rfl
  | true =>
    rw [os.refuses_append p s hp] at h
    cases h

theorem locate_concat (p : Path) (x : Name) (r : Real) :
    os.locate w.tree (p ++ [x]) = some r ↔ os.refuses (p ++ [x]) = false ∧
      place w.tree os.maxLinks (p.map os.fold) (os.fold x) = .ok r := by
  unfold Os.locate
  split
  · next h => simp [h]
  · next h =>
    simp only [h, List.map_append, List.map_cons, List.map_nil, List.getLast?_append,
      List.getLast?_singleton, List.dropLast_concat, Option.some_or]
    cases place w.tree os.maxLinks (p.map os.fold) (os.fold x) with
    | ok r' => simp [Except.toOption]
    | error e => simp [Except.toOption]

theorem Clear.located (h : Clear os dir pkg w.tree q) (hw : Inside pkg w₀ w)
    (h₀ : Fresh os dir pkg w₀) (hr : os.locate w.tree (dir ++ (q ++ [x])) = some r) :
    r = pkg ++ (q ++ [x]).map os.fold := by
  rw [← List.append_assoc, locate_concat] at hr
  obtain ⟨hrefuses, hplace⟩ := hr
  obtain ⟨m, hm⟩ := hw.there h₀
  rw [List.map_append] at hplace
  rw [List.map_append, List.map_cons, List.map_nil]
  refine place_names hm (fun s hs hsq => ?_) hplace
  obtain ⟨s, hs', rfl⟩ : ∃ s', s' <+: q ∧ s = s'.map os.fold := by
    refine ⟨q.take s.length, List.take_prefix .., ?_⟩
    rw [List.map_take]
    exact List.prefix_iff_eq_take.mp hsq
  refine (h s (fun hnil => hs (by rw [hnil]; rfl)) hs').resolve_right fun hno => ?_
  obtain ⟨rest, rfl⟩ := hs'
  rw [List.append_assoc, List.append_assoc, ← List.append_assoc] at hrefuses
  rw [refuses_false hrefuses] at hno
  cases hno

theorem locate_dirs (hw : Inside pkg w₀ w) (h₀ : Fresh os dir pkg w₀)
    (hdirs : ∀ s, s <+: q → isDir w.tree (pkg ++ s.map os.fold) = true)
    (hrefuses : os.refuses (dir ++ (q ++ [x])) = false) :
    os.locate w.tree (dir ++ (q ++ [x])) = some (pkg ++ (q ++ [x]).map os.fold) := by
  obtain ⟨m, hm⟩ := hw.there h₀
  rw [← List.append_assoc] at hrefuses ⊢
  rw [locate_concat]
  refine ⟨hrefuses, ?_⟩
  rw [List.map_append, List.map_append, List.map_cons, List.map_nil]
  refine place_dirs hm fun s hs => ?_
  have hs' : s = (q.take s.length).map os.fold := by
    rw [List.map_take]
    exact List.prefix_iff_eq_take.mp hs
  rw [hs']
  exact hdirs _ (List.take_prefix ..)

theorem locate_prefix (hw : Inside pkg w₀ w) (h₀ : Fresh os dir pkg w₀) (hp : p <+: dir)
    (hr : os.locate w.tree p = some r) : (w.tree r).isSome := by
  cases p using List.reverseRecOn with
  | nil =>
    have hroot : r = [] := by
      unfold Os.locate at hr
      split at hr
      · cases hr
      · cases hr
        rfl
    rw [hroot, hw.outside [] not_below_nil]
    exact isSome_of_isDir h₀.root
  | append_singleton p x =>
    obtain ⟨rest, rfl⟩ := hp
    obtain ⟨_, hplace⟩ := (locate_concat p x r).mp hr
    obtain ⟨m, hm⟩ := hw.there h₀
    rw [List.append_assoc, List.map_append, List.cons_append, List.map_cons] at hm
    exact place_isSome hm hplace

/-! ## The operations -/

def SameLinks (t t' : Disk) : Prop :=
  ∀ p rooted steps, t' p = some (.link rooted steps) ↔ t p = some (.link rooted steps)

theorem SameLinks.refl (t : Disk) : SameLinks t t := fun _ _ _ => Iff.rfl

theorem SameLinks.trans {t t' t'' : Disk} (h : SameLinks t t') (h' : SameLinks t' t'') :
    SameLinks t t'' := fun p rooted steps => (h' p rooted steps).trans (h p rooted steps)

theorem isLink_iff {t : Disk} {p : Real} :
    isLink t p = true ↔ ∃ rooted steps, t p = some (.link rooted steps) := by
  unfold isLink
  cases t p with
  | none => simp
  | some node => cases node <;> simp [Node.isLink]

theorem SameLinks.isLink {t t' : Disk} (h : SameLinks t t') (p : Real) :
    isLink t' p = isLink t p := by
  rw [Bool.eq_iff_iff, isLink_iff, isLink_iff]
  exact exists_congr fun rooted => exists_congr (h p rooted)

theorem Clear.mono (h : Clear os dir pkg w.tree q) (ht : SameLinks w.tree t.tree) :
    Clear os dir pkg t.tree q :=
  fun s hs hsq => (h s hs hsq).imp_left (ht.isLink _).trans

theorem sameLinks_put {t : Disk} {node : Node Name UInt8} (h : node.isLink = false)
    (hr : isLink t r = false) : SameLinks t (put t r node) := by
  intro p rooted steps
  by_cases he : p = r
  · subst he
    rw [put_self]
    refine iff_of_false (fun hp => ?_) fun hp => ?_
    · cases hp
      cases h
    · rw [isLink, hp] at hr
      cases hr
  · rw [put_of_ne he]

/-- The links below the package: each has its steps from the directory it is in,
and they are those of a list. -/
structure Made (os : Os) (dir : Path) (pkg : Real) (t : Disk) (links : List Path) : Prop where
  relative : Relative (below t pkg)
  listed : ∀ p, isLink t (pkg ++ p) = true → ∃ q, dir ++ q ∈ links ∧ q.map os.fold = p
  there : ∀ q, dir ++ q ∈ links → isLink t (pkg ++ q.map os.fold) = true

theorem Fresh.made (h : Fresh os dir pkg w) : Made os dir pkg w.tree [] := by
  have hnone : ∀ p, isLink w.tree (pkg ++ p) = false := by
    intro p
    cases p with
    | nil => rw [List.append_nil, isLink, isDir_iff.mp h.isDir]; rfl
    | cons x p => rw [isLink, h.empty _ (below_append (by simp))]; rfl
  refine ⟨fun p steps hp => ?_, fun p hp => ?_, fun q hq => absurd hq List.not_mem_nil⟩
  · have hlink := hnone p
    rw [isLink, show w.tree (pkg ++ p) = _ from hp] at hlink
    cases hlink
  · rw [hnone p] at hp
    cases hp

theorem Made.mono {t t' : Disk} (h : Made os dir pkg t links)
    (ht : SameLinks t t') : Made os dir pkg t' links where
  relative p steps hp := h.relative p steps ((ht _ true steps).mp hp)
  listed p hp := h.listed p (ht.isLink _ ▸ hp)
  there q hq := (ht.isLink _).trans (h.there q hq)

/-- One more link. -/
theorem Made.put {t : Disk} {steps : List (Step Name)} (h : Made os dir pkg t links) :
    Made os dir pkg (put t (pkg ++ s.map os.fold) (.link false steps)) (links ++ [dir ++ s]) := by
  have hlink : ∀ p, isLink (Tree.put t (pkg ++ s.map os.fold) (.link false steps)) (pkg ++ p) =
      (p = s.map os.fold || isLink t (pkg ++ p)) := by
    intro p
    by_cases he : p = s.map os.fold
    · rw [he, isLink, put_self]
      simp [Node.isLink]
    · rw [isLink, put_of_ne fun hp => he (List.append_cancel_left hp)]
      simp [he, isLink]
  refine ⟨fun p steps' hp => ?_, fun p hp => ?_, fun q hq => ?_⟩
  · by_cases he : pkg ++ p = pkg ++ s.map os.fold
    · rw [below, he, put_self] at hp
      cases hp
    · rw [below, put_of_ne he] at hp
      exact h.relative p steps' hp
  · rw [hlink, Bool.or_eq_true, decide_eq_true_iff] at hp
    obtain rfl | hp := hp
    · exact ⟨s, by simp, rfl⟩
    · obtain ⟨q, hq, he⟩ := h.listed p hp
      exact ⟨q, List.mem_append_left _ hq, he⟩
  · rw [hlink, Bool.or_eq_true, decide_eq_true_iff]
    obtain hq | hq := List.mem_append.mp hq
    · exact .inr (h.there q hq)
    · exact .inl (by rw [List.append_cancel_left (List.mem_singleton.mp hq)])

theorem Inside.put (hw : Inside pkg w₀ w) {node : Node Name UInt8} (hr : Below pkg r)
    (hparent : Tree.isDir w.tree r.dropLast = true) (hr' : Tree.isDir w.tree r = false) :
    Inside pkg w₀ (w.put r node) where
  grown := by
    obtain ⟨s, hs, rfl⟩ := hr
    cases s using List.reverseRecOn with
    | nil => exact absurd rfl hs
    | append_singleton s y =>
      rw [← List.append_assoc] at hparent hr' ⊢
      rw [List.dropLast_concat] at hparent
      exact hw.grown.put hparent hr'
  touched p hp := by
    obtain hp | hp := List.mem_append.mp hp
    · exact hw.touched p hp
    · rw [List.mem_singleton.mp hp]
      exact hr
  outside p hp := by
    have hne : p ≠ r := by
      rintro rfl
      exact hp hr
    exact (put_of_ne hne).trans (hw.outside p hp)

theorem locate_parent (hr : os.locate w.tree (p ++ [x]) = some r) :
    Tree.isDir w.tree r.dropLast = true := by
  obtain ⟨_, hplace⟩ := (locate_concat p x r).mp hr
  unfold place at hplace
  split at hplace
  · split at hplace
    · next hdir =>
      cases hplace
      rw [List.dropLast_concat]
      exact hdir
    · cases hplace
  · cases hplace

/-- A run that writes below the package alone and makes no link, with `Q` at its
end. -/
def Keeps (os : Os) (pkg : Real) (w₀ : World) {α : Type} (Q : α → World → Prop) (p : Steps α)
    (w : World) : Prop :=
  p.Safe (act os) (Inside pkg w₀)
    (fun a t => Inside pkg w₀ t ∧ SameLinks w.tree t.tree ∧ Q a t) w

/-- A run that writes below the package alone, with `Q` at its end. -/
def Stays (os : Os) (pkg : Real) (w₀ : World) {α : Type} (Q : α → World → Prop) (p : Steps α)
    (w : World) : Prop :=
  p.Safe (act os) (Inside pkg w₀) (fun a t => Inside pkg w₀ t ∧ Q a t) w

section
variable {α β : Type} {P : α → World → Prop} {Q : β → World → Prop} {p : Steps α}
  {f : α → Steps β}

theorem keeps_done {a : α} (hw : Inside pkg w₀ w) (h : P a w) :
    Keeps os pkg w₀ P (.done a) w :=
  ⟨hw, .refl _, h⟩

theorem Keeps.bind (h : Keeps os pkg w₀ P p w)
    (hf : ∀ a t, Inside pkg w₀ t → SameLinks w.tree t.tree → P a t →
      Keeps os pkg w₀ Q (f a) t) : Keeps os pkg w₀ Q (p >>= f) w :=
  safe_bind (h.mono (fun _ ht => ht) fun a t ⟨ht, hlinks, hp⟩ =>
    (hf a t ht hlinks hp).mono (fun _ hu => hu) fun _ _ ⟨hu, hlinks', hq⟩ =>
      ⟨hu, hlinks.trans hlinks', hq⟩)

theorem stays_done {a : α} (hw : Inside pkg w₀ w) (h : P a w) :
    Stays os pkg w₀ P (.done a) w := ⟨hw, h⟩

theorem Stays.bind (h : Stays os pkg w₀ P p w)
    (hf : ∀ a t, Inside pkg w₀ t → P a t → Stays os pkg w₀ Q (f a) t) :
    Stays os pkg w₀ Q (p >>= f) w :=
  safe_bind (h.mono (fun _ ht => ht) fun a t ⟨ht, hp⟩ => hf a t ht hp)

theorem Keeps.stays (h : Keeps os pkg w₀ P p w) :
    Stays os pkg w₀ (fun a t => SameLinks w.tree t.tree ∧ P a t) p w := h

end

theorem lstat_keeps (hw : Inside pkg w₀ w) (p : Path) :
    Keeps os pkg w₀ (fun r t => t = w ∧ r = ((os.locate w.tree p).bind w.tree).map kind)
      (lstat p) w := by
  intro luck r t ht
  cases ht
  exact ⟨hw, hw, .refl _, rfl, rfl⟩

theorem stat_keeps (hw : Inside pkg w₀ w) (p : Path) :
    Keeps os pkg w₀ (fun _ t => t = w) (stat p) w := by
  intro luck r t ht
  have hsame : t = w := by
    simp only [act] at ht
    split at ht <;> · cases ht; rfl
  subst hsame
  exact ⟨hw, hw, .refl _, rfl⟩

theorem evalSymlinks_keeps (hw : Inside pkg w₀ w) (p : Path) :
    Keeps os pkg w₀ (fun r t => t = w ∧ r = os.resolve w.tree p) (evalSymlinks p) w := by
  intro luck r t ht
  cases ht
  exact ⟨hw, hw, .refl _, rfl, rfl⟩

theorem close_keeps (hw : Inside pkg w₀ w) : Keeps os pkg w₀ (fun _ t => t = w) close w := by
  intro luck r t ht
  cases luck <;>
  · cases ht
    exact ⟨hw, hw, .refl _, rfl⟩

theorem write_keeps (hw : Inside pkg w₀ w) (hr : Below pkg r) (bs : Bytes) :
    Keeps os pkg w₀ (fun _ _ => True) (write r bs) w := by
  have hwrite : ∀ bs, Inside pkg w₀ (w.write r bs) ∧ SameLinks w.tree (w.write r bs).tree := by
    intro bs
    unfold World.write
    split
    · next old hold =>
      refine ⟨hw.put hr ?_ ?_, sameLinks_put rfl (by rw [isLink, hold]; rfl)⟩
      · obtain ⟨s, hs, rfl⟩ := hr
        cases s using List.reverseRecOn with
        | nil => exact absurd rfl hs
        | append_singleton s y =>
          rw [← List.append_assoc] at hold ⊢
          rw [List.dropLast_concat]
          exact hw.grown _ y (by rw [hold]; rfl)
      · rw [Tree.isDir, hold]
        rfl
    · exact ⟨hw, .refl _⟩
  intro luck a t ht
  cases luck <;>
  · cases ht
    obtain ⟨hin, hlinks⟩ := hwrite _
    exact ⟨hin, hin, hlinks, trivial⟩

/-- A path that directories are made at: the package's own, or clear below it. -/
def Passable (os : Os) (dir : Path) (pkg : Real) (w : World) (p : Path) : Prop :=
  p <+: dir ∨ ∃ q x, p = dir ++ (q ++ [x]) ∧ Clear os dir pkg w.tree q

theorem Passable.mono (h : Passable os dir pkg w p) (ht : SameLinks w.tree t.tree) :
    Passable os dir pkg t p :=
  h.imp_right fun ⟨q, x, he, hclear⟩ => ⟨q, x, he, hclear.mono ht⟩

theorem Clear.passable (h : Clear os dir pkg w.tree q) : Passable os dir pkg w (dir ++ q) := by
  cases q using List.reverseRecOn with
  | nil => exact .inl (by rw [List.append_nil])
  | append_singleton q x => exact .inr ⟨q, x, rfl, h.shorter (List.prefix_append ..)⟩

theorem Passable.init (h : Passable os dir pkg w (p ++ [x])) :
    Passable os dir pkg w p := by
  obtain h | ⟨q, y, he, hclear⟩ := h
  · exact .inl ((List.prefix_append ..).trans h)
  · rw [← List.append_assoc] at he
    rw [(List.append_inj' he rfl).1]
    exact hclear.passable

theorem mkdir_keeps (h₀ : Fresh os dir pkg w₀) (hw : Inside pkg w₀ w)
    (hp : Passable os dir pkg w p) : Keeps os pkg w₀ (fun _ _ => True) (mkdir p) w := by
  have hsame : Inside pkg w₀ w ∧ Inside pkg w₀ w ∧ SameLinks w.tree w.tree ∧ True :=
    ⟨hw, hw, .refl _, trivial⟩
  intro luck a t ht
  cases luck with
  | bad k =>
    cases ht
    exact hsame
  | good =>
    simp only [act] at ht
    cases hr : os.locate w.tree p with
    | none =>
      rw [hr] at ht
      cases ht
      exact hsame
    | some r =>
      rw [hr] at ht
      simp only [Option.map_some, Option.getD_some, World.mkdir] at ht
      split at ht
      · next hnone =>
        cases ht
        obtain hp | ⟨q, x, rfl, hclear⟩ := hp
        · have hsome := locate_prefix hw h₀ hp hr
          rw [Option.isNone_iff_eq_none.mp hnone] at hsome
          cases hsome
        · have hbelow : Below pkg r := by
            rw [hclear.located hw h₀ hr]
            exact below_append (by simp)
          rw [← List.append_assoc] at hr
          have hin : Inside pkg w₀ (w.put r .dir) := hw.put hbelow (locate_parent hr) (by
            rw [Tree.isDir, Option.isNone_iff_eq_none.mp hnone]
            rfl)
          refine ⟨hin, hin, sameLinks_put rfl ?_, trivial⟩
          rw [isLink, Option.isNone_iff_eq_none.mp hnone]
          rfl
      · cases ht
        exact hsame

theorem create_keeps (h₀ : Fresh os dir pkg w₀) (hw : Inside pkg w₀ w)
    (hclear : Clear os dir pkg w.tree q) :
    Keeps os pkg w₀ (fun r _ => ∀ r', r = some r' → Below pkg r') (create (dir ++ (q ++ [x])))
      w := by
  intro luck a t ht
  cases luck with
  | bad k =>
    cases ht
    exact ⟨hw, hw, .refl _, fun _ h => by cases h⟩
  | good =>
    simp only [act] at ht
    cases hr : os.locate w.tree (dir ++ (q ++ [x])) with
    | none =>
      rw [hr] at ht
      cases ht
      exact ⟨hw, hw, .refl _, fun _ h => by cases h⟩
    | some r =>
      rw [hr] at ht
      have hbelow : Below pkg r := by
        rw [hclear.located hw h₀ hr]
        exact below_append (by simp)
      have hparent : Tree.isDir w.tree r.dropLast = true := by
        rw [← List.append_assoc] at hr
        exact locate_parent hr
      simp only [Option.map_some, Option.getD_some, World.create] at ht
      split at ht
      · next hnone =>
        cases ht
        have hin : Inside pkg w₀ (w.put r (.file [])) := hw.put hbelow hparent (by
          rw [Tree.isDir, hnone]
          rfl)
        refine ⟨hin, hin, sameLinks_put rfl ?_, fun r' h => by cases h; exact hbelow⟩
        rw [isLink, hnone]
        rfl
      · next old hold =>
        cases ht
        have hin : Inside pkg w₀ (w.put r (.file [])) := hw.put hbelow hparent (by
          rw [Tree.isDir, hold]
          rfl)
        refine ⟨hin, hin, sameLinks_put rfl ?_, fun r' h => by cases h; exact hbelow⟩
        rw [isLink, hold]
        rfl
      · cases ht
        exact ⟨hw, hw, .refl _, fun _ h => by cases h⟩

theorem symlink_stays (h₀ : Fresh os dir pkg w₀) (hw : Inside pkg w₀ w)
    (hmade : Made os dir pkg w.tree links) (hclear : Clear os dir pkg w.tree q) {text : Name}
    (htext : isAbs text = false) :
    Stays os pkg w₀ (fun ok t => ok = true → Made os dir pkg t.tree (links ++ [dir ++ (q ++ [x])]))
      (symlink text (dir ++ (q ++ [x]))) w := by
  have hfailed : Inside pkg w₀ w ∧ Inside pkg w₀ w ∧
      (false = true → Made os dir pkg w.tree (links ++ [dir ++ (q ++ [x])])) :=
    ⟨hw, hw, fun h => by cases h⟩
  intro luck a t ht
  cases luck with
  | bad k =>
    cases ht
    exact hfailed
  | good =>
    simp only [act] at ht
    split at ht
    · cases ht
      exact hfailed
    · cases hr : os.locate w.tree (dir ++ (q ++ [x])) with
      | none =>
        rw [hr] at ht
        cases ht
        exact hfailed
      | some r =>
        rw [hr] at ht
        simp only [Option.map_some, Option.getD_some, World.symlink] at ht
        split at ht
        · next hnone =>
          cases ht
          obtain rfl := hclear.located hw h₀ hr
          rw [← List.append_assoc] at hr
          have hin : Inside pkg w₀ (w.put (pkg ++ (q ++ [x]).map os.fold)
              (os.linkNode text)) :=
            hw.put (below_append (by simp)) (locate_parent hr) (by
              rw [Tree.isDir, Option.isNone_iff_eq_none.mp hnone]
              rfl)
          refine ⟨hin, hin, fun _ => ?_⟩
          rw [Os.linkNode, htext]
          exact hmade.put
        · cases ht
          exact hfailed

/-! ## The program -/

theorem makeDir_keeps (h₀ : Fresh os dir pkg w₀) (hw : Inside pkg w₀ w)
    (hp : Passable os dir pkg w p) {parents : Steps Bool}
    (hparents : Keeps os pkg w₀ (fun _ _ => True) parents w) :
    Keeps os pkg w₀ (fun _ _ => True) (makeDir p parents) w := by
  refine (stat_keeps hw p).bind fun k t ht _ hsame => ?_
  subst hsame
  cases k with
  | some k => cases k <;> exact keeps_done ht trivial
  | none =>
    refine hparents.bind fun ok u hu hlinks _ => ?_
    cases ok with
    | false => exact keeps_done hu trivial
    | true =>
      refine (mkdir_keeps h₀ hu (hp.mono hlinks)).bind fun made v hv _ _ => ?_
      cases made with
      | true => exact keeps_done hv trivial
      | false => exact (lstat_keeps hv p).bind fun k x hx _ _ => keeps_done hx trivial

theorem mkdirAll_keeps (h₀ : Fresh os dir pkg w₀) (hw : Inside pkg w₀ w)
    (hp : Passable os dir pkg w p) : Keeps os pkg w₀ (fun _ _ => True) (mkdirAll p) w := by
  suffices ∀ up : List Name, Passable os dir pkg w up.reverse →
      Keeps os pkg w₀ (fun _ _ => True) (mkdirUp up) w by
    exact this p.reverse (by rwa [List.reverse_reverse])
  intro up
  induction up with
  | nil => exact fun hp => makeDir_keeps h₀ hw hp (keeps_done hw trivial)
  | cons x up ih =>
    intro hp
    refine makeDir_keeps h₀ hw hp (ih ?_)
    rw [List.reverse_cons] at hp
    exact hp.init

theorem copy_keeps (hr : Below pkg r) (chunks : List Bytes) (hw : Inside pkg w₀ w) :
    Keeps os pkg w₀ (fun _ _ => True) (copy r chunks) w := by
  induction chunks generalizing w with
  | nil => exact keeps_done hw trivial
  | cons bs rest ih =>
    refine (write_keeps hw hr bs).bind fun ok t ht _ _ => ?_
    cases ok with
    | true => exact ih ht
    | false => exact keeps_done ht trivial

theorem writeEntry_keeps (h₀ : Fresh os dir pkg w₀) (hw : Inside pkg w₀ w)
    (hclear : Clear os dir pkg w.tree q) (e : Entry) :
    Keeps os pkg w₀ (fun _ _ => True) (writeEntry (dir ++ (q ++ [x])) e) w := by
  have hparent : (dir ++ (q ++ [x])).dropLast = dir ++ q := by
    rw [← List.append_assoc, List.dropLast_concat]
  rw [writeEntry, hparent]
  refine (mkdirAll_keeps h₀ hw hclear.passable).bind fun ok t ht hlinks _ => ?_
  cases ok with
  | false => exact keeps_done ht trivial
  | true =>
    refine (create_keeps h₀ ht (hclear.mono hlinks)).bind fun r u hu _ hr => ?_
    cases r with
    | none => exact keeps_done hu trivial
    | some r =>
      refine (copy_keeps (hr r rfl) e.chunks hu).bind fun copied v hv _ _ => ?_
      exact (close_keeps hv).bind fun closed y hy _ _ => keeps_done hy trivial

theorem rel_append (q : List Name) : rel dir (dir ++ q) = q := by
  induction dir with
  | nil => cases q <;> rfl
  | cons b base ih => rw [List.cons_append, rel, if_pos rfl, ih]

theorem Clear.nil : Clear os dir pkg w.tree [] :=
  fun _ hs hsq => absurd (List.prefix_nil.mp hsq) hs

/-- A name that is looked at, and what is there, when the path before it is
clear: nothing is a link there, or at it further on, unless it is not taken. -/
theorem Clear.concat (hw : Inside pkg w₀ w) (h₀ : Fresh os dir pkg w₀)
    (hclear : Clear os dir pkg w.tree q)
    (hk : ((os.locate w.tree (dir ++ (q ++ [x]))).bind w.tree).map kind ≠ some .link)
    (rest : List Name) (hrest : rest = [] ∨
      ((os.locate w.tree (dir ++ (q ++ [x]))).bind w.tree).map kind = none) :
    Clear os dir pkg w.tree (q ++ x :: rest) := by
  intro s hs hsq
  by_cases hshort : s <+: q
  · exact hclear s hs hshort
  -- The name, and some of what follows it.
  obtain ⟨more, rfl⟩ : ∃ more, s = q ++ x :: more := by
    obtain ⟨tail, rfl⟩ := (List.prefix_or_prefix_of_prefix hsq (List.prefix_append ..)).resolve_left
      hshort
    rw [List.prefix_append_right_inj] at hsq
    cases tail with
    | nil => exact absurd (by rw [List.append_nil]) hshort
    | cons y tail =>
      obtain ⟨rfl, _⟩ := List.cons_prefix_cons.mp hsq
      exact ⟨tail, rfl⟩
  by_contra hno
  obtain ⟨hlink, htaken⟩ := not_or.mp hno
  rw [Bool.not_eq_false] at hlink
  rw [Bool.not_eq_true] at htaken
  have hsome : (w.tree (pkg ++ (q ++ x :: more).map os.fold)).isSome := by
    unfold isLink at hlink
    cases hn : w.tree (pkg ++ (q ++ x :: more).map os.fold) with
    | none => rw [hn] at hlink; cases hlink
    | some node => rfl
  have hdirs : ∀ s, s <+: q → isDir w.tree (pkg ++ s.map os.fold) = true := by
    rintro s ⟨after, rfl⟩
    refine hw.grown.dirs (q := (after ++ x :: more).map os.fold) (by simp) ?_
    rw [List.append_assoc, ← List.map_append, ← List.append_assoc]
    exact hsome
  have hassoc : dir ++ (q ++ x :: more) = (dir ++ (q ++ [x])) ++ more := by simp
  rw [hassoc] at htaken
  have hlocated := locate_dirs hw h₀ hdirs (refuses_false htaken)
  rw [hlocated, Option.bind_some] at hk hrest
  cases more with
  | nil =>
    cases hn : w.tree (pkg ++ (q ++ [x]).map os.fold) with
    | none => rw [hn] at hsome; cases hsome
    | some node =>
      unfold isLink at hlink
      rw [hn] at hlink hk
      cases node with
      | dir => cases hlink
      | file bytes => cases hlink
      | link rooted steps => exact hk rfl
  | cons y more =>
    have hdir : isDir w.tree (pkg ++ (q ++ [x]).map os.fold) = true := by
      refine hw.grown.dirs (q := (y :: more).map os.fold) (by simp) ?_
      rw [List.append_assoc, ← List.map_append, List.append_assoc]
      exact hsome
    rw [isDir_iff.mp hdir] at hrest
    obtain rfl | hrest := hrest
    · obtain ⟨tail, htail⟩ := hsq
      simp at htail
    · cases hrest

theorem throughLink_keeps (h₀ : Fresh os dir pkg w₀) (hw : Inside pkg w₀ w)
    {done parts : List Name} (hparts : ∀ n ∈ parts, Plain n)
    (hclear : Clear os dir pkg w.tree done) :
    Keeps os pkg w₀ (fun b t => t = w ∧ (b = false → Clear os dir pkg w.tree (done ++ parts)))
      (throughLink (dir ++ done) parts) w := by
  induction parts generalizing done with
  | nil => exact keeps_done hw ⟨rfl, fun _ => by rwa [List.append_nil]⟩
  | cons part parts ih =>
    have hjoin : join (dir ++ done) part = dir ++ (done ++ [part]) := by
      rw [join_plain (hparts part List.mem_cons_self), List.append_assoc]
    rw [throughLink, hjoin]
    refine (lstat_keeps hw _).bind fun k t ht _ ⟨hsame, hk⟩ => ?_
    subst hsame
    have hnext : k ≠ some .link → Clear os dir pkg t.tree (done ++ [part]) := fun hne =>
      hclear.concat hw h₀ (hk ▸ hne) [] (.inl rfl)
    have hgo := fun hne => ih (fun n hn => hparts n (List.mem_cons_of_mem _ hn)) (hnext hne)
    rw [List.append_assoc] at hgo
    cases k with
    | none =>
      refine keeps_done hw ⟨rfl, fun _ => ?_⟩
      exact hclear.concat hw h₀ (by rw [← hk]; simp) parts (.inr hk.symm)
    | some k =>
      cases k with
      | link => exact keeps_done hw ⟨rfl, fun h => by cases h⟩
      | dir => exact hgo (by decide)
      | file => exact hgo (by decide)

theorem goesThroughLink_keeps (h₀ : Fresh os dir pkg w₀) (hw : Inside pkg w₀ w)
    (hq : ∀ n ∈ q, Plain n) :
    Keeps os pkg w₀ (fun b t => t = w ∧ (b = false → Clear os dir pkg w.tree q))
      (goesThroughLink dir (dir ++ (q ++ [x]))) w := by
  have hparent : (dir ++ (q ++ [x])).dropLast = dir ++ q := by
    rw [← List.append_assoc, List.dropLast_concat]
  rw [goesThroughLink, hparent, rel_append]
  cases q with
  | nil =>
    -- Only the package itself is looked at, and nothing is on the way.
    refine (lstat_keeps hw _).bind fun k t ht _ ⟨hsame, _⟩ => ?_
    subst hsame
    cases k with
    | none => exact keeps_done hw ⟨rfl, fun _ => Clear.nil⟩
    | some k => cases k <;> exact keeps_done hw ⟨rfl, fun _ => Clear.nil⟩
  | cons y q =>
    have hgo := throughLink_keeps h₀ hw hq (Clear.nil (w := w))
    rw [List.append_nil, List.nil_append] at hgo
    exact hgo

/-- A link that the check lets be: it leads nowhere, or into the package. -/
def Passes (os : Os) (pkg : Real) (t : Disk) (link : Path) : Prop :=
  os.resolve t link = .absent ∨ ∃ r, os.resolve t link = .at r ∧ inside pkg r = true

theorem followLinks_keeps (p : Real) (links : List Path) (hw : Inside pkg w₀ w) :
    Keeps os pkg w₀ (fun a t => t = w ∧ (a = .ok () → ∀ link ∈ links, Passes os p w.tree link))
      (followLinks p links) w := by
  induction links with
  | nil => exact keeps_done hw ⟨rfl, fun _ _ h => by cases h⟩
  | cons link links ih =>
    refine (evalSymlinks_keeps hw link).bind fun r t ht _ ⟨hsame, hr⟩ => ?_
    subst hsame
    have hgo : Passes os p t.tree link → Keeps os pkg w₀ (fun a u => u = t ∧
        (a = .ok () → ∀ l ∈ link :: links, Passes os p t.tree l)) (followLinks p links) t :=
      fun hlink => ih.mono (fun _ hu => hu) fun a u ⟨hu, hlinks, hsame, hall⟩ =>
        ⟨hu, hlinks, hsame, fun ha => List.forall_mem_cons.mpr ⟨hlink, hall ha⟩⟩
    cases r with
    | absent => exact hgo (.inl hr.symm)
    | failed => exact keeps_done ht ⟨rfl, fun h => by cases h⟩
    | «at» r =>
      change Keeps os pkg w₀ _ (if inside p r then _ else _) t
      split
      · next hin => exact hgo (.inr ⟨r, hr.symm, hin⟩)
      · exact keeps_done ht ⟨rfl, fun h => by cases h⟩

theorem linksStayInside_keeps (h₀ : Fresh os dir pkg w₀) (links : List Path)
    (hw : Inside pkg w₀ w) :
    Keeps os pkg w₀ (fun a t => t = w ∧ (a = .ok () → ∀ link ∈ links, Passes os pkg w.tree link))
      (linksStayInside dir links) w := by
  refine (evalSymlinks_keeps hw dir).bind fun r t ht _ ⟨hsame, hr⟩ => ?_
  subst hsame
  cases r with
  | «at» p =>
    obtain ⟨m, hm⟩ := hw.there h₀
    have hp : p = pkg := by
      unfold Os.resolve at hr
      rw [hm] at hr
      split at hr <;> cases hr
      rfl
    subst hp
    exact followLinks_keeps p links ht
  | absent | failed => exact keeps_done ht ⟨rfl, fun h => by cases h⟩

theorem makeLink_stays (h₀ : Fresh os dir pkg w₀) (hw : Inside pkg w₀ w)
    (hmade : Made os dir pkg w.tree links) (hclear : Clear os dir pkg w.tree q) (e : Entry)
    (htext : isAbs e.link = false) :
    Stays os pkg w₀ (fun ok t => ok = true → Made os dir pkg t.tree (links ++ [dir ++ (q ++ [x])]))
      (makeLink e (dir ++ (q ++ [x]))) w := by
  have hparent : (dir ++ (q ++ [x])).dropLast = dir ++ q := by
    rw [← List.append_assoc, List.dropLast_concat]
  rw [makeLink, hparent]
  exact (mkdirAll_keeps h₀ hw hclear.passable).stays.bind fun _ t ht ⟨hlinks, _⟩ =>
    symlink_stays h₀ ht (hmade.mono hlinks) (hclear.mono hlinks) htext

theorem safeTarget_concat {name : Name} {strip : Nat} {target : Path}
    (h : safeTarget dir name strip = some target) :
    ∃ q x, target = dir ++ (q ++ [x]) ∧ (∀ n ∈ q, Plain n) := by
  obtain ⟨rel, hne, hplain, rfl⟩ := safeTarget_below h
  cases rel using List.reverseRecOn with
  | nil => exact absurd rfl hne
  | append_singleton q x => exact ⟨q, x, rfl, fun n hn => hplain n (List.mem_append_left _ hn)⟩

theorem tarEntries_stays (h₀ : Fresh os dir pkg w₀) (strip : Nat) (broken : Bool)
    (entries : List Entry) (hw : Inside pkg w₀ w) (hmade : Made os dir pkg w.tree links) :
    Stays os pkg w₀ (fun a t => ∀ links, a = .ok links → Made os dir pkg t.tree links)
      (tarEntries dir strip broken entries links) w := by
  have hfailed : ∀ {e : Failure} {t : World}, Inside pkg w₀ t →
      Stays os pkg w₀ (fun (a : Except Failure (List Path)) t =>
        ∀ links, a = .ok links → Made os dir pkg t.tree links) (.done (.error e)) t :=
    fun ht => stays_done ht fun _ h => by cases h
  induction entries generalizing w links with
  | nil =>
    cases broken with
    | true => exact hfailed hw
    | false => exact stays_done hw fun _ h => by cases h; exact hmade
  | cons e entries ih =>
    rw [tarEntries]
    cases htarget : safeTarget dir e.name strip with
    | none => exact ih hw hmade
    | some target =>
      obtain ⟨q, x, rfl, hq⟩ := safeTarget_concat htarget
      refine (goesThroughLink_keeps h₀ hw hq).stays.bind fun through t ht ⟨_, hsame, hno⟩ => ?_
      subst hsame
      cases through with
      | true => exact hfailed ht
      | false =>
        have hclear := hno rfl
        cases hkind : e.kind with
        | dir =>
          have hpass : Passable os dir pkg t (dir ++ (q ++ [x])) := .inr ⟨q, x, rfl, hclear⟩
          exact (mkdirAll_keeps h₀ ht hpass).stays.bind fun _ u hu ⟨hlinks, _⟩ =>
            ih hu (hmade.mono hlinks)
        | reg =>
          refine (writeEntry_keeps h₀ ht hclear e).stays.bind fun ok u hu ⟨hlinks, _⟩ => ?_
          cases ok with
          | true => exact ih hu (hmade.mono hlinks)
          | false => exact hfailed hu
        | symlink =>
          simp only []
          split
          · exact hfailed ht
          · next hrefused =>
            rw [Bool.or_eq_true, not_or, Bool.not_eq_true (isAbs e.link)] at hrefused
            refine (makeLink_stays h₀ ht hmade hclear e hrefused.2).bind fun ok u hu h => ?_
            cases ok with
            | true => exact ih hu (h rfl)
            | false => exact hfailed hu
        | other => exact ih ht hmade

theorem zipEntries_stays (h₀ : Fresh os dir pkg w₀) (strip : Nat) (entries : List Entry)
    (hw : Inside pkg w₀ w) (hlinks : ∀ p, Below pkg p → isLink w.tree p = false) :
    Stays os pkg w₀ (fun _ _ => True) (zipEntries dir strip entries) w := by
  induction entries generalizing w with
  | nil => exact stays_done hw trivial
  | cons e entries ih =>
    have hrest : ∀ t, Inside pkg w₀ t → SameLinks w.tree t.tree →
        Stays os pkg w₀ (fun _ _ => True) (zipEntries dir strip entries) t :=
      fun t ht hsame => ih ht fun p hp => (hsame.isLink p).trans (hlinks p hp)
    rw [zipEntries]
    cases htarget : safeTarget dir e.name strip with
    | none => exact ih hw hlinks
    | some target =>
      obtain ⟨q, x, rfl, _⟩ := safeTarget_concat htarget
      have hclear : Clear os dir pkg w.tree q := fun s hs _ =>
        .inl (hlinks _ (below_append (by simpa using hs)))
      cases e.kind with
      | dir =>
        have hpass : Passable os dir pkg w (dir ++ (q ++ [x])) := .inr ⟨q, x, rfl, hclear⟩
        exact (mkdirAll_keeps h₀ hw hpass).stays.bind fun _ t ht ⟨hsame, _⟩ => hrest t ht hsame
      | symlink => exact stays_done hw trivial
      | reg | other =>
        simp only []
        split
        · refine (writeEntry_keeps h₀ hw hclear e).stays.bind fun ok t ht ⟨hsame, _⟩ => ?_
          cases ok with
          | true => exact hrest t ht hsame
          | false => exact stays_done ht trivial
        · exact stays_done hw trivial

/-! ## Every archive -/

inductive Format where
  | tarGz
  | zip

def extract : Format → Archive → Path → Nat → Steps Result
  | .tarGz => extractTarGz
  | .zip => extractZip

theorem extract_stays (h₀ : Fresh os dir pkg w₀) (format : Format) (a : Archive) (strip : Nat) :
    Stays os pkg w₀ (fun _ _ => True) (extract format a dir strip) w₀ := by
  cases format with
  | tarGz =>
    rw [extract, extractTarGz]
    split
    · refine (tarEntries_stays h₀ strip a.broken a.entries h₀.inside h₀.made).bind
        fun r t ht _ => ?_
      cases r with
      | error e => exact stays_done ht trivial
      | ok links =>
        exact (linksStayInside_keeps h₀ links ht).mono (fun _ hu => hu) fun _ _ h =>
          ⟨h.1, trivial⟩
    · exact stays_done h₀.inside trivial
  | zip =>
    rw [extract, extractZip]
    split
    · exact zipEntries_stays h₀ strip a.entries h₀.inside fun p hp => by
        rw [isLink, h₀.empty p hp]
        rfl
    · exact stays_done h₀.inside trivial

/-- Whatever is in the archive, and wherever the unpacking of it stops, what was
created, truncated, written or made is really inside the directory, and nothing
else has changed. -/
theorem extract_inside (h₀ : Fresh os dir pkg w₀) (format : Format) (a : Archive) (strip : Nat)
    {lucks : List Luck} {left : Steps Result}
    (h : (extract format a dir strip).after (act os) w₀ lucks = some (left, w)) :
    (∀ r ∈ w.touched, Below pkg r) ∧ ∀ p, ¬ Below pkg p → w.tree p = w₀.tree p := by
  have hin := (extract_stays h₀ format a strip).after h₀.inside h
  exact ⟨hin.touched, hin.outside⟩

/-! ### An entry through a link -/

def plainOs : Os := ⟨id, 40, fun _ => false, fun _ _ h => h⟩

def pkgPath : Path := [['p', 'k', 'g']]

def emptyPackage : World := ⟨fun p => if p = [] ∨ p = pkgPath then some .dir else none, []⟩

def entry (name : Name) (kind : EntryKind) (link : Name) (chunks : List Bytes) : Entry :=
  ⟨name, kind, link, true, chunks, false⟩

/-- A link up to `top`, and a file through it. -/
def planted : Archive where
  opens := true
  entries := [entry ['t', '/'] .dir [] [], entry ['x', '/', 'u'] .symlink ['.', '.', '/', 't'] [],
    entry ['x', '/', 'f'] .reg [] [[1], [2]], entry ['x', '/', 'u', '/', 'p'] .reg [] [[3]]]
  broken := false

theorem emptyPackage_fresh : Fresh plainOs pkgPath pkgPath emptyPackage where
  grown p x h := by
    have hp : p = [] := by
      simp only [emptyPackage] at h
      split at h
      · next he =>
        obtain he | he := he
        · simp at he
        · cases p with
          | nil => rfl
          | cons y p => simp [pkgPath] at he
      · cases h
    subst hp
    rfl
  root := rfl
  there := ⟨40, rfl⟩
  isDir := rfl
  empty := by
    rintro p ⟨q, hq, rfl⟩
    simp [emptyPackage, pkgPath, hq]
  untouched := rfl

theorem planted_inside :
    ∃ w, (extract .tarGz planted pkgPath 0).after (act plainOs) emptyPackage
        (List.replicate 17 .good) =
          some (.done (.error (.throughLink ['x', '/', 'u', '/', 'p'])), w) ∧
      w.tree [['p', 'k', 'g'], ['x'], ['f']] = some (.file [1, 2]) ∧
      (∀ r ∈ w.touched, Below pkgPath r) ∧
      ∀ p, ¬ Below pkgPath p → w.tree p = emptyPackage.tree p := by
  have hrun : ∃ w, (extract .tarGz planted pkgPath 0).after (act plainOs) emptyPackage
      (List.replicate 17 .good) =
        some (.done (.error (.throughLink ['x', '/', 'u', '/', 'p'])), w) ∧
      w.tree [['p', 'k', 'g'], ['x'], ['f']] = some (.file [1, 2]) := ⟨_, rfl, rfl⟩
  obtain ⟨w, hw, hfile⟩ := hrun
  exact ⟨w, hw, hfile, extract_inside emptyPackage_fresh .tarGz planted 0 hw⟩

end LocalBase.Unpack
