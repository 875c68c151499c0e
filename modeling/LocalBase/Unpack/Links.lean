import LocalBase.Lib.Subtree
import LocalBase.Unpack.Inside
import Mathlib.Data.Finset.Preimage

/-!
# Where the links of a package lead

`linksStayInside` follows each link of a package where the package is made, and
lets be one that leads nowhere. But by way of other links a link can go up from
the package's top and down to a name that is not there, or to the package by the
name it has until it is moved. Once it is moved, another package may have that
name. The check refuses every other link that goes up, so the links of a package
that was accepted stay inside it just when there is none of these two kinds.
-/

namespace LocalBase.Unpack

open Program Tree

/-! ## A package that is moved -/

/-- The package at a place, at some later time: its directories and links are
those it was made with. -/
structure Moved (pkg : Real) (t : Disk) (place : Real) (later : Disk) : Prop where
  away : place ≠ []
  grown : Grown later
  same : SameFrame (below later place) (below t pkg)

/-- Wherever the package is moved to and whatever is around it, a link of it that
leads anywhere leads into it. -/
def LinksStay (pkg : Real) (t : Disk) : Prop :=
  ∀ place later, Moved pkg t place later → ∀ p, isLink t (pkg ++ p) = true →
    ∀ n r m, walk later n [] ((place ++ p).map .down) = .ok (r, m) → place <+: r

/-- A path of the package that goes up from its top, followed step by step and
through links of the package alone. -/
def GoesUp (pkg : Real) (t : Disk) (p : Real) : Prop :=
  ∃ n, leaves (below t pkg) n [] (p.map .down) = true

def NoneLeaves (pkg : Real) (t : Disk) : Prop :=
  ∀ p, isLink t (pkg ++ p) = true → ¬ GoesUp pkg t p

section
variable {pkg place : Real} {t later : Disk}

theorem Moved.isDir (h : Moved pkg t place later) (hpkg : isDir t pkg = true) :
    isDir later place = true := by
  have htop := h.same.isDir []
  unfold Tree.isDir below at htop
  rw [List.append_nil, List.append_nil] at htop
  rw [Tree.isDir, htop]
  exact hpkg

theorem Moved.walk (h : Moved pkg t place later) (hpkg : Tree.isDir t pkg = true) (n : Nat)
    (p : Real) :
    Tree.walk later n [] ((place ++ p).map .down) = Tree.walk later n place (p.map .down) := by
  have hdirs : Tree.walk later n [] (place.map .down) = .ok (place, n) := by
    refine walk_dirs n fun s hs => ?_
    obtain ⟨rest, rfl⟩ := hs
    cases rest with
    | nil =>
      rw [List.append_nil] at h
      exact h.isDir hpkg
    | cons x rest =>
      exact h.grown.dirs (q := x :: rest) (by simp) (isSome_of_isDir (h.isDir hpkg))
  rw [List.map_append, walk_append, hdirs]
  rfl

theorem moved_elsewhere {out : Disk} (hgrown : Grown t) (hout : Grown out) (haway : place ≠ [])
    (hplace : ∀ p x, place = p ++ [x] → isDir out p = true) :
    Moved pkg t place (elsewhere t out pkg place) where
  away := haway
  grown := hgrown.elsewhere hout hplace
  same := by
    rw [below_elsewhere]
    exact fun _ => rfl

theorem exists_fresh (steps : List (Step Name)) : ∃ x, Step.down x ∉ steps := by
  classical
  have hinj : Function.Injective (Step.down : Name → Step Name) := fun _ _ h => by
    cases h
    rfl
  have := Infinite.of_injective _ hinj
  obtain ⟨x, hx⟩ := Infinite.exists_notMem_finset (steps.toFinset.preimage .down hinj.injOn)
  exact ⟨x, by simpa using hx⟩

theorem linksStay_iff (hgrown : Grown t) (hpkg : isDir t pkg = true)
    (hrel : Relative (below t pkg)) : LinksStay pkg t ↔ NoneLeaves pkg t := by
  constructor
  · rintro h p hp ⟨n, hleaves⟩
    obtain ⟨m, rest, hrest⟩ := walk_leaves hrel hleaves
    -- The package is moved to a name that the walk does not come back by.
    obtain ⟨x, hx⟩ := exists_fresh rest
    have hmoved : Moved pkg t [x] (elsewhere t (fun _ => some .dir) pkg [x]) :=
      moved_elsewhere hgrown (fun _ _ _ => rfl) (by simp) fun _ _ _ => rfl
    obtain ⟨r, hr, hout⟩ : ∃ r, Tree.walk (elsewhere t (fun _ => some .dir) pkg [x]) m [] rest =
        .ok (r, m) ∧ ¬ [x] <+: r :=
      walk_around (fun q hq => elsewhere_out hq) (by simpa using hx) (by simp)
    refine hout (h _ _ hmoved p hp n r m ?_)
    have hwalk := hrest _ _ hmoved.away hmoved.same
    rw [List.append_nil] at hwalk
    rw [hmoved.walk hpkg, hwalk]
    exact hr
  · intro h place later hmoved p hp n r m hr
    rw [hmoved.walk hpkg] at hr
    have hstays : leaves (below t pkg) n [] (p.map .down) = false :=
      Bool.eq_false_iff.mpr fun hleaves => h p hp ⟨n, hleaves⟩
    refine walk_stays (m := m) hmoved.same hrel hstays ?_
    rwa [List.append_nil]

end

/-! ## The check -/

section
variable {os : Os} {dir : Path} {pkg : Real} {w₀ w : World} {lucks : List Luck}

/-- No link of a list that the check lets be goes up from the package's top, of
either kind. -/
structure StaysUnder (os : Os) (dir : Path) (pkg : Real) (t : Disk) (links : List Path) :
    Prop where
  /-- Of those it skips, since they lead nowhere. -/
  nowhere : ∀ q, dir ++ q ∈ links → os.resolve t (dir ++ q) = .absent →
    ¬ GoesUp pkg t (q.map os.fold)
  /-- Of those that lead into the package, though by the name it has there. -/
  back : ∀ q r, dir ++ q ∈ links → os.resolve t (dir ++ q) = .at r → pkg <+: r →
    ¬ GoesUp pkg t (q.map os.fold)

theorem prefix_of_inside {p : Path} (h : inside pkg p = true) : pkg <+: p := by
  rw [inside, Bool.and_eq_true] at h
  exact List.isPrefixOf_iff_prefix.mp h.1

/-- Among links that all pass the check there are only the two kinds. -/
theorem noneLeaves_iff {t : Disk} {links : List Path} (hmade : Made os dir pkg t links)
    (hpass : ∀ link ∈ links, Passes os pkg t link) :
    NoneLeaves pkg t ↔ StaysUnder os dir pkg t links := by
  constructor
  · intro h
    exact ⟨fun q hq _ => h _ (hmade.there q hq), fun q r hq _ _ => h _ (hmade.there q hq)⟩
  · intro h p hp
    obtain ⟨q, hq, rfl⟩ := hmade.listed p hp
    obtain habsent | ⟨r, hr, hin⟩ := hpass _ hq
    · exact h.nowhere q hq habsent
    · exact h.back q r hq hr (prefix_of_inside hin)

/-- An archive that was accepted was unpacked, and then its links were checked. -/
theorem extractTarGz_accepts {a : Archive} {strip : Nat}
    (h : (extractTarGz a dir strip).after (act os) w₀ lucks = some (.done (.ok ()), w)) :
    ∃ links lucks₁ lucks₂ t, lucks = lucks₁ ++ lucks₂ ∧
      (tarEntries dir strip a.broken a.entries []).after (act os) w₀ lucks₁ =
        some (.done (.ok links), t) ∧
      (linksStayInside dir links).after (act os) t lucks₂ = some (.done (.ok ()), w) := by
  rw [extractTarGz] at h
  split at h
  · obtain ⟨lucks₁, lucks₂, r, t, hlucks, hunpacked, hcheck⟩ := after_bind h
    cases r with
    | error e => cases lucks₂ <;> cases hcheck
    | ok links => exact ⟨links, lucks₁, lucks₂, t, hlucks, hunpacked, hcheck⟩
  · cases lucks <;> cases h

/-- The links of a package that was accepted stay inside it, wherever it is moved
to and whatever is around it by then, if and only if, on the disk that
`linksStayInside` was given, neither one that it skipped goes up from the
package's top, nor one that it found to lead into the package. -/
theorem package_links_stay_iff (h₀ : Fresh os dir pkg w₀) (a : Archive) (strip : Nat)
    (h : (extractTarGz a dir strip).after (act os) w₀ lucks = some (.done (.ok ()), w)) :
    ∃ links lucks₁ lucks₂ t, lucks = lucks₁ ++ lucks₂ ∧
      (tarEntries dir strip a.broken a.entries []).after (act os) w₀ lucks₁ =
        some (.done (.ok links), t) ∧
      (linksStayInside dir links).after (act os) t lucks₂ = some (.done (.ok ()), w) ∧
      (LinksStay pkg w.tree ↔ StaysUnder os dir pkg t.tree links) := by
  obtain ⟨links, lucks₁, lucks₂, t, hlucks, hunpacked, hcheck⟩ := extractTarGz_accepts h
  obtain ⟨hin, hmade⟩ :=
    (tarEntries_stays h₀ strip a.broken a.entries h₀.inside h₀.made).ends hunpacked
  obtain ⟨_, _, hsame, hpass⟩ := (linksStayInside_keeps h₀ links hin).ends hcheck
  subst hsame
  refine ⟨links, lucks₁, lucks₂, w, hlucks, hunpacked, hcheck, ?_⟩
  rw [linksStay_iff hin.grown (hin.isDir h₀) (hmade links rfl).relative]
  exact noneLeaves_iff (hmade links rfl) (hpass rfl)

end

/-- A directory, and a link to it. -/
def linked : Archive where
  opens := true
  entries := [entry ['v', '/'] .dir [] [], entry ['c'] .symlink ['v'] []]
  broken := false

theorem package_links_stay_iff_linked :
    ∃ w links lucks₁ lucks₂ t, List.replicate 9 Luck.good = lucks₁ ++ lucks₂ ∧
      (tarEntries pkgPath 0 false linked.entries []).after (act plainOs) emptyPackage lucks₁ =
        some (.done (.ok links), t) ∧
      (linksStayInside pkgPath links).after (act plainOs) t lucks₂ = some (.done (.ok ()), w) ∧
      (LinksStay pkgPath w.tree ↔ StaysUnder plainOs pkgPath pkgPath t.tree links) := by
  have hrun : ∃ w, (extractTarGz linked pkgPath 0).after (act plainOs) emptyPackage
      (List.replicate 9 .good) = some (.done (.ok ()), w) := ⟨_, rfl⟩
  obtain ⟨w, hw⟩ := hrun
  exact ⟨w, package_links_stay_iff emptyPackage_fresh linked 0 hw⟩

/-! ### A link to a name beside the package -/

/-- A link up to `t`, and one by way of it up to a name beside the package. -/
def escaping : Archive where
  opens := true
  entries := [entry ['t', '/'] .dir [] [], entry ['x', '/', 'y', '/'] .dir [] [],
    entry ['x', '/', 'y', '/', 'u'] .symlink ['.', '.', '/', '.', '.', '/', 't'] [],
    entry ['e'] .symlink ['x', '/', 'y', '/', 'u', '/', '.', '.', '/', '.', '.', '/', 'o'] []]
  broken := false

/-- A family's directory, with another package in it. -/
def family : Disk := fun q =>
  if q = [] ∨ q = [['f']] ∨ q = [['f'], ['o']] then some .dir else none

theorem family_grown : Grown family := by
  intro p x h
  unfold family at h
  split at h
  · next hp =>
    obtain hp | hp | hp := hp
    · exact absurd hp (by simp)
    · have hinit : p ++ [x] = [] ++ [['f']] := hp
      obtain ⟨rfl, _⟩ := List.append_inj' hinit rfl
      rfl
    · have hinit : p ++ [x] = [['f']] ++ [['o']] := hp
      obtain ⟨rfl, _⟩ := List.append_inj' hinit rfl
      rfl
  · cases h

/-- The archive is accepted, and moved to beside `o` its link leads there. -/
theorem escaping_leaves :
    Fresh plainOs pkgPath pkgPath emptyPackage ∧
      ∃ w, (extractTarGz escaping pkgPath 0).after (act plainOs) emptyPackage
        (List.replicate 20 .good) = some (.done (.ok ()), w) ∧ ¬ LinksStay pkgPath w.tree := by
  have hrun : ∃ w, (extractTarGz escaping pkgPath 0).after (act plainOs) emptyPackage
      (List.replicate 20 .good) = some (.done (.ok ()), w) ∧
      isLink w.tree (pkgPath ++ [['e']]) = true ∧
      walk (elsewhere w.tree family pkgPath [['f'], ['s']]) 40 []
        (([['f'], ['s']] ++ [['e']]).map .down) = .ok ([['f'], ['o']], 38) := ⟨_, rfl, rfl, rfl⟩
  obtain ⟨w, hw, hlink, hwalk⟩ := hrun
  have hin : Inside pkgPath emptyPackage w :=
    (extract_stays emptyPackage_fresh .tarGz escaping 0).after emptyPackage_fresh.inside hw
  refine ⟨emptyPackage_fresh, w, hw, fun hstay => ?_⟩
  have hmoved : Moved pkgPath w.tree [['f'], ['s']] (elsewhere w.tree family pkgPath _) :=
    moved_elsewhere hin.grown family_grown (by simp) fun p x hp => by
      have hinit : [['f']] ++ [['s']] = p ++ [x] := hp
      obtain ⟨rfl, _⟩ := List.append_inj' hinit rfl
      rfl
  exact absurd (hstay _ _ hmoved _ hlink _ _ _ hwalk) (by decide)

end LocalBase.Unpack
