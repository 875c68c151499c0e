import Mathlib
import LocalBase.Install.Sane

/-!
# An installed model is the pinned bytes

A file is verified by its name and renamed by its name, and bytes are added to
it through a handle. A call that has its model's lock, with nobody else's file
among those it names, goes by what it saw of them: the others do not change it.
-/

namespace LocalBase.Install

open Program Files

variable {sum : Bytes → String} {p q : Caller} {w t u : World} {a : Artifact} {f g : Path}
  {s : Spec} {dir : String} {α : Type} {expected : Int} {Q : α → World → Prop}
  {x : Identity × Bytes} {c : Cache} {e : CacheEntry} {o : Op}

/-- The call has its model's lock, and no partial of the model is installed. -/
structure Mine (p : Caller) (s : Spec) (dir : String) (w : World) : Prop where
  held : ⟨p, lockKey dir s.modelID, s.files dir⟩ ∈ w.held
  partials : ∀ a ∈ s.artifacts, w.installed (a.partialPath dir) = none

theorem partialPath_mem (ha : a ∈ s.artifacts) : a.partialPath dir ∈ s.files dir :=
  List.mem_append_right _ (List.mem_map.mpr ⟨a, ha, rfl⟩)

theorem out_mem (ha : a ∈ s.artifacts) : a.out dir ∈ s.files dir :=
  List.mem_append_left _ (List.mem_map.mpr ⟨a, ha, rfl⟩)

theorem partial_ne_out {b : Artifact} (hs : (s.files dir).Nodup) (ha : a ∈ s.artifacts)
    (hb : b ∈ s.artifacts) : a.partialPath dir ≠ b.out dir := fun he =>
  (List.nodup_append.mp hs).2.2 (b.out dir) (List.mem_map.mpr ⟨b, hb, rfl⟩) (a.partialPath dir)
    (List.mem_map.mpr ⟨a, ha, rfl⟩) he.symm

theorem Mine.keeps (h : Mine p s dir w) (hk : Keeps p w t) : Mine p s dir t := by
  obtain ⟨hheld, hfiles⟩ := hk.held _ h.held rfl
  exact ⟨hheld, fun a ha => (hfiles _ (partialPath_mem ha)).2.trans (h.partials a ha)⟩

theorem Mine.within (h : Mine p s dir w) (ht : Within (s.files dir) w t)
    (hinst : ∀ k, w.installed k = none → t.installed k = none) : Mine p s dir t :=
  ⟨ht.held ▸ h.held, fun a ha => hinst _ (h.partials a ha)⟩

theorem Mine.file (h : Mine p s dir w) (hk : Keeps p w t) (hf : f ∈ s.files dir) :
    t.file f = w.file f := ((hk.held _ h.held rfl).2 f hf).1

/-- An artifact's file is there under the name, and what is pinned. -/
def PinnedAt (sum : Bytes → String) (a : Artifact) (f : Path) (w : World) : Prop :=
  ∃ x, w.file f = some x ∧ Pinned sum a x.2

/-! ## Operations -/

abbrev Runs (sum : Bytes → String) (p : Caller) (Q : α → World → Prop) (left : Steps α)
    (w : World) : Prop :=
  Crew.Holds (calls sum) Apart (Sane sum) Keeps p Q left w

theorem Runs.bind {β : Type} {P : α → World → Prop} {Q : β → World → Prop} {left : Steps α}
    {f : α → Steps β} (h : Runs sum p P left w) (hf : ∀ a t, P a t → Runs sum p Q (f a) t) :
    Runs sum p Q (left >>= f) w :=
  stands_bind (h.mono hf)

def Op.quiet : Op → Bool
  | .mkdirAll _ | .available _ | .stat _ | .checkOwnedRegular _ | .get _ | .close _
  | .fileIdentity _ | .readCache _ | .openRead _ | .read _ _ _ | .readEnd _ _ => true
  | _ => false

theorem quiet_spec {c : Choice} {r : Answer o} (hq : o.quiet = true)
    (hact : act p w o c = some (r, t)) : t = w := by
  cases o <;> first | exact absurd hq Bool.false_ne_true | skip
  all_goals cases c <;> simp only [act, reduceCtorEq, Option.some.injEq, Prod.mk.injEq,
    Option.map_eq_some_iff, Option.ite_none_right_eq_some] at hact
  all_goals first | exact hact.2.symm | skip
  all_goals first | exact hact.2.2.symm | skip
  all_goals
    obtain ⟨_, _, _, h⟩ := hact
    exact h.symm

theorem runs_quiet {k : Answer o → Steps α} (hm : Mine p s dir w) (hq : o.quiet = true)
    (h : ∀ r t c, Sane sum t → Mine p s dir t → Keeps p w t → act p t o c = some (r, t) →
      Runs sum p Q (k r) t) : Runs sum p Q (perform o >>= k) w := by
  intro t hk ht c r u hact
  obtain ⟨_, hact⟩ := under_eq_some.mp hact
  obtain rfl := quiet_spec hq hact
  exact ⟨ht, fun q _ => .refl q _, h r _ c ht (hm.keeps hk) hk hact⟩

theorem runs_own {k : Answer o → Steps α} (hm : Mine p s dir w)
    (h : ∀ r t u c, Sane sum t → Mine p s dir t → Keeps p w t → act p t o c = some (r, u) →
      Sane sum u ∧ Within (s.files dir) t u ∧ Runs sum p Q (k r) u) :
    Runs sum p Q (perform o >>= k) w := by
  intro t hk ht c r u hact
  obtain ⟨_, hact⟩ := under_eq_some.mp hact
  obtain ⟨hu, hwithin, hrest⟩ := h r t u c ht (hm.keeps hk) hk hact
  exact ⟨hu, ht.guar (hm.keeps hk).held rfl hwithin, hrest⟩

/-! ## Verifying -/

/-- Of a file that this call names, it knows what is in it. -/
structure Known (p : Caller) (s : Spec) (dir : String) (f : Path) (x : Identity × Bytes)
    (w : World) : Prop where
  mine : Mine p s dir w
  file : w.file f = some x
  noted : x ∈ w.known

theorem Known.keeps (h : Known p s dir f x w) (hf : f ∈ s.files dir)
    (hk : Keeps p w t) : Known p s dir f x t :=
  ⟨h.mine.keeps hk, (h.mine.file hk hf).trans h.file, hk.known x h.noted⟩

section
variable {x : Identity × Bytes}

theorem readAll_runs (hf : f ∈ s.files dir) (sizes : List Nat) :
    ∀ {got : Bytes} {w : World}, Known p s dir f x w → got <+: x.2 →
      Runs sum p (fun r u => Known p s dir f x u ∧ ∀ bs, r = .ok bs → bs = x.2)
        (readAll x.1.ino got sizes) w := by
  induction sizes with
  | nil =>
    intro got w hx hgot
    refine runs_quiet hx.mine rfl fun r t c ht _ hk hact => ?_
    have hxt := hx.keeps hf hk
    cases r with
    | some err => exact ⟨hxt, fun _ h => by cases h⟩
    | none =>
      refine ⟨hxt, fun bs hbs => ?_⟩
      cases hbs
      cases c <;> simp only [act, reduceCtorEq, Option.ite_none_right_eq_some,
        Option.some.injEq, Prod.mk.injEq, false_and] at hact
      have hbytes : x.2 = t.disk.bytes x.1.ino := congrArg Prod.snd (names_of_file hxt.file).2
      rw [← hbytes] at hact
      exact hgot.eq_of_length_le hact.1
  | cons k sizes ih =>
    intro got w hx hgot
    refine runs_quiet hx.mine rfl fun r t c ht _ hk hact => ?_
    have hxt := hx.keeps hf hk
    cases r with
    | error err => exact ⟨hxt, fun _ h => by cases h⟩
    | ok piece =>
      refine ih hxt ?_
      cases c <;> simp only [act, reduceCtorEq, Option.ite_none_right_eq_some,
        Option.some.injEq, Prod.mk.injEq, Except.ok.injEq, false_and] at hact
      have hbytes : x.2 = t.disk.bytes x.1.ino := congrArg Prod.snd (names_of_file hxt.file).2
      rw [← hbytes] at hact
      obtain ⟨rest, hrest⟩ := hgot
      rw [← hact.2.1, ← hrest, List.drop_left]
      exact List.prefix_append_right_inj got |>.mpr (List.take_prefix k rest)

theorem sha256File_runs (hf : f ∈ s.files dir) (hx : Known p s dir f x w) :
    Runs sum p (fun r u => Known p s dir f x u ∧ ∀ d, r = .ok d → d = sum x.2)
      (sha256File sum f) w := by
  refine runs_quiet hx.mine rfl fun r t c ht _ hk hact => ?_
  have hxt := hx.keeps hf hk
  cases r with
  | error err => exact ⟨hxt, fun _ h => by cases h⟩
  | ok a =>
    obtain ⟨i, sizes⟩ := a
    have hi : i = x.1.ino := by
      have hnames := (names_of_file hxt.file).1
      cases c <;> simp only [act, reduceCtorEq, Option.map_eq_some_iff, Option.some.injEq,
        Prod.mk.injEq, Except.ok.injEq, false_and] at hact
      obtain ⟨j, hj, ⟨rfl, _⟩, _⟩ := hact
      exact Option.some.inj (hj.symm.trans hnames)
    subst hi
    refine Runs.bind (readAll_runs hf sizes hxt (List.nil_prefix)) fun r u hu => ?_
    cases r with
    | error err => exact ⟨hu.1, fun _ h => by cases h⟩
    | ok got =>
      refine ⟨hu.1, fun d hd => ?_⟩
      cases hd
      rw [hu.2 got rfl]

theorem Within.beside (files : List Path) (w : World) (c : String → Cache)
    (l : String → Option Caller) : Within files w { w with cache := c, cacheLock := l } :=
  ⟨rfl, fun _ h => h, fun _ _ => ⟨rfl, rfl⟩⟩

theorem Keeps.beside (p : Caller) (w : World) (c : String → Cache)
    (l : String → Option Caller) : Keeps p w { w with cache := c, cacheLock := l } :=
  ⟨fun _ h => h, fun _ h _ => ⟨h, fun _ _ => ⟨rfl, rfl⟩⟩⟩

theorem Sane.cacheLock (h : Sane sum w) (l : String → Option Caller) :
    Sane sum { w with cacheLock := l } :=
  ⟨h.noted, h.one, h.injective, h.cache, h.installed, h.held⟩

theorem withCacheLock_runs {fn : Steps (Option Err)} (hf : f ∈ s.files dir)
    (hx : Known p s dir f x w)
    (hfn : ∀ t, Keeps p w t → Known p s dir f x t →
      Runs sum p (fun _ u => Known p s dir f x u) fn t) :
    Runs sum p (fun _ u => Known p s dir f x u) (withCacheLock dir fn) w := by
  refine runs_own hx.mine fun r t u c ht _ hk hact => ?_
  have hxt := hx.keeps hf hk
  have hsame : Sane sum u ∧ Within (s.files dir) t u ∧ Known p s dir f x u ∧ Keeps p t u := by
    cases c <;> simp only [act, reduceCtorEq, Option.ite_none_right_eq_some, Option.some.injEq,
      Prod.mk.injEq] at hact
    · obtain ⟨_, _, rfl⟩ := hact
      exact ⟨ht.cacheLock _, .beside _ t _ _,
        ⟨⟨hxt.mine.held, hxt.mine.partials⟩, hxt.file, hxt.noted⟩, .beside p t _ _⟩
    · obtain ⟨_, rfl⟩ := hact
      exact ⟨ht, .refl _ t, hxt, .refl p t⟩
  refine ⟨hsame.1, hsame.2.1, ?_⟩
  cases r with
  | some err => exact hsame.2.2.1
  | none =>
    refine Runs.bind (hfn u (hk.trans hsame.2.2.2) hsame.2.2.1) fun r v hv => ?_
    refine runs_own hv.mine fun _ t' u' c' ht' _ hk' hact' => ?_
    have hxt' := hv.keeps hf hk'
    cases c' <;> simp only [act, reduceCtorEq, Option.some.injEq, Prod.mk.injEq] at hact'
    obtain ⟨_, rfl⟩ := hact'
    exact ⟨ht'.cacheLock _, .beside _ t' _ _, ⟨hxt'.mine.held, hxt'.mine.partials⟩, hxt'.file,
      hxt'.noted⟩

theorem Honest.put {known : List (Identity × Bytes)} {name : String} (h : Honest sum known c)
    (he : Tells sum known e) : Honest sum known (c.put name e) := by
  intro n e' hn
  by_cases hname : n = name
  · rw [Cache.put, hname, Function.update_self] at hn
    cases hn
    exact he
  · exact h n e' ((Function.update_of_ne hname _ _).symm.trans hn)

theorem readCache_honest {c : Choice} {r : Cache} (h : Sane sum w)
    (hact : act p w (.readCache dir) c = some (r, t)) : Honest sum w.known r := by
  cases c <;> simp only [act, reduceCtorEq, Option.some.injEq, Prod.mk.injEq] at hact
  · exact hact.1 ▸ h.cache dir
  · rw [← hact.1]
    exact fun name e he => by cases he

theorem writeCache_runs (hf : f ∈ s.files dir) (hx : Known p s dir f x w)
    (hc : Honest sum w.known c) :
    Runs sum p (fun _ u => Known p s dir f x u) (writeCache dir c) w := by
  refine runs_own (k := .done) hx.mine fun r t u ch ht _ hk hact => ?_
  have hxt := hx.keeps hf hk
  cases ch <;> simp only [act, reduceCtorEq, Option.some.injEq, Prod.mk.injEq] at hact
  · obtain ⟨_, rfl⟩ := hact
    refine ⟨⟨ht.noted, ht.one, ht.injective, fun d => ?_, ht.installed, ht.held⟩,
      .beside _ t _ _,
      ⟨hxt.mine.held, hxt.mine.partials⟩, hxt.file, hxt.noted⟩
    show Honest sum t.known (Function.update t.cache dir c d)
    by_cases hd : d = dir
    · rw [hd, Function.update_self]
      exact hc.known hk.known
    · rw [Function.update_of_ne hd]
      exact ht.cache d
  · obtain ⟨_, rfl⟩ := hact
    exact ⟨ht, .refl _ t, hxt⟩

theorem record_runs {name : String} (hf : f ∈ s.files dir) (hx : Known p s dir f x w)
    (he : Tells sum w.known e) :
    Runs sum p (fun _ u => Known p s dir f x u) (record dir name e) w := by
  refine runs_quiet hx.mine rfl fun r t c ht _ hk hact => ?_
  exact writeCache_runs hf (hx.keeps hf hk) ((readCache_honest ht hact).put (he.known hk.known))

theorem lower_lower (s : String) : lower (lower s) = lower s := by
  unfold lower
  rw [String.toList_ofList, List.map_map]
  congr 1
  exact List.map_congr_left fun c _ => Char.toLower_toLower_eq_toLower c

theorem trusts_pinned (h : Sane sum w) (hx : w.file f = some x) (hc : Honest sum w.known c)
    (htrust : c.trusts a x.1 = true) : Pinned sum a x.2 := by
  unfold Cache.trusts at htrust
  split at htrust
  · next e he =>
    obtain ⟨hsha, hsize, hfile⟩ := of_decide_eq_true htrust
    obtain ⟨bs, hbs, hlen, hsum⟩ := hc _ e he
    have hbytes : bs = x.2 := h.one _ hbs x (h.noted f x hx) hfile
    exact hbytes ▸ ⟨hlen.trans hsize, hsum.trans hsha⟩
  · cases htrust

theorem verify_runs (hf : f ∈ s.files dir) (hm : Mine p s dir w) :
    Runs sum p (fun r u => Mine p s dir u ∧ ∀ v, r = .ok v → PinnedAt sum a f u)
      (verify sum f a dir) w := by
  refine runs_quiet hm rfl fun r t c ht hmt _ hact => ?_
  cases r with
  | error err => exact ⟨hmt, fun _ h => by cases h⟩
  | ok id =>
    cases c <;> simp only [act, reduceCtorEq, Option.map_eq_some_iff, Option.some.injEq,
      Prod.mk.injEq, Except.ok.injEq, false_and] at hact
    obtain ⟨i, hi, rfl, _⟩ := hact
    have hx : Known p s dir f (t.identity i, t.disk.bytes i) t :=
      ⟨hmt, file_of_names hi, ht.noted f _ (file_of_names hi)⟩
    dsimp only
    split
    · exact ⟨hmt, fun _ h => by cases h⟩
    · next hsize =>
      refine runs_quiet hmt rfl fun cache t₂ c₂ ht₂ _ hk₂ hact₂ => ?_
      have hx₂ := hx.keeps hf hk₂
      split
      · next htrust =>
        have hc := readCache_honest ht₂ hact₂
        exact ⟨hx₂.mine, fun _ _ => ⟨_, hx₂.file, trusts_pinned ht₂ hx₂.file hc htrust⟩⟩
      · refine Runs.bind (sha256File_runs hf hx₂) fun r u hu => ?_
        cases r with
        | error err => exact ⟨hu.1.mine, fun _ h => by cases h⟩
        | ok actual =>
          dsimp only
          split
          · exact ⟨hu.1.mine, fun _ h => by cases h⟩
          · next hsum =>
            have hpinned : Pinned sum a (t.disk.bytes i) :=
              ⟨not_not.mp hsize, (hu.2 actual rfl).symm.trans (not_not.mp hsum)⟩
            refine Runs.bind (withCacheLock_runs hf hu.1 fun v _ hv => record_runs hf hv
              ⟨_, hv.noted, hpinned.1, hpinned.2.trans (lower_lower _).symm⟩) fun r v hv => ?_
            cases r with
            | some err => exact ⟨hv.mine, fun _ h => by cases h⟩
            | none => exact ⟨hv.mine, fun _ _ => ⟨_, hv.file, hpinned⟩⟩

end

/-! ## Publishing -/

/-- The entry of a file that was renamed is about what is in it, as the file
is what was verified. -/
theorem renamed_tells (hx : x ∈ w.known) (hpinned : Pinned sum a x.2)
    (he : c.renamed a x.1 = some e) :
    Tells sum w.known e := by
  unfold Cache.renamed at he
  split at he
  · next old _ =>
    split at he
    · next hsame =>
      cases he
      obtain ⟨hsha, hsize, _⟩ := hsame
      refine ⟨x.2, hx, hpinned.1.trans hsize.symm, hpinned.2.trans ?_⟩
      exact (of_decide_eq_true hsha).symm
    · cases he
  · cases he

theorem rerecord_runs (ha : a ∈ s.artifacts) (hx : Known p s dir (a.out dir) x w)
    (hpinned : Pinned sum a x.2) :
    Runs sum p (fun _ u => Known p s dir (a.out dir) x u) (rerecord a dir) w := by
  refine runs_quiet hx.mine rfl fun cache t c ht _ hk hact => ?_
  have hxt := hx.keeps (out_mem ha) hk
  have hc := readCache_honest ht hact
  refine runs_quiet hxt.mine rfl fun r t₂ c₂ ht₂ _ hk₂ hact₂ => ?_
  have hx₂ := hxt.keeps (out_mem ha) hk₂
  cases r with
  | error err => exact hx₂
  | ok now =>
    have hnow : now = x.1 := by
      have hnames := names_of_file hx₂.file
      cases c₂ <;> simp only [act, reduceCtorEq, Option.map_eq_some_iff, Option.some.injEq,
        Prod.mk.injEq, Except.ok.injEq, false_and] at hact₂
      obtain ⟨i, hi, rfl, _⟩ := hact₂
      rw [hnames.1] at hi
      cases hi
      exact (congrArg Prod.fst hnames.2).symm
    dsimp only
    split
    · exact hx₂
    · next e he =>
      rw [hnow] at he
      exact writeCache_runs (out_mem ha) hx₂
        ((hc.known hk₂.known).put (renamed_tells hx₂.noted hpinned he))

theorem recordPublished_runs (ha : a ∈ s.artifacts) (hx : Known p s dir (a.out dir) x w)
    (hpinned : Pinned sum a x.2) :
    Runs sum p (fun _ u => Known p s dir (a.out dir) x u) (recordPublished a dir) w :=
  Runs.bind (withCacheLock_runs (out_mem ha) hx fun _ _ hv => rerecord_runs ha hv hpinned)
    fun _ _ hv => hv

/-- An artifact that is done is under its final name, and what is pinned. -/
abbrev Done (sum : Bytes → String) (p : Caller) (s : Spec) (dir : String) (a : Artifact)
    (r : Option Err) (w : World) : Prop :=
  Mine p s dir w ∧ (r = none → PinnedAt sum a (a.out dir) w)

theorem publish_runs (hs : (s.files dir).Nodup) (ha : a ∈ s.artifacts) (hm : Mine p s dir w)
    (hpinned : PinnedAt sum a (a.partialPath dir) w) :
    Runs sum p (Done sum p s dir a) (publish a dir) w := by
  refine runs_own hm fun r t u c ht hmt hk hact => ?_
  cases c <;> simp only [act, reduceCtorEq, Option.map_eq_some_iff, Option.some.injEq,
    Prod.mk.injEq] at hact
  · obtain ⟨rfl, rfl⟩ := hact
    exact ⟨ht, .refl _ t, hmt, fun h => by cases h⟩
  · obtain ⟨u', hu', rfl, rfl⟩ := hact
    obtain ⟨hsane, hwithin, ⟨x, y, hx, hy, hsame⟩, hinst⟩ :=
      moved_spec ht (partial_ne_out hs ha ha) (partialPath_mem ha) (out_mem ha) hu'
    refine ⟨hsane, hwithin, ?_⟩
    obtain ⟨z, hz, hpz⟩ := hpinned
    have hzx : z = x := Option.some.inj
      ((hz.symm.trans (hm.file hk (partialPath_mem ha)).symm).trans hx)
    have hy' : Known p s dir (a.out dir) y u' :=
      ⟨hmt.within hwithin hinst, hy, hsane.noted _ y hy⟩
    have hpy : Pinned sum a y.2 := by rw [hsame, ← hzx]; exact hpz
    refine Runs.bind (recordPublished_runs ha hy' hpy) fun _ v hv => ?_
    exact ⟨hv.mine, fun _ => ⟨y, hv.file, hpy⟩⟩

/-! ## Downloading -/

/-- The lock is still the call's. -/
abbrev Own (p : Caller) (s : Spec) (dir : String) (_ : α) (w : World) : Prop := Mine p s dir w

theorem remove_runs {k : Unit → Steps α} (hf : f ∈ s.files dir) (hm : Mine p s dir w)
    (h : ∀ r u, Mine p s dir u → Runs sum p Q (k r) u) :
    Runs sum p Q (perform (Op.remove f) >>= k) w := by
  refine runs_own hm fun r t u c ht hmt _ hact => ?_
  cases c <;> simp only [act, reduceCtorEq, Option.some.injEq, Prod.mk.injEq] at hact
  · obtain ⟨_, rfl⟩ := hact
    obtain ⟨hsane, hwithin⟩ := removed_spec ht hf
    exact ⟨hsane, hwithin, h r _ (hmt.within hwithin removed_installed)⟩
  · obtain ⟨_, rfl⟩ := hact
    exact ⟨ht, .refl _ t, h r t hmt⟩

theorem failed_runs {err : Err} (hf : f ∈ s.files dir) (hm : Mine p s dir w) :
    Runs sum p (Own p s dir) (failed f err) w := by
  refine runs_quiet hm rfl fun r t c _ hmt _ _ => ?_
  obtain _ | _ | n := r
  · exact hmt
  · exact remove_runs hf hmt fun _ _ hu => hu
  · exact hmt

theorem names_keeps {i : Nat} (hm : Mine p s dir w) (hk : Keeps p w t) (hf : f ∈ s.files dir)
    (hi : w.disk.names f = some i) : t.disk.names f = some i :=
  (names_of_file ((hm.file hk hf).trans (file_of_names hi))).1

theorem copyBody_runs {broken : Option Err} {i : Nat} (ha : a ∈ s.artifacts)
    (pieces : List Bytes) : ∀ {n : Nat} {w : World}, Mine p s dir w →
      w.disk.names (a.partialPath dir) = some i →
      Runs sum p (Own p s dir) (copyBody i expected broken n pieces) w := by
  induction pieces with
  | nil =>
    intro n w hm _
    exact hm
  | cons piece rest ih =>
    intro n w hm hi
    unfold copyBody
    split
    · exact ih hm hi
    · split
      · exact hm
      · refine runs_own hm fun r t u c ht hmt hk hact => ?_
        have hit := names_keeps hm hk (partialPath_mem ha) hi
        have hwritten : ∀ {bs : Bytes} {m n : Nat}, t.written i bs m n = some u →
            Sane sum u ∧ Within (s.files dir) t u ∧ Mine p s dir u ∧
              u.disk.names (a.partialPath dir) = some i := by
          intro bs m n hu
          obtain ⟨hsane, hwithin, hnames, hinst⟩ :=
            written_spec ht hit (partialPath_mem ha) (hmt.partials a ha) hu
          exact ⟨hsane, hwithin, hmt.within hwithin fun k hk => hinst ▸ hk, hnames ▸ hit⟩
        cases c <;> simp only [act, reduceCtorEq, Option.map_eq_some_iff, Option.some.injEq,
          Prod.mk.injEq] at hact
        · obtain ⟨rfl, rfl⟩ := hact
          exact ⟨ht, .refl _ t, hmt⟩
        · obtain ⟨u', hu', rfl, rfl⟩ := hact
          obtain ⟨hsane, hwithin, hmu, hiu⟩ := hwritten hu'
          exact ⟨hsane, hwithin, ih hmu hiu⟩
        · obtain ⟨u', hu', rfl, rfl⟩ := hact
          obtain ⟨hsane, hwithin, hmu, _⟩ := hwritten hu'
          exact ⟨hsane, hwithin, hmu⟩

theorem receive_runs {offset : Nat} {resp : Response} (ha : a ∈ s.artifacts)
    (hm : Mine p s dir w) :
    Runs sum p (Own p s dir) (receive (a.partialPath dir) expected offset resp) w := by
  refine runs_own hm fun r t u c ht hmt _ hact => ?_
  have hopened : ∀ {m n : Nat} {x : Nat × World}, t.opened (a.partialPath dir) m n = some x →
      Sane sum x.2 ∧ Within (s.files dir) t x.2 ∧ Mine p s dir x.2 ∧
        x.2.disk.names (a.partialPath dir) = some x.1 := by
    intro m n x hx
    obtain ⟨hsane, hwithin, hnames, hinst⟩ := opened_spec ht (partialPath_mem ha) hx
    exact ⟨hsane, hwithin, hmt.within hwithin fun k hk => hinst ▸ hk, hnames⟩
  cases c <;> simp only [act, reduceCtorEq, Option.map_eq_some_iff, Option.some.injEq,
    Prod.mk.injEq] at hact
  · obtain ⟨rfl, rfl⟩ := hact
    exact ⟨ht, .refl _ t, hmt⟩
  · obtain ⟨x, hx, rfl, rfl⟩ := hact
    obtain ⟨hsane, hwithin, hmx, hi⟩ := hopened hx
    refine ⟨hsane, hwithin, Runs.bind (copyBody_runs ha resp.body hmx hi) fun r v hv => ?_⟩
    cases r with
    | error err => exact runs_quiet hv rfl fun _ _ _ _ hmt _ _ => hmt
    | ok n =>
      refine runs_quiet hv rfl fun r _ _ _ hmt _ _ => ?_
      cases r <;> exact hmt
  · obtain ⟨x, hx, rfl, rfl⟩ := hact
    obtain ⟨hsane, hwithin, hmx, _⟩ := hopened hx
    exact ⟨hsane, hwithin, hmx⟩

theorem download_runs (ha : a ∈ s.artifacts) (hm : Mine p s dir w) :
    Runs sum p (Own p s dir) (download (a.partialPath dir) expected) w := by
  have hf : a.partialPath dir ∈ s.files dir := partialPath_mem ha
  refine runs_quiet hm rfl fun size t _ _ hmt _ _ => ?_
  refine runs_quiet hmt rfl fun r u _ _ hmu _ _ => ?_
  cases r with
  | error err => exact failed_runs hf hmu
  | ok resp =>
    dsimp only
    split
    · exact failed_runs hf hmu
    · split
      · exact failed_runs hf hmu
      · exact receive_runs ha hmu

/-! ## An artifact -/

section
variable (hs : (s.files dir).Nodup) (ha : a ∈ s.artifacts)
include hs ha

theorem fetch_runs (hm : Mine p s dir w) :
    Runs sum p (Done sum p s dir a) (fetch sum a dir) w := by
  refine Runs.bind (download_runs ha hm) fun r t hmt => ?_
  cases r with
  | some err => exact ⟨hmt, fun h => by cases h⟩
  | none =>
    refine Runs.bind (verify_runs (partialPath_mem ha) hmt) fun r u hu => ?_
    cases r with
    | error err =>
      exact remove_runs (partialPath_mem ha) hu.1 fun _ _ hmv => ⟨hmv, fun h => by cases h⟩
    | ok v => exact publish_runs hs ha hu.1 (hu.2 v rfl)

theorem complete_runs (hm : Mine p s dir w) :
    Runs sum p (Done sum p s dir a) (complete sum a dir) w := by
  have hf : a.partialPath dir ∈ s.files dir := partialPath_mem ha
  have hfetch : ∀ {u : World}, Mine p s dir u →
      Runs sum p (Done sum p s dir a) (remove (a.partialPath dir) >>= fun _ => fetch sum a dir) u :=
    fun hmu => remove_runs hf hmu fun _ _ hmv => fetch_runs hs ha hmv
  refine runs_quiet hm rfl fun r t _ _ hmt _ _ => ?_
  cases r with
  | some err => exact ⟨hmt, fun h => by cases h⟩
  | none =>
    refine runs_quiet hmt rfl fun r u _ _ hmu _ _ => ?_
    cases r with
    | none => exact fetch_runs hs ha hmu
    | some size =>
      dsimp only
      split
      · exact hfetch hmu
      · split
        · refine Runs.bind (verify_runs hf hmu) fun r v hv => ?_
          cases r with
          | error err => exact hfetch hv.1
          | ok how => exact publish_runs hs ha hv.1 (hv.2 how rfl)
        · exact fetch_runs hs ha hmu

theorem rename_runs {Q : Option Err → World → Prop} (hm : Mine p s dir w)
    (h : ∀ r u, Mine p s dir u → Q r u) :
    Runs sum p Q (rename (a.out dir) (a.partialPath dir)) w := by
  refine runs_own (k := .done) hm fun r t u c ht hmt _ hact => ?_
  cases c <;> simp only [act, reduceCtorEq, Option.map_eq_some_iff, Option.some.injEq,
    Prod.mk.injEq] at hact
  · obtain ⟨_, rfl⟩ := hact
    exact ⟨ht, .refl _ t, h _ _ hmt⟩
  · obtain ⟨u', hu', _, rfl⟩ := hact
    obtain ⟨hsane, hwithin, _, hinst⟩ :=
      moved_spec ht (partial_ne_out hs ha ha).symm (out_mem ha) (partialPath_mem ha) hu'
    exact ⟨hsane, hwithin, h _ _ (hmt.within hwithin hinst)⟩

theorem demote_runs {existing : Nat} (hm : Mine p s dir w) :
    Runs sum p (Own p s dir) (demote a dir existing) w := by
  refine runs_quiet hm rfl fun r t _ _ hmt _ _ => ?_
  cases r with
  | none => exact rename_runs hs ha hmt fun _ _ hu => hu
  | some size =>
    dsimp only
    split
    · exact remove_runs (partialPath_mem ha) hmt fun _ _ hmu =>
        rename_runs hs ha hmu fun _ _ hv => hv
    · exact remove_runs (out_mem ha) hmt fun _ _ hmu => hmu

theorem artifact_runs (hm : Mine p s dir w) :
    Runs sum p (Done sum p s dir a) (artifact sum a dir) w := by
  refine runs_quiet hm rfl fun r t _ _ hmt _ _ => ?_
  cases r with
  | none => exact complete_runs hs ha hmt
  | some existing =>
    dsimp only
    split
    · refine Runs.bind (demote_runs hs ha hmt) fun r u hmu => ?_
      cases r with
      | some err => exact ⟨hmu, fun h => by cases h⟩
      | none => exact complete_runs hs ha hmu
    · refine Runs.bind (verify_runs (out_mem ha) hmt) fun r u hu => ?_
      cases r with
      | ok how => exact ⟨hu.1, fun _ => hu.2 how rfl⟩
      | error err =>
        exact remove_runs (out_mem ha) hu.1 fun _ _ hmv =>
          remove_runs (partialPath_mem ha) hmv fun _ _ hmx => complete_runs hs ha hmx

end

/-- The file of an artifact whose call returned without an error is
installed. -/
theorem returned_spec (h : Sane sum w) (hm : Mine p s dir w) (hs : (s.files dir).Nodup)
    (ha : a ∈ s.artifacts) (hpinned : PinnedAt sum a (a.out dir) w)
    (hact : act p w (.returned (a.out dir) a) .ok = some ((), t)) :
    Sane sum t ∧ Within (s.files dir) w t ∧ Mine p s dir t := by
  cases hact
  refine ⟨⟨h.noted, h.one, h.injective, h.cache, fun f b hb => ?_, h.held⟩,
    ⟨rfl, fun _ hx => hx, fun f hf => ⟨rfl, Function.update_of_ne (fun he => ?_) _ _⟩⟩,
    hm.held, fun b hb => ?_⟩
  · by_cases hf : f = a.out dir
    · subst hf
      have hab : a = b := Option.some.inj
        ((Function.update_self (a.out dir) (some a) w.installed).symm.trans hb)
      exact hab ▸ hpinned
    · exact h.installed f b ((Function.update_of_ne hf _ _).symm.trans hb)
  · exact hf (he ▸ out_mem ha)
  · exact (Function.update_of_ne (partial_ne_out hs hb ha) _ _).trans (hm.partials b hb)

theorem artifacts_runs (hs : (s.files dir).Nodup) (todo : List Artifact) :
    ∀ {w : World}, (∀ a ∈ todo, a ∈ s.artifacts) → Mine p s dir w →
      Runs sum p (Own p s dir) (artifacts sum dir todo) w := by
  induction todo with
  | nil => exact fun _ hm => hm
  | cons a rest ih =>
    intro w hmem hm
    have ha := hmem a List.mem_cons_self
    refine Runs.bind (artifact_runs hs ha hm) fun r t ht => ?_
    cases r with
    | some err => exact ht.1
    | none =>
      refine runs_own ht.1 fun _ t' u c ht' hmt hk hact => ?_
      cases c <;> first | cases hact; done | skip
      obtain ⟨x, hx, hp⟩ := ht.2 rfl
      obtain ⟨hsane, hwithin, hmu⟩ := returned_spec ht' hmt hs ha
        ⟨x, (ht.1.file hk (out_mem ha)).trans hx, hp⟩ hact
      exact ⟨hsane, hwithin, ih (fun b hb => hmem b (List.mem_cons_of_mem _ hb)) hmu⟩

/-! ## A model -/

theorem requiredBytes_runs (todo : List Artifact) : ∀ {w : World}, Mine p s dir w →
    Runs sum p (Own p s dir) (requiredBytes dir todo) w := by
  induction todo with
  | nil => exact fun hm => hm
  | cons a rest ih =>
    intro w hm
    have hleft : Runs sum p (Own p s dir) (remaining a dir) w := by
      refine runs_quiet hm rfl fun final t _ _ hmt _ _ => ?_
      split
      · exact hmt
      · refine runs_quiet hmt rfl fun r u _ _ hmu _ _ => ?_
        refine runs_quiet hmu rfl fun r' v _ _ hmv _ _ => ?_
        cases r' <;> exact hmv
    exact Runs.bind hleft fun _ _ ht => Runs.bind (ih ht) fun _ _ hu => hu

theorem install_runs (hs : (s.files dir).Nodup) (hm : Mine p s dir w) :
    Runs sum p (Own p s dir) (install sum s dir) w := by
  unfold install
  split
  · exact hm
  · refine runs_quiet hm rfl fun r t _ _ hmt _ _ => ?_
    cases r with
    | some err => exact hmt
    | none =>
      have hspace : Runs sum p (Own p s dir) (checkSpace s dir) t := by
        refine runs_quiet hmt rfl fun r u _ _ hmu _ _ => ?_
        cases r with
        | none => exact hmu
        | some free => exact Runs.bind (requiredBytes_runs _ hmu) fun _ _ hv => hv
      refine Runs.bind hspace fun r u hmu => ?_
      cases r with
      | some err => exact hmu
      | none =>
        refine Runs.bind (artifacts_runs hs _ (fun _ h => h) hmu) fun r v hmv => ?_
        cases r <;> exact hmv

theorem locked_spec (h : Sane sum w) (hfree : w.FreeFor s dir)
    (hact : act p w (.lock s dir) .ok = some (none, t)) :
    Sane sum t ∧ Crew.Guar Keeps p w t ∧ Mine p s dir t := by
  simp only [act, Option.ite_none_right_eq_some, Option.some.injEq, Prod.mk.injEq] at hact
  obtain ⟨hkey, _, rfl⟩ := hact
  obtain ⟨_, _, hpartials, hnone⟩ := hfree
  refine ⟨⟨h.noted, h.one, h.injective, h.cache, h.installed, List.pairwise_cons.mpr
      ⟨fun k hk => ⟨?_, hnone k hk⟩, h.held⟩⟩, fun q _ => ⟨fun _ hx => hx, fun k hk _ => ?_⟩,
    List.mem_cons_self, hpartials⟩
  · exact (of_decide_eq_true (List.all_eq_true.mp hkey k hk)).symm
  · exact ⟨List.mem_cons_of_mem _ hk, fun _ _ => ⟨rfl, rfl⟩⟩

theorem unlocked_spec (h : Sane sum w) (hm : Mine p s dir w)
    (hact : act p w (.unlock (lockKey dir s.modelID)) .ok = some ((), t)) :
    Sane sum t ∧ Crew.Guar Keeps p w t := by
  cases hact
  refine ⟨⟨h.noted, h.one, h.injective, h.cache, h.installed, h.held.filter _⟩,
    fun q hq => ⟨fun _ hx => hx, fun k hk hkq => ⟨?_, fun _ _ => ⟨rfl, rfl⟩⟩⟩⟩
  have hne : p ≠ k.caller := fun he => hq (hkq ▸ he.symm)
  have hkey := (h.apart hm.held hk hne).1
  exact List.mem_filter.mpr ⟨hk, decide_eq_true hkey.symm⟩

theorem runs_lock {k : Option Err → Steps α} (herr : ∀ err t, Runs sum p Q (k (some err)) t)
    (hok : ∀ t, (s.files dir).Nodup → Mine p s dir t → Runs sum p Q (k none) t) :
    Runs sum p Q (perform (Op.lock s dir) >>= k) w := by
  intro t _ ht c r u hact
  obtain ⟨hapart, hact⟩ := under_eq_some.mp hact
  cases c <;> first | cases hact; done | skip
  · have hr : r = none := by
      simp only [calls, act, Option.ite_none_right_eq_some, Option.some.injEq,
        Prod.mk.injEq] at hact
      exact hact.2.1.symm
    subst hr
    have hfree := hapart (s, dir) rfl
    obtain ⟨hu, hguar, hm⟩ := locked_spec ht hfree hact
    exact ⟨hu, hguar, hok u hfree.1 hm⟩
  · cases hact
    exact ⟨ht, fun q _ => .refl q t, herr _ t⟩

theorem runs_unlock {k : Unit → Steps α} (hm : Mine p s dir w) (h : ∀ t, Runs sum p Q (k ()) t) :
    Runs sum p Q (perform (Op.unlock (lockKey dir s.modelID)) >>= k) w := by
  intro t hk ht c r u hact
  obtain ⟨_, hact⟩ := under_eq_some.mp hact
  cases c <;> first | cases hact; done | skip
  obtain ⟨hu, hguar⟩ := unlocked_spec ht (hm.keeps hk) hact
  exact ⟨hu, hguar, h u⟩

theorem model_runs : Runs sum p (fun _ _ => True) (model sum s dir) w :=
  runs_lock (fun _ _ => trivial) fun _ hs hm =>
    Runs.bind (install_runs hs hm) fun _ _ hmt => runs_unlock hmt fun _ => trivial

/-! ## Any number of calls -/

theorem without_spec (h : Sane sum w) (p : Caller) :
    Sane sum (w.without p) ∧ Crew.Guar Keeps p w (w.without p) := by
  refine ⟨⟨h.noted, h.one, h.injective, h.cache, h.installed, h.held.filter _⟩,
    fun q hq => ⟨fun _ hx => hx, fun k hk hkq => ⟨?_, fun _ _ => ⟨rfl, rfl⟩⟩⟩⟩
  exact List.mem_filter.mpr ⟨hk, decide_eq_true (hkq ▸ hq)⟩

theorem calls_sound : Crew.Sound (calls sum) Apart (Sane sum) Keeps (fun _ _ _ => True)
    (fun _ _ _ _ => True) Fresh where
  refl := .refl
  trans _ _ _ _ := .trans
  memory _ _ _ _ _ _ := trivial
  result _ _ _ _ _ _ _ := trivial
  init w h := by
    refine ⟨fun f x hx => ?_, h.one, h.injective, fun dir => ?_, fun f a ha => ?_, ?_⟩
    · obtain ⟨hi, hx⟩ := names_of_file hx
      exact hx ▸ h.noted f _ hi
    · rw [h.cache dir]
      exact fun name e he => by cases he
    · exact absurd ((h.installed f).symm.trans ha) (by simp)
    · rw [h.held]
      exact List.Pairwise.nil
  start _ _ _ _ := trivial
  call _ _ _ _ _ _ := Runs.bind model_runs fun _ _ _ => ⟨trivial, trivial⟩
  die p _ hw := without_spec hw p

/-- An installed model is the pinned bytes, in every run in which a model's
lock is taken only of files that no other call with a lock has. -/
theorem installed_pinned
    {m : Scene Answer World (Spec × String) (Except Err (Option Path)) Unit Caller}
    (h : Machine.ReachesUnder ((calls sum).machine Fresh) (Crew.Guard Apart) m) :
    ∀ f a, m.now.installed f = some a →
      ∃ bs, m.now.disk.file f = some bs ∧ Pinned sum a bs := by
  obtain ⟨hsane, _⟩ := calls_sound.reached h
  intro f a hf
  obtain ⟨x, hx, hpinned⟩ := hsane.installed f a hf
  obtain ⟨hi, hx'⟩ := names_of_file hx
  exact ⟨x.2, (Disk.file_eq_some hi).trans (congrArg some (congrArg Prod.snd hx').symm), hpinned⟩

/-! ### Two models that share a file -/

/-- The digest of the two bytes that are pinned below. -/
def digest (bs : Bytes) : String :=
  if bs = [104, 105] then "8f434346648f6b96df89dda901c5176b10a6d83961dd3c1ac88b59b2dc327aa4" else ""

def weights : Artifact := ⟨"hi.gguf", 2, digest [104, 105], .primary⟩

def small : Spec := ⟨"small", [weights]⟩

/-- Another model, with the same file. -/
def tuned : Spec := ⟨"tuned", [weights]⟩

/-- An empty directory, and no calls. -/
def nobody : Scene Answer World (Spec × String) (Except Err (Option Path)) Unit Caller where
  now :=
    { disk := ⟨fun _ => none, fun _ => [], 0, fun _ _ h => by cases h⟩
      mtime := fun _ => 0
      ctime := fun _ => 0
      known := []
      cache := fun _ => Cache.empty
      cacheLock := fun _ => none
      held := []
      installed := fun _ => none }
  party := fun _ => .gone

theorem nobody_fresh : ((calls digest).machine Fresh).init nobody where
  left :=
    { noted := fun _ _ h => by cases h
      one := fun _ h => by cases h
      injective := fun _ _ _ h => by cases h
      cache := fun _ => rfl
      cacheLock := fun _ => rfl
      held := rfl
      installed := fun _ => rfl }
  right := fun _ => rfl

def oks (p : Caller) (n : Nat) : List (Deed Caller Unit (Spec × String) Choice) :=
  List.replicate n (.act p .ok)

/-- A call begins, finds room, and has a partial open for a body in two
pieces. -/
def opens (p : Caller) (s : Spec) (now : Nat) : List (Deed Caller Unit (Spec × String) Choice) :=
  [.start p (), .call p (s, "models")] ++ oks p 2 ++ [.act p (.space 1000)] ++ oks p 7 ++
    [.act p (.serves ⟨200, "2", "", [[104], [105]], none⟩), .act p (.at now now)]

/-- It downloads, verifies and publishes the file, and returns. -/
def publishes (p : Caller) : List (Deed Caller Unit (Spec × String) Choice) :=
  [.act p (.at 3 3), .act p (.at 4 4)] ++ oks p 3 ++ [.act p (.reads [2])] ++ oks p 6 ++
    [.act p (.at 0 5)] ++ oks p 6

def installedAlone : List (Deed Caller Unit (Spec × String) Choice) :=
  opens 1 small 1 ++ publishes 1

/-- The second has the partial open when the first publishes it, and adds the
first of its bytes. -/
def installedTogether : List (Deed Caller Unit (Spec × String) Choice) :=
  opens 2 tuned 1 ++ opens 1 small 2 ++ publishes 1 ++ [.act 2 (.at 6 6)]

theorem shared_file_not_pinned :
    ∃ m, Machine.Reachable ((calls digest).machine Fresh) m ∧
      m.now.installed (weights.out "models") = some weights ∧
      m.now.disk.file (weights.out "models") = some [104, 105, 104] ∧
      ¬Pinned digest weights [104, 105, 104] :=
  ⟨((calls digest).machine Fresh).after nobody installedTogether,
    Machine.reachable_after nobody_fresh (by decide +kernel), by decide +kernel,
    by decide +kernel, fun h => absurd h.1 (by decide)⟩

theorem installed_alone_pinned :
    ((calls digest).machine Fresh |>.after nobody installedAlone).now.installed
        (weights.out "models") = some weights ∧
      ∃ bs, (((calls digest).machine Fresh).after nobody installedAlone).now.disk.file
        (weights.out "models") = some bs ∧ Pinned digest weights bs := by
  have hreaches : Machine.ReachesUnder ((calls digest).machine Fresh) (Crew.Guard Apart)
      (((calls digest).machine Fresh).after nobody installedAlone) :=
    Machine.reaches_under_after nobody_fresh (by decide +kernel) (by decide +kernel)
  have hinstalled : (((calls digest).machine Fresh).after nobody installedAlone).now.installed
      (weights.out "models") = some weights := by decide +kernel
  exact ⟨hinstalled, installed_pinned hreaches _ _ hinstalled⟩

end LocalBase.Install
