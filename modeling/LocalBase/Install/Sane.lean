import Mathlib.Data.List.Pairwise
import LocalBase.Install.Model

/-!
# What the calls keep

Files that are installed are what the catalog pins, the records tell the
truth, and no two calls that have a lock name the same file. `Apart` is what
the last of these takes: a lock is a model's, and models can name the same file.
-/

namespace LocalBase.Install

open Program Files

variable {sum : Bytes → String} {p q : Caller} {w t u : World} {a : Artifact} {f g : Path}
  {s : Spec} {dir : String} {c : Choice} {i : Nat} {files : List Path}

/-- The bytes are those that the catalog pins. -/
def Pinned (sum : Bytes → String) (a : Artifact) (bs : Bytes) : Prop :=
  (bs.length : Int) = a.expectedSizeBytes ∧ sum bs = lower a.sha256

/-- A name of the record, its lock or a file they are written through. -/
def Path.ofRecord (f : Path) : Bool := ".checksums.json".toList.isPrefixOf f.name.toList

/-- The files a model names are different ones and not the record's, none of
its partials is installed as another artifact, and no call with a lock names
one of them. -/
def World.FreeFor (w : World) (s : Spec) (dir : String) : Prop :=
  (s.files dir).Nodup ∧ (∀ f ∈ s.files dir, f.ofRecord = false) ∧
    (∀ a ∈ s.artifacts, w.installed (a.partialPath dir) = none) ∧
    ∀ h ∈ w.held, ∀ f ∈ s.files dir, f ∉ h.files

instance (w : World) (s : Spec) (dir : String) : Decidable (w.FreeFor s dir) :=
  inferInstanceAs (Decidable (_ ∧ _ ∧ _ ∧ _))

/-- The model whose lock is taken. -/
def taken : Op → Choice → Option (Spec × String)
  | .lock s dir, .ok => some (s, dir)
  | _, _ => none

def Apart (_ : Caller) (w : World) (o : Op) (c : Choice) : Prop :=
  ∀ x ∈ taken o c, w.FreeFor x.1 x.2

instance (p : Caller) (w : World) (o : Op) (c : Choice) : Decidable (Apart p w o c) :=
  inferInstanceAs (Decidable (∀ x ∈ taken o c, w.FreeFor x.1 x.2))

/-! ## The world -/

/-- What is under a name: the identity and the bytes of the file. -/
def World.file (w : World) (f : Path) : Option (Identity × Bytes) :=
  (w.disk.names f).map fun i => (w.identity i, w.disk.bytes i)

theorem file_of_names (h : w.disk.names f = some i) :
    w.file f = some (w.identity i, w.disk.bytes i) := by
  rw [World.file, h, Option.map_some]

theorem names_of_file {x : Identity × Bytes} (h : w.file f = some x) :
    w.disk.names f = some x.1.ino ∧ x = (w.identity x.1.ino, w.disk.bytes x.1.ino) := by
  obtain ⟨i, hi, rfl⟩ := Option.map_eq_some_iff.mp h
  exact ⟨hi, rfl⟩

theorem file_congr (hn : t.disk.names f = w.disk.names f)
    (h : ∀ i, w.disk.names f = some i →
      t.identity i = w.identity i ∧ t.disk.bytes i = w.disk.bytes i) : t.file f = w.file f := by
  unfold World.file
  rw [hn]
  cases hi : w.disk.names f with
  | none => rfl
  | some i => rw [Option.map_some, Option.map_some, (h i hi).1, (h i hi).2]

/-- The file of this identity is the one that an entry is about. -/
def Tells (sum : Bytes → String) (known : List (Identity × Bytes)) (e : CacheEntry) : Prop :=
  ∃ bs, (e.file, bs) ∈ known ∧ (bs.length : Int) = e.expectedSizeBytes ∧
    sum bs = lower e.authoritativeSha256

def Honest (sum : Bytes → String) (known : List (Identity × Bytes)) (c : Cache) : Prop :=
  ∀ name e, c name = some e → Tells sum known e

/-- Two locks of different models, that name different files. -/
def Held.Apart (h k : Held) : Prop := h.key ≠ k.key ∧ ∀ f ∈ h.files, f ∉ k.files

instance : Std.Symm Held.Apart :=
  ⟨fun _ _ h => ⟨h.1.symm, fun f hf hf' => h.2 f hf' hf⟩⟩

/-- Files that are installed are what is pinned, the records tell the truth,
and no two calls with a lock name the same file. -/
structure Sane (sum : Bytes → String) (w : World) : Prop where
  noted : ∀ f x, w.file f = some x → x ∈ w.known
  one : ∀ x ∈ w.known, ∀ y ∈ w.known, x.1 = y.1 → x.2 = y.2
  injective : ∀ f g i, w.disk.names f = some i → w.disk.names g = some i → f = g
  cache : ∀ dir, Honest sum w.known (w.cache dir)
  installed : ∀ f a, w.installed f = some a → ∃ x, w.file f = some x ∧ Pinned sum a x.2
  held : w.held.Pairwise Held.Apart

/-- What a call relies on: what was seen stays known, and while it has a lock,
the files it names stay what they are. -/
structure Keeps (p : Caller) (w t : World) : Prop where
  known : ∀ x ∈ w.known, x ∈ t.known
  held : ∀ h ∈ w.held, h.caller = p →
    h ∈ t.held ∧ ∀ f ∈ h.files, t.file f = w.file f ∧ t.installed f = w.installed f

theorem Keeps.refl (p : Caller) (w : World) : Keeps p w w :=
  ⟨fun _ h => h, fun _ h _ => ⟨h, fun _ _ => ⟨rfl, rfl⟩⟩⟩

theorem Keeps.trans (h : Keeps p w t) (h' : Keeps p t u) : Keeps p w u where
  known x hx := h'.known x (h.known x hx)
  held k hk hp := by
    obtain ⟨ht, hfiles⟩ := h.held k hk hp
    obtain ⟨hu, hfiles'⟩ := h'.held k ht hp
    exact ⟨hu, fun f hf => ⟨(hfiles' f hf).1.trans (hfiles f hf).1,
      (hfiles' f hf).2.trans (hfiles f hf).2⟩⟩

/-- Nothing is changed but at these names. -/
structure Within (files : List Path) (w t : World) : Prop where
  held : t.held = w.held
  known : ∀ x ∈ w.known, x ∈ t.known
  elsewhere : ∀ f, f ∉ files → t.file f = w.file f ∧ t.installed f = w.installed f

theorem Within.refl (files : List Path) (w : World) : Within files w w :=
  ⟨rfl, fun _ h => h, fun _ _ => ⟨rfl, rfl⟩⟩

theorem Sane.apart (h : Sane sum w) {k k' : Held} (hk : k ∈ w.held) (hk' : k' ∈ w.held)
    (hne : k.caller ≠ k'.caller) : k.Apart k' :=
  h.held.forall hk hk' fun he => hne (by rw [he])

theorem Sane.guar (h : Sane sum w) {k : Held} (hk : k ∈ w.held) (hp : k.caller = p)
    (ht : Within k.files w t) : Crew.Guar Keeps p w t := by
  intro q hq
  refine ⟨ht.known, fun k' hk' hq' => ⟨ht.held ▸ hk', fun f hf => ht.elsewhere f ?_⟩⟩
  exact (h.apart hk' hk (by rw [hp, hq']; exact hq)).2 f hf

/-! ### A file changed -/

theorem noted_spec (h : w.noted i = some t) :
    t = { w with known := (w.identity i, w.disk.bytes i) :: w.known } ∧
      ∀ x ∈ w.known, x.1 = w.identity i → x.2 = w.disk.bytes i := by
  unfold World.noted at h
  split at h
  · next hone =>
    cases h
    exact ⟨rfl, hone⟩
  · cases h

theorem Tells.known {known known' : List (Identity × Bytes)} {e : CacheEntry}
    (h : Tells sum known e) (hk : ∀ x ∈ known, x ∈ known') : Tells sum known' e := by
  obtain ⟨bs, hbs, hright⟩ := h
  exact ⟨bs, hk _ hbs, hright⟩

theorem Honest.known {known known' : List (Identity × Bytes)} {c : Cache}
    (h : Honest sum known c) (hk : ∀ x ∈ known, x ∈ known') : Honest sum known' c :=
  fun name e he => (h name e he).known hk

/-- A file is changed, or another name is given to it, and it is known as what
it is now. -/
theorem Sane.changed {v : World} (h : Sane sum w) (hv : v.noted i = some t)
    (hheld : v.held = w.held) (hcache : v.cache = w.cache) (hknown : v.known = w.known)
    (hinj : ∀ f g j, v.disk.names f = some j → v.disk.names g = some j → f = g)
    (hfiles : ∀ f x, v.file f = some x → x.1.ino = i ∨ ∃ g, w.file g = some x)
    (hinst : ∀ f a, v.installed f = some a → ∃ x, v.file f = some x ∧ Pinned sum a x.2) :
    Sane sum t := by
  obtain ⟨rfl, hone⟩ := noted_spec hv
  refine ⟨fun f x hx => ?_, ?_, hinj, fun dir => ?_, hinst, hheld ▸ h.held⟩
  · obtain hi | ⟨g, hg⟩ := hfiles f x hx
    · obtain ⟨_, hx'⟩ := names_of_file hx
      rw [hi] at hx'
      exact hx' ▸ List.mem_cons_self
    · exact List.mem_cons_of_mem _ (hknown ▸ h.noted g x hg)
  · have hold := hknown ▸ h.one
    rintro x hx y hy hxy
    obtain rfl | hx := List.mem_cons.mp hx <;> obtain rfl | hy := List.mem_cons.mp hy
    · rfl
    · exact (hone y hy hxy.symm).symm
    · exact hone x hx hxy
    · exact hold x hx y hy hxy
  · have hold := hcache ▸ h.cache dir
    exact hold.known fun x hx => List.mem_cons_of_mem _ (hknown ▸ hx)

theorem identity_update {disk : Disk Path UInt8} {j m n : Nat} (hj : j ≠ i)
    (hb : disk.bytes j = w.disk.bytes j) :
    World.identity { w with
        disk := disk
        mtime := Function.update w.mtime i m
        ctime := Function.update w.ctime i n } j = w.identity j := by
  simp only [World.identity, Function.update_of_ne hj, hb]

theorem Sane.rewritten {v : World} (h : Sane sum w) (hf : w.disk.names f = some i)
    (hmem : f ∈ files) (hv : v.noted i = some t) (hnames : v.disk.names = w.disk.names)
    (hheld : v.held = w.held) (hcache : v.cache = w.cache) (hknown : v.known = w.known)
    (hinst : v.installed = w.installed)
    (hother : ∀ j, j ≠ i → v.identity j = w.identity j ∧ v.disk.bytes j = w.disk.bytes j)
    (hkept : w.installed f = none ∨ v.disk.bytes i = w.disk.bytes i) :
    Sane sum t ∧ Within files w t ∧ t.disk.names = w.disk.names ∧ t.installed = w.installed := by
  have hsame : ∀ g, g ≠ f → v.file g = w.file g := fun g hg =>
    file_congr (congrFun hnames g) fun j hj => hother j fun he =>
      hg (h.injective g f i (he ▸ hj) hf)
  have hsane : Sane sum t := by
    refine h.changed hv hheld hcache hknown (hnames ▸ h.injective) (fun g x hx => ?_)
      fun g b hb => ?_
    · by_cases hg : g = f
      · have hi := (names_of_file hx).1
        rw [hnames, hg, hf] at hi
        exact .inl (Option.some.inj hi).symm
      · exact .inr ⟨g, hsame g hg ▸ hx⟩
    · obtain ⟨x, hx, hpinned⟩ := h.installed g b (hinst ▸ hb)
      by_cases hg : g = f
      · subst hg
        obtain hno | hbytes := hkept
        · rw [hinst, hno] at hb
          cases hb
        · rw [file_of_names hf] at hx
          cases hx
          exact ⟨_, file_of_names ((congrFun hnames g).trans hf), hbytes ▸ hpinned⟩
      · exact ⟨x, (hsame g hg).trans hx, hpinned⟩
  obtain ⟨rfl, _⟩ := noted_spec hv
  refine ⟨hsane, ⟨hheld, fun x hx => List.mem_cons_of_mem _ (hknown ▸ hx), fun g hg => ?_⟩, hnames,
    hinst⟩
  exact ⟨hsame g fun he => hg (he ▸ hmem), congrFun hinst g⟩

theorem written_spec {m n : Nat} {piece : Bytes} (h : Sane sum w) (hf : w.disk.names f = some i)
    (hmem : f ∈ files) (hnone : w.installed f = none) (hw : w.written i piece m n = some t) :
    Sane sum t ∧ Within files w t ∧ t.disk.names = w.disk.names ∧ t.installed = w.installed :=
  h.rewritten hf hmem hw rfl rfl rfl rfl rfl (fun _ hj =>
    have hb : (w.disk.append i piece).bytes _ = w.disk.bytes _ := Disk.append_bytes_of_ne hj
    ⟨identity_update hj hb, hb⟩) (.inl hnone)

theorem touched_spec {n : Nat} (h : Sane sum w) (hf : w.disk.names f = some i) (hmem : f ∈ files)
    (hw : w.touched i n = some t) :
    Sane sum t ∧ Within files w t ∧ t.disk.names = w.disk.names ∧ t.installed = w.installed := by
  refine h.rewritten hf hmem hw rfl rfl rfl rfl rfl (fun _ hj => ⟨?_, rfl⟩) (.inr rfl)
  simp only [World.identity, Function.update_of_ne hj]

theorem created_spec {m n : Nat} (h : Sane sum w) (hf : w.disk.names f = none) (hmem : f ∈ files)
    (hw : w.created f m n = some t) :
    Sane sum t ∧ Within files w t ∧ t.disk.names f = some w.disk.next ∧
      t.installed = w.installed := by
  have hsame : ∀ g, g ≠ f → World.file { w with
      disk := w.disk.create f []
      mtime := Function.update w.mtime w.disk.next m
      ctime := Function.update w.ctime w.disk.next n } g = w.file g := fun g hg =>
    file_congr (Disk.create_names_of_ne hg) fun j hj => by
      have hlt := w.disk.fresh g j hj
      have hb : (w.disk.create f []).bytes j = w.disk.bytes j := Disk.create_bytes_of_lt hlt
      exact ⟨identity_update (Nat.ne_of_lt hlt) hb, hb⟩
  have hnone : w.file f = none := by rw [World.file, hf, Option.map_none]
  have hsane : Sane sum t := by
    refine h.changed hw rfl rfl rfl (fun g k j hg hk => ?_) (fun g x hx => ?_) fun g b hb => ?_
    · -- The new file has a number that no name had.
      have hnew : ∀ e, (w.disk.create f []).names e = some w.disk.next → e = f := fun e he => by
        by_contra hne
        rw [Disk.create_names_of_ne hne] at he
        exact absurd (w.disk.fresh e _ he) (Nat.lt_irrefl _)
      by_cases hgf : g = f
      · have hj : j = w.disk.next := by
          rw [hgf, Disk.create_names_self] at hg
          exact (Option.some.inj hg).symm
        rw [hgf, hnew k (hj ▸ hk)]
      · by_cases hkf : k = f
        · have hj : j = w.disk.next := by
            rw [hkf, Disk.create_names_self] at hk
            exact (Option.some.inj hk).symm
          exact absurd (hnew g (hj ▸ hg)) hgf
        · rw [Disk.create_names_of_ne hgf] at hg
          rw [Disk.create_names_of_ne hkf] at hk
          exact h.injective g k j hg hk
    · by_cases hg : g = f
      · have hi := (names_of_file hx).1
        rw [hg, Disk.create_names_self] at hi
        exact .inl (Option.some.inj hi).symm
      · exact .inr ⟨g, (hsame g hg).symm.trans hx⟩
    · obtain ⟨x, hx, hpinned⟩ := h.installed g b hb
      refine ⟨x, (hsame g fun he => ?_).trans hx, hpinned⟩
      rw [he, hnone] at hx
      cases hx
  obtain ⟨rfl, _⟩ := noted_spec hw
  refine ⟨hsane, ⟨rfl, fun x hx => List.mem_cons_of_mem _ hx, fun g hg => ?_⟩,
    Disk.create_names_self, rfl⟩
  exact ⟨hsame g fun he => hg (he ▸ hmem), rfl⟩

theorem opened_spec {m n : Nat} (h : Sane sum w) (hmem : f ∈ files)
    (hw : w.opened f m n = some (i, t)) :
    Sane sum t ∧ Within files w t ∧ t.disk.names f = some i ∧ t.installed = w.installed := by
  unfold World.opened at hw
  split at hw
  · next j hj =>
    obtain ⟨t', ht, he⟩ := Option.map_eq_some_iff.mp hw
    cases he
    obtain ⟨hsane, hwithin, hnames, hinst⟩ := touched_spec h hj hmem ht
    exact ⟨hsane, hwithin, (congrFun hnames f).trans hj, hinst⟩
  · next hj =>
    obtain ⟨t', ht, he⟩ := Option.map_eq_some_iff.mp hw
    cases he
    exact created_spec h hj hmem ht

theorem moved_spec {n : Nat} (h : Sane sum w) (hne : f ≠ g) (hf : f ∈ files) (hg : g ∈ files)
    (hw : w.moved f g n = some t) :
    Sane sum t ∧ Within files w t ∧
      (∃ x y, w.file f = some x ∧ t.file g = some y ∧ y.2 = x.2) ∧
      ∀ k, w.installed k = none → t.installed k = none := by
  unfold World.moved at hw
  split at hw
  case h_2 => cases hw
  next i disk hi hdisk =>
  obtain ⟨j, hj, hbytes, _, hnew, hothers, hgone⟩ := Disk.rename_spec hdisk
  rw [hi] at hj
  cases hj
  have hold : disk.names f = none := by
    obtain hnone | ⟨hsame, _⟩ := hgone
    · exact hnone
    · exact absurd (h.injective f g i hi hsame) hne
  have hsame : ∀ k, k ≠ f → k ≠ g → World.file { w with
      disk := disk
      ctime := Function.update w.ctime i n
      installed := Function.update (Function.update w.installed f none) g none } k = w.file k :=
    fun k hkf hkg => file_congr (hothers k hkf hkg) fun j hj => by
      have hji : j ≠ i := fun he => hkf (h.injective k f i (he ▸ hj) hi)
      have hb : disk.bytes j = w.disk.bytes j := by rw [hbytes]
      exact ⟨by simp only [World.identity, Function.update_of_ne hji, hb], hb⟩
  -- The file has one name, and no other file has it.
  have hwhere : ∀ k j, disk.names k = some j → k = g ∧ j = i ∨ k ≠ f ∧ k ≠ g := by
    intro k j hk
    by_cases hkg : k = g
    · rw [hkg, hnew] at hk
      exact .inl ⟨hkg, (Option.some.inj hk).symm⟩
    · refine .inr ⟨fun hkf => ?_, hkg⟩
      rw [hkf, hold] at hk
      cases hk
  have hinst : ∀ k b, Function.update (Function.update w.installed f none) g none k = some b →
      k ≠ f ∧ k ≠ g ∧ w.installed k = some b := by
    intro k b hk
    by_cases hkg : k = g
    · rw [hkg, Function.update_self] at hk
      cases hk
    · by_cases hkf : k = f
      · rw [Function.update_of_ne hkg, hkf, Function.update_self] at hk
        cases hk
      · rw [Function.update_of_ne hkg, Function.update_of_ne hkf] at hk
        exact ⟨hkf, hkg, hk⟩
  have hsane : Sane sum t := by
    refine h.changed hw rfl rfl rfl (fun k k' j hk hk' => ?_) (fun k x hx => ?_) fun k b hb => ?_
    · obtain ⟨hkg, hj⟩ | ⟨hkf, hkg⟩ := hwhere k j hk <;>
        obtain ⟨hkg', hj'⟩ | ⟨hkf', hkg'⟩ := hwhere k' j hk'
      · rw [hkg, hkg']
      · rw [hothers k' hkf' hkg', hj] at hk'
        exact absurd (h.injective k' f i hk' hi) hkf'
      · rw [hothers k hkf hkg, hj'] at hk
        exact absurd (h.injective k f i hk hi) hkf
      · rw [hothers k hkf hkg] at hk
        rw [hothers k' hkf' hkg'] at hk'
        exact h.injective k k' j hk hk'
    · obtain ⟨_, hi⟩ | ⟨hkf, hkg⟩ := hwhere k _ (names_of_file hx).1
      · exact .inl hi
      · exact .inr ⟨k, (hsame k hkf hkg).symm.trans hx⟩
    · obtain ⟨hkf, hkg, hb⟩ := hinst k b hb
      obtain ⟨x, hx, hpinned⟩ := h.installed k b hb
      exact ⟨x, (hsame k hkf hkg).trans hx, hpinned⟩
  obtain ⟨rfl, _⟩ := noted_spec hw
  refine ⟨hsane, ⟨rfl, fun x hx => List.mem_cons_of_mem _ hx, fun k hk => ?_⟩,
    ⟨_, _, file_of_names hi, file_of_names hnew, congrFun hbytes i⟩, fun k hk => ?_⟩
  · have hkf : k ≠ f := fun he => hk (he ▸ hf)
    have hkg : k ≠ g := fun he => hk (he ▸ hg)
    exact ⟨hsame k hkf hkg, (Function.update_of_ne hkg _ _).trans (Function.update_of_ne hkf _ _)⟩
  · cases hb : (Function.update (Function.update w.installed f none) g none) k with
    | none => exact hb
    | some b => exact absurd ((hinst k b hb).2.2.symm.trans hk) (by simp)

theorem removed_file (hg : g ≠ f) : (w.removed f).file g = w.file g :=
  file_congr (Disk.remove_names_of_ne hg) fun _ _ => ⟨rfl, rfl⟩

theorem removed_installed (k : Path) (hk : w.installed k = none) :
    (w.removed f).installed k = none := by
  by_cases hf : k = f
  · rw [hf]
    exact Function.update_self ..
  · exact (Function.update_of_ne hf _ _).trans hk

theorem removed_spec (h : Sane sum w) (hf : f ∈ files) :
    Sane sum (w.removed f) ∧ Within files w (w.removed f) := by
  have hnames : ∀ g i, (w.removed f).disk.names g = some i → g ≠ f ∧ w.disk.names g = some i := by
    intro g i hg
    by_cases hgf : g = f
    · rw [hgf] at hg
      exact absurd (hg.symm.trans (Disk.remove_names_self (d := w.disk))) (by simp)
    · exact ⟨hgf, (Disk.remove_names_of_ne hgf).symm.trans hg⟩
  refine ⟨⟨fun g x hx => ?_, h.one, fun g k i hg hk => ?_, h.cache, fun g b hb => ?_, h.held⟩,
    rfl, fun _ hx => hx, fun g hg => ?_⟩
  · have hgf := (hnames g _ (names_of_file hx).1).1
    exact h.noted g x ((removed_file hgf).symm.trans hx)
  · exact h.injective g k i (hnames g i hg).2 (hnames k i hk).2
  · by_cases hgf : g = f
    · rw [hgf] at hb
      exact absurd (hb.symm.trans (Function.update_self ..)) (by simp)
    · obtain ⟨x, hx, hpinned⟩ := h.installed g b ((Function.update_of_ne hgf _ _).symm.trans hb)
      exact ⟨x, (removed_file hgf).trans hx, hpinned⟩
  · have hgf : g ≠ f := fun he => hg (he ▸ hf)
    exact ⟨removed_file hgf, Function.update_of_ne hgf _ _⟩

end LocalBase.Install
