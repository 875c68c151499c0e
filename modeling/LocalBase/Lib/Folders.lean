import LocalBase.Lib.Files

/-!
# Files in folders

A disk whose files are in folders. A folder is known by a number, as a file is,
and what is open in it stays open when it goes to another path: moving a folder
moves all that is in it, in one step, and changes none of it.

A folder is at one path and a file under one name. `look` is all that a path
leads to, and what an operation changes is said by it: nothing, but at the
paths the operation is about.
-/

namespace Files

/-- Folders at paths `δ`, and in them files of bytes `β` under names `ν`. Every
number at a path was given out. -/
structure Folders (δ ν β : Type) where
  place : δ → Option Nat
  disk : Disk (Nat × ν) β
  count : Nat
  given : ∀ d n, place d = some n → n < count
  filled : ∀ n x i, disk.names (n, x) = some i → n < count
  apart : ∀ d e n, place d = some n → place e = some n → d = e
  single : ∀ x y i, disk.names x = some i → disk.names y = some i → x = y

variable {δ ν β : Type}

namespace Folders

/-- What is under a name of a folder: the file's number and its bytes. -/
def entry (f : Folders δ ν β) (n : Nat) (x : ν) : Option (Nat × List β) :=
  (f.disk.names (n, x)).map fun i => (i, f.disk.bytes i)

/-- What a path leads to. -/
def look (f : Folders δ ν β) (d : δ) : Option (Nat × (ν → Option (Nat × List β))) :=
  (f.place d).map fun n => (n, f.entry n)

/-- The file of this name at a path. -/
def file (f : Folders δ ν β) (d : δ) (x : ν) : Option (Nat × List β) :=
  (f.place d).bind fun n => f.entry n x

/-- Other bytes for a file. -/
def put (f : Folders δ ν β) (i : Nat) (bs : List β) : Folders δ ν β :=
  { f with disk := { f.disk with bytes := Function.update f.disk.bytes i bs } }

variable {f g : Folders δ ν β} {d e : δ} {n m i : Nat} {x y : ν} {bs : List β}

theorem entry_of_names (h : f.disk.names (n, x) = some i) :
    f.entry n x = some (i, f.disk.bytes i) := by
  rw [entry, h, Option.map_some]

theorem names_of_entry (h : f.entry n x = some (i, bs)) :
    f.disk.names (n, x) = some i ∧ f.disk.bytes i = bs := by
  obtain ⟨j, hj, he⟩ := Option.map_eq_some_iff.mp h
  cases he
  exact ⟨hj, rfl⟩

theorem look_of_place (h : f.place d = some n) : f.look d = some (n, f.entry n) := by
  rw [look, h, Option.map_some]

theorem place_of_look {es : ν → Option (Nat × List β)} (h : f.look d = some (n, es)) :
    f.place d = some n ∧ f.entry n = es := by
  obtain ⟨m, hm, he⟩ := Option.map_eq_some_iff.mp h
  cases he
  exact ⟨hm, rfl⟩

theorem file_of_place (h : f.place d = some n) : f.file d x = f.entry n x := by
  rw [file, h, Option.bind_some]

theorem file_eq_look : f.file d x = (f.look d).bind fun a => a.2 x := by
  unfold file look
  cases f.place d <;> rfl

/-- As far as the folder at a path is the same, and all that is in it, the path
leads to the same. -/
theorem look_congr (hp : g.place d = f.place d)
    (h : ∀ n, f.place d = some n → g.entry n = f.entry n) : g.look d = f.look d := by
  unfold look
  rw [hp]
  cases hd : f.place d with
  | none => rfl
  | some n => rw [Option.map_some, Option.map_some, h n hd]

theorem entry_congr (hn : g.disk.names (n, x) = f.disk.names (n, x))
    (h : ∀ i, f.disk.names (n, x) = some i → g.disk.bytes i = f.disk.bytes i) :
    g.entry n x = f.entry n x := by
  unfold entry
  rw [hn]
  cases hi : f.disk.names (n, x) with
  | none => rfl
  | some i => rw [Option.map_some, Option.map_some, h i hi]

theorem number_ne (hi : f.disk.names (n, x) = some i) {j : Nat}
    (hj : f.disk.names (m, y) = some j) (h : (m, y) ≠ (n, x)) : j ≠ i := fun he =>
  h (f.single _ _ i (he ▸ hj) hi)

theorem number_ne_of_folder (hd : f.place d = some n) (he : f.place e = some m) (h : e ≠ d) :
    m ≠ n := fun hm => h (f.apart e d n (hm ▸ he) hd)

/-! ## Bytes -/

@[simp] theorem put_bytes_self : (f.put i bs).disk.bytes i = bs := Function.update_self ..

theorem put_bytes_of_ne {j : Nat} (h : j ≠ i) : (f.put i bs).disk.bytes j = f.disk.bytes j :=
  Function.update_of_ne h _ _

theorem put_entry_self (h : f.disk.names (n, x) = some i) :
    (f.put i bs).entry n x = some (i, bs) := by
  rw [entry_of_names (f := f.put i bs) h, put_bytes_self]

theorem put_entry_of_ne (h : f.disk.names (n, x) = some i) (hne : (m, y) ≠ (n, x)) :
    (f.put i bs).entry m y = f.entry m y :=
  entry_congr rfl fun _ hj => put_bytes_of_ne (number_ne h hj hne)

theorem put_look (hd : f.place d = some n) (h : f.disk.names (n, x) = some i) (he : e ≠ d) :
    (f.put i bs).look e = f.look e :=
  look_congr rfl fun _ hm => funext fun _ => put_entry_of_ne h fun hp =>
    number_ne_of_folder hd hm he (congrArg Prod.fst hp)

section
variable [DecidableEq ν]

/-! ## Names -/

/-- A new file under a name of a folder that was given out. -/
def create (f : Folders δ ν β) (n : Nat) (x : ν) (bs : List β) (hn : n < f.count) :
    Folders δ ν β where
  place := f.place
  disk := f.disk.create (n, x) bs
  count := f.count
  given := f.given
  filled m y i h := by
    by_cases hm : (m, y) = (n, x)
    · cases hm
      exact hn
    · exact f.filled m y i ((Disk.create_names_of_ne hm).symm.trans h)
  apart := f.apart
  single a b i ha hb := by
    have hnew : ∀ c, (f.disk.create (n, x) bs).names c = some f.disk.next → c = (n, x) := by
      intro c hc
      by_contra hne
      exact absurd (f.disk.fresh c _ ((Disk.create_names_of_ne hne).symm.trans hc))
        (Nat.lt_irrefl _)
    by_cases h1 : a = (n, x)
    · subst h1
      rw [Disk.create_names_self] at ha
      cases ha
      exact (hnew b hb).symm
    · by_cases h2 : b = (n, x)
      · subst h2
        rw [Disk.create_names_self] at hb
        cases hb
        exact hnew a ha
      · exact f.single a b i ((Disk.create_names_of_ne h1).symm.trans ha)
          ((Disk.create_names_of_ne h2).symm.trans hb)

/-- No file under a name. -/
def remove (f : Folders δ ν β) (n : Nat) (x : ν) : Folders δ ν β where
  place := f.place
  disk := f.disk.remove (n, x)
  count := f.count
  given := f.given
  filled m y i h := by
    by_cases hm : (m, y) = (n, x)
    · rw [hm, Disk.remove_names_self] at h
      cases h
    · exact f.filled m y i ((Disk.remove_names_of_ne hm).symm.trans h)
  apart := f.apart
  single a b i ha hb := by
    have hold : ∀ c, (f.disk.remove (n, x)).names c = some i → f.disk.names c = some i := by
      intro c hc
      by_cases hne : c = (n, x)
      · rw [hne, Disk.remove_names_self] at hc
        cases hc
      · exact (Disk.remove_names_of_ne hne).symm.trans hc
    exact f.single a b i (hold a ha) (hold b hb)

/-- What a name leads to after a rename it led to before, or the other name
did. -/
theorem rename_names {disk : Disk (Nat × ν) β} (h : f.disk.rename (n, x) (n, y) = some disk)
    {c : Nat × ν} (hc : disk.names c = some i) :
    f.disk.names c = some i ∨ c = (n, y) ∧ f.disk.names (n, x) = some i := by
  obtain ⟨j, hold, _, _, hnew, hother, hgone⟩ := Disk.rename_spec h
  by_cases h2 : c = (n, y)
  · subst h2
    obtain rfl : j = i := Option.some.inj (hnew.symm.trans hc)
    exact .inr ⟨rfl, hold⟩
  · by_cases h1 : c = (n, x)
    · subst h1
      obtain hnone | ⟨_, rfl⟩ := hgone
      · rw [hnone] at hc
        cases hc
      · exact .inl hc
    · exact .inl ((hother c h1 h2).symm.trans hc)

/-- A name moved onto another of its folder in one step; `none` without a
file. -/
def rename (f : Folders δ ν β) (n : Nat) (x y : ν) : Option (Folders δ ν β) :=
  match h : f.disk.rename (n, x) (n, y) with
  | none => none
  | some disk => some {
      place := f.place
      disk := disk
      count := f.count
      given := f.given
      filled := fun m z i hz => by
        obtain hz | ⟨hc, hx⟩ := rename_names h hz
        · exact f.filled m z i hz
        · cases hc
          exact f.filled n x i hx
      apart := f.apart
      single := fun a b i ha hb => by
        obtain ⟨j, hold, _, _, _, _, hgone⟩ := Disk.rename_spec h
        obtain hgone | ⟨_, rfl⟩ := hgone
        · -- The first name is of no file any longer, so it is neither.
          have hmoved : ∀ c, disk.names c = some i → f.disk.names (n, x) = some i → c = (n, y) := by
            intro c hc hx
            obtain hold' | ⟨hcy, _⟩ := rename_names h hc
            · obtain rfl := f.single c (n, x) i hold' hx
              rw [hgone] at hc
              cases hc
            · exact hcy
          obtain ha' | ⟨hay, hx⟩ := rename_names h ha
          · obtain hb' | ⟨hby, hx⟩ := rename_names h hb
            · exact f.single a b i ha' hb'
            · rw [hby, hmoved a ha hx]
          · rw [hay, hmoved b hb hx]
        · exact f.single a b i ha hb }

theorem rename_spec (h : f.rename n x y = some g) :
    ∃ i, f.disk.names (n, x) = some i ∧ g.place = f.place ∧ g.disk.bytes = f.disk.bytes ∧
      g.disk.names (n, y) = some i ∧ (x ≠ y → g.disk.names (n, x) = none) ∧
      ∀ m z, (m, z) ≠ (n, x) → (m, z) ≠ (n, y) → g.disk.names (m, z) = f.disk.names (m, z) := by
  unfold rename at h
  split at h
  · cases h
  · next disk hdisk =>
    cases h
    obtain ⟨i, hold, hbytes, _, hnew, hother, hgone⟩ := Disk.rename_spec hdisk
    refine ⟨i, hold, rfl, hbytes, hnew, fun hne => ?_, fun m z h1 h2 => hother _ h1 h2⟩
    obtain hnone | ⟨hsame, _⟩ := hgone
    · exact hnone
    · exact absurd (congrArg Prod.snd (f.single _ _ i hold hsame)) hne

@[simp] theorem create_entry_self {hn : n < f.count} :
    (f.create n x bs hn).entry n x = some (f.disk.next, bs) := by
  rw [entry_of_names (f := f.create n x bs hn) Disk.create_names_self]
  exact congrArg some (congrArg (Prod.mk _) Disk.create_bytes_self)

theorem create_entry_of_ne {hn : n < f.count} (h : (m, y) ≠ (n, x)) :
    (f.create n x bs hn).entry m y = f.entry m y :=
  entry_congr (Disk.create_names_of_ne h) fun i hi => Disk.create_bytes_of_lt (f.disk.fresh _ i hi)

@[simp] theorem remove_entry_self : (f.remove n x).entry n x = none := by
  rw [entry, remove, Disk.remove_names_self, Option.map_none]

theorem remove_entry_of_ne (h : (m, y) ≠ (n, x)) : (f.remove n x).entry m y = f.entry m y :=
  entry_congr (Disk.remove_names_of_ne h) fun _ _ => rfl

theorem create_look {hn : n < f.count} (hd : f.place d = some n) (he : e ≠ d) :
    (f.create n x bs hn).look e = f.look e :=
  look_congr rfl fun _ hm => funext fun _ => create_entry_of_ne fun hp =>
    number_ne_of_folder hd hm he (congrArg Prod.fst hp)

theorem remove_look (h : ∀ m, f.place e = some m → m ≠ n) : (f.remove n x).look e = f.look e :=
  look_congr rfl fun m hm => funext fun _ => remove_entry_of_ne fun hp =>
    h m hm (congrArg Prod.fst hp)

/-- A rename is of a file that is there: the second name is all it has of the
two. -/
theorem rename_entries (h : f.rename n x y = some g) (hxy : x ≠ y) :
    f.entry n x ≠ none ∧ g.place = f.place ∧ g.entry n y = f.entry n x ∧ g.entry n x = none ∧
      ∀ m z, (m, z) ≠ (n, x) → (m, z) ≠ (n, y) → g.entry m z = f.entry m z := by
  obtain ⟨i, hold, hplace, hbytes, hnew, hgone, hother⟩ := rename_spec h
  refine ⟨?_, hplace, ?_, ?_, fun m z h1 h2 => ?_⟩
  · rw [entry_of_names hold]
    exact Option.some_ne_none _
  · rw [entry_of_names hold, entry_of_names hnew, hbytes]
  · rw [entry, hgone hxy, Option.map_none]
  · exact entry_congr (hother m z h1 h2) fun _ _ => congrFun hbytes _

theorem rename_look (h : f.rename n x y = some g) (hd : f.place d = some n) (he : e ≠ d) :
    g.look e = f.look e := by
  obtain ⟨i, _, hplace, hbytes, _, _, hother⟩ := rename_spec h
  refine look_congr (congrFun hplace e) fun m hm => funext fun z => ?_
  have hne : m ≠ n := number_ne_of_folder hd hm he
  exact entry_congr (hother m z (fun hp => hne (congrArg Prod.fst hp))
    fun hp => hne (congrArg Prod.fst hp)) fun _ _ => congrFun hbytes _

end

/-! ## Folders -/

variable [DecidableEq δ]

/-- A folder at a path, new and empty unless there is one. -/
def make (f : Folders δ ν β) (d : δ) : Folders δ ν β :=
  match h : f.place d with
  | some _ => f
  | none => {
      place := Function.update f.place d (some f.count)
      disk := f.disk
      count := f.count + 1
      given := fun e n hn => by
        by_cases he : e = d
        · rw [he, Function.update_self] at hn
          cases hn
          exact Nat.lt_succ_self _
        · exact Nat.lt_succ_of_lt (f.given e n ((Function.update_of_ne he _ _).symm.trans hn))
      filled := fun n x i hi => Nat.lt_succ_of_lt (f.filled n x i hi)
      apart := fun a b n ha hb => by
        have hnew : ∀ c, c ≠ d → Function.update f.place d (some f.count) c ≠ some f.count :=
          fun c hc hn => absurd (f.given c _ ((Function.update_of_ne hc _ _).symm.trans hn))
            (Nat.lt_irrefl _)
        by_cases h1 : a = d
        · by_cases h2 : b = d
          · rw [h1, h2]
          · rw [h1, Function.update_self] at ha
            exact absurd (ha ▸ hb) (hnew b h2)
        · by_cases h2 : b = d
          · rw [h2, Function.update_self] at hb
            exact absurd (hb ▸ ha) (hnew a h1)
          · exact f.apart a b n ((Function.update_of_ne h1 _ _).symm.trans ha)
              ((Function.update_of_ne h2 _ _).symm.trans hb)
      single := f.single }

/-- No folder at a path. -/
def drop (f : Folders δ ν β) (d : δ) : Folders δ ν β :=
  have hold : ∀ c n, Function.update f.place d none c = some n → f.place c = some n := by
    intro c n hc
    by_cases h : c = d
    · rw [h, Function.update_self] at hc
      cases hc
    · exact (Function.update_of_ne h _ _).symm.trans hc
  { f with
    place := Function.update f.place d none
    given := fun e n hn => f.given e n (hold e n hn)
    apart := fun a b n ha hb => f.apart a b n (hold a n ha) (hold b n hb) }

/-- The folder at the first path moved to the second; `none` without a first,
or with a second. -/
def move (f : Folders δ ν β) (d e : δ) : Option (Folders δ ν β) :=
  match h : f.place d, f.place e with
  | some n, none =>
    have hold : ∀ c m, Function.update (f.drop d).place e (some n) c = some m →
        c = e ∧ m = n ∨ c ≠ e ∧ c ≠ d ∧ f.place c = some m := by
      intro c m hc
      by_cases hce : c = e
      · rw [hce, Function.update_self] at hc
        exact .inl ⟨hce, (Option.some.inj hc).symm⟩
      · rw [Function.update_of_ne hce] at hc
        by_cases hcd : c = d
        · have hgone : (f.drop d).place d = none := Function.update_self ..
          rw [hcd, hgone] at hc
          cases hc
        · exact .inr ⟨hce, hcd, (Function.update_of_ne hcd _ _).symm.trans hc⟩
    some { f with
      place := Function.update (f.drop d).place e (some n)
      given := fun c m hc => by
        obtain ⟨_, rfl⟩ | ⟨_, _, hc⟩ := hold c m hc
        · exact f.given d m h
        · exact f.given c m hc
      apart := fun a b m ha hb => by
        obtain ⟨hae, hm⟩ | ⟨_, had, ha'⟩ := hold a m ha
        · obtain ⟨hbe, _⟩ | ⟨_, hbd, hb'⟩ := hold b m hb
          · rw [hae, hbe]
          · exact absurd (f.apart b d n (hm ▸ hb') h) hbd
        · obtain ⟨_, hm⟩ | ⟨_, _, hb'⟩ := hold b m hb
          · exact absurd (f.apart a d n (hm ▸ ha') h) had
          · exact f.apart a b m ha' hb' }
  | _, _ => none

theorem make_place : ∃ n, (f.make d).place d = some n := by
  unfold make
  split
  · next n h => exact ⟨n, h⟩
  · exact ⟨_, Function.update_self ..⟩

theorem make_look (h : e ≠ d) : (f.make d).look e = f.look e := by
  unfold make
  split
  · rfl
  · exact look_congr (Function.update_of_ne h _ _) fun _ _ => rfl

theorem drop_look (h : e ≠ d) : (f.drop d).look e = f.look e :=
  look_congr (Function.update_of_ne h _ _) fun _ _ => rfl

theorem move_looks (h : f.move d e = some g) :
    f.look d ≠ none ∧ f.look e = none ∧ g.look e = f.look d ∧ g.look d = none ∧
      ∀ c, c ≠ d → c ≠ e → g.look c = f.look c := by
  unfold move at h
  split at h
  · next n hd he =>
    cases h
    have hde : d ≠ e := fun h => by
      rw [h, he] at hd
      cases hd
    refine ⟨?_, ?_, ?_, ?_, fun c hcd hce => look_congr ?_ fun _ _ => rfl⟩
    · rw [look_of_place hd]
      exact Option.some_ne_none _
    · rw [look, he, Option.map_none]
    · rw [look_of_place hd]
      exact look_of_place (Function.update_self ..)
    · have hgone : Function.update (f.drop d).place e (some n) d = none :=
        (Function.update_of_ne hde _ _).trans (Function.update_self ..)
      exact Option.map_eq_none_iff.mpr hgone
    · exact (Function.update_of_ne hce _ _).trans (Function.update_of_ne hcd _ _)
  · cases h

end Folders

end Files
