import LocalBase.Jsjson.Value
import LocalBase.Lib.Machine
import LocalBase.Lib.SplitOn
import LocalBase.ModelCatalog.Spec
import Mathlib

/-!
# Former built-in entries

A model that an earlier release shipped is kept as a user's entry where it is installed
or selected. Which entries have been kept is written to a log, so that one the user
removes is not written again. The log is written once, after all the entries.
-/

namespace LocalBase.ModelCatalog

open Machine
open StructuredOutput (Json Object)

structure FormerEntry (F : Type) where
  /-- What the shipped file parses to. -/
  data : Option Json
  spec : Decoded F

/-- What of the root directory is read and written: the files under `catalog.d`, each with
what it parses to, the log there, and the files of the models by kind. -/
structure Root where
  files : String → Option (Option Json)
  log : Option (List Char)
  models : String → String → Bool

/-! ## The log -/

/-- `unicode.IsSpace`. -/
def isSpace (c : Char) : Bool :=
  [0x20, 0x85, 0xA0, 0x1680, 0x2028, 0x2029, 0x202F, 0x205F, 0x3000].contains c.toNat ||
    (0x9 ≤ c.toNat && c.toNat ≤ 0xD) || (0x2000 ≤ c.toNat && c.toNat ≤ 0x200A)

/-- `strings.TrimSpace`. -/
def trimSpace (cs : List Char) : List Char :=
  ((cs.dropWhile isSpace).reverse.dropWhile isSpace).reverse

def readAdoptionLog (log : Option (List Char)) : List String :=
  match log with
  | none => []
  | some b =>
    (b.splitOn '\n').filterMap fun l =>
      let l := trimSpace l
      if l = [] then none else some (String.ofList l)

def adoptionLog (adopted : List String) : List Char :=
  ['\n'].intercalate ((adopted.dedup.insertionSort (· ≤ ·)).map String.toList) ++ ['\n']

/-! ## Entries -/

def isFilenameChar (c : Char) : Bool := c.isAlphanum || c = '.' || c = '_' || c = '-'

/-- `strings.Contains(name, "..")` -/
def hasDots : List Char → Bool
  | a :: b :: cs => (a = '.' && b = '.') || hasDots (b :: cs)
  | _ => false

def safeFilename (name : List Char) : Bool :=
  match name with
  | [] => false
  | c :: cs => c.isAlphanum && cs.all isFilenameChar && !hasDots (c :: cs)

/-- `UserEntryPath`, in the directory of the entries. -/
def userEntryPath (dir modelID : String) : Option String :=
  let name := modelID ++ ".json"
  if safeFilename name.toList then some (dir ++ "/" ++ name) else none

def formerEntryHint : String := "No longer in the LocalBase catalog; kept from an earlier release."

def formerUserEntry (data : Option Json) : Option Object :=
  (data.bind Json.object?).map fun o =>
    match o.lookup "notes" with
    | some (.str s) =>
      if s ≠ "" then Jsjson.set "notes" (.str (formerEntryHint ++ " " ++ s)) o
      else Jsjson.set "notes" (.str formerEntryHint) o
    | _ => Jsjson.set "notes" (.str formerEntryHint) o

variable {F : Type} (go : Go F)

/-- The patch that a user's file is; none of a complete spec, or of another model's. -/
def userPatchAt (file : Option Json) (modelID : String) : Option Object :=
  match file.bind Json.object? with
  | none => none
  | some o =>
    match o.lookup "modelId" with
    | some (.str id) =>
      if id ≠ modelID then none
      else
        match decodeStrict go o with
        | .ok _ => none
        | .error _ => some o
    | _ => none

/-- The patch to apply, if there is a file; nothing where the file is to be left alone. -/
def existingPatch (file : Option (Option Json)) (modelID : String) : Option (Option Object) :=
  match file with
  | none => some none
  | some f => (userPatchAt go f modelID).map some

def Decoded.primary (s : Decoded F) : Option Artifact :=
  (s.artifacts.find? fun a => a.role = "primary").or s.artifacts.head?

def formerInstalled (root : Root) (s : Decoded F) : Bool :=
  s.primary.elim false fun p => root.models s.kind p.filename

/-- An entry is wanted where it is selected or its file is there. -/
def wanted (root : Root) (referenced : List String) (e : FormerEntry F) : Bool :=
  referenced.contains e.spec.modelID || formerInstalled root e.spec

structure Adopting where
  root : Root
  adopted : List String
  written : List String := []

def Adopting.write (a : Adopting) (path id : String) (spec : Object) : Adopting where
  root :=
    { a.root with
      files := fun p => if p = path then some (some (.obj spec)) else a.root.files p }
  adopted := a.adopted ++ [id]
  written := a.written ++ [id]

/-- The loop of `AdoptFormerEntries`, and whether it came to its end. `writes` says which
writes succeed. -/
def adoptEntries (dir : String) (referenced : List String) (writes : String → Bool) :
    List (FormerEntry F) → Adopting → Adopting × Bool
  | [], a => (a, true)
  | e :: rest, a =>
    let id := e.spec.modelID
    if !wanted a.root referenced e then adoptEntries dir referenced writes rest a
    else
      match userEntryPath dir id with
      | none => (a, false)
      | some path =>
        match existingPatch go (a.root.files path) id with
        | none => adoptEntries dir referenced writes rest a
        | some patch =>
          if a.adopted.contains id then adoptEntries dir referenced writes rest a
          else
            match formerUserEntry e.data with
            | none => adoptEntries dir referenced writes rest a
            | some spec =>
              let spec := (patch.getD []).foldl (fun o m => Jsjson.set m.1 m.2 o) spec
              if writes id then
                adoptEntries dir referenced writes rest (a.write path id spec)
              else (a, false)

/-- `AdoptFormerEntries`, over the former entries: the directory afterwards, and the ids
written. -/
def adoptFormerEntries (former : List (FormerEntry F)) (dir : String) (referenced : List String)
    (writes : String → Bool) (root : Root) : Root × List String :=
  let (a, finished) :=
    adoptEntries go dir referenced writes former
      { root := root, adopted := readAdoptionLog root.log }
  if finished ∧ a.written ≠ [] then
    ({ a.root with log := some (adoptionLog a.adopted) }, a.written)
  else (a.root, a.written)

/-! ## What is logged is read back -/

theorem trimSpace_of {cs : List Char} (h : ∀ c ∈ cs, isSpace c = false) : trimSpace cs = cs := by
  have hdrop : ∀ {l : List Char}, (∀ c ∈ l, isSpace c = false) → l.dropWhile isSpace = l := by
    intro l hl
    cases l with
    | nil => rfl
    | cons c l => exact List.dropWhile_cons_of_neg (by simp [hl c List.mem_cons_self])
  rw [trimSpace, hdrop h, hdrop fun c hc => h c (List.mem_reverse.1 hc), List.reverse_reverse]

theorem trimSpace_trimSpace (cs : List Char) : trimSpace (trimSpace cs) = trimSpace cs := by
  have hform : ∀ l, trimSpace l = (l.dropWhile isSpace).rdropWhile isSpace := fun _ => rfl
  have hfront : (trimSpace cs).dropWhile isSpace = trimSpace cs := by
    obtain ⟨rest, hrest⟩ := List.rdropWhile_prefix isSpace (cs.dropWhile isSpace)
    cases htrim : trimSpace cs with
    | nil => rfl
    | cons c l =>
      rw [← hform, htrim] at hrest
      have hhead := List.head?_dropWhile_not isSpace cs
      rw [← hrest] at hhead
      exact List.dropWhile_cons_of_neg (by simpa using hhead)
  rw [hform, hfront, hform, List.rdropWhile_idempotent]

/-- An id that stays as it is on a line of its own. -/
structure Clean (id : String) : Prop where
  nonempty : id.toList ≠ []
  line : '\n' ∉ id.toList
  trimmed : trimSpace id.toList = id.toList

theorem isSpace_of_filename {c : Char} (h : isFilenameChar c) : isSpace c = false := by
  simp only [isFilenameChar, Char.isAlphanum, Char.isAlpha, Char.isUpper, Char.isLower,
    Char.isDigit, Bool.or_eq_true, Bool.and_eq_true, decide_eq_true_eq, ge_iff_le,
    UInt32.le_iff_toNat_le] at h
  have hc : c.toNat = 45 ∨ c.toNat = 46 ∨ c.toNat = 95 ∨ 48 ≤ c.toNat ∧ c.toNat ≤ 122 := by
    rcases h with ((h | rfl) | rfl) | rfl
    · simp only [Char.toNat_val, Char.reduceToNat] at h
      omega
    · decide
    · decide
    · decide
  simp only [isSpace, List.contains_eq_mem, List.mem_cons, List.not_mem_nil, or_false,
    Bool.or_eq_false_iff, Bool.and_eq_false_iff, decide_eq_false_iff_not]
  omega

theorem clean_of_path {dir id path : String} (h : userEntryPath dir id = some path) :
    Clean id := by
  have hsafe : safeFilename (id.toList ++ ".json".toList) = true := by
    unfold userEntryPath at h
    dsimp only at h
    split at h
    · next hs =>
      rw [String.toList_append] at hs
      exact hs
    · cases h
  cases hid : id.toList with
  | nil =>
    rw [hid] at hsafe
    exact absurd hsafe (by decide)
  | cons c cs =>
    rw [hid] at hsafe
    obtain ⟨hname, _⟩ := Bool.and_eq_true_iff.1 hsafe
    obtain ⟨hc, hcs⟩ := Bool.and_eq_true_iff.1 hname
    have hchars : ∀ d ∈ id.toList, isSpace d = false := by
      rw [hid]
      refine List.forall_mem_cons.2 ⟨isSpace_of_filename (by simp [isFilenameChar, hc]), ?_⟩
      exact fun d hd => isSpace_of_filename (List.all_eq_true.1 hcs d (List.mem_append_left _ hd))
    refine ⟨?_, fun hline => ?_, trimSpace_of hchars⟩
    · rw [hid]
      exact List.cons_ne_nil _ _
    · exact absurd (hchars _ hline) (by decide)

theorem clean_of_read {log : Option (List Char)} {id : String} (h : id ∈ readAdoptionLog log) :
    Clean id := by
  cases log with
  | none => cases h
  | some b =>
    obtain ⟨l, hl, hid⟩ := List.mem_filterMap.1 h
    dsimp only at hid
    split at hid
    · cases hid
    · next hne =>
      obtain rfl := Option.some.inj hid
      refine ⟨?_, ?_, ?_⟩
      · rw [String.toList_ofList]
        exact hne
      · rw [String.toList_ofList]
        intro hline
        have hrest := (List.dropWhile_sublist isSpace).subset (List.mem_reverse.1 hline)
        exact SplitOn.not_mem_of_splitOn hl
          ((List.dropWhile_sublist isSpace).subset (List.mem_reverse.1 hrest))
      · rw [String.toList_ofList]
        exact trimSpace_trimSpace l

theorem mem_readAdoptionLog {adopted : List String} (h : ∀ id ∈ adopted, Clean id) {id : String} :
    id ∈ readAdoptionLog (some (adoptionLog adopted)) ↔ id ∈ adopted := by
  have hsorted : ∀ {id}, id ∈ adopted.dedup.insertionSort (· ≤ ·) ↔ id ∈ adopted := by
    intro id
    rw [List.mem_insertionSort, List.mem_dedup]
  generalize hids : adopted.dedup.insertionSort (· ≤ ·) = ids at hsorted
  rw [readAdoptionLog, adoptionLog, hids, List.splitOn_append_cons_self]
  have hlines : ∀ l ∈ ids.map String.toList, '\n' ∉ l := fun l hl => by
    obtain ⟨id, hid, rfl⟩ := List.mem_map.1 hl
    exact (h id (hsorted.1 hid)).line
  have hread : ∀ l ∈ ids.map String.toList, trimSpace l = l ∧ l ≠ [] := fun l hl => by
    obtain ⟨id, hid, rfl⟩ := List.mem_map.1 hl
    have hclean := h id (hsorted.1 hid)
    exact ⟨hclean.trimmed, hclean.nonempty⟩
  have hempty : trimSpace [] = [] := rfl
  by_cases hnone : ids.map String.toList = []
  · have hnil : ids = [] := List.map_eq_nil_iff.1 hnone
    rw [hnone, ← hsorted, hnil]
    simp [hempty]
  · rw [List.splitOn_intercalate '\n' hlines hnone, List.mem_filterMap, ← hsorted]
    constructor
    · rintro ⟨l, hl, hid⟩
      rcases List.mem_append.1 hl with hl | hl
      · obtain ⟨htrim, hne⟩ := hread l hl
        dsimp only at hid
        rw [htrim, if_neg hne] at hid
        obtain ⟨id', hid', rfl⟩ := List.mem_map.1 hl
        rw [String.ofList_toList] at hid
        exact Option.some.inj hid ▸ hid'
      · rw [List.splitOn_nil, List.mem_singleton] at hl
        rw [hl] at hid
        cases hid
    · intro hid
      have hl : id.toList ∈ ids.map String.toList := List.mem_map_of_mem hid
      obtain ⟨htrim, hne⟩ := hread _ hl
      refine ⟨id.toList, List.mem_append_left _ hl, ?_⟩
      dsimp only
      rw [htrim, if_neg hne, String.ofList_toList]

/-! ## One call -/

/-- The entry is to be written: it is wanted, no file of the user's keeps it out, and it has
not been kept before. -/
def Due (dir : String) (referenced : List String) (root : Root) (e : FormerEntry F) : Prop :=
  wanted root referenced e = true ∧
    ∃ path, userEntryPath dir e.spec.modelID = some path ∧
      existingPatch go (root.files path) e.spec.modelID ≠ none ∧
      e.spec.modelID ∉ readAdoptionLog root.log ∧ formerUserEntry e.data ≠ none

def Stops (dir : String) (referenced : List String) (writes : String → Bool) (root : Root)
    (e : FormerEntry F) : Prop :=
  wanted root referenced e = true ∧ userEntryPath dir e.spec.modelID = none ∨
    Due go dir referenced root e ∧ writes e.spec.modelID = false

/-- The call ends at an entry, after it has written another. -/
def StopsLate (former : List (FormerEntry F)) (dir : String) (referenced : List String)
    (writes : String → Bool) (root : Root) : Prop :=
  ∃ pre e post, former = pre ++ e :: post ∧ Stops go dir referenced writes root e ∧
    ∃ e' ∈ pre, Due go dir referenced root e' ∧ writes e'.spec.modelID = true

section
variable {go : Go F} {dir : String} {referenced : List String} {writes : String → Bool}
  {root : Root} {a a' : Adopting} {e : FormerEntry F} {former : List (FormerEntry F)}
  {finished : Bool}

/-- What the loop has done since it began in `root`. -/
structure Since (dir : String) (root : Root) (a : Adopting) : Prop where
  log : a.root.log = root.log
  models : a.root.models = root.models
  adopted : ∀ id, id ∈ a.adopted ↔ id ∈ readAdoptionLog root.log ∨ id ∈ a.written
  fresh : ∀ id ∈ a.written, id ∉ readAdoptionLog root.log
  clean : ∀ id ∈ a.written, Clean id
  files : ∀ id path, id ∉ a.written → userEntryPath dir id = some path →
    a.root.files path = root.files path

theorem since_start (dir : String) (root : Root) :
    Since dir root { root := root, adopted := readAdoptionLog root.log } where
  log := rfl
  models := rfl
  adopted id := by simp
  fresh := nofun
  clean := nofun
  files _ _ _ _ := rfl

theorem Since.wanted_eq (h : Since dir root a) (e : FormerEntry F) :
    wanted a.root referenced e = wanted root referenced e := by
  rw [wanted, wanted, formerInstalled, formerInstalled, h.models]

theorem userEntryPath_inj {id id' path : String} (h : userEntryPath dir id = some path)
    (h' : userEntryPath dir id' = some path) : id = id' := by
  unfold userEntryPath at h h'
  dsimp only at h h'
  split at h
  · split at h'
    · have hpath := (Option.some.inj h).trans (Option.some.inj h').symm
      have hlist := congrArg String.toList hpath
      simp only [String.toList_append, List.append_assoc, List.append_cancel_left_eq,
        List.append_cancel_right_eq] at hlist
      exact String.toList_injective hlist
    · cases h'
  · cases h

theorem Since.due (h : Since dir root a) {path : String} {patch : Option Object} {spec : Object}
    (hwanted : wanted a.root referenced e = true)
    (hpath : userEntryPath dir e.spec.modelID = some path)
    (hpatch : existingPatch go (a.root.files path) e.spec.modelID = some patch)
    (hadopted : e.spec.modelID ∉ a.adopted) (hspec : formerUserEntry e.data = some spec) :
    Due go dir referenced root e := by
  rw [h.adopted, not_or] at hadopted
  refine ⟨h.wanted_eq e ▸ hwanted, path, hpath, ?_, hadopted.1, ?_⟩
  · rw [← h.files _ path hadopted.2 hpath, hpatch]
    exact Option.some_ne_none patch
  · rw [hspec]
    exact Option.some_ne_none spec

theorem Since.write (h : Since dir root a) {path id : String} (spec : Object)
    (hpath : userEntryPath dir id = some path) (hadopted : id ∉ a.adopted) :
    Since dir root (a.write path id spec) := by
  rw [h.adopted, not_or] at hadopted
  refine ⟨h.log, h.models, fun id' => ?_, fun id' hid => ?_, fun id' hid => ?_,
    fun id' path' hid hpath' => ?_⟩
  · rw [Adopting.write, List.mem_append, List.mem_append, h.adopted, or_assoc]
  · rcases List.mem_append.1 hid with hid | hid
    · exact h.fresh id' hid
    · exact List.mem_singleton.1 hid ▸ hadopted.1
  · rcases List.mem_append.1 hid with hid | hid
    · exact h.clean id' hid
    · exact List.mem_singleton.1 hid ▸ clean_of_path hpath
  · have hid' : id' ∉ a.written ∧ id' ≠ id := by
      simpa [Adopting.write] using hid
    have hne : path' ≠ path := fun heq =>
      hid'.2 (userEntryPath_inj hpath' (heq ▸ hpath))
    exact (if_neg hne).trans (h.files id' path' hid'.1 hpath')

theorem adoptEntries_since (h : Since dir root a)
    (ha : adoptEntries go dir referenced writes former a = (a', finished)) :
    Since dir root a' ∧ (finished = false → a'.written ≠ [] →
      ∃ pre e post, former = pre ++ e :: post ∧ Stops go dir referenced writes root e ∧
        (a.written ≠ [] ∨
          ∃ e' ∈ pre, Due go dir referenced root e' ∧ writes e'.spec.modelID = true)) := by
  induction former generalizing a with
  | nil =>
    cases ha
    exact ⟨h, nofun⟩
  | cons e rest ih =>
    -- An entry that is passed over leaves everything to the rest.
    have hpass : adoptEntries go dir referenced writes rest a = (a', finished) →
        Since dir root a' ∧ (finished = false → a'.written ≠ [] →
          ∃ pre e' post, e :: rest = pre ++ e' :: post ∧
            Stops go dir referenced writes root e' ∧ (a.written ≠ [] ∨
              ∃ e'' ∈ pre, Due go dir referenced root e'' ∧
                writes e''.spec.modelID = true)) := fun ha => by
      obtain ⟨hsince, hstops⟩ := ih h ha
      refine ⟨hsince, fun hfin hne => ?_⟩
      obtain ⟨pre, e', post, rfl, hstop, hbefore⟩ := hstops hfin hne
      refine ⟨e :: pre, e', post, rfl, hstop, hbefore.imp_right ?_⟩
      rintro ⟨e'', he, hdue⟩
      exact ⟨e'', List.mem_cons_of_mem e he, hdue⟩
    rw [adoptEntries] at ha
    dsimp only at ha
    split at ha
    · exact hpass ha
    · next hwanted =>
      rw [Bool.not_eq_true', Bool.not_eq_false] at hwanted
      split at ha
      · next hpath =>
        cases ha
        exact ⟨h, fun _ hne => ⟨[], e, rest, rfl, .inl ⟨h.wanted_eq e ▸ hwanted, hpath⟩,
          .inl hne⟩⟩
      · next path hpath =>
        split at ha
        · exact hpass ha
        · next patch hpatch =>
          split at ha
          · exact hpass ha
          · next hadopted =>
            split at ha
            · exact hpass ha
            · next spec hspec =>
              have hnew : e.spec.modelID ∉ a.adopted := fun hmem =>
                hadopted (List.contains_iff_mem.2 hmem)
              have hdue := h.due hwanted hpath hpatch hnew hspec
              split at ha
              · next hwrites =>
                obtain ⟨hsince, hstops⟩ := ih (h.write _ hpath hnew) ha
                refine ⟨hsince, fun hfin hne => ?_⟩
                obtain ⟨pre, e', post, rfl, hstop, _⟩ := hstops hfin hne
                exact ⟨e :: pre, e', post, rfl, hstop,
                  .inr ⟨e, List.mem_cons_self, hdue, hwrites⟩⟩
              · next hwrites =>
                cases ha
                rw [Bool.not_eq_true] at hwrites
                exact ⟨h, fun _ hne => ⟨[], e, rest, rfl, .inr ⟨hdue, hwrites⟩,
                  .inl hne⟩⟩

/-- What a call writes was not in the log, and unless the call stops late it is afterwards,
with all that was. -/
theorem adoptFormerEntries_spec {root' : Root} {ids : List String}
    (h : adoptFormerEntries go former dir referenced writes root = (root', ids)) :
    (∀ id ∈ ids, id ∉ readAdoptionLog root.log) ∧
      (¬ StopsLate go former dir referenced writes root →
        ∀ id, id ∈ readAdoptionLog root'.log ↔ id ∈ readAdoptionLog root.log ∨ id ∈ ids) := by
  unfold adoptFormerEntries at h
  generalize hloop : adoptEntries go dir referenced writes former
    { root := root, adopted := readAdoptionLog root.log } = loop at h
  obtain ⟨a, finished⟩ := loop
  obtain ⟨hsince, hstops⟩ := adoptEntries_since (since_start dir root) hloop
  dsimp only at h
  split at h
  · cases h
    refine ⟨hsince.fresh, fun _ id => ?_⟩
    have hclean : ∀ id ∈ a.adopted, Clean id := fun id hid => by
      rcases (hsince.adopted id).1 hid with hid | hid
      · exact clean_of_read hid
      · exact hsince.clean id hid
    exact (mem_readAdoptionLog hclean).trans (hsince.adopted id)
  · next hcond =>
    cases h
    refine ⟨hsince.fresh, fun hlate id => ?_⟩
    have hnil : a.written = [] := by
      by_contra hne
      have hfin : finished = false := by
        rw [← Bool.not_eq_true]
        exact fun hfin => hcond ⟨hfin, hne⟩
      obtain ⟨pre, e, post, hsplit, hstop, hbefore⟩ := hstops hfin hne
      exact hlate ⟨pre, e, post, hsplit, hstop, hbefore.resolve_left (not_not.2 rfl)⟩
    rw [hsince.log, hnil]
    simp

end

/-! ## Runs -/

/-- The directory, and the ids that calls have written. -/
structure History where
  root : Root
  before : List String := []

inductive Event
  | adopt (referenced : List String) (writes : String → Bool)
  /-- Files are removed, edited or installed. -/
  | change (root : Root)

def adoption (former : List (FormerEntry F)) (dir : String) : System History Event where
  init h := h.before = []
  step h
    | .adopt referenced writes =>
      let (root, ids) := adoptFormerEntries go former dir referenced writes h.root
      some ⟨root, h.before ++ ids⟩
    | .change root => some { h with root := root }

/-- No call stops after it has written an entry, and no one takes an id out of the log. -/
def KeepsLog (former : List (FormerEntry F)) (dir : String) (h : History) : Event → Prop
  | .adopt referenced writes => ¬ StopsLate go former dir referenced writes h.root
  | .change root => ∀ id ∈ readAdoptionLog h.root.log, id ∈ readAdoptionLog root.log

/-- No call writes an id that an earlier call has written, where no earlier call has stopped
at a failed write after it had written an entry. -/
theorem adopted_once {former : List (FormerEntry F)} {dir : String} {h : History}
    (hr : ReachesUnder (adoption go former dir) (KeepsLog go former dir) h)
    (referenced : List String) (writes : String → Bool) :
    ∀ id ∈ (adoptFormerEntries go former dir referenced writes h.root).2, id ∉ h.before := by
  have hlogged : ∀ id ∈ h.before, id ∈ readAdoptionLog h.root.log := by
    refine hr.invariant (I := fun h => ∀ id ∈ h.before, id ∈ readAdoptionLog h.root.log)
      (fun h h0 id hid => ?_) fun h ev h' hI hG hs id hid => ?_
    · have hnil : h.before = [] := h0
      rw [hnil] at hid
      cases hid
    · cases ev with
      | adopt referenced writes =>
        obtain rfl := Option.some.inj hs
        have hspec := (adoptFormerEntries_spec rfl).2 hG id
        refine hspec.2 ?_
        rcases List.mem_append.1 hid with hid | hid
        · exact .inl (hI id hid)
        · exact .inr hid
      | change root =>
        obtain rfl := Option.some.inj hs
        exact hG id (hI id hid)
  intro id hid hbefore
  exact (adoptFormerEntries_spec rfl).1 id hid (hlogged id hbefore)

/-- Objects that are no complete spec. -/
def strict : Go Unit where
  float64 := some
  quote s := s
  toLower s := s
  equalFold s t := s = t
  decode _ := .error (.other "artifacts must not be empty")

def formerNamed (id : String) : FormerEntry Unit where
  data := some (.obj [("modelId", .str id)])
  spec := ⟨id, "", "llm", [], [], [], ()⟩

def emptyRoot : Root := ⟨fun _ => none, none, fun _ _ => false⟩

/-- The directory after a first call. -/
def keptFirst (former : List (FormerEntry Unit)) (writes : String → Bool) : Root :=
  (adoptFormerEntries strict former "/catalog.d" ["a", "b"] writes emptyRoot).1

/-- The entries are gone, and the log is as it was. -/
def removed (root : Root) : Root := { root with files := fun _ => none }

/-- An entry that is kept and then removed is not written again. -/
theorem kept_and_removed :
    "a" ∉ (adoptFormerEntries strict [formerNamed "a"] "/catalog.d" ["a", "b"] (fun _ => true)
      (removed (keptFirst [formerNamed "a"] fun _ => true))).2 := by
  have hwritten : (adoptFormerEntries strict [formerNamed "a"] "/catalog.d" ["a", "b"]
      (fun _ => true) emptyRoot).2 = ["a"] := by decide
  have hstart : ReachesUnder (adoption strict [formerNamed "a"] "/catalog.d")
      (KeepsLog strict [formerNamed "a"] "/catalog.d") ⟨emptyRoot, []⟩ := .init rfl
  have hcall : ReachesUnder (adoption strict [formerNamed "a"] "/catalog.d")
      (KeepsLog strict [formerNamed "a"] "/catalog.d")
      ⟨keptFirst [formerNamed "a"] fun _ => true, ["a"]⟩ := by
    refine hstart.step (e := .adopt ["a", "b"] fun _ => true) ?_ ?_
    · rintro ⟨pre, e, post, hsplit, _, e', he, _⟩
      have hlength := congrArg List.length hsplit
      have hpre := List.length_pos_of_mem he
      simp only [List.length_append, List.length_cons, List.length_nil] at hlength
      omega
    · show some _ = some _
      rw [← hwritten]
      rfl
  have hremoved : ReachesUnder (adoption strict [formerNamed "a"] "/catalog.d")
      (KeepsLog strict [formerNamed "a"] "/catalog.d")
      ⟨removed (keptFirst [formerNamed "a"] fun _ => true), ["a"]⟩ :=
    hcall.step (e := .change (removed (keptFirst [formerNamed "a"] fun _ => true)))
      (fun _ hid => hid) rfl
  intro hagain
  exact adopted_once strict hremoved ["a", "b"] (fun _ => true) "a" hagain
    (List.mem_singleton_self "a")

/-- The call that keeps the first entry cannot write the second. The user removes the first,
and the next call writes it again. -/
theorem removed_and_back : ¬ ∀ (go : Go Unit) (former : List (FormerEntry Unit)) (dir : String)
    (h : History), ReachesUnder (adoption go former dir) (fun h ev => ∀ root, ev = .change root →
      root.log = h.root.log) h →
    ∀ referenced writes, ∀ id ∈ (adoptFormerEntries go former dir referenced writes h.root).2,
      id ∉ h.before := by
  intro h
  have hwritten : (adoptFormerEntries strict [formerNamed "a", formerNamed "b"] "/catalog.d"
      ["a", "b"] (fun id => id = "a") emptyRoot).2 = ["a"] := by decide
  have hagain : (adoptFormerEntries strict [formerNamed "a", formerNamed "b"] "/catalog.d"
      ["a", "b"] (fun id => id = "a")
      (removed (keptFirst [formerNamed "a", formerNamed "b"] fun id => id = "a"))).2 = ["a"] := by
    decide
  have hcall : ReachesUnder (adoption strict [formerNamed "a", formerNamed "b"] "/catalog.d")
      (fun h ev => ∀ root, ev = .change root → root.log = h.root.log)
      ⟨keptFirst [formerNamed "a", formerNamed "b"] fun id => id = "a", ["a"]⟩ := by
    have hinit : (adoption strict [formerNamed "a", formerNamed "b"] "/catalog.d").init
        ⟨emptyRoot, []⟩ := rfl
    refine .step (e := .adopt ["a", "b"] fun id => id = "a") (.init hinit) nofun ?_
    show some _ = some _
    rw [← hwritten]
    rfl
  have hremoved := hcall.step (t := ⟨removed (keptFirst [formerNamed "a", formerNamed "b"]
      fun id => id = "a"), ["a"]⟩) (e := .change (removed (keptFirst
        [formerNamed "a", formerNamed "b"] fun id => id = "a"))) (fun root heq => by
      cases heq
      rfl) rfl
  refine h _ _ _ _ hremoved ["a", "b"] (fun id => id = "a") "a" ?_ List.mem_cons_self
  rw [hagain]
  exact List.mem_cons_self

end LocalBase.ModelCatalog
