import LocalBase.Gguf.Plain
import Mathlib.Data.List.Induction

/-!
# What is kept is what a plain reader has

Two choices of what to keep read the same header, as both read the plain one. What is
kept of a key is what the plain reader has of it, but for two kinds of files. A key
that is given twice keeps its first value where the last is stepped over. And a name
that is too long is read as empty: such keys count as one, which is called "", and
such tensors have no name.
-/

namespace LocalBase.Gguf

open Fuel Sim

variable (keeps : Bytes → Bool) (maxStr : Bytes → Nat)

/-- The name that a key is read under. -/
def readKeyName (e : Bytes × Plain) : Bytes := readName maxKeptStringBytes e.1

def heldOf (e : Bytes × Plain) : Option Value :=
  e.2.held (keeps (readKeyName e)) (maxStr (readKeyName e))

def holdAll (entries : List (Bytes × Plain)) : Values :=
  entries.foldl (holdEntry keeps maxStr) fun _ => none

/-- Of what is read under its name, this is the last that is kept; `after` comes after it. -/
def KeptLast (entries : List (Bytes × Plain)) (e : Bytes × Plain)
    (after : List (Bytes × Plain)) : Prop :=
  (∃ before, entries = before ++ e :: after) ∧ (heldOf keeps maxStr e).isSome ∧
    ∀ e' ∈ after, readKeyName e' = readKeyName e → heldOf keeps maxStr e' = none

/-- A header in which nothing that is kept is told wrong. Of a key the value that is
kept last is the last there is; where the key is too long, it is that of the key "".
And no tensor's name is too long. -/
structure Clear (f : Plain.File) : Prop where
  keys : ∀ e after, KeptLast keeps maxStr f.entries e after →
    if e.1.length ≤ maxKeptStringBytes then ∀ e' ∈ after, e'.1 ≠ e.1
    else (f.value []).bind Plain.shown = e.2.shown
  tensors : ∀ t ∈ f.tensors, t.name.length ≤ maxTensorName

variable {keeps maxStr} {entries : List (Bytes × Plain)} {e : Bytes × Plain}

theorem holdEntry_eq (values : Values) (k : Bytes) : holdEntry keeps maxStr values e k =
    if k = readKeyName e then (heldOf keeps maxStr e).or (values k) else values k := by
  have hheld : e.2.held (keeps (readName maxKeptStringBytes e.1))
      (maxStr (readName maxKeptStringBytes e.1)) = heldOf keeps maxStr e := rfl
  simp only [holdEntry, hheld]
  cases heldOf keeps maxStr e with
  | some v => rfl
  | none => exact (ite_self _).symm

theorem holdAll_eq (k : Bytes) : holdAll keeps maxStr entries k =
    entries.reverse.findSome? fun e =>
      if readKeyName e = k then heldOf keeps maxStr e else none := by
  unfold holdAll
  induction entries using List.reverseRecOn with
  | nil => rfl
  | append_singleton entries last ih =>
    rw [List.foldl_append, List.foldl_cons, List.foldl_nil, holdEntry_eq, ih,
      List.reverse_append, List.reverse_singleton, List.singleton_append, List.findSome?_cons]
    by_cases hk : readKeyName last = k
    · rw [if_pos hk, if_pos hk.symm]
      cases heldOf keeps maxStr last with
      | some v => rfl
      | none => rfl
    · rw [if_neg hk, if_neg (Ne.symm hk)]

theorem holdAll_eq_some {k : Bytes} {v : Value} : holdAll keeps maxStr entries k = some v ↔
    ∃ e after, KeptLast keeps maxStr entries e after ∧ readKeyName e = k ∧
      heldOf keeps maxStr e = some v := by
  rw [holdAll_eq, List.findSome?_eq_some_iff]
  constructor
  · rintro ⟨after, e, before, hsplit, hheld, hafter⟩
    split at hheld
    · next hk =>
      subst hk
      refine ⟨e, after.reverse, ⟨⟨before.reverse, ?_⟩, hheld ▸ rfl, fun e' he' hname => ?_⟩, rfl,
        hheld⟩
      · rw [← List.reverse_reverse entries, hsplit]
        simp
      · have hnone := hafter e' (List.mem_reverse.1 he')
        rwa [if_pos hname] at hnone
    · cases hheld
  · rintro ⟨e, after, ⟨⟨before, rfl⟩, -, hafter⟩, rfl, hheld⟩
    refine ⟨after.reverse, e, before.reverse, by simp, (if_pos rfl).trans hheld, fun e' he' => ?_⟩
    split
    · next hname => exact hafter e' (List.mem_reverse.1 he') hname
    · rfl

theorem holdAll_congr {keeps' : Bytes → Bool} {k : Bytes} (h : keeps k = keeps' k) :
    holdAll keeps maxStr entries k = holdAll keeps' maxStr entries k := by
  rw [holdAll_eq, holdAll_eq]
  congr 1
  funext e
  split
  · next hk =>
    subst hk
    unfold heldOf
    rw [h]
  · rfl

theorem readName_of_le {maxBytes : Nat} {name : Bytes} (h : name.length ≤ maxBytes) :
    readName maxBytes name = name := if_pos h

theorem readName_eq_iff {maxBytes : Nat} {name : Bytes} :
    readName maxBytes name = name ↔ name.length ≤ maxBytes := by
  refine ⟨fun h => ?_, readName_of_le⟩
  by_contra hlong
  unfold readName at h
  rw [if_neg hlong] at h
  subst h
  exact hlong (Nat.zero_le _)

theorem value_of_later {f : Plain.File} {after : List (Bytes × Plain)}
    (hsplit : ∃ before, f.entries = before ++ e :: after) {e' : Bytes × Plain} (he' : e' ∈ after)
    (hkey : e'.1 = e.1) : ∃ x ∈ after, x.1 = e.1 ∧ f.value e.1 = some x.2 := by
  obtain ⟨before, hsplit⟩ := hsplit
  have hsome : (after.reverse.find? fun x => x.1 = e.1).isSome = true :=
    List.find?_isSome.2 ⟨e', List.mem_reverse.2 he', decide_eq_true hkey⟩
  obtain ⟨x, hx⟩ := Option.isSome_iff_exists.1 hsome
  have hxkey := List.find?_some hx
  refine ⟨x, List.mem_reverse.1 (List.mem_of_find?_eq_some hx), of_decide_eq_true hxkey, ?_⟩
  unfold Plain.File.value
  rw [hsplit, List.reverse_append, List.reverse_cons, List.append_assoc, List.find?_append, hx]
  rfl

/-- All that is kept of a key is what the plain reader has of it, if and only if of
each key the value that is kept last is the last. -/
theorem kept_iff {f : Plain.File} :
    (∀ k v, holdAll keeps maxStr f.entries k = some v →
      (f.value k).bind Plain.shown = some v) ↔
    ∀ e after, KeptLast keeps maxStr f.entries e after →
      if e.1.length ≤ maxKeptStringBytes then ∀ e' ∈ after, e'.1 ≠ e.1
      else (f.value []).bind Plain.shown = e.2.shown := by
  constructor
  · intro h e after hlast
    obtain ⟨v, hv⟩ := Option.isSome_iff_exists.1 hlast.2.1
    have hvalue := h _ v (holdAll_eq_some.2 ⟨e, after, hlast, rfl, hv⟩)
    have hshown := Plain.shown_of_held hv
    split
    · next hshort =>
      have hname : readKeyName e = e.1 := readName_of_le hshort
      rw [hname] at hvalue
      intro e' he' hkey
      -- The last value of the key is one that is stepped over, and it looks like this one.
      obtain ⟨x, hx, hxkey, hxvalue⟩ := value_of_later hlast.1 he' hkey
      rw [hxvalue, Option.bind_some] at hvalue
      have hxname : readKeyName x = readKeyName e := congrArg (readName _) hxkey
      have hxheld : heldOf keeps maxStr x = heldOf keeps maxStr e := by
        unfold heldOf
        rw [hxname]
        exact Plain.held_of_shown (hvalue.trans hshown.symm) _ _
      rw [hlast.2.2 x hx hxname, hv] at hxheld
      cases hxheld
    · next hlong =>
      have hname : readKeyName e = [] := if_neg hlong
      rw [← hname, hvalue, hshown]
  · intro h k v hv
    obtain ⟨e, after, hlast, rfl, hheld⟩ := holdAll_eq_some.1 hv
    have hcond := h e after hlast
    have hshown := Plain.shown_of_held hheld
    split at hcond
    · next hshort =>
      have hname : readKeyName e = e.1 := readName_of_le hshort
      obtain ⟨before, hsplit⟩ := hlast.1
      have hvalue : f.value e.1 = some e.2 :=
        Plain.File.value_eq_some.2 ⟨before, after, hsplit, hcond⟩
      rw [hname, hvalue]
      exact hshown
    · next hlong =>
      have hname : readKeyName e = [] := if_neg hlong
      rw [hname, hcond, hshown]

theorem tensors_iff {ts : List TensorInfo} :
    ts.map (fun t => { t with name := readName maxTensorName t.name }) = ts ↔
      ∀ t ∈ ts, t.name.length ≤ maxTensorName := by
  have hid : ts.map id = ts := List.map_id ts
  constructor
  · intro h t ht
    have hsame := List.map_inj_left.1 (h.trans hid.symm) t ht
    exact readName_eq_iff.1 (congrArg TensorInfo.name hsame)
  · intro h
    refine (List.map_congr_left fun t ht => ?_).trans hid
    rw [readName_of_le (h t ht)]
    rfl

/-- Two choices of what to keep read one header, and what they both keep they have
alike. What is kept, and the tensors, are what the plain reader has if and only if the
header is clear. -/
theorem parseHeader_iff {withTensors : Bool} {src : Bytes} {values : Values}
    {tensors : List TensorInfo}
    (h : parseHeader keeps maxStr withTensors src = .ok (values, tensors)) :
    (∀ keeps' values' tensors',
      parseHeader keeps' maxStr withTensors src = .ok (values', tensors') → tensors = tensors' ∧
        ∀ k, keeps k = true → keeps' k = true → values k = values' k) ∧
    ∃ f rest, Plain.file withTensors src = some (f, rest) ∧
      (((∀ k v, values k = some v → (f.value k).bind Plain.shown = some v) ∧
          tensors = f.tensors) ↔ Clear keeps maxStr f) := by
  have hread : ∀ keeps' values' tensors',
      parseHeader keeps' maxStr withTensors src = .ok (values', tensors') →
      ∃ f rest, Plain.file withTensors src = some (f, rest) ∧
        values' = holdAll keeps' maxStr f.entries ∧
        tensors' = f.tensors.map fun t => { t with name := readName maxTensorName t.name } := by
    intro keeps' values' tensors' h'
    unfold parseHeader at h'
    cases hr : readHeader keeps' maxStr withTensors { rest := src } with
    | error e =>
      rw [hr] at h'
      cases h'
    | ok p =>
      rw [hr] at h'
      obtain ⟨⟨a, ts⟩, g⟩ := p
      obtain ⟨rfl, rfl⟩ := Prod.mk.inj (Except.ok.inj h')
      obtain ⟨f, hf, hvalues, htensors⟩ := readHeader_file keeps' maxStr withTensors _ _ _ hr
      exact ⟨f, g.rest, hf, hvalues, htensors⟩
  obtain ⟨f, rest, hf, rfl, rfl⟩ := hread keeps values tensors h
  refine ⟨fun keeps' values' tensors' h' => ?_, f, rest, hf, ?_⟩
  · obtain ⟨f', rest', hf', rfl, rfl⟩ := hread keeps' values' tensors' h'
    obtain ⟨rfl, rfl⟩ := Prod.mk.inj (Option.some.inj (hf.symm.trans hf'))
    exact ⟨rfl, fun k hk hk' => holdAll_congr (hk.trans hk'.symm)⟩
  · rw [kept_iff, tensors_iff]
    exact ⟨fun h => ⟨h.1, h.2⟩, fun h => ⟨h.keys, h.tensors⟩⟩

/-! ### A key that is given twice -/

def architectureKey : Bytes := ascii "general.architecture"

/-- A number of less than 256, in so many bytes. -/
def small (size n : Nat) : Bytes := UInt8.ofNat n :: List.replicate (size - 1) 0

/-- A key with a text of less than 512 bytes. -/
def textEntry (key text : Bytes) : Bytes :=
  small 8 key.length ++ key ++ small 4 ggufTypeString ++
    [UInt8.ofNat text.length, UInt8.ofNat (text.length / 256)] ++ List.replicate 6 0 ++ text

/-- A header of these entries, with no tensors. -/
def headerOf (entries : List Bytes) : Bytes :=
  ascii "GGUF" ++ small 4 3 ++ small 8 0 ++ small 8 entries.length ++ entries.flatten

def longText : Bytes := List.replicate 257 97

/-- Everything is kept, up to 256 bytes of a text. -/
abbrev parseAll (src : Bytes) : Except ReadError (Values × List TensorInfo) :=
  parseHeader (fun _ => true) (fun _ => maxKeptStringBytes) true src

/-- Only the architecture is kept. -/
abbrev parseOne (src : Bytes) : Except ReadError (Values × List TensorInfo) :=
  parseHeader (fun k => k == architectureKey) (fun _ => maxKeptStringBytes) true src

/-- A tensor of one dimension. -/
def tensorOf (name : Bytes) (n : Nat) : Bytes :=
  small 8 name.length ++ name ++ small 4 1 ++ small 8 n ++ small 4 0 ++ small 8 0

/-- A header of two keys and a tensor. -/
def namedHeader : Bytes :=
  ascii "GGUF" ++ small 4 3 ++ small 8 1 ++ small 8 2 ++
    textEntry architectureKey (ascii "llama") ++
    textEntry (ascii "general.name") (ascii "vicuna") ++ tensorOf (ascii "output.weight") 32

/-- The name is stepped over, and the tensor is read behind it. -/
theorem stepped_over_read : ∃ values tensors,
    parseOne namedHeader = .ok (values, tensors) ∧
    (∀ values' tensors', parseAll namedHeader = .ok (values', tensors') →
      tensors = tensors' ∧ values architectureKey = values' architectureKey) ∧
    ∃ f rest, Plain.file true namedHeader = some (f, rest) ∧
      (((∀ k v, values k = some v → (f.value k).bind Plain.shown = some v) ∧
          tensors = f.tensors) ↔
        Clear (fun k => k == architectureKey) (fun _ => maxKeptStringBytes) f) := by
  have hok : (parseOne namedHeader).toOption.isSome = true := by decide +kernel
  obtain ⟨p, hp⟩ := Option.isSome_iff_exists.1 hok
  have hread := ok_of_toOption hp
  have hagrees := parseHeader_iff hread
  refine ⟨p.1, p.2, hread, fun values' tensors' hall => ?_, hagrees.2⟩
  have hsame := hagrees.1 _ _ _ hall
  exact ⟨hsame.1, hsame.2 _ (by decide) rfl⟩

/-- The first text is kept, and the plain reader has the last. -/
theorem twice_differs :
    ((parseAll (headerOf [textEntry architectureKey (ascii "llama"),
        textEntry architectureKey longText])).toOption.bind fun p => p.1 architectureKey) =
      some (.str (ascii "llama")) ∧
    ((Plain.file true (headerOf [textEntry architectureKey (ascii "llama"),
        textEntry architectureKey longText])).bind fun p =>
          (p.1.value architectureKey).bind Plain.shown) = some (.str longText) ∧
    longText ≠ ascii "llama" := by
  refine ⟨by decide +kernel, by decide +kernel, by decide⟩

end LocalBase.Gguf
