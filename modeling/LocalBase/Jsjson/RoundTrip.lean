import LocalBase.Jsjson.Seen

/-!
# Writing and reading back

What `Stringify` writes of a value is the text of one document, and so is what
`Indent` writes, with other spaces. Reading that document gives the value as it is
seen.
-/

namespace LocalBase.Jsjson

open JsonText
open ModelCatalog (arrayIndex maxParseDepth)
open StructuredOutput (unquote)

variable {β F : Type}

/-! ## Strings -/

/-- How a character is written: a control character without a name as its unit. -/
def piece (c : Char) : Piece :=
  if c.toNat < 0x20 ∧ c ∉ [Char.ofNat 8, Char.ofNat 12, '\n', '\r', '\t'] then .unit c.toNat
  else .char c

def pieces (s : String) : List Piece := s.toList.map piece

theorem hexUnit_hex4 : ∀ n < 0x20, hexUnit (Nat.digitChar (n / 4096 % 16))
    (Nat.digitChar (n / 256 % 16)) (Nat.digitChar (n / 16 % 16)) (Nat.digitChar (n % 16)) =
      some n := by decide

theorem pieces_cons (c : Char) {ps : List Piece} {cs : List Char} (h : Pieces ps cs) :
    Pieces (piece c :: ps) (quoteChar c ++ cs) := by
  unfold quoteChar
  split
  · next hc => subst hc; exact .escape rfl h
  split
  · next hc => subst hc; exact .escape rfl h
  split
  · next hc => subst hc; exact .escape rfl h
  split
  · next hc => subst hc; exact .escape rfl h
  split
  · next hc => subst hc; exact .escape rfl h
  split
  · next hc => subst hc; exact .escape rfl h
  split
  · next hc => subst hc; exact .escape rfl h
  split
  · next hctl =>
    rw [piece, if_pos ⟨hctl, by simp [*]⟩]
    exact .unit (hexUnit_hex4 _ hctl) h
  · next hquote hback _ _ _ _ _ hctl =>
    rw [piece, if_neg fun hc => hctl hc.1]
    exact .char (by simp [plain, hquote, hback]; omega) h

theorem pieces_written (s : String) : Pieces (pieces s) (s.toList.flatMap quoteChar) := by
  unfold pieces
  induction s.toList with
  | nil => exact .nil
  | cons c cs ih => exact pieces_cons c ih

theorem unquote_unit {u : Nat} (hu : u < 0x20) (ps : List Piece) :
    unquote (.unit u :: ps) = Char.ofNat u :: unquote ps := by
  have hhigh : StructuredOutput.highSurrogate u = false := by
    simp [StructuredOutput.highSurrogate]
    omega
  have hlow : StructuredOutput.lowSurrogate u = false := by
    simp [StructuredOutput.lowSurrogate]
    omega
  have hchar : StructuredOutput.unitChar u = Char.ofNat u := by
    rw [StructuredOutput.unitChar, hhigh, hlow]
    rfl
  cases ps with
  | nil =>
    show [StructuredOutput.unitChar u] = _
    rw [hchar]
    rfl
  | cons p ps =>
    cases p with
    | char c =>
      show StructuredOutput.unitChar u :: unquote (.char c :: ps) = _
      rw [hchar]
    | unit u' =>
      rw [unquote, hhigh, hchar]
      rfl

theorem unquote_piece (c : Char) (ps : List Piece) :
    unquote (piece c :: ps) = c :: unquote ps := by
  unfold piece
  split
  · next hc => rw [unquote_unit hc.1, Char.ofNat_toNat]
  · rw [unquote]

theorem unquote_pieces (s : String) : String.ofList (unquote (pieces s)) = s := by
  have h : ∀ cs : List Char, unquote (cs.map piece) = cs := by
    intro cs
    induction cs with
    | nil => rfl
    | cons c cs ih => rw [List.map_cons, unquote_piece, ih]
  rw [pieces, h, String.ofList_toList]

/-! ## Documents -/

mutual

/-- The value with the properties of its objects in the order they are listed. -/
def seen : Value F → Value F
  | .arr xs => .arr (seenItems xs)
  | .obj o => .obj (listed (seenMembers o))
  | v => v

def seenItems : List (Value F) → List (Value F)
  | [] => []
  | x :: xs => seen x :: seenItems xs

def seenMembers : List (String × Value F) → List (String × Value F)
  | [] => []
  | (k, x) :: o => (k, seen x) :: seenMembers o

end

@[simp] theorem seenItems_eq (xs : List (Value F)) : seenItems xs = xs.map seen := by
  induction xs with
  | nil => rfl
  | cons x xs ih => rw [seenItems, ih, List.map_cons]

@[simp] theorem seenMembers_eq (o : List (String × Value F)) :
    seenMembers o = o.map fun e => (e.1, seen e.2) := by
  induction o with
  | nil => rfl
  | cons e o ih => rw [seenMembers, ih, List.map_cons]

section
variable (go : Doubles)

mutual

/-- The document that is written of a value. -/
def docOf : Value go.Double → Doc
  | .null => .null
  | .bool x => .bool x
  | .num f => .num (number go f)
  | .str s => .str (pieces s)
  | .arr xs => .arr (docItems xs)
  | .obj o => .obj ((listed (docMembers o)).map fun e => (pieces e.1, e.2))

def docItems : List (Value go.Double) → List Doc
  | [] => []
  | x :: xs => docOf x :: docItems xs

def docMembers : List (String × Value go.Double) → List (String × Doc)
  | [] => []
  | (k, x) :: o => (k, docOf x) :: docMembers o

end

@[simp] theorem docItems_eq (xs : List (Value go.Double)) : docItems go xs = xs.map (docOf go) := by
  induction xs with
  | nil => rfl
  | cons x xs ih => rw [docItems, ih, List.map_cons]

@[simp] theorem docMembers_eq (o : List (String × Value go.Double)) :
    docMembers go o = o.map fun e => (e.1, docOf go e.2) := by
  induction o with
  | nil => rfl
  | cons e o ih => rw [docMembers, ih, List.map_cons]

@[simp] theorem stringifyItems_eq (xs : List (Value go.Double)) :
    stringifyItems go xs = xs.map (stringify go) := by
  induction xs with
  | nil => rfl
  | cons x xs ih => rw [stringifyItems, ih, List.map_cons]

@[simp] theorem stringifyMembers_eq (o : List (String × Value go.Double)) :
    stringifyMembers go o = o.map fun e => (e.1, stringify go e.2) := by
  induction o with
  | nil => rfl
  | cons e o ih => rw [stringifyMembers, ih, List.map_cons]

@[simp] theorem indentItems_eq (pad : List Char) (xs : List (Value go.Double)) :
    indentItems go pad xs = xs.map (writeIndent go pad) := by
  induction xs with
  | nil => rfl
  | cons x xs ih => rw [indentItems, ih, List.map_cons]

@[simp] theorem indentMembers_eq (pad : List Char) (o : List (String × Value go.Double)) :
    indentMembers go pad o = o.map fun e => (e.1, writeIndent go pad e.2) := by
  induction o with
  | nil => rfl
  | cons e o ih => rw [indentMembers, ih, List.map_cons]

/-- A double is written as a number that reads back as it. -/
def Faithful (f : go.Double) : Prop :=
  IsNumber (number go f) ∧ go.parseFloat (number go f) = f

/-- Values as `Parse` makes them: the keys of an object are all different, and no more
than so many containers are in one another. -/
inductive Stands : Nat → Value go.Double → Prop
  | null {n : Nat} : Stands n .null
  | bool {n : Nat} {x : Bool} : Stands n (.bool x)
  | num {n : Nat} {f : go.Double} : Faithful go f → Stands n (.num f)
  | str {n : Nat} {s : String} : Stands n (.str s)
  | arr {n : Nat} {xs : List (Value go.Double)} : (∀ x ∈ xs, Stands n x) →
      Stands (n + 1) (.arr xs)
  | obj {n : Nat} {o : List (String × Value go.Double)} : (o.map (·.1)).Nodup →
      (∀ e ∈ o, Stands n e.2) → Stands (n + 1) (.obj o)

end

variable {go : Doubles} {n : Nat} {v : Value go.Double}

theorem names_map (f : β → F) (o : List (String × β)) :
    (o.map fun e => (e.1, f e.2)).map (·.1) = o.map (·.1) := by
  rw [List.map_map]
  rfl

theorem Stands.fold (h : Stands go n v) : (docOf go v).fold (decoded go) = seen v := by
  induction h with
  | null | bool => rfl
  | num hf =>
    show Value.num (go.parseFloat _) = _
    rw [hf.2]
    rfl
  | str =>
    show Value.str (String.ofList (unquote _)) = _
    rw [unquote_pieces]
    rfl
  | @arr _ xs _ ih =>
    rw [docOf, docItems_eq, fold_arr, List.map_map, seen, seenItems_eq]
    exact congrArg Value.arr (List.map_congr_left ih)
  | @obj _ o hnodup _ ih =>
    have hset : (listed (o.map fun e => (e.1, seen e.2))).foldl (fun o e => set e.1 e.2 o) [] =
        [] ++ listed (o.map fun e => (e.1, seen e.2)) :=
      foldl_set_append (nodup_listed (by rwa [names_map]))
    rw [docOf, docMembers_eq, fold_obj, seen, seenMembers_eq]
    refine congrArg Value.obj (Eq.trans ?_ hset)
    rw [listed_map, listed_map, List.map_map, List.map_map, List.foldl_map, List.foldl_map]
    refine List.foldl_ext _ _ _ fun o e he => ?_
    show set (String.ofList (unquote (pieces e.1))) ((docOf go e.2).fold (decoded go)) o = _
    rw [unquote_pieces, ih e (mem_of_listed he)]

theorem Stands.within (h : Stands go n v) : Within n (docOf go v) := by
  induction h with
  | null => exact .null
  | bool => exact .bool
  | num => exact .num
  | str => exact .str
  | arr _ ih =>
    rw [docOf, docItems_eq]
    refine .arr fun d hd => ?_
    obtain ⟨x, hx, rfl⟩ := List.mem_map.1 hd
    exact ih x hx
  | obj _ _ ih =>
    rw [docOf, docMembers_eq]
    refine .obj fun m hm => ?_
    obtain ⟨e, he, rfl⟩ := List.mem_map.1 hm
    obtain ⟨e', he', rfl⟩ := List.mem_map.1 (mem_of_listed he)
    exact ih e' he'

/-! ## Texts -/

theorem spaces_nil : Spaces [] := fun _ hc => by cases hc

/-- Texts between commas, with spaces before each and after the last. -/
def spread (lead trail : List Char) : List (List Char) → List Char
  | [] => []
  | [t] => lead ++ t ++ trail
  | t :: ts => lead ++ t ++ ',' :: spread lead trail ts

theorem commas_eq (ts : List (List Char)) : commas ts = spread [] [] ts := by
  induction ts with
  | nil => rfl
  | cons t ts ih =>
    cases ts with
    | nil => rw [commas, spread, List.nil_append, List.append_nil]
    | cons t' ts => rw [commas, spread, ih, List.nil_append]; all_goals simp

theorem lines_eq {ts : List (List Char)} (hne : ts ≠ []) (inner pad : List Char) :
    '\n' :: lines inner ts ++ pad = spread ('\n' :: inner) ('\n' :: pad) ts := by
  induction ts with
  | nil => exact absurd rfl hne
  | cons t ts ih =>
    cases ts with
    | nil => simp [lines, spread]
    | cons t' ts =>
      have hrest := ih (List.cons_ne_nil _ _)
      rw [spread, ← hrest, lines]
      · simp
      all_goals simp

/-- A key and a value, with a gap after the colon. -/
def Member (gap : List Char) (m : List Piece × Doc) (cs : List Char) : Prop :=
  ∃ k t, Pieces m.1 k ∧ Written docs (.value m.2) t ∧
    cs = '"' :: k ++ ['"'] ++ ':' :: gap ++ t

section
variable {α : Type} {lead trail : List Char} (hlead : Spaces lead) (htrail : Spaces trail)
include hlead htrail

theorem written_items {doc : α → Doc} {text : α → List Char} {xs : List α} (hne : xs ≠ [])
    (h : ∀ x ∈ xs, Written docs (.value (doc x)) (text x)) :
    Written docs (.items (xs.map doc)) (spread lead trail (xs.map text)) := by
  induction xs with
  | nil => exact absurd rfl hne
  | cons x xs ih =>
    have hx := h x List.mem_cons_self
    cases xs with
    | nil => exact .item hlead hx htrail
    | cons y xs =>
      have hmore := ih (List.cons_ne_nil _ _) fun z hz => h z (List.mem_cons_of_mem _ hz)
      have hitems := Written.items hlead hx spaces_nil hmore
      rw [List.append_nil] at hitems
      exact hitems

theorem written_members {doc : α → List Piece × Doc} {text : α → List Char} {gap : List Char}
    (hgap : Spaces gap) {xs : List α} (hne : xs ≠ [])
    (h : ∀ x ∈ xs, Member gap (doc x) (text x)) :
    Written docs (.members (xs.map doc)) (spread lead trail (xs.map text)) := by
  induction xs with
  | nil => exact absurd rfl hne
  | cons x xs ih =>
    obtain ⟨k, t, hk, ht, htext⟩ := h x List.mem_cons_self
    cases xs with
    | nil =>
      have hmember := Written.member hlead hk spaces_nil hgap ht htrail
      simpa [spread, htext] using hmember
    | cons y xs =>
      have hmore := ih (List.cons_ne_nil _ _) fun z hz => h z (List.mem_cons_of_mem _ hz)
      have hmembers := Written.members hlead hk spaces_nil hgap ht spaces_nil hmore
      simpa [spread, htext] using hmembers

end

theorem listed_eq_nil {o : List (String × β)} : listed o = [] ↔ o = [] := by
  constructor
  · intro h
    have hperm := keys_perm (o.map fun e => e.1)
    rw [← names_listed, h, List.map_nil] at hperm
    exact List.map_eq_nil_iff.1 hperm.nil_eq.symm
  · rintro rfl
    rfl

theorem Stands.stringify_written (h : Stands go n v) :
    Written docs (.value (docOf go v)) (stringify go v) := by
  induction h with
  | null => exact .null
  | @bool _ x =>
    cases x with
    | true => exact .true
    | false => exact .false
  | num hf => exact .num hf.1
  | @str _ s => exact .str (pieces_written s)
  | @arr _ xs _ ih =>
    rw [docOf, docItems_eq, stringify, stringifyItems_eq, commas_eq]
    by_cases hxs : xs = []
    · subst hxs
      exact .noItems spaces_nil
    · exact .arr (written_items spaces_nil spaces_nil hxs ih)
  | @obj _ o _ _ ih =>
    rw [docOf, docMembers_eq, stringify, stringifyMembers_eq, listed_map, listed_map,
      List.map_map, List.map_map, commas_eq]
    by_cases ho : o = []
    · subst ho
      exact .noMembers spaces_nil
    · exact .obj (written_members spaces_nil spaces_nil spaces_nil (listed_eq_nil.not.2 ho)
        fun e he => ⟨_, _, pieces_written e.1, ih e (mem_of_listed he), by simp [quote]⟩)

theorem spaces_append_of {ws ws' : List Char} (h : Spaces ws) (h' : Spaces ws') :
    Spaces (ws ++ ws') := fun c hc => (List.mem_append.1 hc).elim (h c) (h' c)

theorem spaces_push {c : Char} (hc : isSpace c = true) {ws : List Char} (h : Spaces ws) :
    Spaces (c :: ws) := List.forall_mem_cons.2 ⟨hc, h⟩

theorem spaces_two : Spaces "  ".toList := by
  show Spaces [' ', ' ']
  exact spaces_push rfl (spaces_push rfl spaces_nil)

theorem Stands.indent_written (h : Stands go n v) {pad : List Char} (hpad : Spaces pad) :
    Written docs (.value (docOf go v)) (writeIndent go pad v) := by
  induction h generalizing pad with
  | null | bool | num | str =>
    exact Stands.stringify_written (n := 0) (by constructor <;> assumption)
  | @arr _ xs _ ih =>
    have hinner : Spaces (pad ++ "  ".toList) := spaces_append_of hpad spaces_two
    rw [docOf, docItems_eq, writeIndent, indentItems_eq]
    split
    · next hxs =>
      subst hxs
      exact .noItems spaces_nil
    · next hxs =>
      have hitems : Written docs (.items (xs.map (docOf go)))
          (spread ('\n' :: (pad ++ "  ".toList)) ('\n' :: pad)
            (xs.map (writeIndent go (pad ++ "  ".toList)))) :=
        written_items (spaces_push rfl hinner) (spaces_push rfl hpad) hxs
          fun x hx => ih x hx hinner
      rw [← lines_eq (mt List.map_eq_nil_iff.1 hxs)] at hitems
      exact Written.arr hitems
  | @obj _ o _ _ ih =>
    have hinner : Spaces (pad ++ "  ".toList) := spaces_append_of hpad spaces_two
    rw [docOf, docMembers_eq, writeIndent, indentMembers_eq, listed_map, listed_map, List.map_map,
      List.map_map]
    split
    · next ho =>
      subst ho
      exact .noMembers spaces_nil
    · next ho =>
      have hgap : Spaces [' '] := spaces_push rfl spaces_nil
      have hne := listed_eq_nil.not.2 ho
      have hmembers : Written docs
          (.members ((listed o).map fun e => (pieces e.1, docOf go e.2)))
          (spread ('\n' :: (pad ++ "  ".toList)) ('\n' :: pad) ((listed o).map fun e =>
            quote e.1 ++ ": ".toList ++ writeIndent go (pad ++ "  ".toList) e.2)) :=
        written_members (spaces_push rfl hinner) (spaces_push rfl hpad) hgap hne fun e he =>
          ⟨_, _, pieces_written e.1, ih e (mem_of_listed he) hinner, by simp [quote]⟩
      rw [← lines_eq (mt List.map_eq_nil_iff.1 hne)] at hmembers
      exact Written.obj hmembers

theorem parse_eq_some {cs : List Char} : parse go cs = some v ↔
    ∃ d, Says d cs ∧ Within maxParseDepth d ∧ v = d.fold (decoded go) := by
  rw [← value_spaces, parse, Option.bind_eq_some_iff]
  constructor
  · rintro ⟨⟨w, rest⟩, hw, h⟩
    split at h
    · next hrest =>
      cases h
      exact ⟨rest, hw, spaces_eq_nil.1 hrest⟩
    · cases h
  · rintro ⟨rest, hw, hrest⟩
    exact ⟨_, hw, if_pos (spaces_eq_nil.2 hrest)⟩

theorem Stands.parse_written (h : Stands go maxParseDepth v) {cs : List Char}
    (hcs : Written docs (.value (docOf go v)) cs) : parse go cs = some (seen v) :=
  parse_eq_some.2 ⟨docOf go v, ⟨[], cs, [], by simp, spaces_nil, hcs, spaces_nil⟩, h.within,
    h.fold.symm⟩

theorem Stands.parse_stringify (h : Stands go maxParseDepth v) :
    parse go (stringify go v) = some (seen v) := h.parse_written h.stringify_written

theorem Stands.parse_indent (h : Stands go maxParseDepth v) :
    parse go (indent go v) = some (seen v) := h.parse_written (h.indent_written spaces_nil)

theorem Stands.stringify_seen (h : Stands go n v) : stringify go (seen v) = stringify go v := by
  induction h with
  | null | bool | num | str => rfl
  | @arr _ xs _ ih =>
    have hmap : xs.map (stringify go ∘ seen) = xs.map (stringify go) := List.map_congr_left ih
    rw [seen, seenItems_eq, stringify, stringify, stringifyItems_eq, stringifyItems_eq,
      List.map_map, hmap]
  | @obj _ o hnodup _ ih =>
    have hmap : (o.map fun e => (e.1, seen e.2)).map (fun e => (e.1, stringify go e.2)) =
        o.map fun e => (e.1, stringify go e.2) := by
      rw [List.map_map]
      exact List.map_congr_left fun e he => congrArg (Prod.mk e.1) (ih e he)
    rw [seen, seenMembers_eq, stringify, stringify, stringifyMembers_eq, stringifyMembers_eq,
      ← listed_map, hmap, listed_listed (by rwa [names_map])]

theorem Stands.same (h : Stands go n v) : Same v (seen v) := by
  induction h with
  | null => exact .null
  | bool => exact .bool
  | num => exact .num
  | str => exact .str
  | arr _ ih =>
    rw [seen, seenItems_eq]
    refine .arr ?_
    rw [List.forall₂_map_right_iff, List.forall₂_same]
    exact ih
  | @obj _ o hnodup _ ih =>
    rw [seen, seenMembers_eq]
    refine .obj ?_ fun k v v' hv hv' => ?_
    · rw [names_listed, names_map, keys_keys]
    · rw [lookup_listed (by rwa [names_map]), lookup_map, hv] at hv'
      cases hv'
      exact ih (k, v) ((lookup_eq_some hnodup).1 hv)

end LocalBase.Jsjson
