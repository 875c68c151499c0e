import LocalBase.Jsjson.RoundTrip
import Mathlib.Data.List.Induction

/-!
# The text `JSON.stringify` has of a document

Told of the document alone, in the terms of a reader's build: no spaces, each number
as JavaScript writes its double, each string in `JSON.stringify`'s own escapes, the
keys of an object once each with their last values, those that are array indices
first and ascending, the rest as they first appear. It is what `Stringify` writes of
what `Parse` reads. A surrogate that has no other half is left out: the decoder has
no character for it.
-/

namespace LocalBase.Jsjson

open JsonText
open ModelCatalog (arrayIndex maxParseDepth)
open StructuredOutput (unquote highSurrogate lowSurrogate surrogatePair)

variable {β : Type}

/-! ## Strings -/

def surrogate (u : Nat) : Bool := highSurrogate u || lowSurrogate u

/-- The characters that the pieces of a string say, where each surrogate has its
other half. -/
def said : List Piece → Option (List Char)
  | [] => some []
  | .char c :: ps => (said ps).map (c :: ·)
  | .unit u :: .unit u' :: ps =>
    if highSurrogate u && lowSurrogate u' then (said ps).map (surrogatePair u u' :: ·)
    else if surrogate u then none
    else (said (.unit u' :: ps)).map (Char.ofNat u :: ·)
  | .unit u :: ps => if surrogate u then none else (said ps).map (Char.ofNat u :: ·)

theorem unitChar_of_not_surrogate {u : Nat} (h : ¬ surrogate u = true) :
    StructuredOutput.unitChar u = Char.ofNat u := if_neg h

theorem unquote_of_said {ps : List Piece} {s : List Char} (h : said ps = some s) :
    unquote ps = s := by
  induction ps using said.induct generalizing s with
  | case1 =>
    cases h
    rfl
  | case2 c ps ih =>
    obtain ⟨t, ht, rfl⟩ := Option.map_eq_some_iff.1 h
    rw [unquote, ih ht]
  | case3 u u' ps hpair ih =>
    rw [said, if_pos hpair] at h
    obtain ⟨t, ht, rfl⟩ := Option.map_eq_some_iff.1 h
    rw [unquote, if_pos hpair, ih ht]
  | case4 u u' ps hpair hu =>
    rw [said, if_neg hpair, if_pos hu] at h
    cases h
  | case5 u u' ps hpair hu ih =>
    rw [said, if_neg hpair, if_neg hu] at h
    obtain ⟨t, ht, rfl⟩ := Option.map_eq_some_iff.1 h
    rw [unquote, if_neg hpair, ih ht, unitChar_of_not_surrogate hu]
  | case6 u ps hne hu =>
    rw [said, if_pos hu] at h
    · cases h
    · exact hne
  | case7 u ps hne hu ih =>
    rw [said, if_neg hu] at h
    · obtain ⟨t, ht, rfl⟩ := Option.map_eq_some_iff.1 h
      rw [unquote, ih ht, unitChar_of_not_surrogate hu]
      exact hne
    · exact hne

/-- Each surrogate of a document has its other half. -/
def paired : Build Prop where
  null := True
  bool _ := True
  num _ := True
  str ps := (said ps).isSome = true
  arr hs := ∀ h ∈ hs, h
  obj ms := ∀ m ∈ ms, (said m.1).isSome = true ∧ m.2

/-! ## Keys -/

/-- A whole number below 2^32 - 1, as JavaScript writes it. -/
def IsIndex (k : String) (n : Nat) : Prop := n < 4294967295 ∧ k.toList = Nat.toDigits 10 n

/-- The keys of an object in JavaScript's order. -/
def InOrder (ks out : List String) : Prop :=
  ∃ indices rest, out = indices ++ rest ∧ out.Perm ks ∧
    indices.Pairwise (fun a b => ∃ m n, IsIndex a m ∧ IsIndex b n ∧ m < n) ∧
    (∀ k ∈ indices, ∃ n, IsIndex k n) ∧ rest.Sublist ks ∧ ∀ k ∈ rest, ∀ n, ¬ IsIndex k n

theorem toNat_of_isDigit {c : Char} (h : c.isDigit = true) : 48 ≤ c.toNat ∧ c.toNat ≤ 57 := by
  simpa [Char.isDigit, UInt32.le_iff_toNat_le] using h

theorem digitChar_sub {c : Char} (h : c.isDigit = true) : Nat.digitChar (c.toNat - 48) = c := by
  have hc := toNat_of_isDigit h
  refine Char.toNat_inj.1 ?_
  rw [Nat.toNat_digitChar_of_lt_ten (by omega)]
  omega

theorem toDigits_ofDigitChars {cs : List Char} (hcs : ∀ c ∈ cs, c.isDigit = true) {n : Nat}
    (hn : 0 < n) : Nat.toDigits 10 (Nat.ofDigitChars 10 cs n) = Nat.toDigits 10 n ++ cs := by
  induction cs generalizing n with
  | nil => rw [Nat.ofDigitChars_nil, List.append_nil]
  | cons c cs ih =>
    have hc := hcs c List.mem_cons_self
    have hrange := toNat_of_isDigit hc
    have hlt : c.toNat - 48 < 10 := by omega
    rw [Nat.ofDigitChars_cons, ih (fun c hc => hcs c (List.mem_cons_of_mem _ hc)) (by omega)]
    have hlast := Nat.toDigits_append_toDigits (b := 10) (by decide) hn hlt
    rw [Nat.toDigits_of_lt_base hlt, digitChar_sub hc] at hlast
    rw [show '0'.toNat = 48 from rfl, ← hlast, List.append_assoc]
    rfl

theorem head_toDigits {n : Nat} (hn : 0 < n) : (Nat.toDigits 10 n).head? ≠ some '0' := by
  induction n using Nat.strongRecOn with
  | _ n ih =>
    by_cases hlt : n < 10
    · rw [Nat.toDigits_of_lt_base hlt, List.head?_cons]
      intro h
      exact absurd (Nat.digitChar_eq_zero.1 (Option.some.inj h)) (Nat.pos_iff_ne_zero.1 hn)
    · rw [Nat.toDigits_of_base_le (by decide) (by omega),
        List.head?_append_of_ne_nil _ Nat.toDigits_ne_nil]
      exact ih (n / 10) (by omega) (by omega)

theorem arrayIndex_eq_some {k : String} {n : Nat} : arrayIndex k = some n ↔ IsIndex k n := by
  have hvalue : ∀ cs : List Char,
      cs.foldl (fun n c => 10 * n + (c.toNat - 48)) 0 = Nat.ofDigitChars 10 cs 0 := fun _ => by
    rw [Nat.ofDigitChars_eq_foldl]
    rfl
  unfold arrayIndex IsIndex
  simp only [hvalue]
  constructor
  · intro h
    split at h
    · cases h
    · next hform =>
      simp only [not_or, not_and, not_not, List.all_eq_true] at hform
      obtain ⟨hne, hhead, hdigits⟩ := hform
      split at h
      · next hlt =>
        cases h
        refine ⟨hlt, ?_⟩
        cases hk : k.toList with
        | nil => exact absurd hk hne
        | cons c cs =>
          rw [hk] at hhead hdigits
          rw [Nat.ofDigitChars_cons, Nat.mul_zero, Nat.zero_add]
          have hc := hdigits c List.mem_cons_self
          have hrange := toNat_of_isDigit hc
          have hlast : Nat.toDigits 10 (c.toNat - 48) = [c] := by
            rw [Nat.toDigits_of_lt_base (by omega), digitChar_sub hc]
          by_cases hzero : c.toNat = 48
          · cases cs with
            | nil => exact hlast.symm
            | cons d ds =>
              have hc0 : c = '0' := Char.toNat_inj.1 hzero
              exact absurd (congrArg some hc0) (hhead (by simp))
          · have hcs := toDigits_ofDigitChars (n := c.toNat - 48)
              (fun d hd => hdigits d (List.mem_cons_of_mem _ hd)) (by omega)
            rw [hlast] at hcs
            exact hcs.symm
      · cases h
  · rintro ⟨hlt, hk⟩
    rw [hk, if_neg, Nat.ofDigitChars_ten_toDigits, if_pos hlt]
    simp only [not_or, not_and, not_not, List.all_eq_true]
    refine ⟨Nat.toDigits_ne_nil, fun hlen => ?_, fun c hc =>
      Nat.isDigit_of_mem_toDigits (by decide) (by decide) hc⟩
    refine head_toDigits (Nat.pos_of_ne_zero ?_)
    rintro rfl
    simp at hlen

theorem keys_inOrder {ks : List String} (h : ks.Nodup) : InOrder ks (keys ks) := by
  have hinj : ∀ {a b : String} {n : Nat}, IsIndex a n → IsIndex b n → a = b := fun ha hb =>
    String.toList_injective (ha.2.trans hb.2.symm)
  refine ⟨_, _, rfl, keys_perm ks, ?_, ?_, List.filter_sublist, ?_⟩
  · have hnodup : ((ks.filter fun k => (arrayIndex k).isSome).insertionSort indexLE).Nodup :=
      (List.perm_insertionSort _ _).nodup_iff.2 (h.filter _)
    refine (List.Pairwise.and (List.pairwise_insertionSort indexLE _) hnodup).imp_of_mem
      fun {a b} ha hb hab => ?_
    obtain ⟨m, hm⟩ := Option.isSome_iff_exists.1
      (List.mem_filter.1 ((List.mem_insertionSort _).1 ha)).2
    obtain ⟨n, hn⟩ := Option.isSome_iff_exists.1
      (List.mem_filter.1 ((List.mem_insertionSort _).1 hb)).2
    have hle : m ≤ n := by simpa [indexLE, hm, hn] using hab.1
    have hne : m ≠ n := by
      rintro rfl
      exact hab.2 (hinj (arrayIndex_eq_some.1 hm) (arrayIndex_eq_some.1 hn))
    exact ⟨m, n, arrayIndex_eq_some.1 hm, arrayIndex_eq_some.1 hn, by omega⟩
  · intro k hk
    obtain ⟨n, hn⟩ := Option.isSome_iff_exists.1
      (List.mem_filter.1 ((List.mem_insertionSort _).1 hk)).2
    exact ⟨n, arrayIndex_eq_some.1 hn⟩
  · intro k hk n hn
    have hnone := (List.mem_filter.1 hk).2
    rw [arrayIndex_eq_some.2 hn] at hnone
    cases hnone

/-! ## Members -/

def last (es : List (String × β)) (k : String) : Option β := es.reverse.lookup k

theorem lookup_set (k k' : String) (v : β) (o : List (String × β)) :
    (set k v o).lookup k' = if k' = k then some v else o.lookup k' := by
  induction o with
  | nil =>
    rw [set, List.lookup_cons]
    by_cases hk : k' = k
    · rw [if_pos hk, hk, beq_self_eq_true]
    · rw [if_neg hk, beq_false_of_ne hk]
  | cons e o ih =>
    rw [set]
    by_cases he : e.1 = k
    · subst he
      rw [if_pos rfl, List.lookup_cons, List.lookup_cons]
      by_cases hk : k' = e.1
      · rw [if_pos hk, hk, beq_self_eq_true]
      · rw [if_neg hk, beq_false_of_ne hk]
    · rw [if_neg he, List.lookup_cons, List.lookup_cons, ih]
      by_cases hk : k' = e.1
      · subst hk
        rw [beq_self_eq_true]
        exact (if_neg he).symm
      · rw [beq_false_of_ne hk]

theorem lookup_foldl_set (es : List (String × β)) (k : String) :
    (es.foldl (fun o e => set e.1 e.2 o) []).lookup k = last es k := by
  unfold last
  induction es using List.reverseRecOn with
  | nil => rfl
  | append_singleton es e ih =>
    rw [List.foldl_append, List.foldl_cons, List.foldl_nil, lookup_set, ih, List.reverse_append,
      List.reverse_singleton, List.singleton_append, List.lookup_cons]
    by_cases hk : k = e.1
    · rw [if_pos hk, hk, beq_self_eq_true]
    · rw [if_neg hk, beq_false_of_ne hk]

theorem names_foldl_set (es : List (String × β)) :
    (es.foldl (fun o e => set e.1 e.2 o) []).map (·.1) = (es.map (·.1)).eraseDups := by
  induction es using List.reverseRecOn with
  | nil => rfl
  | append_singleton es e ih =>
    rw [List.foldl_append, List.foldl_cons, List.foldl_nil, names_set, ih, List.map_append,
      List.eraseDups_append, List.map_singleton]
    by_cases hk : e.1 ∈ es.map (·.1)
    · simp [List.removeAll, hk]
    · simp [List.removeAll, hk, List.eraseDups_cons]

theorem set_map {γ : Type} (f : β → γ) (k : String) (v : β) (o : List (String × β)) :
    (set k v o).map (fun e => (e.1, f e.2)) = set k (f v) (o.map fun e => (e.1, f e.2)) := by
  induction o with
  | nil => rfl
  | cons e o ih =>
    rw [List.map_cons, set, set]
    split
    · rfl
    · rw [List.map_cons, ih]

theorem foldl_set_map {γ : Type} (f : β → γ) (es o : List (String × β)) :
    (es.foldl (fun o e => set e.1 e.2 o) o).map (fun e => (e.1, f e.2)) =
      (es.map fun e => (e.1, f e.2)).foldl (fun o e => set e.1 e.2 o)
        (o.map fun e => (e.1, f e.2)) := by
  induction es generalizing o with
  | nil => rfl
  | cons e es ih => rw [List.map_cons, List.foldl_cons, List.foldl_cons, ih, set_map]

/-! ## The text -/

section
variable (go : Doubles)

/-- The texts a document stands for. -/
def compactly : Build (List Char → Prop) where
  null t := t = "null".toList
  bool x t := t = if x then "true".toList else "false".toList
  num cs t := t = number go (go.parseFloat cs)
  str ps t := ∃ s, said ps = some s ∧ t = quote (String.ofList s)
  arr items t := ∃ ts, List.Forall₂ (fun item t => item t) items ts ∧
    t = '[' :: commas ts ++ [']']
  obj ms t := ∃ es ordered,
    List.Forall₂ (fun m (e : String × List Char) => said m.1 = some e.1.toList ∧ m.2 e.2) ms es ∧
    InOrder (es.map (·.1)).eraseDups ordered ∧
    t = '\x7b' :: commas (ordered.map fun k => quote k ++ ':' :: (last es k).getD []) ++ ['\x7d']

/-- Each number of a document is written, once it is a double, as one that reads back. -/
def faithful : Build Prop where
  null := True
  bool _ := True
  num cs := Faithful go (go.parseFloat cs)
  str _ := True
  arr hs := ∀ h ∈ hs, h
  obj ms := ∀ m ∈ ms, m.2

end

variable {go : Doubles} {n : Nat} {d : Doc}

theorem decoded_obj (ms : List (List Piece × Value go.Double)) : (decoded go).obj ms =
    .obj ((ms.map fun m => (String.ofList (unquote m.1), m.2)).foldl
      (fun o e => set e.1 e.2 o) []) := by
  rw [List.foldl_map]
  rfl

theorem stands_fold (hd : Within n d) (h : d.fold (faithful go)) :
    Stands go n (d.fold (decoded go)) := by
  induction hd with
  | null => exact .null
  | bool => exact .bool
  | num => exact .num h
  | str => exact .str
  | arr _ ih =>
    rw [fold_arr] at h ⊢
    refine .arr fun x hx => ?_
    obtain ⟨d, hd, rfl⟩ := List.mem_map.1 hx
    exact ih d hd (h _ (List.mem_map_of_mem hd))
  | obj _ ih =>
    rw [fold_obj] at h ⊢
    rw [decoded_obj]
    refine .obj (nodup_foldl_set List.nodup_nil) fun e he => ?_
    rcases mem_foldl_set he with he | he
    · cases he
    · obtain ⟨m, hm, rfl⟩ := List.mem_map.1 he
      obtain ⟨m', hm', rfl⟩ := List.mem_map.1 hm
      exact ih m' hm' (h _ (List.mem_map.2 ⟨m', hm', rfl⟩))

theorem listed_eq_map (o : List (String × List Char)) :
    listed o = (keys (o.map (·.1))).map fun k => (k, (o.lookup k).getD []) := by
  have hall : ∀ k ∈ keys (o.map (·.1)), k ∈ o.map (·.1) := fun k hk => (keys_perm _).mem_iff.1 hk
  unfold listed
  refine (List.filterMap_congr fun k hk => ?_).trans (congrFun List.filterMap_eq_map _)
  obtain ⟨v, hv⟩ := lookup_of_name (hall k hk)
  show _ = some (k, (o.lookup k).getD [])
  rw [hv]
  rfl

theorem compact_stringify (hd : Within n d) (h : d.fold paired) :
    d.fold (compactly go) (stringify go (d.fold (decoded go))) := by
  induction hd with
  | null | bool | num => rfl
  | @str _ ps =>
    obtain ⟨s, hs⟩ := Option.isSome_iff_exists.1 h
    refine ⟨s, hs, ?_⟩
    show quote (String.ofList (unquote ps)) = _
    rw [unquote_of_said hs]
  | @arr _ ds _ ih =>
    rw [fold_arr] at h
    rw [fold_arr, fold_arr]
    refine ⟨ds.map fun d => stringify go (d.fold (decoded go)), ?_, ?_⟩
    · rw [List.forall₂_map_left_iff, List.forall₂_map_right_iff, List.forall₂_same]
      exact fun d hd => ih d hd (h _ (List.mem_map_of_mem hd))
    · show stringify go (.arr _) = _
      rw [stringify, stringifyItems_eq, List.map_map]
      rfl
  | @obj _ ms _ ih =>
    rw [fold_obj] at h
    rw [fold_obj, fold_obj, decoded_obj, List.map_map]
    obtain ⟨es, hes⟩ : ∃ es, es = ms.map fun m =>
      (String.ofList (unquote m.1), stringify go (m.2.fold (decoded go))) := ⟨_, rfl⟩
    have hnodup : (es.map (·.1)).eraseDups.Nodup := by
      rw [← names_foldl_set]
      exact nodup_foldl_set List.nodup_nil
    refine ⟨es, keys (es.map (·.1)).eraseDups, ?_, keys_inOrder hnodup, ?_⟩
    · rw [hes, List.forall₂_map_left_iff, List.forall₂_map_right_iff, List.forall₂_same]
      intro m hm
      obtain ⟨hsaid, hrest⟩ := h _ (List.mem_map.2 ⟨m, hm, rfl⟩)
      obtain ⟨s, hs⟩ := Option.isSome_iff_exists.1 hsaid
      refine ⟨?_, ih m hm hrest⟩
      rw [String.toList_ofList, unquote_of_said hs]
      exact hs
    · have hset : (ms.map ((fun m => (String.ofList (unquote m.1), m.2)) ∘
          fun m => (m.1, m.2.fold (decoded go)))).map
            (fun e => (e.1, stringify go e.2)) = es := by
        rw [hes, List.map_map]
        rfl
      rw [stringify, stringifyMembers_eq, foldl_set_map, hset, List.map_nil, listed_eq_map,
        names_foldl_set, List.map_map]
      simp only [lookup_foldl_set]
      rfl

/-- What is read is written as the text that the document it says stands for. Where its
numbers read back, that text and the indented one both give the same value again,
which is written alike. -/
theorem stringify_parse {t : List Char} {v : Value go.Double} (h : parse go t = some v) :
    ∃ d, Says d t ∧
      (d.fold paired → d.fold (compactly go) (stringify go v)) ∧
      (d.fold (faithful go) → ∃ w, parse go (stringify go v) = some w ∧
        parse go (indent go v) = some w ∧ Same v w ∧ stringify go w = stringify go v) := by
  obtain ⟨d, hsays, hd, rfl⟩ := parse_eq_some.1 h
  refine ⟨d, hsays, compact_stringify hd, fun hfaithful => ?_⟩
  have hv := stands_fold hd hfaithful
  exact ⟨_, hv.parse_stringify, hv.parse_indent, hv.same, hv.stringify_seen⟩

/-- Whole numbers of one digit, as the package has them. -/
def oneDigit : Doubles where
  Double := ℚ
  parseFloat := StructuredOutput.numberValue
  finite _ := true
  exact := id
  formatE q := Nat.toDigits 10 q.num.toNat ++ "e+00".toList
  formatF q := Nat.toDigits 10 q.num.toNat

theorem parse_docs {cs : List Char} (hn : n ≤ maxParseDepth)
    (h : value docs n cs = some (d, [])) : parse go cs = some (d.fold (decoded go)) := by
  rw [parse, value_fold (decoded go) maxParseDepth cs, value_extends hn _ _ h]
  rfl

def repeated : List Char :=
  ['\x7b', '"', 'b', '"', ':', '1', ',', ' ', '"', '2', '"', ':', '"', '\\', 'u', '0', '0', '4',
    '1', '"', ',', '"', 'b', '"', ':', '[', ']', '\x7d']

def once : Value oneDigit.Double := .obj [("b", .arr []), ("2", .str "A")]

def repeatedDoc : Doc :=
  .obj [([.char 'b'], .num ['1']), ([.char '2'], .str [.unit 65]), ([.char 'b'], .arr [])]

/-- Its surrogates are paired, and its number reads back. -/
theorem repeated_once :
    repeatedDoc.fold (compactly oneDigit) (stringify oneDigit once) ∧
      ∃ w, parse oneDigit (stringify oneDigit once) = some w ∧
        parse oneDigit (indent oneDigit once) = some w ∧ Same once w ∧
        stringify oneDigit w = stringify oneDigit once := by
  have hdocs : value docs 2 repeated = some (repeatedDoc, []) := rfl
  have hparse : parse oneDigit repeated = some once := parse_docs (by decide) hdocs
  obtain ⟨d, hsays, hcompact, hback⟩ := stringify_parse hparse
  obtain ⟨ws, t, hcs, hws, ht⟩ := value_sound 2 _ _ _ hdocs
  obtain rfl : d = repeatedDoc := says_unique hsays ⟨ws, t, [], hcs, hws, ht, spaces_nil⟩
  refine ⟨hcompact ?_, hback ?_⟩
  · rw [repeatedDoc, fold_obj]
    rintro m (_ | ⟨_, _ | ⟨_, _ | ⟨_, ⟨⟩⟩⟩⟩)
    · exact ⟨rfl, trivial⟩
    · exact ⟨rfl, rfl⟩
    · exact ⟨rfl, fun _ h => by cases h⟩
  · have hone : number oneDigit (oneDigit.parseFloat ['1']) = ['1'] := by decide +kernel
    have hwhole : Whole ['1'] := .digits (by decide) ⟨List.cons_ne_nil _ _, by simp⟩
    have hnumber : IsNumber ['1'] := .parts (.inl rfl) hwhole .none .none
    rw [repeatedDoc, fold_obj]
    rintro m (_ | ⟨_, _ | ⟨_, _ | ⟨_, ⟨⟩⟩⟩⟩)
    · show Faithful oneDigit (oneDigit.parseFloat ['1'])
      rw [Faithful, hone]
      exact ⟨hnumber, rfl⟩
    · trivial
    · exact fun _ h => by cases h

def escaped : List Char := ['"', '\\', 'u', '0', '0', '4', '1', '"']

/-- A string is not written as it stood: its escapes are those of `JSON.stringify`. -/
theorem escape_rewritten :
    parse oneDigit escaped = some (.str "A") ∧
      stringify oneDigit (.str "A") = ['"', 'A', '"'] ∧ escaped.filter isSpace = [] ∧
      ['"', 'A', '"'] ≠ escaped := by
  have hdocs : value docs 0 escaped = some (.str [.unit 65], []) := rfl
  have hvalue : (Doc.str [.unit 65]).fold (decoded oneDigit) = .str "A" := rfl
  refine ⟨?_, rfl, rfl, by decide⟩
  rw [← hvalue]
  exact parse_docs (by decide) hdocs

end LocalBase.Jsjson
