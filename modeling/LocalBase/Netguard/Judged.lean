import LocalBase.Netguard.Guard
import LocalBase.Lib.SplitOn
import Mathlib.Data.List.Basic
import Mathlib.Data.List.Forall2
import Mathlib.Order.Basic

/-!
# Hosts as a proxy takes them

A proxy is handed a name: the host where that is ASCII, and else the ASCII form of what it
is mapped to, where there is one. What the name means there is said by itself. What the
check makes of a host that is handed on as it is is then the same but for one kind; of a
host that is mapped it sees only whether it is a local name.

The mapping is the library's, and is known here by what it is documented to do.
-/

namespace LocalBase.Netguard

open SplitOn

variable {s h p : Bytes} {c p' : UInt8} {n v base : Nat} {ip ip' : Addr} {q : UInt8 → Bool}
  {vals : List Nat} {rest tail t : Bytes} {parts : List Bytes}

/-! ## What a name means -/

/-- What follows a zero: a hexadecimal number or an octal one. -/
def afterZero : Bytes → Option Nat
  | [] => some 0
  | x :: digits =>
    if lower x = byte 'x' then if digits = [] then none else value 16 0 digits
    else value 8 0 (x :: digits)

/-- A number of `inet_aton`: decimal, octal or hexadecimal. -/
def atonNumber : Bytes → Option Nat
  | [] => none
  | c :: rest => if c = byte '0' then afterZero rest else value 10 0 (c :: rest)

/-- What `inet_aton` reads: one to four numbers, with or without a dot at the end. -/
def inetAton (s : Bytes) : Option Addr :=
  let parts := (trimDot s).splitOn (byte '.')
  if 4 < parts.length then none
  else
    match parts.mapM atonNumber with
    | none => none
    | some vals => (joined vals.length 0 vals).map .v4

/-- A name for what is not public: an address, in any form, or a local name. -/
def Hidden (toLower : Bytes → Bytes) (name : Bytes) : Prop :=
  (∃ ip, parseAddr name = some ip ∧ classify ip ≠ .isPublic) ∨
    (∃ ip, inetAton name = some ip ∧ classify ip ≠ .isPublic) ∨ localName toLower name = true

def isASCII (s : Bytes) : Bool := s.all fun c => c.toNat < 128

/-- The name that a proxy is handed: a host that `idna` refuses is handed on as it is. -/
def proxied (idna : Bytes → Option Bytes) (host : Bytes) : Bytes :=
  if isASCII host then host else (idna host).getD host

def labels (s : Bytes) : List Bytes := (trimDot s).splitOn (byte '.')

/-- What a mapped name may have in it. -/
def isHostByte (c : UInt8) : Bool :=
  isDigit c || 97 ≤ c.toNat && c.toNat ≤ 122 || c = byte '-' || c = byte '.'

/-- A label in ASCII: as it is, or encoded after `xn--`. -/
def Encoded (label ace : Bytes) : Prop :=
  if isASCII label then ace = label else ascii "xn--" <+: ace

/-- What is documented of `strings.ToLower`, and of `idna.Lookup.ToASCII` on a host that is not
ASCII: by the STD3 rules there is no `%`, and nothing but lower-case letters, digits and
hyphens is left between the dots; each label of the host, as UTS 46 has it in Unicode, is put
in ASCII by itself. -/
structure Lookup (toLower : Bytes → Bytes) (idna : Bytes → Option Bytes)
    (mapped : Bytes → Bytes) : Prop where
  lowers : ∀ s, isASCII s = true → toLower s = s.map lower
  zone : ∀ h n, isASCII h = false → idna h = some n → byte '%' ∉ h
  plain : ∀ h n, isASCII h = false → idna h = some n → ∀ c ∈ n, isHostByte c = true
  encodes : ∀ h n, isASCII h = false → idna h = some n →
    List.Forall₂ Encoded (labels (mapped h)) (labels n)

/-! ## Numbers -/

theorem digits_of_value (hv : value base n s = some v) :
    ∀ c ∈ s, ∃ d < base, digitValue c = some d := by
  induction s generalizing n with
  | nil => exact fun c hc => nomatch hc
  | cons b s ih =>
    obtain ⟨d, hd, hv⟩ := Option.bind_eq_some_iff.1 hv
    split at hv
    · next hlt =>
      intro c hc
      rcases List.mem_cons.1 hc with rfl | hc
      · exact ⟨d, hlt, hd⟩
      · exact ih hv c hc
    · cases hv

def isAlnum (c : UInt8) : Bool := (digitValue c).isSome

theorem alnum_of_value (hv : value base n s = some v) : ∀ c ∈ s, isAlnum c = true := by
  intro c hc
  obtain ⟨d, -, hd⟩ := digits_of_value hv c hc
  rw [isAlnum, hd]
  rfl

theorem digitValue_of_lower (hc : lower c = p') (hp : 97 ≤ p'.toNat ∧ p'.toNat ≤ 122) :
    digitValue c = some (p'.toNat - 87) := by
  have hdigit : isDigit c = false := by
    rw [Bool.eq_false_iff]
    intro hdigit
    simp only [isDigit, Bool.and_eq_true, decide_eq_true_eq] at hdigit
    rw [lower, if_neg (by omega)] at hc
    subst hc
    omega
  rw [digitValue, hdigit, if_neg Bool.false_ne_true, hc, if_pos hp]

theorem alnum_of_aton (hv : atonNumber s = some v) : ∀ c ∈ s, isAlnum c = true := by
  cases s with
  | nil => cases hv
  | cons c rest =>
    rw [atonNumber] at hv
    split at hv
    · next hzero =>
      have hc : isAlnum c = true := by
        rw [hzero]
        decide
      refine List.forall_mem_cons.2 ⟨hc, ?_⟩
      cases rest with
      | nil => exact fun c hc => nomatch hc
      | cons x digits =>
        rw [afterZero] at hv
        split at hv
        · next hx =>
          split at hv
          · cases hv
          · refine List.forall_mem_cons.2 ⟨?_, alnum_of_value hv⟩
            rw [isAlnum, digitValue_of_lower hx (by decide)]
            rfl
        · exact alnum_of_value hv
    · exact alnum_of_value hv

theorem filter_digits (hs : ∀ c ∈ s, isAlnum c = true) :
    s.filter (· ≠ byte '_') = s := by
  rw [List.filter_eq_self]
  intro c hc
  refine decide_eq_true ?_
  rintro rfl
  exact absurd (hs _ hc) (by decide)

theorem baseOf_zero {x : UInt8} (hv : value 8 0 (x :: rest) = some v) :
    baseOf (byte '0' :: x :: rest) = (8, x :: rest) := by
  obtain ⟨d, hlt, hd⟩ := digits_of_value hv x List.mem_cons_self
  have hletter : ∀ k : UInt8, 97 ≤ k.toNat ∧ k.toNat ≤ 122 → lower x ≠ k := by
    intro k hk hx
    have hsome := hd.symm.trans (digitValue_of_lower hx hk)
    have hvalue := Option.some.inj hsome
    omega
  cases rest with
  | nil => rfl
  | cons y rest =>
    rw [baseOf, if_pos rfl, if_neg (hletter _ (by decide)), if_neg (hletter _ (by decide)),
      if_neg (hletter _ (by decide))]

theorem baseOf_hex {x y : UInt8} (hx : lower x = byte 'x') :
    baseOf (byte '0' :: x :: y :: rest) = (16, y :: rest) := by
  rw [baseOf, if_pos rfl, hx, if_neg (by decide), if_neg (by decide), if_pos rfl]

theorem baseOf_decimal (hc : c ≠ byte '0') :
    baseOf (c :: rest) = (10, c :: rest) := by
  cases rest with
  | nil => exact if_neg hc
  | cons x rest =>
    cases rest with
    | nil => exact if_neg hc
    | cons y rest => exact if_neg hc

theorem value_of_aton (hv : atonNumber s = some v) :
    value (baseOf s).1 0 (baseOf s).2 = some v := by
  cases s with
  | nil => cases hv
  | cons c rest =>
    rw [atonNumber] at hv
    split at hv
    · next hzero =>
      subst hzero
      cases rest with
      | nil => exact hv
      | cons x digits =>
        rw [afterZero] at hv
        split at hv
        · next hx =>
          split at hv
          · cases hv
          · next hne =>
            obtain ⟨y, ys, rfl⟩ := List.exists_cons_of_ne_nil hne
            rw [baseOf_hex hx]
            exact hv
        · rw [baseOf_zero hv]
          exact hv
    · next hc =>
      rw [baseOf_decimal hc]
      exact hv

theorem parseUint_of_aton (hv : atonNumber s = some v) (hlt : v < 2 ^ 64) :
    parseUint s = some v := by
  have hs := alnum_of_aton hv
  have hscore : s.contains (byte '_') = false := by
    rw [Bool.eq_false_iff]
    intro hmem
    exact absurd (hs _ (List.contains_iff_mem.1 hmem)) (by decide)
  have hbase := value_of_aton hv
  have hne : s ≠ [] := by
    rintro rfl
    cases hv
  rw [parseUint, if_neg hne, filter_digits (alnum_of_value hbase), hbase]
  dsimp only
  rw [if_neg (by omega), hscore]
  rfl

/-! ## Loose addresses -/

theorem joined_lt {count i : Nat} (hcount : 1 ≤ count)
    (hn : joined count i vals = some n) : ∀ v ∈ vals, v < 2 ^ 64 := by
  induction vals generalizing i n with
  | nil => exact fun v hv => nomatch hv
  | cons v vals ih =>
    cases vals with
    | nil =>
      rw [joined] at hn
      split at hn
      · cases hn
      · next hlt =>
        intro w hw
        rw [List.mem_singleton.1 hw]
        have hpow : 2 ^ (8 * (5 - count)) ≤ 2 ^ 64 :=
          Nat.pow_le_pow_right (by decide) (by omega)
        omega
    | cons w vals =>
      rw [joined] at hn
      split at hn
      · cases hn
      · next hle =>
        obtain ⟨m, hm, -⟩ := Option.map_eq_some_iff.1 hn
        refine List.forall_mem_cons.2 ⟨?_, ih hm⟩
        omega

theorem mapM_parseUint (hvals : parts.mapM atonNumber = some vals)
    (hlt : ∀ v ∈ vals, v < 2 ^ 64) :
    parts.mapM parseUint = some vals := by
  rw [mapM_eq_some] at hvals ⊢
  induction hvals with
  | nil => exact .nil
  | cons hv hrest ih =>
    obtain ⟨hv', hrest'⟩ := List.forall_mem_cons.1 hlt
    exact .cons (parseUint_of_aton hv hv') (ih hrest')

theorem looseIPv4_of_aton (h : inetAton s = some ip) : looseIPv4 (trimDot s) = some ip := by
  rw [inetAton] at h
  split at h
  · cases h
  · next hfew =>
    split at h
    · cases h
    · next vals hvals =>
      obtain ⟨n, hn, hip⟩ := Option.map_eq_some_iff.1 h
      have hcount : 1 ≤ vals.length := by
        cases vals with
        | nil => cases hn
        | cons v vals => exact Nat.succ_pos _
      rw [looseIPv4, if_neg hfew, mapM_parseUint hvals (joined_lt hcount hn)]
      exact h

/-! ## Hosts without a zone -/

/-- What an address is written in, apart from a zone. -/
def isAddrByte (c : UInt8) : Bool := isAlnum c || c = byte '.' || c = byte ':'

theorem addrByte_of_alnum (hc : isAlnum c = true) : isAddrByte c = true := by
  rw [isAddrByte, hc]
  rfl

theorem addrByte_plain (hc : isAddrByte c = true) : isBracket c = false ∧ c ≠ byte '%' := by
  constructor
  · rw [Bool.eq_false_iff]
    intro hbracket
    simp only [isBracket, Bool.or_eq_true, decide_eq_true_eq] at hbracket
    rcases hbracket with rfl | rfl
    · exact absurd hc (by decide)
    · exact absurd hc (by decide)
  · rintro rfl
    exact absurd hc (by decide)

theorem takeWhile_append_stop (hs : ∀ c ∈ s, q c = true)
    (hc : q c = false) : (s ++ c :: rest).takeWhile q = s := by
  induction s with
  | nil => rw [List.nil_append, List.takeWhile_cons, hc, if_neg Bool.false_ne_true]
  | cons b s ih =>
    obtain ⟨hb, hs⟩ := List.forall_mem_cons.1 hs
    rw [List.cons_append, List.takeWhile_cons, hb, if_pos rfl, ih hs]

theorem takeWhile_all (hs : ∀ c ∈ s, q c = true) : s.takeWhile q = s := by
  induction s with
  | nil => rfl
  | cons b s ih =>
    obtain ⟨hb, hs⟩ := List.forall_mem_cons.1 hs
    rw [List.takeWhile_cons, hb, if_pos rfl, ih hs]

theorem dropWhile_none (rest : Bytes) (hs : ∀ c ∈ s, q c = false)
    (hne : s ≠ []) : (s ++ rest).dropWhile q = s ++ rest := by
  obtain ⟨b, s, rfl⟩ := List.exists_cons_of_ne_nil hne
  have hb := hs b List.mem_cons_self
  rw [List.cons_append, List.dropWhile_cons, hb, if_neg Bool.false_ne_true]

theorem trimBrackets_append (hs : ∀ c ∈ s, isBracket c = false) (hne : s ≠ []) :
    trimBrackets (s ++ tail) = s ++ (tail.reverse.dropWhile isBracket).reverse := by
  have hreverse : ∀ c ∈ s.reverse, isBracket c = false := fun c hc => hs c (List.mem_reverse.1 hc)
  have hne' : s.reverse ≠ [] := by
    intro hnil
    exact hne (List.reverse_eq_nil_iff.1 hnil)
  rw [trimBrackets, dropWhile_none tail hs hne, List.reverse_append]
  generalize tail.reverse = t
  induction t with
  | nil =>
    have hkeep := dropWhile_none [] hreverse hne'
    rw [List.append_nil] at hkeep
    rw [List.nil_append, hkeep, List.reverse_reverse]
    exact (List.append_nil s).symm
  | cons b t ih =>
    rw [List.cons_append, List.dropWhile_cons, List.dropWhile_cons]
    split
    · exact ih
    · rw [← List.cons_append, List.reverse_append, List.reverse_reverse]

theorem zone_trimmed (zone : Bytes) : ∃ rest,
    ((byte '%' :: zone).reverse.dropWhile isBracket).reverse = byte '%' :: rest := by
  rw [List.reverse_cons]
  generalize zone.reverse = t
  induction t with
  | nil => exact ⟨[], by decide⟩
  | cons b t ih =>
    rw [List.cons_append, List.dropWhile_cons]
    split
    · exact ih
    · exact ⟨(b :: t).reverse, by rw [← List.cons_append, List.reverse_append]; rfl⟩

theorem literal_eq (hs : ∀ c ∈ s, isAddrByte c = true) (hne : s ≠ [])
    (htail : tail = [] ∨ ∃ zone, tail = byte '%' :: zone) :
    literal (s ++ tail) = (parseAddr s).or (looseIPv4 (trimDot s)) := by
  have hbrackets : ∀ c ∈ s, isBracket c = false := fun c hc => (addrByte_plain (hs c hc)).1
  have hmark : ∀ c ∈ s, decide (c ≠ byte '%') = true := fun c hc =>
    decide_eq_true (addrByte_plain (hs c hc)).2
  have hcut : (cut (byte '%') (trimBrackets (s ++ tail))).1 = s := by
    rw [trimBrackets_append hbrackets hne]
    obtain rfl | ⟨zone, rfl⟩ := htail
    · rw [List.reverse_nil, List.dropWhile_nil, List.reverse_nil, List.append_nil]
      exact takeWhile_all hmark
    · obtain ⟨rest, hrest⟩ := zone_trimmed zone
      rw [hrest]
      exact takeWhile_append_stop hmark (by decide)
  rw [literal, hcut]
  cases parseAddr s with
  | none => rfl
  | some ip => rfl

/-! ## What addresses are written in -/

theorem octet_spec (hv : octet s = some v) :
    (∀ c ∈ s, isAlnum c = true) ∧ atonNumber s = some v ∧ v ≤ 255 := by
  rw [octet] at hv
  split at hv
  · cases hv
  · next hform =>
    rw [not_or, not_or] at hform
    obtain ⟨hne, -, hzero⟩ := hform
    obtain ⟨w, hw, hv⟩ := Option.bind_eq_some_iff.1 hv
    split at hv
    · cases hv
    · next hle =>
      obtain rfl := Option.some.inj hv
      refine ⟨alnum_of_value hw, ?_, by omega⟩
      obtain ⟨c, rest, rfl⟩ := List.exists_cons_of_ne_nil hne
      rw [atonNumber]
      split
      · next hc =>
        -- A zero in front is a field of its own.
        cases rest with
        | nil =>
          subst hc
          exact hw
        | cons x rest => exact absurd ⟨congrArg some hc, Nat.le_add_left 2 _⟩ hzero
      · exact hw

theorem addrByte_of_parts (sep : UInt8) (hsep : isAddrByte sep = true)
    (hparts : ∀ p ∈ s.splitOn sep, ∀ c ∈ p, isAddrByte c = true) :
    ∀ c ∈ s, isAddrByte c = true := by
  intro c hc
  obtain rfl | ⟨p, hp, hcp⟩ := mem_splitOn (c := sep) hc
  · exact hsep
  · exact hparts p hp c hcp

theorem parseIPv4_spec (hn : parseIPv4 s = some n) :
    ∃ a b c d, (s.splitOn (byte '.')).mapM octet = some [a, b, c, d] ∧ n = ipv4 a b c d := by
  rw [parseIPv4] at hn
  split at hn
  · next a b c d h => exact ⟨a, b, c, d, h, (Option.some.inj hn).symm⟩
  · cases hn

theorem exists_of_forall₂ {α β : Type} {R : α → β → Prop} {xs : List α} {ys : List β} {x : α}
    (h : List.Forall₂ R xs ys) (hx : x ∈ xs) : ∃ y ∈ ys, R x y := by
  induction h with
  | nil => cases hx
  | cons hxy hrest ih =>
    obtain rfl | hx := List.mem_cons.1 hx
    · exact ⟨_, List.mem_cons_self, hxy⟩
    · exact (ih hx).imp fun y hy => ⟨List.mem_cons_of_mem _ hy.1, hy.2⟩

theorem forall_mem_of_forall₂ {α β : Type} {R : α → β → Prop} {P : α → Prop} {xs : List α}
    {ys : List β} (h : List.Forall₂ R xs ys) (hP : ∀ x y, R x y → P x) : ∀ x ∈ xs, P x := by
  induction h with
  | nil => exact fun x hx => nomatch hx
  | cons hxy hrest ih => exact List.forall_mem_cons.2 ⟨hP _ _ hxy, ih⟩

theorem parseIPv4_bytes (hn : parseIPv4 s = some n) : ∀ c ∈ s, isAddrByte c = true := by
  obtain ⟨a, b, c, d, hparts, -⟩ := parseIPv4_spec hn
  refine addrByte_of_parts (byte '.') (by decide) ?_
  exact forall_mem_of_forall₂ (mapM_eq_some.1 hparts) fun p v hp c hc =>
    addrByte_of_alnum ((octet_spec hp).1 c hc)

theorem hexGroup_bytes (hv : hexGroup s = some v) : ∀ c ∈ s, isAddrByte c = true := by
  rw [hexGroup] at hv
  split at hv
  · cases hv
  · exact fun c hc => addrByte_of_alnum (alnum_of_value hv c hc)

theorem groups_bytes {gs : List Nat} (hgs : groups parts = some gs) :
    ∀ p ∈ parts, ∀ c ∈ p, isAddrByte c = true := by
  induction parts generalizing gs with
  | nil => exact fun p hp => nomatch hp
  | cons s rest ih =>
    cases rest with
    | nil =>
      refine List.forall_mem_singleton.2 ?_
      rw [groups] at hgs
      split at hgs
      · obtain ⟨n, hn, -⟩ := Option.map_eq_some_iff.1 hgs
        exact parseIPv4_bytes hn
      · obtain ⟨g, hg, -⟩ := Option.map_eq_some_iff.1 hgs
        exact hexGroup_bytes hg
    | cons t rest =>
      obtain ⟨g, hg, hrest⟩ := Option.bind_eq_some_iff.1 hgs
      obtain ⟨gs', hgs', -⟩ := Option.bind_eq_some_iff.1 hrest
      exact List.forall_mem_cons.2 ⟨hexGroup_bytes hg, ih hgs'⟩

theorem side_bytes {read : List Bytes → Option (List Nat)} {gs : List Nat}
    (hread : ∀ parts gs, read parts = some gs → ∀ p ∈ parts, ∀ c ∈ p, isAddrByte c = true)
    (hgs : side read s = some gs) : ∀ c ∈ s, isAddrByte c = true := by
  rw [side] at hgs
  split at hgs
  · next hnil =>
    rw [hnil]
    exact fun c hc => nomatch hc
  · exact addrByte_of_parts _ (by decide) (hread _ _ hgs)

theorem cutEllipsis_eq {left right : Bytes} (hs : cutEllipsis s = some (left, right)) :
    s = left ++ byte ':' :: byte ':' :: right := by
  induction s generalizing left with
  | nil => cases hs
  | cons c s ih =>
    cases s with
    | nil => cases hs
    | cons d s =>
      rw [cutEllipsis] at hs
      split at hs
      · next hcd =>
        cases hs
        rw [hcd.1, hcd.2]
        rfl
      · obtain ⟨⟨left', right'⟩, hcut, hpair⟩ := Option.map_eq_some_iff.1 hs
        cases hpair
        rw [ih hcut]
        rfl

theorem ipv6Of_bytes (hn : ipv6Of s = some n) : ∀ c ∈ s, isAddrByte c = true := by
  rw [ipv6Of] at hn
  split at hn
  · obtain ⟨gs, hgs, -⟩ := Option.bind_eq_some_iff.1 hn
    exact addrByte_of_parts _ (by decide) (groups_bytes hgs)
  · next left right hcut =>
    obtain ⟨ls, hls, hn⟩ := Option.bind_eq_some_iff.1 hn
    obtain ⟨rs, hrs, -⟩ := Option.bind_eq_some_iff.1 hn
    have hleft := side_bytes (fun parts gs h => forall_mem_of_forall₂ (mapM_eq_some.1 h)
      fun p v hp => hexGroup_bytes hp) hls
    have hright := side_bytes (fun parts gs h => groups_bytes h) hrs
    intro c hc
    rw [cutEllipsis_eq hcut] at hc
    rcases List.mem_append.1 hc with hc | hc
    · exact hleft c hc
    · rcases List.mem_cons.1 hc with rfl | hc
      · decide
      · rcases List.mem_cons.1 hc with rfl | hc
        · decide
        · exact hright c hc

/-! ## Hosts that are addresses -/

theorem cut_eq {zone : Bytes} (hs : (cut c s).2 = some zone) : s = (cut c s).1 ++ c :: zone := by
  induction s with
  | nil => cases hs
  | cons b s ih =>
    by_cases hb : b = c
    · subst hb
      have hmem : (b :: s).contains b = true := List.contains_iff_mem.2 List.mem_cons_self
      rw [cut, if_pos hmem, List.dropWhile_cons, if_neg (by simp)] at hs
      obtain rfl := Option.some.inj hs
      rw [cut, List.takeWhile_cons, if_neg (by simp)]
      rfl
    · have hrest : (cut c (b :: s)).2 = (cut c s).2 := by
        have hkeep : decide (b ≠ c) = true := decide_eq_true hb
        have hcontains : (b :: s).contains c = s.contains c := by
          rw [List.contains_cons, beq_false_of_ne fun h => hb h.symm, Bool.false_or]
        rw [cut, cut, List.dropWhile_cons, hkeep, if_pos rfl, hcontains]
      rw [hrest] at hs
      have hfirst : (cut c (b :: s)).1 = b :: (cut c s).1 := by
        rw [cut, cut, List.takeWhile_cons, if_pos (decide_eq_true hb)]
      rw [hfirst, List.cons_append, ← ih hs]

theorem find?_append_of_some (hfind : (s ++ tail).find? q = some c)
    (hmem : ∀ d, tail.find? q = some d → d ≠ c) :
    s.find? q = some c := by
  rw [List.find?_append] at hfind
  cases hs : s.find? q with
  | none =>
    rw [hs] at hfind
    exact absurd rfl (hmem c hfind)
  | some d =>
    rw [hs] at hfind
    exact hfind

/-- An address that a host is, with its zone or without one, is the literal it is taken for. -/
theorem literal_of_parseAddr (hip : parseAddr h = some ip) :
    ∃ ip', literal h = some ip' ∧ classify ip' = classify ip := by
  have hplain : parseAddr h = some ip := hip
  rw [parseAddr] at hip
  split at hip
  · cases hip
  · next c hfind =>
    split at hip
    · obtain ⟨n, hn, -⟩ := Option.map_eq_some_iff.1 hip
      have hne : h ≠ [] := by
        rintro rfl
        cases hfind
      have hliteral := literal_eq (parseIPv4_bytes hn) hne (.inl rfl)
      rw [List.append_nil, hplain] at hliteral
      exact ⟨ip, hliteral, rfl⟩
    split at hip
    · next hcolon =>
      subst hcolon
      rw [parseIPv6] at hip
      split at hip
      · obtain ⟨n, hn, -⟩ := Option.map_eq_some_iff.1 hip
        have hne : h ≠ [] := by
          rintro rfl
          cases hfind
        have hliteral := literal_eq (ipv6Of_bytes hn) hne (.inl rfl)
        rw [List.append_nil, hplain] at hliteral
        exact ⟨ip, hliteral, rfl⟩
      · next zone hzone =>
        split at hip
        · cases hip
        · obtain ⟨n, hn, rfl⟩ := Option.map_eq_some_iff.1 hip
          obtain ⟨s, hs⟩ : ∃ s, (cut (byte '%') h).1 = s := ⟨_, rfl⟩
          rw [hs] at hn
          have hsplit : h = s ++ byte '%' :: zone := by
            rw [← hs]
            exact cut_eq hzone
          have hfirst : s.find? (fun c => c = byte '.' || c = byte ':' || c = byte '%') =
              some (byte ':') := by
            rw [hsplit] at hfind
            refine find?_append_of_some hfind fun d hd => ?_
            rw [List.find?_cons_of_pos (by decide)] at hd
            rw [← Option.some.inj hd]
            decide
          have hne : s ≠ [] := by
            rintro rfl
            cases hfirst
          have hmark : byte '%' ∉ s := fun hmem =>
            (addrByte_plain (ipv6Of_bytes hn _ hmem)).2 rfl
          have hbare : parseAddr s = some (.v6 n []) := by
            have hwhole : (cut (byte '%') s).2 = none :=
              if_neg fun hmem => hmark (List.contains_iff_mem.1 hmem)
            rw [parseAddr, hfirst]
            dsimp only
            rw [if_neg (by decide), if_pos rfl, parseIPv6, hwhole]
            dsimp only
            rw [hn]
            rfl
          have hliteral := literal_eq (ipv6Of_bytes hn) hne (.inr ⟨zone, rfl⟩)
          rw [← hsplit, hbare] at hliteral
          exact ⟨_, hliteral, rfl⟩
    · cases hip

theorem mapM_atonNumber
    (hvals : parts.mapM octet = some vals) : parts.mapM atonNumber = some vals := by
  rw [mapM_eq_some] at hvals ⊢
  exact hvals.imp fun p v hp => (octet_spec hp).2.1

theorem trimDot_of_octets
    (hvals : (s.splitOn (byte '.')).mapM octet = some vals) : trimDot s = s := by
  refine if_neg fun hlast => ?_
  have hsplit : s = s.dropLast ++ [byte '.'] := (List.dropLast_append_getLast? _ hlast).symm
  rw [hsplit, List.splitOn_append_cons_self, List.splitOn_nil] at hvals
  have hempty := forall_mem_of_forall₂ (P := fun p => p ≠ []) (mapM_eq_some.1 hvals) (by
    rintro p v hp rfl
    cases hp)
  exact hempty [] (List.mem_append_right _ List.mem_cons_self) rfl

theorem aton_of_parseIPv4 (hn : parseIPv4 s = some n) : inetAton s = some (.v4 n) := by
  obtain ⟨a, b, c, d, hparts, rfl⟩ := parseIPv4_spec hn
  have hlength := (mapM_eq_some.1 hparts).length_eq
  have hsmall : a ≤ 255 ∧ b ≤ 255 ∧ c ≤ 255 ∧ d ≤ 255 := by
    have hall := mapM_eq_some.1 hparts
    generalize s.splitOn (byte '.') = parts at hall
    cases hall with
    | cons ha hall =>
      cases hall with
      | cons hb hall =>
        cases hall with
        | cons hc hall =>
          cases hall with
          | cons hd _ =>
            exact ⟨(octet_spec ha).2.2, (octet_spec hb).2.2, (octet_spec hc).2.2,
              (octet_spec hd).2.2⟩
  have hjoined : joined 4 0 [a, b, c, d] = some (ipv4 a b c d) := by
    simp only [joined, ipv4]
    rw [if_neg (by omega), if_neg (by omega), if_neg (by omega), if_neg (by omega)]
    simp only [Option.map_some, Option.some.injEq]
    omega
  have hfew : ¬4 < (s.splitOn (byte '.')).length := by
    rw [hlength]
    exact Nat.lt_irrefl 4
  rw [inetAton, trimDot_of_octets hparts, if_neg hfew, mapM_atonNumber hparts]
  dsimp only [List.length_cons, List.length_nil]
  rw [hjoined]
  rfl

theorem inetAton_bytes (hip : inetAton h = some ip) :
    h ≠ [] ∧ ∀ c ∈ h, isAlnum c = true ∨ c = byte '.' := by
  rw [inetAton] at hip
  split at hip
  · cases hip
  · split at hip
    · cases hip
    · next vals hvals =>
      have hparts := forall_mem_of_forall₂ (P := fun p => ∀ c ∈ p, isAlnum c = true)
        (mapM_eq_some.1 hvals) fun p v hp => alnum_of_aton hp
      have htrimmed : ∀ c ∈ trimDot h, isAlnum c = true ∨ c = byte '.' := by
        intro c hc
        obtain rfl | ⟨p, hp, hcp⟩ := mem_splitOn (c := byte '.') hc
        · exact .inr rfl
        · exact .inl (hparts p hp c hcp)
      refine ⟨?_, ?_⟩
      · rintro rfl
        cases hvals
      · intro c hc
        rw [trimDot] at htrimmed
        split at htrimmed
        · next hlast =>
          rw [← List.dropLast_append_getLast? _ hlast] at hc
          rcases List.mem_append.1 hc with hc | hc
          · exact htrimmed c hc
          · exact .inr (List.mem_singleton.1 hc)
        · exact htrimmed c hc

theorem literal_of_inetAton (hip : inetAton h = some ip) : literal h = some ip := by
  obtain ⟨hne, hbytes⟩ := inetAton_bytes hip
  have haddr : ∀ c ∈ h, isAddrByte c = true := by
    intro c hc
    rcases hbytes c hc with hc | rfl
    · exact addrByte_of_alnum hc
    · decide
  have hliteral := literal_eq haddr hne (.inl rfl)
  rw [List.append_nil, looseIPv4_of_aton hip] at hliteral
  rw [hliteral]
  cases hparsed : parseAddr h with
  | none => rfl
  | some ip' =>
    -- The strict reading, where there is one, is the same address.
    rw [parseAddr] at hparsed
    split at hparsed
    · cases hparsed
    · next c hfind =>
      have hc : c = byte '.' := by
        have hform := List.find?_some hfind
        rcases hbytes c (List.mem_of_find?_eq_some hfind) with halnum | hdot
        · simp only [Bool.or_eq_true, decide_eq_true_eq] at hform
          obtain (rfl | rfl) | rfl := hform
          · rfl
          · exact absurd halnum (by decide)
          · exact absurd halnum (by decide)
        · exact hdot
      rw [if_pos hc] at hparsed
      obtain ⟨n, hn, rfl⟩ := Option.map_eq_some_iff.1 hparsed
      exact (aton_of_parseIPv4 hn).symm.trans hip

/-! ## Hosts that are mapped -/

theorem ascii_of_alnum (hc : isAlnum c = true) : c.toNat < 128 := by
  obtain ⟨d, hd⟩ := Option.isSome_iff_exists.1 hc
  rw [digitValue] at hd
  split at hd
  · next hdigit =>
    simp only [isDigit, Bool.and_eq_true, decide_eq_true_eq] at hdigit
    omega
  · split at hd
    · next hletter =>
      rw [lower] at hletter
      split at hletter <;> omega
    · cases hd

theorem ascii_of_lower (hc : lower c = p') (hp : p'.toNat < 128) : c.toNat < 128 := by
  rw [lower] at hc
  split at hc
  · omega
  · exact hc ▸ hp

theorem baseOf_ascii (hs : ∀ c ∈ (baseOf s).2, c.toNat < 128) : ∀ c ∈ s, c.toNat < 128 := by
  cases s with
  | nil => exact hs
  | cons c rest =>
    by_cases hc : c = byte '0'
    · subst hc
      refine List.forall_mem_cons.2 ⟨by decide, ?_⟩
      cases rest with
      | nil => exact fun c hc => nomatch hc
      | cons x rest =>
        cases rest with
        | nil => exact hs
        | cons y rest =>
          rw [baseOf, if_pos rfl] at hs
          split_ifs at hs with hb ho hx
          · exact List.forall_mem_cons.2 ⟨ascii_of_lower hb (by decide), hs⟩
          · exact List.forall_mem_cons.2 ⟨ascii_of_lower ho (by decide), hs⟩
          · exact List.forall_mem_cons.2 ⟨ascii_of_lower hx (by decide), hs⟩
          · exact hs
    · rw [baseOf_decimal hc] at hs
      exact hs

theorem parseUint_ascii (hv : parseUint s = some v) : ∀ c ∈ s, c.toNat < 128 := by
  refine baseOf_ascii fun c hc => ?_
  rw [parseUint] at hv
  split at hv
  · cases hv
  · split at hv
    · cases hv
    · next n hn =>
      by_cases hscore : c = byte '_'
      · rw [hscore]
        decide
      · have hmem : c ∈ (baseOf s).2.filter (· ≠ byte '_') :=
          List.mem_filter.2 ⟨hc, decide_eq_true hscore⟩
        exact ascii_of_alnum (alnum_of_value hn c hmem)

theorem mem_trimDot (hc : c ∈ s) : c = byte '.' ∨ c ∈ trimDot s := by
  rw [trimDot]
  split
  · next hlast =>
    rw [← List.dropLast_append_getLast? _ hlast] at hc
    exact (List.mem_append.1 hc).symm.imp_left List.mem_singleton.1
  · exact .inr hc

theorem trimDot_subset : trimDot s ⊆ s := by
  rw [trimDot]
  split
  · exact List.dropLast_subset s
  · exact List.Subset.refl s

theorem mem_labels (hc : c ∈ s) : c = byte '.' ∨ ∃ p ∈ labels s, c ∈ p :=
  (mem_trimDot hc).elim .inl mem_splitOn

theorem looseIPv4_ascii (hip : looseIPv4 (trimDot s) = some ip) : isASCII s = true := by
  rw [looseIPv4] at hip
  split at hip
  · cases hip
  · split at hip
    · cases hip
    · next vals hvals =>
      refine List.all_eq_true.2 fun c hc => decide_eq_true ?_
      obtain rfl | ⟨p, hp, hcp⟩ := mem_labels hc
      · decide
      · exact forall_mem_of_forall₂ (mapM_eq_some.1 hvals)
          (fun p v hv => parseUint_ascii hv) p hp c hcp

theorem parseAddr_bytes (hip : parseAddr s = some ip) (hzone : byte '%' ∉ s) :
    ∀ c ∈ s, isAddrByte c = true := by
  rw [parseAddr] at hip
  split at hip
  · cases hip
  · split at hip
    · obtain ⟨n, hn, -⟩ := Option.map_eq_some_iff.1 hip
      exact parseIPv4_bytes hn
    split at hip
    · have hwhole : (cut (byte '%') s).2 = none :=
        if_neg fun hmem => hzone (List.contains_iff_mem.1 hmem)
      rw [parseIPv6, hwhole] at hip
      obtain ⟨n, hn, -⟩ := Option.map_eq_some_iff.1 hip
      exact ipv6Of_bytes hn
    · cases hip

/-- The check takes no text outside ASCII for an address, but for a zone. -/
theorem literal_ascii (hip : literal h = some ip) (hzone : byte '%' ∉ h) : isASCII h = true := by
  have hkept : ∀ c ∈ h, isBracket c = false → c ∈ trimBrackets h := by
    intro c hc hplain
    have hdrop : ∀ {l : Bytes}, c ∈ l → c ∈ l.dropWhile isBracket := by
      intro l hl
      induction l with
      | nil => cases hl
      | cons b l ih =>
        rw [List.dropWhile_cons]
        split
        · next hb =>
          obtain rfl | hl := List.mem_cons.1 hl
          · rw [hplain] at hb
            cases hb
          · exact ih hl
        · exact hl
    exact List.mem_reverse.2 (hdrop (List.mem_reverse.2 (hdrop hc)))
  have htrimmed : ∀ c ∈ trimBrackets h, c ∈ h := fun c hc =>
    (List.dropWhile_sublist _).mem (List.mem_reverse.1
      ((List.dropWhile_sublist _).mem (List.mem_reverse.1 hc)))
  have hcut : (cut (byte '%') (trimBrackets h)).1 = trimBrackets h :=
    takeWhile_all fun c hc => decide_eq_true fun he => hzone (he ▸ htrimmed c hc)
  have hall : isASCII (trimBrackets h) = true := by
    rw [literal, hcut] at hip
    split at hip
    · next ip' hparsed =>
      refine List.all_eq_true.2 fun c hc => decide_eq_true ?_
      have haddr := parseAddr_bytes hparsed (fun hmem => hzone (htrimmed _ hmem)) c hc
      simp only [isAddrByte, Bool.or_eq_true, decide_eq_true_eq] at haddr
      obtain (halnum | rfl) | rfl := haddr
      · exact ascii_of_alnum halnum
      · decide
      · decide
    · exact looseIPv4_ascii hip
  refine List.all_eq_true.2 fun c hc => ?_
  cases hbracket : isBracket c with
  | false => exact List.all_eq_true.1 hall c (hkept c hc hbracket)
  | true =>
    simp only [isBracket, Bool.or_eq_true, decide_eq_true_eq] at hbracket
    obtain rfl | rfl := hbracket
    · decide
    · decide

/-- A mapped text for what is not public: an address of `inet_aton`, or a local name. -/
def HiddenText (t : Bytes) : Prop :=
  (isASCII t = true ∧ ∃ ip, inetAton t = some ip ∧ classify ip ≠ .isPublic) ∨
    ∃ suffix ∈ localSuffixes, suffix.splitOn (byte '.') <:+ labels t

theorem inetAton_congr (hlabels : labels t = labels s) : inetAton t = inetAton s := by
  have hsplit : (trimDot t).splitOn (byte '.') = (trimDot s).splitOn (byte '.') := hlabels
  rw [inetAton, inetAton, hsplit]

/-- An encoded label is no number. -/
theorem not_aton_of_encoded (hs : ascii "xn--" <+: s) : atonNumber s = none := by
  cases hv : atonNumber s with
  | none => rfl
  | some v =>
    have hhyphen : byte '-' ∈ s := hs.subset (by decide)
    exact absurd (alnum_of_aton hv _ hhyphen) (by decide)

theorem eq_of_encoded {ls ns : List Bytes} (hall : List.Forall₂ Encoded ls ns)
    (hls : ∀ l ∈ ls, isASCII l = true) : ns = ls := by
  induction hall with
  | nil => rfl
  | cons hl hall ih =>
    obtain ⟨hascii, hrest⟩ := List.forall_mem_cons.1 hls
    rw [Encoded, if_pos hascii] at hl
    rw [hl, ih hrest]

theorem eq_of_not_encoded {ls ns : List Bytes} (hall : List.Forall₂ Encoded ls ns)
    (hns : ∀ n ∈ ns, ¬ ascii "xn--" <+: n) : ls = ns := by
  induction hall with
  | nil => rfl
  | cons hl hall ih =>
    obtain ⟨hplain, hrest⟩ := List.forall_mem_cons.1 hns
    rw [Encoded] at hl
    split at hl
    · rw [hl, ih hrest]
    · exact absurd hl hplain

theorem suffix_encoded {ls ns ws : List Bytes} (hall : List.Forall₂ Encoded ls ns)
    (hws : ∀ w ∈ ws, isASCII w = true ∧ ¬ ascii "xn--" <+: w) : ws <:+ ns ↔ ws <:+ ls := by
  constructor
  · rintro ⟨front, rfl⟩
    have htail := List.forall₂_drop front.length hall
    rw [List.drop_left] at htail
    rw [← eq_of_not_encoded htail fun w hw => (hws w hw).2]
    exact List.drop_suffix _ _
  · rintro ⟨front, rfl⟩
    have htail := List.forall₂_drop front.length hall
    rw [List.drop_left] at htail
    rw [← eq_of_encoded htail fun w hw => (hws w hw).1]
    exact List.drop_suffix _ _

theorem inetAton_encoded (hall : List.Forall₂ Encoded (labels t) (labels s)) :
    inetAton s = some ip ↔ isASCII t = true ∧ inetAton t = some ip := by
  by_cases hls : ∀ l ∈ labels t, isASCII l = true
  · have hascii : isASCII t = true := by
      refine List.all_eq_true.2 fun c hc => ?_
      obtain rfl | ⟨l, hl, hcl⟩ := mem_labels hc
      · decide
      · exact List.all_eq_true.1 (hls l hl) c hcl
    rw [inetAton_congr (eq_of_encoded hall hls).symm, and_iff_right hascii]
  · push Not at hls
    obtain ⟨l, hl, hascii⟩ := hls
    refine iff_of_false (fun hip => ?_) fun ⟨ht, _⟩ => hascii ?_
    · obtain ⟨n, hn, hln⟩ := exists_of_forall₂ hall hl
      rw [Encoded, if_neg hascii] at hln
      rw [inetAton] at hip
      split at hip
      · cases hip
      · split at hip
        · cases hip
        · next vals hvals =>
          have hparts := forall_mem_of_forall₂ (P := fun p => atonNumber p ≠ none)
            (mapM_eq_some.1 hvals) fun p v hp hnone => by rw [hp] at hnone; cases hnone
          exact hparts n hn (not_aton_of_encoded hln)
    · refine List.all_eq_true.2 fun c hc => List.all_eq_true.1 ht c ?_
      exact trimDot_subset (mem_of_mem_splitOn hl hc)

theorem hostByte_spec (hc : isHostByte c = true) :
    c.toNat < 128 ∧ lower c = c ∧ c ≠ byte ':' := by
  have hcolon : c ≠ byte ':' := by
    rintro rfl
    exact absurd hc (by decide)
  simp only [isHostByte, isDigit, Bool.or_eq_true, Bool.and_eq_true, decide_eq_true_eq] at hc
  obtain ((hdigit | hletter) | rfl) | rfl := hc
  · exact ⟨by omega, if_neg (by omega), hcolon⟩
  · exact ⟨by omega, if_neg (by omega), hcolon⟩
  · decide
  · decide

/-- What a mapped host means is told by the text that it is mapped to. -/
theorem hidden_mapped {toLower : Bytes → Bytes}
    (hlower : ∀ s, isASCII s = true → toLower s = s.map lower)
    (hplain : ∀ c ∈ s, isHostByte c = true)
    (hall : List.Forall₂ Encoded (labels t) (labels s)) : Hidden toLower s ↔ HiddenText t := by
  have hascii : isASCII s = true :=
    List.all_eq_true.2 fun c hc => decide_eq_true (hostByte_spec (hplain c hc)).1
  have hsame : toLower s = s := by
    rw [hlower s hascii]
    exact (List.map_congr_left fun c hc => (hostByte_spec (hplain c hc)).2.1).trans
      (List.map_id s)
  have haddr : (∃ ip, parseAddr s = some ip ∧ classify ip ≠ .isPublic) →
      ∃ ip, inetAton s = some ip ∧ classify ip ≠ .isPublic := by
    rintro ⟨ip, hip, hclass⟩
    refine ⟨ip, ?_, hclass⟩
    rw [parseAddr] at hip
    split at hip
    · cases hip
    · next c hfind =>
      obtain ⟨-, -, hcolon⟩ := hostByte_spec (hplain c (List.mem_of_find?_eq_some hfind))
      rw [if_neg hcolon] at hip
      split at hip
      · obtain ⟨n, hn, rfl⟩ := Option.map_eq_some_iff.1 hip
        exact aton_of_parseIPv4 hn
      · cases hip
  have hsuffix : ∀ suffix ∈ localSuffixes, ∀ w ∈ suffix.splitOn (byte '.'),
      isASCII w = true ∧ ¬ ascii "xn--" <+: w := by decide
  have hlocal : localName toLower s = true ↔
      ∃ suffix ∈ localSuffixes, suffix.splitOn (byte '.') <:+ labels t := by
    rw [localName, hsame, List.any_eq_true]
    refine exists_congr fun suffix => and_congr_right fun hmem => ?_
    rw [Bool.or_eq_true, decide_eq_true_iff, List.isSuffixOf_iff_suffix, suffix_splitOn]
    exact suffix_encoded hall (hsuffix suffix hmem)
  rw [Hidden, hlocal, HiddenText, ← or_assoc, or_iff_right_of_imp haddr]
  refine or_congr ?_ Iff.rfl
  constructor
  · rintro ⟨ip, hip, hclass⟩
    obtain ⟨ht, hip⟩ := (inetAton_encoded hall).1 hip
    exact ⟨ht, ip, hip, hclass⟩
  · rintro ⟨ht, ip, hip, hclass⟩
    exact ⟨ip, (inetAton_encoded hall).2 ⟨ht, hip⟩, hclass⟩

/-! ## The check -/

section
variable {toLower : Bytes → Bytes} {idna : Bytes → Option Bytes} {mapped : Bytes → Bytes}
  {policy : Policy} {host : Bytes}

/-- The host is refused as it is written: an address that is not public, or else a local
name. -/
def RefusedAsWritten (toLower : Bytes → Bytes) (host : Bytes) : Prop :=
  (∃ ip, literal host = some ip ∧ classify ip ≠ .isPublic) ∨
    (literal host = none ∧ localName toLower host = true)

theorem checkURL_refuses (hprivate : policy.allowPrivate = false)
    (hnot : policy.allowsHost toLower host = false) :
    (∃ e, policy.checkURL toLower host = some e) ↔ RefusedAsWritten toLower host := by
  rw [Policy.checkURL, hnot, if_neg Bool.false_ne_true, RefusedAsWritten]
  cases hliteral : literal host with
  | none =>
    rw [hprivate]
    cases localName toLower host with
    | false => simp
    | true => simp
  | some ip =>
    dsimp only
    rw [Policy.check, hnot, hprivate]
    by_cases hclass : classify ip = .isPublic
    · simp [hclass]
    · simp [hclass]

/-- A host that is handed on as it is is refused where its name is hidden, unless it is a
local name with a public address in front of a zone. -/
theorem refused_as_handed : (Hidden toLower host → RefusedAsWritten toLower host) ↔
    ¬(localName toLower host = true ∧ ∃ ip, literal host = some ip ∧ classify ip = .isPublic) := by
  constructor
  · rintro h ⟨hlocal, ip, hip, hpublic⟩
    obtain ⟨ip', hip', hclass⟩ | ⟨hnone, -⟩ := h (.inr (.inr hlocal))
    · rw [hip] at hip'
      obtain rfl := Option.some.inj hip'
      exact hclass hpublic
    · rw [hip] at hnone
      cases hnone
  · rintro hzone (⟨ip, hip, hclass⟩ | ⟨ip, hip, hclass⟩ | hlocal)
    · obtain ⟨ip', hip', hsame⟩ := literal_of_parseAddr hip
      exact .inl ⟨ip', hip', hsame ▸ hclass⟩
    · exact .inl ⟨ip, literal_of_inetAton hip, hclass⟩
    · cases hliteral : literal host with
      | none => exact .inr ⟨hliteral, hlocal⟩
      | some ip =>
        refine .inl ⟨ip, hliteral, fun hpublic => hzone ⟨hlocal, ip, hliteral, hpublic⟩⟩

/-- When the check refuses a host whose name is hidden. One that is handed on as it is must
not be a local name with a public address in front of a zone. One that is mapped must be a
local name as it is written, or be mapped to a text for something public. -/
def Judged (toLower : Bytes → Bytes) (idna : Bytes → Option Bytes) (mapped : Bytes → Bytes)
    (host : Bytes) : Prop :=
  if isASCII host ∨ idna host = none then
    ¬(localName toLower host = true ∧ ∃ ip, literal host = some ip ∧ classify ip = .isPublic)
  else localName toLower host = true ∨ ¬ HiddenText (mapped host)

/-- The check refuses what a proxy would take for an address that is not public, or for a
local name, exactly for the hosts that are judged. -/
theorem checkURL_hidden_iff (hidna : Lookup toLower idna mapped)
    (hprivate : policy.allowPrivate = false) (hnot : policy.allowsHost toLower host = false) :
    (Hidden toLower (proxied idna host) → ∃ e, policy.checkURL toLower host = some e) ↔
      Judged toLower idna mapped host := by
  rw [checkURL_refuses hprivate hnot, Judged, proxied]
  by_cases hascii : isASCII host = true
  · rw [if_pos hascii, if_pos (.inl hascii)]
    exact refused_as_handed
  · rw [if_neg hascii]
    have hnon := eq_false_of_ne_true hascii
    cases hname : idna host with
    | none =>
      rw [if_pos (.inr rfl)]
      exact refused_as_handed
    | some name =>
      have hmark := hidna.zone host name hnon hname
      have hliteral : literal host = none := by
        cases hip : literal host with
        | none => rfl
        | some ip => exact absurd (literal_ascii hip hmark) hascii
      have hrefused : RefusedAsWritten toLower host ↔ localName toLower host = true := by
        simp [RefusedAsWritten, hliteral]
      have hhidden := hidden_mapped hidna.lowers (hidna.plain host name hnon hname)
        (hidna.encodes host name hnon hname)
      rw [if_neg (by simp [hascii]), Option.getD_some, hhidden, hrefused, or_comm]
      exact imp_iff_not_or

end

def unopened : Policy := ⟨false, []⟩

/-- `１２７.0.0.1`, in UTF-8. -/
def wideLoopback : Bytes :=
  [0xef, 0xbc, 0x91, 0xef, 0xbc, 0x92, 0xef, 0xbc, 0x97] ++ ascii ".0.0.1"

/-- The mapping of the full-width digits, and of nothing else outside ASCII. -/
def narrowed (host : Bytes) : Option Bytes :=
  if host = wideLoopback then some (ascii "127.0.0.1") else none

theorem narrowed_lookup :
    Lookup (·.map lower) narrowed fun host => (narrowed host).getD host := by
  have hname : ∀ {h n}, narrowed h = some n → h = wideLoopback ∧ n = ascii "127.0.0.1" := by
    intro h n hn
    rw [narrowed] at hn
    split at hn
    · next hh => exact ⟨hh, (Option.some.inj hn).symm⟩
    · cases hn
  refine ⟨fun _ _ => rfl, fun h n _ hn => ?_, fun h n _ hn => ?_, fun h n _ hn => ?_⟩
  · rw [(hname hn).1]
    decide +kernel
  · rw [(hname hn).2]
    decide +kernel
  · rw [hn, Option.getD_some]
    obtain rfl := (hname hn).2
    have hlabels : labels (ascii "127.0.0.1") = ["127", "0", "0", "1"].map ascii := by decide
    rw [hlabels]
    exact .cons rfl (.cons rfl (.cons rfl (.cons rfl .nil)))

/-- An octal form is refused. -/
theorem checkURL_octal : ∃ e, unopened.checkURL (·.map lower) (ascii "0177.0.0.1") = some e := by
  have hnot : unopened.allowsHost (·.map lower) (ascii "0177.0.0.1") = false := by decide
  have hjudged : Judged (·.map lower) narrowed (fun host => (narrowed host).getD host)
      (ascii "0177.0.0.1") := by
    rw [Judged, if_pos (.inl (by decide))]
    exact fun h => absurd h.1 (by decide)
  refine (checkURL_hidden_iff narrowed_lookup rfl hnot).2 hjudged
    (.inr (.inl ⟨.v4 (ipv4 127 0 0 1), ?_, ?_⟩))
  · decide
  · decide

/-- The check takes full-width digits for a name, and a proxy is handed the address. -/
theorem wide_digits_pass : ¬ ∀ (toLower : Bytes → Bytes) (idna : Bytes → Option Bytes)
    (mapped : Bytes → Bytes) (policy : Policy) (host : Bytes), Lookup toLower idna mapped →
      policy.allowPrivate = false → policy.allowsHost toLower host = false →
      Hidden toLower (proxied idna host) → ∃ e, policy.checkURL toLower host = some e := by
  intro h
  have hname : proxied narrowed wideLoopback = ascii "127.0.0.1" := by decide
  have hhidden : Hidden (·.map lower) (proxied narrowed wideLoopback) := by
    rw [hname]
    exact .inl ⟨.v4 (ipv4 127 0 0 1), by decide, by decide⟩
  obtain ⟨e, he⟩ := h (·.map lower) narrowed _ unopened wideLoopback narrowed_lookup rfl
    (by decide) hhidden
  have hpass : (unopened.checkURL (·.map lower) wideLoopback).isNone = true := by decide
  rw [he] at hpass
  cases hpass

end LocalBase.Netguard
