import LocalBase.Conf.Fields
import LocalBase.Jsjson.Compact
import Mathlib.Tactic.NormNum

/-!
# Applying a plan leaves nothing to plan

A document's settings over the saved configuration are then the document's settings,
each of them. Where the texts of two numbers are the same only when the numbers are,
the plan lists a setting exactly when it differs, unless it is a host: bytes that are
not UTF-8 are all written as the same character.
-/

namespace LocalBase.Conf

open JsonText (IsNumber)
open Jsjson (Value stringify number)
open ModelCatalog (maxParseDepth)

/-! ## Settings -/

/-- The same double: zero is one number, whatever its sign. -/
def SameDouble (go : Floats) (a b : go.Double) : Prop :=
  a = b ∨ go.finite a = true ∧ go.finite b = true ∧ go.exact a = go.exact b

namespace Field

/-- Two configurations have the same setting; models are selected in any order. -/
def Same (go : Floats) (c c' : Config go.Double) : Field → Prop
  | gatewayHost => c.gatewayHost = c'.gatewayHost
  | gatewayPort => c.gatewayPort = c'.gatewayPort
  | host => c.host = c'.host
  | port => c.port = c'.port
  | ctxSize => c.ctxSize = c'.ctxSize
  | ctxMode => c.ctxMode = c'.ctxMode
  | parallel => c.parallel = c'.parallel
  | sttHost => c.sttHost = c'.sttHost
  | sttPort => c.sttPort = c'.sttPort
  | allowExperimental => c.allowExperimental = c'.allowExperimental
  | selected k => (c.selected k).Perm (c'.selected k)
  | active k => c.active k = c'.active k
  | defaultLLMs => c.defaultLLMs = c'.defaultLLMs
  | systemPercent => SameDouble go c.systemReserve.percent c'.systemReserve.percent
  | systemMinimum => SameDouble go c.systemReserve.minimumGB c'.systemReserve.minimumGB
  | acceleratorPercent =>
    SameDouble go c.acceleratorReserve.percent c'.acceleratorReserve.percent
  | acceleratorMinimum =>
    SameDouble go c.acceleratorReserve.minimumGB c'.acceleratorReserve.minimumGB

end Field

/-- Hosts are told apart by what is written of them. -/
structure HostsTold {F : Type} (c c' : Config F) : Prop where
  gatewayHost : text c.gatewayHost = text c'.gatewayHost → c.gatewayHost = c'.gatewayHost
  host : text c.host = text c'.host → c.host = c'.host
  sttHost : text c.sttHost = text c'.sttHost → c.sttHost = c'.sttHost

theorem text_inj {a b : Toml.Bytes} (ha : Toml.ValidUtf8 a) (hb : Toml.ValidUtf8 b)
    (h : text a = text b) : a = b := by
  obtain ⟨rs, hrs, rfl⟩ := ha
  obtain ⟨rs', hrs', rfl⟩ := hb
  have hchars := String.ofList_inj.1 h
  rw [Toml.runes_encode hrs, Toml.runes_encode hrs'] at hchars
  have hback : ∀ {l : List Nat}, (∀ r ∈ l, Toml.isRune r) →
      (l.map Char.ofNat).map Char.toNat = l := by
    intro l hl
    rw [List.map_map]
    refine (List.map_congr_left fun r hr => ?_).trans (List.map_id l)
    have hvalid : r.isValidChar := by
      have hrune := hl r hr
      simp only [Toml.isRune, Bool.or_eq_true, Bool.and_eq_true, decide_eq_true_eq] at hrune
      unfold Nat.isValidChar
      omega
    show (Char.ofNat r).toNat = r
    rw [Char.ofNat, dif_pos hvalid]
    rfl
  have hrunes := congrArg (List.map Char.toNat) hchars
  rw [hback hrs, hback hrs'] at hrunes
  rw [hrunes]

/-- Hosts of UTF-8 are told apart. -/
theorem hostsTold_of_utf8 {F : Type} {c c' : Config F}
    (hc : ∀ host ∈ [c.gatewayHost, c.host, c.sttHost], Toml.ValidUtf8 host)
    (hc' : ∀ host ∈ [c'.gatewayHost, c'.host, c'.sttHost], Toml.ValidUtf8 host) :
    HostsTold c c' where
  gatewayHost := text_inj (hc _ (by simp)) (hc' _ (by simp))
  host := text_inj (hc _ (by simp)) (hc' _ (by simp))
  sttHost := text_inj (hc _ (by simp)) (hc' _ (by simp))

/-- The fields that a document does not hold. -/
structure Kept where
  root : String
  hfToken : String
  installMissingModels : Bool
  otelEndpoint : String
  otelHeaders : String
  otelSampleRatio : Int

def kept {F : Type} (c : Config F) : Kept :=
  ⟨c.root, c.hfToken, c.installMissingModels, c.otelEndpoint, c.otelHeaders, c.otelSampleRatio⟩

/-- A configuration as it is saved: the slots are `auto` or up to four, and a list of
chat models has two at least. -/
structure Saved {F : Type} (c : Config F) : Prop where
  parallel : c.parallel ∈ ["auto", "1", "2", "3", "4"]
  defaultLLMs : c.defaultLLMs = [] ∨ 2 ≤ c.defaultLLMs.length

/-- A configuration as `ParseDocument` returns it, which refuses a number that is out of
its range or not finite. -/
structure Declared (go : Floats) (d : Config go.Double) : Prop extends Saved d where
  gatewayPort : 1 ≤ d.gatewayPort ∧ d.gatewayPort ≤ 65535
  port : 1 ≤ d.port ∧ d.port ≤ 65535
  sttPort : 1 ≤ d.sttPort ∧ d.sttPort ≤ 65535
  ctxSize : 2048 ≤ d.ctxSize ∧ d.ctxSize ≤ 2147483647
  systemReserve : go.finite d.systemReserve.percent = true ∧
    go.finite d.systemReserve.minimumGB = true
  acceleratorReserve : go.finite d.acceleratorReserve.percent = true ∧
    go.finite d.acceleratorReserve.minimumGB = true

/-- `Number` writes it with an exponent. -/
def Exponential (go : Floats) (a : go.Double) : Prop :=
  go.exact (go.parseFloat "1e21".toList) ≤ |go.exact a| ∨
    |go.exact a| < go.exact (go.parseFloat "1e-6".toList)

/-- What is promised of doubles: an integer converts exactly up to 2^53 and beyond it to
no less, the fewest digits that are enough read back as the double, and so they do
without the zeros that an exponent begins with. -/
structure Lawful (go : Floats) : Prop where
  ofInt : ∀ n : Int, -9007199254740992 ≤ n → n ≤ 9007199254740992 →
    go.finite (go.ofInt n) = true ∧ go.exact (go.ofInt n) = n
  ofInt_large : ∀ n : Int, n < -9007199254740992 ∨ 9007199254740992 < n →
    9007199254740992 ≤ |go.exact (go.ofInt n)|
  exact_inj : ∀ a b, go.finite a = true → go.finite b = true → go.exact a ≠ 0 →
    go.exact a = go.exact b → a = b
  zero : go.exact (go.parseFloat ['0']) = 0
  formatF : ∀ a, go.finite a = true →
    IsNumber (go.formatF a) ∧ go.parseFloat (go.formatF a) = a
  formatE : ∀ a, go.finite a = true → Exponential go a → ∃ mant sign exp,
    go.formatE a = mant ++ 'e' :: sign :: exp ∧ 'e' ∉ mant ∧
      IsNumber (mant ++ 'e' :: sign :: exp.dropWhile (· = '0')) ∧
      go.parseFloat (mant ++ 'e' :: sign :: exp.dropWhile (· = '0')) = a

section
variable {go : Floats} (hgo : Lawful go)

/-! ## Texts -/

theorem shortExponent_eq {mant exp : List Char} {sign : Char} (h : 'e' ∉ mant) :
    Jsjson.shortExponent (mant ++ 'e' :: sign :: exp) =
      mant ++ 'e' :: sign :: exp.dropWhile (· = '0') := by
  have hmant : ∀ c ∈ mant, decide (c ≠ 'e') = true := fun c hc =>
    decide_eq_true fun he => h (he ▸ hc)
  simp only [Jsjson.shortExponent, List.takeWhile_append_of_pos hmant,
    List.dropWhile_append_of_pos hmant]
  simp

include hgo

theorem number_finite {a : go.Double} (ha : go.finite a = true) (hne : go.exact a ≠ 0) :
    IsNumber (number go.toDoubles a) ∧ go.parseFloat (number go.toDoubles a) = a := by
  unfold number
  rw [if_neg (by simp [ha]), if_neg hne]
  split
  · next hexp =>
    obtain ⟨mant, sign, exp, hform, hmant, hnumber⟩ := hgo.formatE a ha hexp
    rw [hform, shortExponent_eq hmant]
    exact hnumber
  · exact hgo.formatF a ha

omit hgo in
theorem number_zero {a : go.Double} (ha : go.finite a = true) (hzero : go.exact a = 0) :
    number go.toDoubles a = ['0'] := by
  rw [number, if_neg (by simp [ha]), if_pos hzero]

theorem number_isNumber {a : go.Double} (ha : go.finite a = true) :
    IsNumber (number go.toDoubles a) := by
  by_cases hzero : go.exact a = 0
  · rw [number_zero ha hzero]
    exact .parts (s := []) (d := ['0']) (f := []) (e := []) (.inl rfl) .zero .none .none
  · exact (number_finite hgo ha hzero).1

theorem number_inj {a b : go.Double} (hb : go.finite b = true) :
    number go.toDoubles a = number go.toDoubles b ↔ SameDouble go a b := by
  constructor
  · intro h
    by_cases ha : go.finite a = true
    · by_cases hza : go.exact a = 0
      · by_cases hzb : go.exact b = 0
        · exact .inr ⟨ha, hb, hza.trans hzb.symm⟩
        · have hparse := (number_finite hgo hb hzb).2
          rw [← h, number_zero ha hza] at hparse
          exact absurd (hparse ▸ hgo.zero) hzb
      · by_cases hzb : go.exact b = 0
        · have hparse := (number_finite hgo ha hza).2
          rw [h, number_zero hb hzb] at hparse
          exact absurd (hparse ▸ hgo.zero) hza
        · exact .inl ((number_finite hgo ha hza).2.symm.trans
            ((congrArg go.parseFloat h).trans (number_finite hgo hb hzb).2))
    · have hnull : number go.toDoubles a = "null".toList := if_pos ha
      obtain ⟨c, cs, hcs, hc⟩ := (number_isNumber hgo hb).head
      rw [← h, hnull] at hcs
      cases hcs
      rcases hc with hc | hc <;> cases hc
  · rintro (rfl | ⟨ha, hb, h⟩)
    · rfl
    · by_cases hza : go.exact a = 0
      · rw [number_zero ha hza, number_zero hb (h ▸ hza)]
      · rw [hgo.exact_inj a b ha hb hza h]

/-! ## What is written is told apart -/

omit hgo in
theorem stringify_inj {v w : Value go.Double} (hv : Jsjson.Stands go.toDoubles maxParseDepth v)
    (hw : Jsjson.Stands go.toDoubles maxParseDepth w)
    (h : stringify go.toDoubles v = stringify go.toDoubles w) : Jsjson.seen v = Jsjson.seen w := by
  have hparse := hv.parse_stringify
  rw [h, hw.parse_stringify] at hparse
  exact (Option.some.inj hparse).symm

omit hgo in
theorem str_inj {a b : String} :
    stringify go.toDoubles (.str a) = stringify go.toDoubles (.str b) ↔ a = b := by
  constructor
  · intro h
    have hseen := stringify_inj (v := .str a) (w := .str b) .str .str h
    cases hseen
    rfl
  · rintro rfl
    rfl

omit hgo in
theorem strs_inj {a b : List String} :
    stringify go.toDoubles (strs go a) = stringify go.toDoubles (strs go b) ↔ a = b := by
  have hstands : ∀ ids, Jsjson.Stands go.toDoubles (999 + 1) (strs go ids) := fun ids =>
    .arr fun x hx => by
      obtain ⟨id, _, rfl⟩ := List.mem_map.1 hx
      exact .str
  have hseen : ∀ ids, Jsjson.seen (strs go ids) = strs go ids := fun ids => by
    rw [strs, Jsjson.seen, Jsjson.seenItems_eq, List.map_map]
    rfl
  constructor
  · intro h
    have he := stringify_inj (hstands a) (hstands b) h
    rw [hseen, hseen] at he
    have hlists : a.map Value.str = b.map Value.str := Value.arr.inj he
    exact List.map_injective_iff.2 (fun _ _ => Value.str.inj) hlists
  · rintro rfl
    rfl

omit hgo in
theorem bool_inj {a b : Bool} :
    stringify go.toDoubles (.bool a) = stringify go.toDoubles (.bool b) ↔ a = b := by
  have hne : stringify go.toDoubles (.bool true) ≠ stringify go.toDoubles (.bool false) := by
    show "true".toList ≠ "false".toList
    decide
  cases a <;> cases b
  · exact iff_of_true rfl rfl
  · exact iff_of_false hne.symm (by decide)
  · exact iff_of_false hne (by decide)
  · exact iff_of_true rfl rfl

theorem int_inj {m n : Int} (hn : 1 ≤ n ∧ n ≤ 2147483647) :
    stringify go.toDoubles (int go m) = stringify go.toDoubles (int go n) ↔ m = n := by
  obtain ⟨hfinite, hexact⟩ := hgo.ofInt n (by omega) (by omega)
  refine (number_inj hgo hfinite).trans ⟨fun h => ?_, ?_⟩
  · have hsame : go.exact (go.ofInt m) = n := by
      rcases h with h | ⟨_, _, h⟩
      · rw [h, hexact]
      · rw [h, hexact]
    by_cases hm : m < -9007199254740992 ∨ 9007199254740992 < m
    · have hlarge := hgo.ofInt_large m hm
      have hsmall : |(n : ℚ)| ≤ 2147483647 := by
        rw [abs_of_nonneg (by exact_mod_cast (by omega : 0 ≤ n))]
        exact_mod_cast hn.2
      rw [hsame] at hlarge
      exact absurd (hlarge.trans hsmall) (by norm_num)
    · rw [(hgo.ofInt m (by omega) (by omega)).2] at hsame
      exact_mod_cast hsame
  · rintro rfl
    exact .inl rfl

theorem str_ne_int (a : String) {n : Int} (hn : 1 ≤ n ∧ n ≤ 2147483647) :
    stringify go.toDoubles (.str a) ≠ stringify go.toDoubles (int go n) := by
  intro h
  obtain ⟨hfinite, _⟩ := hgo.ofInt n (by omega) (by omega)
  obtain ⟨c, cs, hcs, hc⟩ := (number_isNumber hgo hfinite).head
  have hquote : '"' :: _ = number go.toDoubles (go.ofInt n) := h
  rw [hcs] at hquote
  cases hquote
  rcases hc with hc | hc <;> cases hc

theorem parallel_inj {p q : String} (hp : p ∈ ["auto", "1", "2", "3", "4"])
    (hq : q ∈ ["auto", "1", "2", "3", "4"]) :
    stringify go.toDoubles (parallelValue go p) = stringify go.toDoubles (parallelValue go q) ↔
      p = q := by
  have hform : ∀ p ∈ ["auto", "1", "2", "3", "4"], p = "auto" ∧ parallelValue go p = .str "auto" ∨
      ∃ n : Int, (p, n) ∈ [("1", (1 : Int)), ("2", 2), ("3", 3), ("4", 4)] ∧
        parallelValue go p = int go n := by
    intro p hp
    simp only [List.mem_cons, List.not_mem_nil, or_false] at hp
    rcases hp with rfl | rfl | rfl | rfl | rfl
    · exact .inl ⟨rfl, rfl⟩
    · exact .inr ⟨1, by decide, rfl⟩
    · exact .inr ⟨2, by decide, rfl⟩
    · exact .inr ⟨3, by decide, rfl⟩
    · exact .inr ⟨4, by decide, rfl⟩
  have hrange : ∀ {p : String} {n : Int},
      (p, n) ∈ [("1", (1 : Int)), ("2", 2), ("3", 3), ("4", 4)] → 1 ≤ n ∧ n ≤ 2147483647 := by
    intro p n h
    simp only [List.mem_cons, Prod.mk.injEq, List.not_mem_nil, or_false] at h
    omega
  have hname : ∀ {p q : String} {n : Int},
      (p, n) ∈ [("1", (1 : Int)), ("2", 2), ("3", 3), ("4", 4)] →
      (q, n) ∈ [("1", (1 : Int)), ("2", 2), ("3", 3), ("4", 4)] → p = q := by
    intro p q n hp hq
    simp only [List.mem_cons, Prod.mk.injEq, List.not_mem_nil, or_false] at hp hq
    rcases hp with ⟨rfl, rfl⟩ | ⟨rfl, rfl⟩ | ⟨rfl, rfl⟩ | ⟨rfl, rfl⟩ <;>
      simpa [eq_comm] using hq
  constructor
  · intro h
    obtain ⟨hpa, hvp⟩ | ⟨m, hm, hvp⟩ := hform p hp <;>
      obtain ⟨hqa, hvq⟩ | ⟨n, hn, hvq⟩ := hform q hq <;> rw [hvp, hvq] at h
    · exact hpa.trans hqa.symm
    · exact absurd h (str_ne_int hgo _ (hrange hn))
    · exact absurd h.symm (str_ne_int hgo _ (hrange hm))
    · obtain rfl := (int_inj hgo (hrange hn)).1 h
      exact hname hm hn
  · rintro rfl
    rfl

omit hgo in
theorem sort_inj {a b : List String} :
    a.insertionSort (· ≤ ·) = b.insertionSort (· ≤ ·) ↔ a.Perm b := by
  constructor
  · intro h
    exact (List.perm_insertionSort _ a).symm.trans (h ▸ List.perm_insertionSort _ b)
  · intro h
    exact List.Perm.eq_of_pairwise' (List.pairwise_insertionSort _ a)
      (List.pairwise_insertionSort _ b)
      ((List.perm_insertionSort _ a).trans (h.trans (List.perm_insertionSort _ b).symm))

variable {cur d : Config go.Double}

omit hgo in
theorem defaults_inj (hcur : cur.defaultLLMs = [] ∨ 2 ≤ cur.defaultLLMs.length)
    (hd : d.defaultLLMs = [] ∨ 2 ≤ d.defaultLLMs.length) :
    ¬ Field.defaultLLMs.Differs go cur d ↔ cur.defaultLLMs = d.defaultLLMs := by
  have hshort : ∀ {c : Config go.Double}, c.defaultLLMs = [] → ¬ 2 ≤ c.defaultLLMs.length :=
    fun h => by simp [h]
  rcases hcur with hcur | hcur <;> rcases hd with hd | hd
  · have hvalues : Field.defaultLLMs.value go cur = Field.defaultLLMs.value go d :=
      (if_neg (hshort hcur)).trans (if_neg (hshort hd)).symm
    exact iff_of_true (fun h => h (congrArg _ hvalues)) (hcur.trans hd.symm)
  · refine iff_of_false (not_not.2 (defaults_differ hd (hshort hcur)).symm) fun h => ?_
    exact hshort hcur (h ▸ hd)
  · refine iff_of_false (not_not.2 (defaults_differ hcur (hshort hd))) fun h => ?_
    exact hshort hd (h ▸ hcur)
  · have hvc : Field.defaultLLMs.value go cur = strs go cur.defaultLLMs := if_pos hcur
    have hvd : Field.defaultLLMs.value go d = strs go d.defaultLLMs := if_pos hd
    rw [Field.Differs, hvc, hvd, not_not]
    exact strs_inj

theorem differs_iff (hcur : Saved cur) (hd : Declared go d) (htold : HostsTold cur d)
    (f : Field) : ¬ f.Differs go cur d ↔ f.Same go cur d := by
  have hwide : ∀ {n : Int}, 1 ≤ n ∧ n ≤ 65535 → 1 ≤ n ∧ n ≤ 2147483647 := fun h => by omega
  have hsize : ∀ {n : Int}, 2048 ≤ n ∧ n ≤ 2147483647 → 1 ≤ n ∧ n ≤ 2147483647 :=
    fun h => by omega
  cases f with
  | gatewayHost => exact not_not.trans (str_inj.trans ⟨htold.gatewayHost, congrArg text⟩)
  | host => exact not_not.trans (str_inj.trans ⟨htold.host, congrArg text⟩)
  | sttHost => exact not_not.trans (str_inj.trans ⟨htold.sttHost, congrArg text⟩)
  | ctxMode | active => exact not_not.trans str_inj
  | gatewayPort =>
    exact not_not.trans (int_inj hgo (hwide hd.gatewayPort))
  | port => exact not_not.trans (int_inj hgo (hwide hd.port))
  | sttPort => exact not_not.trans (int_inj hgo (hwide hd.sttPort))
  | ctxSize => exact not_not.trans (int_inj hgo (hsize hd.ctxSize))
  | parallel => exact not_not.trans (parallel_inj hgo hcur.parallel hd.parallel)
  | allowExperimental => exact not_not.trans bool_inj
  | selected k => exact not_not.trans (strs_inj.trans sort_inj)
  | defaultLLMs => exact defaults_inj hcur.defaultLLMs hd.defaultLLMs
  | systemPercent => exact not_not.trans (number_inj hgo hd.systemReserve.1)
  | systemMinimum => exact not_not.trans (number_inj hgo hd.systemReserve.2)
  | acceleratorPercent => exact not_not.trans (number_inj hgo hd.acceleratorReserve.1)
  | acceleratorMinimum => exact not_not.trans (number_inj hgo hd.acceleratorReserve.2)

/-! ## Plans -/

omit hgo in
theorem Field.mem_all (f : Field) : f ∈ Field.all := by
  cases f with
  | selected k | active k => cases k <;> decide
  | _ => decide

omit hgo in
theorem nodup_paths : (Field.all.map Field.path).Nodup := by decide

omit hgo in
theorem path_inj {f f' : Field} (h : f.path = f'.path) : f = f' :=
  List.inj_on_of_nodup_map nodup_paths f.mem_all f'.mem_all h

omit hgo in
theorem planChanges_eq {h : Host} {pending : Bool} {plan : Plan go.Double}
    (hp : planChanges go h (some cur) d pending = .ok plan) :
    plan.changes.Perm (differing go cur d Field.all) ∧
      (plan.changed = false ↔ plan.changes = []) := by
  unfold planChanges at hp
  split at hp
  · cases hp
  · obtain rfl := Except.ok.inj hp
    simp only [changes_eq]
    refine ⟨List.perm_insertionSort _ _, ?_⟩
    rw [Bool.not_eq_false', List.isEmpty_iff]

omit hgo in
/-- A setting whose texts differ is listed once, and no other is. -/
theorem planChanges_listed {h : Host} {pending : Bool} {plan : Plan go.Double}
    (hp : planChanges go h (some cur) d pending = .ok plan) :
    (plan.changes.map (·.path)).Nodup ∧
      ∀ f : Field, f.path ∈ plan.changes.map (·.path) ↔ f.Differs go cur d := by
  have hpaths : (plan.changes.map (·.path)).Perm
      ((Field.all.filter fun f => f.Differs go cur d).map Field.path) := by
    refine ((planChanges_eq hp).1.map _).trans ?_
    rw [differing, List.map_map]
    rfl
  refine ⟨hpaths.nodup_iff.2 (nodup_paths.sublist (List.filter_sublist.map _)), fun f => ?_⟩
  rw [hpaths.mem_iff, List.mem_map]
  constructor
  · rintro ⟨f', hf', hpath⟩
    rw [← path_inj hpath]
    exact of_decide_eq_true (List.mem_filter.1 hf').2
  · intro hf
    exact ⟨f, List.mem_filter.2 ⟨f.mem_all, decide_eq_true hf⟩, rfl⟩

omit hgo in
theorem planChanges_ok {h : Host} {pending : Bool} {cur : Option (Config go.Double)}
    (hnone : refusal go h cur d = none) : ∃ plan, planChanges go h cur d pending = .ok plan := by
  unfold planChanges
  rw [hnone]
  exact ⟨_, rfl⟩

omit hgo in
theorem value_compose (c d : Config go.Double) (f : Field) :
    f.value go (compose c d) = f.value go d := by
  cases f with
  | _ => rfl

omit hgo in
theorem refusal_compose (h : Host) (c d : Config go.Double) :
    refusal go h (some (compose c d)) d = none := by
  unfold refusal
  refine List.findSome?_eq_none_iff.2 fun id hid => ?_
  exact if_pos (List.contains_iff_mem.2 hid)

end

/-- The plan is unchanged when no setting differs, and lists each one that does, once,
and no other. -/
def Plan.Lists {go : Floats} (plan : Plan go.Double) (cur d : Config go.Double) : Prop :=
  (plan.changed = false ↔ ∀ f : Field, f.Same go cur d) ∧
    (plan.changes.map (·.path)).Nodup ∧
    ∀ p, p ∈ plan.changes.map (·.path) ↔ ∃ f : Field, f.path = p ∧ ¬ f.Same go cur d

section
variable {go : Floats} {h : Host} {cur d : Config go.Double} {pending : Bool}
  {plan : Plan go.Double}

theorem lists_of_told (hgo : Lawful go) (hcur : Saved cur) (hd : Declared go d)
    (htold : HostsTold cur d) (hp : planChanges go h (some cur) d pending = .ok plan) :
    plan.Lists cur d := by
  obtain ⟨hperm, hchanged⟩ := planChanges_eq hp
  obtain ⟨hnodup, hmem⟩ := planChanges_listed hp
  have hdiffers : ∀ f : Field, f.Differs go cur d ↔ ¬ f.Same go cur d := fun f => by
    rw [← differs_iff hgo hcur hd htold, not_not]
  have hfield : ∀ c ∈ plan.changes, ∃ f : Field, c.path = f.path ∧ f.Differs go cur d := by
    intro c hc
    obtain ⟨f, hf, rfl⟩ := List.mem_map.1 (hperm.mem_iff.1 hc)
    exact ⟨f, rfl, of_decide_eq_true (List.mem_filter.1 hf).2⟩
  refine ⟨hchanged.trans ⟨fun hnil f => ?_, fun hall => ?_⟩, hnodup, fun p => ⟨fun hpath => ?_, ?_⟩⟩
  · by_contra hf
    have hlisted := (hmem f).2 ((hdiffers f).2 hf)
    rw [hnil] at hlisted
    cases hlisted
  · refine List.eq_nil_iff_forall_not_mem.2 fun c hc => ?_
    obtain ⟨f, _, hf⟩ := hfield c hc
    exact (hdiffers f).1 hf (hall f)
  · obtain ⟨c, hc, rfl⟩ := List.mem_map.1 hpath
    obtain ⟨f, hf, hdiff⟩ := hfield c hc
    exact ⟨f, hf.symm, (hdiffers f).1 hdiff⟩
  · rintro ⟨f, rfl, hf⟩
    exact (hmem f).2 ((hdiffers f).2 hf)

theorem told_of_lists (hp : planChanges go h (some cur) d pending = .ok plan)
    (hlists : plan.Lists cur d) : HostsTold cur d := by
  have hsame : ∀ f : Field, ¬ f.Differs go cur d → f.Same go cur d := by
    intro f hf
    by_contra hne
    exact hf (((planChanges_listed hp).2 f).1 ((hlists.2.2 f.path).2 ⟨f, rfl, hne⟩))
  exact ⟨fun he => hsame .gatewayHost (not_not.2 (str_inj.2 he)),
    fun he => hsame .host (not_not.2 (str_inj.2 he)),
    fun he => hsame .sttHost (not_not.2 (str_inj.2 he))⟩

end

/-- Applying a plan leaves nothing to plan, whatever was saved, and what no document
holds is left as it was. The plan for a saved configuration and a document is unchanged
when no setting differs and lists those that do, if and only if the hosts are told apart
by what is written of them. -/
theorem plan_of_compose {go : Floats} (hgo : Lawful go) (h : Host) :
    (∀ cur d pending, ∃ plan, planChanges go h (some (compose cur d)) d pending = .ok plan ∧
      plan.changed = false) ∧
    (∀ cur d pending plan, Saved cur → Declared go d →
      planChanges go h (some cur) d pending = .ok plan →
      (plan.Lists cur d ↔ HostsTold cur d)) ∧
    ∀ cur d : Config go.Double, kept (compose cur d) = kept cur := by
  refine ⟨fun cur d pending => ?_, fun cur d pending plan hcur hd hp =>
    ⟨told_of_lists hp, fun htold => lists_of_told hgo hcur hd htold hp⟩, fun _ _ => rfl⟩
  have hsame : differing go (compose cur d) d Field.all = [] := by
    rw [differing, List.filter_eq_nil_iff.2, List.map_nil]
    intro f _
    simp [Field.Differs, value_compose]
  refine ⟨_, by rw [planChanges, refusal_compose], ?_⟩
  simp [changes_eq, hsame]

/-! ## Whole numbers -/

/-- Whole numbers up to 2^53, as doubles have them. -/
def wholes : Floats where
  Double := Int
  parseFloat cs :=
    if cs = ['1', 'e', '-', '6'] then 0
    else if 'e' ∈ cs then 1000000000000000000000
    else if cs.head? = some '-' then -(Nat.ofDigitChars 10 cs.tail 0 : Int)
    else Nat.ofDigitChars 10 cs 0
  finite n := n.natAbs ≤ 9007199254740992
  exact n := n
  formatE n := (if n < 0 then ['-'] else []) ++ Nat.toDigits 10 n.natAbs ++ "e+00".toList
  formatF n := (if n < 0 then ['-'] else []) ++ Nat.toDigits 10 n.natAbs
  ofInt n := n

theorem whole_toDigits (n : Nat) : JsonText.Whole (Nat.toDigits 10 n) := by
  have hdigits : ∀ c ∈ Nat.toDigits 10 n, c.isDigit = true := fun c hc =>
    Nat.isDigit_of_mem_toDigits (by decide) (by decide) hc
  by_cases hn : n = 0
  · subst hn
    exact .zero
  · have hhead := Jsjson.head_toDigits (Nat.pos_of_ne_zero hn)
    cases hds : Nat.toDigits 10 n with
    | nil => exact absurd hds Nat.toDigits_ne_nil
    | cons c ds =>
      rw [hds] at hhead hdigits
      exact .digits (fun hc => hhead (congrArg some hc)) ⟨List.cons_ne_nil _ _, hdigits⟩

theorem wholes_isNumber (a : Int) : IsNumber (wholes.formatF a) := by
  have hsign : (if a < 0 then ['-'] else []) = [] ∨ (if a < 0 then ['-'] else []) = ['-'] := by
    split
    · exact .inr rfl
    · exact .inl rfl
  have hparts := IsNumber.parts hsign (whole_toDigits a.natAbs) .none .none
  rw [List.append_nil, List.append_nil] at hparts
  exact hparts

theorem wholes_reads (a : Int) : wholes.parseFloat (wholes.formatF a) = a := by
  have hdigits : ∀ c ∈ Nat.toDigits 10 a.natAbs, c.isDigit = true := fun c hc =>
    Nat.isDigit_of_mem_toDigits (by decide) (by decide) hc
  have hsign : ∀ c ∈ (if a < 0 then ['-'] else [] : List Char), c = '-' := by
    split
    · simp
    · simp
  have he : 'e' ∉ wholes.formatF a := fun hmem => by
    rcases List.mem_append.1 hmem with hc | hc
    · cases hsign _ hc
    · cases hdigits _ hc
  have hother : wholes.formatF a ≠ ['1', 'e', '-', '6'] := fun h => he (by rw [h]; decide)
  show (if wholes.formatF a = ['1', 'e', '-', '6'] then (0 : Int)
    else if 'e' ∈ wholes.formatF a then 1000000000000000000000
    else if (wholes.formatF a).head? = some '-' then
      -(Nat.ofDigitChars 10 (wholes.formatF a).tail 0 : Int)
    else Nat.ofDigitChars 10 (wholes.formatF a) 0) = a
  rw [if_neg hother, if_neg he]
  by_cases ha : a < 0
  · have hform : wholes.formatF a = '-' :: Nat.toDigits 10 a.natAbs := by
      show (if a < 0 then ['-'] else []) ++ _ = _
      rw [if_pos ha]
      rfl
    rw [hform, List.head?_cons, if_pos rfl, List.tail_cons, Nat.ofDigitChars_ten_toDigits]
    omega
  · have hform : wholes.formatF a = Nat.toDigits 10 a.natAbs := by
      show (if a < 0 then ['-'] else []) ++ _ = _
      rw [if_neg ha]
      rfl
    have hhead : (Nat.toDigits 10 a.natAbs).head? ≠ some '-' := fun h => by
      cases hdigits _ (List.mem_of_mem_head? h)
    rw [hform, if_neg hhead, Nat.ofDigitChars_ten_toDigits]
    omega

theorem wholes_plain {a : Int} (ha : a.natAbs ≤ 9007199254740992) : ¬ Exponential wholes a := by
  have habs : |(a : ℚ)| ≤ 9007199254740992 := by
    rw [← Int.cast_abs, Int.abs_eq_natAbs]
    exact_mod_cast ha
  rintro (hlarge | hlittle)
  · have hlimit : (1000000000000000000000 : ℚ) ≤ |(a : ℚ)| := hlarge
    exact absurd (hlimit.trans habs) (by norm_num)
  · have hzero : |(a : ℚ)| < 0 := hlittle
    exact absurd hzero (not_lt.2 (abs_nonneg _))

theorem wholes_lawful : Lawful wholes where
  ofInt n h h' := ⟨decide_eq_true (by show n.natAbs ≤ _; omega), rfl⟩
  ofInt_large n h := by
    show (9007199254740992 : ℚ) ≤ |(n : ℚ)|
    refine le_abs.2 (h.symm.imp (fun h => ?_) fun h => ?_)
    · exact_mod_cast h.le
    · have hneg : (9007199254740992 : Int) ≤ -n := by omega
      exact_mod_cast hneg
  exact_inj a b _ _ _ h := @Int.cast_injective ℚ _ _ a b h
  zero := rfl
  formatF a _ := ⟨wholes_isNumber a, wholes_reads a⟩
  formatE a ha hexp := absurd hexp (wholes_plain (of_decide_eq_true ha))

def bareHost : Host := ⟨"", fun _ => none⟩

def saved : Config wholes.Double where
  root := "/srv"
  gatewayHost := Toml.ascii "127.0.0.1"
  gatewayPort := 2273
  host := Toml.ascii "127.0.0.1"
  port := 18000
  ctxSize := 131072
  ctxMode := "auto"
  sttHost := Toml.ascii "127.0.0.1"
  sttPort := 18080
  selected k := if k = .llm then ["small", "large"] else []
  active k := if k = .llm then "small" else ""
  allowExperimental := false
  hfToken := "secret"
  installMissingModels := false
  parallel := "auto"
  otelEndpoint := ""
  otelHeaders := ""
  otelSampleRatio := 100
  systemReserve := ⟨(15 : Int), (8 : Int)⟩
  acceleratorReserve := ⟨(10 : Int), (2 : Int)⟩
  defaultLLMs := []

theorem saved_declared : Declared wholes saved where
  parallel := by decide
  defaultLLMs := .inl rfl
  gatewayPort := by decide
  port := by decide
  sttPort := by decide
  ctxSize := by decide
  systemReserve := ⟨by decide, by decide⟩
  acceleratorReserve := ⟨by decide, by decide⟩

def wanted : Config wholes.Double :=
  { saved with gatewayPort := 9000, parallel := "2", defaultLLMs := ["large", "small"] }

/-- A changed port is planned, and is not once it is applied. -/
theorem port_planned :
    (∃ plan, planChanges wholes bareHost (some (compose saved wanted)) wanted false = .ok plan ∧
      plan.changed = false) ∧
    ∃ plan, planChanges wholes bareHost (some saved) wanted false = .ok plan ∧
      "gateway.port" ∈ plan.changes.map (·.path) ∧ (compose saved wanted).hfToken = "secret" := by
  have h := plan_of_compose wholes_lawful bareHost
  have hplan : ∃ plan, planChanges wholes bareHost (some saved) wanted false = .ok plan :=
    planChanges_ok rfl
  obtain ⟨plan, hplan⟩ := hplan
  have hwanted : Declared wholes wanted :=
    { saved_declared with
      parallel := by decide
      defaultLLMs := .inr (by decide)
      gatewayPort := by decide }
  obtain ⟨_, _, hlisted⟩ := (h.2.1 saved wanted false plan saved_declared.toSaved hwanted hplan).2
    ⟨fun _ => rfl, fun _ => rfl, fun _ => rfl⟩
  have hport : ¬ Field.gatewayPort.Same wholes saved wanted := by
    show ¬ (2273 : Int) = 9000
    decide
  have hkept := congrArg Kept.hfToken (h.2.2 saved wanted)
  exact ⟨h.1 saved wanted false, plan, hplan, (hlisted _).2 ⟨.gatewayPort, by decide, hport⟩, hkept⟩

def withHost (host : Toml.Bytes) : Config wholes.Double := { saved with host := host }

theorem text_replaced {b : UInt8} (h : Toml.decodeRune [b] = (0xFFFD, 1)) :
    text [97, b] = "a\uFFFD" := by
  have hrunes : Toml.runes [97, b] = [97, 0xFFFD] := by
    have hfirst : Toml.decodeRune [97, b] = (97, 1) := rfl
    rw [Toml.runes, hfirst]
    show 97 :: Toml.runes [b] = _
    rw [Toml.runes, h]
    show [97, 0xFFFD] ++ Toml.runes [] = _
    rw [Toml.runes]
    rfl
  rw [text, hrunes]
  decide

/-- A letter and a byte that is not UTF-8, in a saved host and in a document's. -/
theorem bytes_not_planned :
    ¬ ∀ (cur d : Config wholes.Double) (pending : Bool) (plan : Plan wholes.Double),
      Saved cur → Declared wholes d →
      planChanges wholes bareHost (some cur) d pending = .ok plan →
      (plan.changed = false ↔ ∀ f : Field, f.Same wholes cur d) := by
  intro h
  have hplan : ∃ plan, planChanges wholes bareHost (some (withHost [97, 0xfe]))
      (withHost [97, 0xff]) false = .ok plan := planChanges_ok rfl
  obtain ⟨plan, hplan⟩ := hplan
  have hnone : plan.changed = false := by
    refine (planChanges_eq hplan).2.2 (List.eq_nil_iff_forall_not_mem.2 fun c hc => ?_)
    obtain ⟨f, hf, -⟩ := List.mem_map.1 ((planChanges_eq hplan).1.mem_iff.1 hc)
    have hdiffers := of_decide_eq_true (List.mem_filter.1 hf).2
    cases f with
    | host =>
      have htext : text [97, 0xfe] = text [97, 0xff] :=
        (text_replaced rfl).trans (text_replaced rfl).symm
      exact hdiffers (str_inj.2 htext)
    | _ => exact hdiffers rfl
  have hsaved : Declared wholes (withHost [97, 0xfe]) := { saved_declared with }
  have hdeclared : Declared wholes (withHost [97, 0xff]) := { saved_declared with }
  have hsame : ([97, 0xfe] : List UInt8) = [97, 0xff] :=
    (h _ _ false plan hsaved.toSaved hdeclared hplan).1 hnone .host
  exact absurd hsame (by decide)

end LocalBase.Conf
