import LocalBase.Acquire.Profiles
import LocalBase.Lib.SplitOn

/-!
# Credentials and redirects

A download's client adds credentials to each request by that request's own
origin, and takes off what a redirect may have carried along. An origin is
compared with its host in lower case. Go's lower case is Unicode's, and it takes
two letters that are not ASCII to letters that are, so a host that is nobody's
can be made to look like one of Hugging Face's.

A value of a header says here where it is from, so that what a request carries
does not depend on two secrets being told apart.
-/

namespace LocalBase.Credentials

/-! ## The client -/

inductive Source where
  | caller
  | profile
  | token
deriving DecidableEq

structure Value where
  text : Text
  source : Source
deriving DecidableEq

/-- The values of each header, by its canonical name. -/
abbrev Header : Type := Text → List Value

def Header.del (h : Header) (name : Text) : Header := Function.update h (canonicalKey name) []

def Header.set (h : Header) (name : Text) (v : Value) : Header :=
  Function.update h (canonicalKey name) [v]

structure Url where
  secure : Bool
  host : Text
deriving DecidableEq

def Url.scheme (u : Url) : Text := if u.secure then text "https" else text "http"

def Go.urlOrigin (go : Go) (u : Url) : Text := u.scheme ++ text "://" ++ go.toLower u.host

def Profile.allows (p : Profile) (origin : Text) : Bool := origin ∈ p.origins

/-- `strings.EqualFold`, of header names. -/
def equalFold (a b : Text) : Bool := a.map asciiLower = b.map asciiLower

def Profile.sets (p : Profile) (name : Text) : Bool :=
  p.headers.any fun e => e.2 ≠ [] && equalFold e.1 name

/-- The headers that are not the downloader's own. -/
def Profile.settable (p : Profile) : List (Text × Text) :=
  p.headers.filter fun e => canonicalKey e.1 ∉ reserved

/-- `scopedTransport`. -/
structure Transport where
  profile : Option Profile
  hfToken : Text
  hfOrigs : List Text

def authorization : Text := text "Authorization"

def Transport.sendsToken (t : Transport) (origin : Text) : Bool :=
  t.hfToken ≠ [] && decide (origin ∈ t.hfOrigs) &&
    t.profile.all fun p => !p.sets authorization

def delAll (headers : List (Text × Text)) (h : Header) : Header :=
  headers.foldl (fun h e => h.del e.1) h

def setAll (headers : List (Text × Text)) (h : Header) : Header :=
  headers.foldl (fun h e => h.set e.1 ⟨e.2, .profile⟩) h

/-- A profile's headers taken off, and put on where it may be sent. -/
def Profile.apply (p : Profile) (origin : Text) (h : Header) : Header :=
  if p.allows origin then setAll p.settable (delAll p.settable h) else delAll p.settable h

/-- The headers a request is sent with. -/
def Transport.roundTrip (t : Transport) (go : Go) (u : Url) (h : Header) : Header :=
  let origin := go.urlOrigin u
  let h := (h.del authorization).del (text "Cookie")
  let h := t.profile.elim h fun p => p.apply origin h
  if t.sendsToken origin then h.set authorization ⟨text "Bearer " ++ t.hfToken, .token⟩ else h

def Go.newClient (go : Go) (env : Text) (profile : Option Profile) (hfToken : Text)
    (hfExtra : List Text) : Transport :=
  ⟨profile, hfToken, go.hfEndpointOrigin env :: hfExtra⟩

/-! ## Redirects -/

inductive RedirectError where
  | tooMany
  | downgrade
deriving DecidableEq

def redirectPolicy (u : Url) (via : List Url) : Option RedirectError :=
  if 10 ≤ via.length then some .tooMany
  else if via.any fun v => v.secure && !u.secure then some .downgrade
  else none

structure Request where
  url : Url
  header : Header

/-- A server's redirect. The request it leads to starts from a copy of the first
one's headers, as it was built or as it was sent. -/
structure Redirect where
  url : Url
  asSent : Bool

/-- Follows redirects, after the requests that were sent. -/
def Transport.follow (t : Transport) (go : Go) (caller : Header) (first : Request) :
    List Request → List Redirect → List Request
  | via, [] => via
  | via, r :: rest =>
    match redirectPolicy r.url (via.map (·.url)) with
    | some _ => via
    | none =>
      let copied := if r.asSent then first.header else caller
      t.follow go caller first (via ++ [⟨r.url, t.roundTrip go r.url copied⟩]) rest

def Transport.send (t : Transport) (go : Go) (caller : Header) (start : Url)
    (redirects : List Redirect) : List Request :=
  let first : Request := ⟨start, t.roundTrip go start caller⟩
  t.follow go caller first [first] redirects

/-! ## Origins as URLs have them -/

/-- The origin of a URL: case does not matter in its host. -/
def Url.origin (u : Url) : Text := u.scheme ++ text "://" ++ u.host.map asciiLower

/-- Hugging Face's own, or the one that `HF_ENDPOINT` names. -/
def Go.Entitled (go : Go) (env : Text) (u : Url) : Prop :=
  u.origin = go.hfEndpointOrigin env ∨ u.secure = true ∧ hfOwnHost (u.host.map asciiLower) = true

/-- A host with a letter outside ASCII, in upper case. -/
def Go.Disguised (go : Go) (u : Url) : Prop := go.toLower u.host ≠ u.host.map asciiLower

variable {go : Go} {p : Profile} {endpoint env : Text} {u : Url} {c : Char}

theorem lowerRune_char (hc : c.toNat < 128) (hlower : asciiLowerChar c = c) :
    go.lowerRune (.char c) = .char c := by
  rw [Go.lowerRune, go.lower_ascii c hc, hlower]

theorem toLower_append (s t : Text) : go.toLower (s ++ t) = go.toLower s ++ go.toLower t :=
  List.map_append ..

theorem toLower_text {s : String}
    (h : (s.toList.all fun c => c.toNat < 128 && asciiLowerChar c = c) = true) :
    go.toLower (text s) = text s := by
  rw [Go.toLower, text, List.map_map]
  refine List.map_congr_left fun c hc => ?_
  have hchar := List.all_eq_true.mp h c hc
  rw [Bool.and_eq_true, decide_eq_true_eq, decide_eq_true_eq] at hchar
  exact lowerRune_char hchar.1 hchar.2

theorem toLower_scheme (u : Url) :
    go.toLower (u.scheme ++ text "://") = u.scheme ++ text "://" := by
  have hsep : go.toLower (text "://") = text "://" := toLower_text (by decide)
  rw [toLower_append, hsep, Url.scheme]
  split
  · rw [toLower_text (by decide)]
  · rw [toLower_text (by decide)]

theorem toLower_toLower (t : Text) : go.toLower (go.toLower t) = go.toLower t := by
  rw [Go.toLower, Go.toLower, List.map_map]
  refine List.map_congr_left fun r _ => ?_
  cases r with
  | char c => exact congrArg Rune.char (go.lower_lower c)
  | invalid b => exact congrArg Rune.char go.lower_replacement

theorem asciiLowerChar_ascii (h : 'A' ≤ c ∧ c ≤ 'Z') : c.toNat < 128 :=
  Nat.lt_of_le_of_lt h.2 (by decide)

theorem toLower_asciiLower (t : Text) : go.toLower (t.map asciiLower) = go.toLower t := by
  rw [Go.toLower, List.map_map]
  refine List.map_congr_left fun r _ => ?_
  cases r with
  | invalid b => rfl
  | char c =>
    show Rune.char (go.lower (asciiLowerChar c)) = .char (go.lower c)
    by_cases hc : 'A' ≤ c ∧ c ≤ 'Z'
    · rw [← go.lower_ascii c (asciiLowerChar_ascii hc), go.lower_lower]
    · rw [asciiLowerChar, if_neg hc]

theorem toLower_origin (u : Url) : go.toLower u.origin = go.urlOrigin u := by
  rw [Url.origin, toLower_append, toLower_scheme, toLower_asciiLower, Go.urlOrigin]

theorem disguised_iff : go.Disguised u ↔ go.urlOrigin u ≠ u.origin := by
  rw [Go.Disguised, Go.urlOrigin, Url.origin, ne_eq, ne_eq, List.append_cancel_left_eq]

theorem not_disguised {o : Text} (ho : go.toLower o = o) (h : u.origin = o) :
    ¬ go.Disguised u := by
  rw [disguised_iff, not_ne_iff, ← toLower_origin, h, ho]

/-! ## What a request carries -/

/-- The canonical names of headers. -/
def keys (headers : List (Text × Text)) : List Text := headers.map fun e => canonicalKey e.1

section
variable {headers : List (Text × Text)} {name : Text}

theorem delAll_of_not_mem (h : Header) (hname : name ∉ keys headers) :
    delAll headers h name = h name := by
  induction headers generalizing h with
  | nil => rfl
  | cons e rest ih =>
    obtain ⟨hne, hrest⟩ := not_or.mp (mt List.mem_cons.mpr hname)
    exact (ih (h.del e.1) hrest).trans (Function.update_of_ne hne _ _)

theorem delAll_of_mem (h : Header) (hname : name ∈ keys headers) :
    delAll headers h name = [] := by
  induction headers generalizing h with
  | nil => cases hname
  | cons e rest ih =>
    by_cases hrest : name ∈ keys rest
    · exact ih (h.del e.1) hrest
    · obtain rfl := (List.mem_cons.mp hname).resolve_right hrest
      exact (delAll_of_not_mem (h.del e.1) hrest).trans (Function.update_self ..)

theorem setAll_of_not_mem (h : Header) (hname : name ∉ keys headers) :
    setAll headers h name = h name := by
  induction headers generalizing h with
  | nil => rfl
  | cons e rest ih =>
    obtain ⟨hne, hrest⟩ := not_or.mp (mt List.mem_cons.mpr hname)
    exact (ih (h.set e.1 _) hrest).trans (Function.update_of_ne hne _ _)

theorem setAll_of_mem (h : Header) (hname : name ∈ keys headers) :
    ∃ value, setAll headers h name = [⟨value, .profile⟩] := by
  induction headers generalizing h with
  | nil => cases hname
  | cons e rest ih =>
    by_cases hrest : name ∈ keys rest
    · exact ih (h.set e.1 _) hrest
    · obtain rfl := (List.mem_cons.mp hname).resolve_right hrest
      exact ⟨e.2, (setAll_of_not_mem (h.set e.1 _) hrest).trans (Function.update_self ..)⟩

end

variable {t : Transport} {u : Url} {h : Header}

/-- Credentials only where the client puts them. -/
structure Placed (t : Transport) (h : Header) : Prop where
  token : ∀ name, ∀ v ∈ h name, v.source = .token → name = canonicalKey authorization
  profile : ∀ name, ∀ v ∈ h name, v.source = .profile →
    ∃ p, t.profile = some p ∧ name ∈ keys p.settable

theorem del_placed (hh : Placed t h) (name : Text) : Placed t (h.del name) := by
  have hmem : ∀ n, ∀ v ∈ h.del name n, v ∈ h n := by
    intro n v hv
    by_cases hn : n = canonicalKey name
    · rw [hn, Header.del, Function.update_self] at hv
      cases hv
    · rwa [Header.del, Function.update_of_ne hn] at hv
  exact ⟨fun n v hv => hh.token n v (hmem n v hv), fun n v hv => hh.profile n v (hmem n v hv)⟩

/-- What is left once the names of the token and the profile are taken off, and
the profile's are put on where it may go. -/
theorem apply_values (hp : t.profile = some p) (hh : Placed t h)
    (hauth : h (canonicalKey authorization) = []) (origin name : Text) :
    (∀ v ∈ p.apply origin h name, v.source ≠ .token) ∧
      ∀ v ∈ p.apply origin h name, v.source = .profile →
        p.allows origin = true ∧ name ∈ keys p.settable := by
  have hdel : ∀ v ∈ delAll p.settable h name, v.source = .caller := by
    intro v hv
    by_cases hname : name ∈ keys p.settable
    · rw [delAll_of_mem h hname] at hv
      cases hv
    · rw [delAll_of_not_mem h hname] at hv
      cases hsource : v.source with
      | caller => rfl
      | token =>
        rw [hh.token name v hv hsource, hauth] at hv
        cases hv
      | profile =>
        obtain ⟨p', hp', hmem⟩ := hh.profile name v hv hsource
        rw [hp] at hp'
        cases hp'
        exact absurd hmem hname
  unfold Profile.apply
  split
  · next hallows =>
    by_cases hname : name ∈ keys p.settable
    · obtain ⟨value, hvalue⟩ := setAll_of_mem (delAll p.settable h) hname
      rw [hvalue]
      refine ⟨fun v hv => ?_, fun v hv _ => ⟨hallows, hname⟩⟩
      rw [List.mem_singleton.mp hv]
      simp
    · rw [setAll_of_not_mem _ hname]
      refine ⟨fun v hv => ?_, fun v hv hsource => ?_⟩
      · rw [hdel v hv]
        simp
      · rw [hdel v hv] at hsource
        cases hsource
  · refine ⟨fun v hv => ?_, fun v hv hsource => ?_⟩
    · rw [hdel v hv]
      simp
    · rw [hdel v hv] at hsource
      cases hsource

/-- A request's headers before the token. -/
def Transport.before (t : Transport) (go : Go) (u : Url) (h : Header) : Header :=
  t.profile.elim ((h.del authorization).del (text "Cookie")) fun p =>
    p.apply (go.urlOrigin u) ((h.del authorization).del (text "Cookie"))

theorem before_values (hh : Placed t h) (name : Text) :
    (∀ v ∈ t.before go u h name, v.source ≠ .token) ∧
      ∀ v ∈ t.before go u h name, v.source = .profile →
        ∃ p, t.profile = some p ∧ p.allows (go.urlOrigin u) = true ∧ name ∈ keys p.settable := by
  have hplaced : Placed t ((h.del authorization).del (text "Cookie")) :=
    del_placed (del_placed hh _) _
  have hne : canonicalKey authorization ≠ canonicalKey (text "Cookie") := by decide
  have hauth : (h.del authorization).del (text "Cookie") (canonicalKey authorization) = [] :=
    (Function.update_of_ne hne _ _).trans (Function.update_self ..)
  unfold Transport.before
  cases hp : t.profile with
  | none =>
    refine ⟨fun v hv hsource => ?_, fun v hv hsource => ?_⟩
    · rw [Option.elim_none, hplaced.token name v hv hsource, hauth] at hv
      cases hv
    · obtain ⟨p, hp', _⟩ := hplaced.profile name v hv hsource
      rw [hp] at hp'
      cases hp'
  | some p =>
    obtain ⟨htoken, hprofile⟩ := apply_values hp hplaced hauth (go.urlOrigin u) name
    exact ⟨htoken, fun v hv hsource => ⟨p, rfl, hprofile v hv hsource⟩⟩

theorem roundTrip_eq (t : Transport) (go : Go) (u : Url) (h : Header) :
    t.roundTrip go u h =
      if t.sendsToken (go.urlOrigin u) then
        (t.before go u h).set authorization ⟨text "Bearer " ++ t.hfToken, .token⟩
      else t.before go u h := rfl

theorem roundTrip_carries (hh : Placed t h) {name : Text} {v : Value}
    (hv : v ∈ t.roundTrip go u h name) :
    (v.source = .token → t.sendsToken (go.urlOrigin u) = true ∧
      name = canonicalKey authorization) ∧
    (v.source = .profile → ∃ p, t.profile = some p ∧ p.allows (go.urlOrigin u) = true ∧
      name ∈ keys p.settable) := by
  obtain ⟨htoken, hprofile⟩ := @before_values go t u h hh name
  rw [roundTrip_eq] at hv
  split at hv
  · next hsends =>
    by_cases hname : name = canonicalKey authorization
    · rw [hname, Header.set, Function.update_self] at hv
      rw [List.mem_singleton.mp hv]
      exact ⟨fun _ => ⟨hsends, hname⟩, fun h => by cases h⟩
    · rw [Header.set, Function.update_of_ne hname] at hv
      exact ⟨fun h => absurd h (htoken v hv), hprofile v hv⟩
  · exact ⟨fun h => absurd h (htoken v hv), hprofile v hv⟩

theorem roundTrip_placed (hh : Placed t h) : Placed t (t.roundTrip go u h) where
  token _ _ hv hsource := ((roundTrip_carries hh hv).1 hsource).2
  profile _ _ hv hsource :=
    let ⟨p, hp, _, hname⟩ := (roundTrip_carries hh hv).2 hsource
    ⟨p, hp, hname⟩

/-! ## Loaded profiles -/

theorem trimSuffix_append (s tail : Text) : trimSuffix (s ++ tail) tail = s := by
  have hsuffix : tail.isSuffixOf (s ++ tail) = true :=
    List.isSuffixOf_iff_suffix.mpr (List.suffix_append ..)
  rw [trimSuffix, if_pos hsuffix, List.length_append, Nat.add_sub_cancel, List.take_left]

theorem trimSuffix_toLower {o tail : Text} (htail : go.toLower tail = tail)
    (h : go.toLower (trimSuffix o tail) = trimSuffix o tail) :
    trimSuffix (go.toLower o) tail = trimSuffix o tail := by
  by_cases hsuffix : tail <:+ o
  · obtain ⟨s, rfl⟩ := hsuffix
    rw [trimSuffix_append] at h ⊢
    rw [toLower_append, h, htail, trimSuffix_append]
  · have hself : trimSuffix o tail = o :=
      if_neg fun hs => hsuffix (List.isSuffixOf_iff_suffix.mp hs)
    rw [hself] at h ⊢
    rw [h, hself]

theorem origin_fixed {raw o : Text} (h : go.origin raw = some o) : go.toLower o = o := by
  obtain ⟨p, _, hp⟩ := Option.bind_eq_some_iff.mp h
  split at hp
  · next hscheme =>
    cases hp
    have hsep : go.toLower (text "://") = text "://" := toLower_text (by decide)
    have hs : go.toLower p.scheme = p.scheme := by
      obtain hs | hs := hscheme.1 <;> rw [hs] <;> exact toLower_text (by decide)
    rw [toLower_append, toLower_append, hs, hsep, toLower_toLower]
  · cases hp

theorem hfEndpointOrigin_fixed (env : Text) :
    go.toLower (go.hfEndpointOrigin env) = go.hfEndpointOrigin env := by
  unfold Go.hfEndpointOrigin
  cases h : go.origin (hfEndpoint env) with
  | none => rfl
  | some o => exact origin_fixed h

theorem checkOrigins_ok {own : Bool} {origins norms : List Text}
    (h : go.checkOrigins own endpoint origins = .ok norms) :
    ∀ n ∈ norms, ∃ o ∈ origins, (own = true → go.hfOwnOrigin o endpoint = true) ∧
      go.origin o = some n ∧ trimSuffix (go.toLower o) (text "/") = n := by
  induction origins generalizing norms with
  | nil =>
    cases h
    exact fun n hn => by cases hn
  | cons o rest ih =>
    rw [Go.checkOrigins] at h
    split at h
    · cases h
    · next hown =>
      cases ho : go.origin o with
      | none => rw [ho] at h; cases h
      | some norm =>
        rw [ho] at h
        simp only [] at h
        split at h
        · cases h
        · next hnorm =>
          cases hrest : go.checkOrigins own endpoint rest with
          | error e => rw [hrest] at h; cases h
          | ok norms' =>
            rw [hrest] at h
            cases h
            intro n hn
            obtain rfl | hn := List.mem_cons.mp hn
            · refine ⟨o, List.mem_cons_self, fun hyes => ?_, ho, not_not.mp hnorm⟩
              simpa [hyes] using hown
            · obtain ⟨o', ho', hprops⟩ := ih hrest n hn
              exact ⟨o', List.mem_cons_of_mem _ ho', hprops⟩

theorem checkHeaders_ok {headers : List (Text × Text)} (h : checkHeaders headers = .ok ()) :
    ∀ e ∈ headers, e.2 ≠ [] ∧ canonicalKey e.1 ∉ reserved := by
  induction headers with
  | nil => exact fun e he => by cases he
  | cons f rest ih =>
    obtain ⟨name, value⟩ := f
    rw [checkHeaders] at h
    split at h
    · cases h
    · split at h
      · cases h
      · next hreserved =>
        split at h
        · cases h
        · next hvalue =>
          intro e he
          obtain rfl | he := List.mem_cons.mp he
          · exact ⟨(not_or.mp hvalue).1, hreserved⟩
          · exact ih h e he

/-- What a profile in use has passed. -/
structure Passed (go : Go) (endpoint : Text) (p : Profile) : Prop where
  origins : ∀ n ∈ p.origins, ∃ o, (p.id = hfProfileID → go.hfOwnOrigin o endpoint = true) ∧
    go.origin o = some n ∧ trimSuffix (go.toLower o) (text "/") = n
  headers : ∀ e ∈ p.headers, e.2 ≠ [] ∧ canonicalKey e.1 ∉ reserved

theorem validate_passed {raw : Profile}
    (h : go.validate raw endpoint = .ok p) : Passed go endpoint p := by
  unfold Go.validate at h
  split at h
  · cases h
  · split at h
    · cases h
    · cases horigins : go.checkOrigins (raw.id = hfProfileID) endpoint raw.origins with
      | error e => rw [horigins] at h; cases h
      | ok norms =>
        rw [horigins] at h
        simp only [Except.bind] at h
        split at h
        · cases h
        · cases hheaders : checkHeaders raw.headers with
          | error e => rw [hheaders] at h; cases h
          | ok _ =>
            rw [hheaders] at h
            cases h
            refine ⟨fun n hn => ?_, checkHeaders_ok hheaders⟩
            obtain ⟨o, _, hown, ho⟩ := checkOrigins_ok horigins n hn
            exact ⟨o, fun hid => hown (decide_eq_true hid), ho⟩

theorem loadProfiles_passed {file : List Profile}
    (h : p ∈ (go.loadProfiles env file).profiles) : Passed go (go.hfEndpointOrigin env) p := by
  have hload : ∀ (file : List Profile) (ps : Profiles),
      (∀ p ∈ ps.profiles, Passed go (go.hfEndpointOrigin env) p) →
      ∀ p ∈ (file.foldl (go.loadProfile (go.hfEndpointOrigin env)) ps).profiles,
        Passed go (go.hfEndpointOrigin env) p := by
    intro file
    induction file with
    | nil => exact fun ps hps => hps
    | cons raw file ih =>
      intro ps hps
      refine ih _ ?_
      unfold Go.loadProfile
      simp only []
      split
      · exact hps
      · split
        · exact hps
        · next hvalid =>
          intro p hp
          obtain hp | hp := List.mem_append.mp hp
          · exact hps p hp
          · rw [List.mem_singleton.mp hp]
            exact validate_passed hvalid
  exact hload file {} (fun p hp => by cases hp) p h

theorem get_mem {ps : Profiles} {id : Text} (h : ps.get id = some p) :
    p ∈ ps.profiles ∧ p.id = id := by
  have hid := List.find?_some h
  exact ⟨List.mem_of_find?_eq_some h, of_decide_eq_true hid⟩

theorem Passed.fixed (h : Passed go endpoint p) {n : Text}
    (hn : n ∈ p.origins) : go.toLower n = n :=
  let ⟨_, _, ho, _⟩ := h.origins n hn
  origin_fixed ho

/-! ### Hosts in lower case -/

theorem lowerAlnum_lower (h : isLowerAlnum c = true ∨ c = '-' ∨ c = '.') :
    go.lowerRune (.char c) = .char c := by
  obtain h | rfl | rfl := h
  · have hbounds : c.toNat < 128 ∧ asciiLowerChar c = c := by
      simp only [isLowerAlnum, Char.isDigit, Bool.or_eq_true, Bool.and_eq_true,
        decide_eq_true_eq, Char.le_def, UInt32.le_iff_toNat_le] at h
      have hval : c.toNat = c.val.toNat := rfl
      simp only [asciiLowerChar, Char.le_def, UInt32.le_iff_toNat_le]
      simp at h ⊢
      constructor
      · omega
      · omega
    exact lowerRune_char hbounds.1 hbounds.2
  · exact lowerRune_char (by decide) (by decide)
  · exact lowerRune_char (by decide) (by decide)

theorem hfOwnHost_fixed {host : Text} (h : hfOwnHost host = true) : go.toLower host = host := by
  simp only [hfOwnHost, lowerASCIIHost, Bool.and_eq_true, List.all_eq_true] at h
  obtain ⟨hlabels, _⟩ := h
  refine (List.map_congr_left fun r hr => ?_).trans (List.map_id host)
  obtain rfl | ⟨label, hlabel, hmem⟩ := SplitOn.mem_splitOn (c := .char '.') hr
  · exact lowerAlnum_lower (.inr (.inr rfl))
  · have hlower := hlabels label hlabel
    simp only [lowerASCIILabel, Bool.and_eq_true, List.all_eq_true] at hlower
    have hr' := hlower.1.1 r hmem
    cases r with
    | invalid b => cases hr'
    | char c =>
      simp only [isChar, Bool.or_eq_true, decide_eq_true_eq] at hr'
      exact lowerAlnum_lower (hr'.imp_right .inl)

/-- What the huggingface profile names: the endpoint's origin, or one of Hugging
Face's own hosts over https. -/
theorem Passed.hf (h : Passed go endpoint p) (hid : p.id = hfProfileID)
    (hend : go.toLower endpoint = endpoint) {n : Text} (hn : n ∈ p.origins) :
    n = endpoint ∨ ∃ host, hfOwnHost host = true ∧ n = text "https://" ++ host := by
  obtain ⟨o, hown, _, rfl⟩ := h.origins n hn
  have hslash : go.toLower (text "/") = text "/" := toLower_text (by decide)
  have hhttps : go.toLower (text "https://") = text "https://" := toLower_text (by decide)
  have hown := hown hid
  unfold Go.hfOwnOrigin at hown
  simp only [] at hown
  split at hown
  · next he =>
    rw [trimSuffix_toLower hslash (by rw [he.2, hend]), he.2]
    exact .inl rfl
  · split at hown
    · cases hown
    · next u _ =>
      rw [Bool.and_eq_true, decide_eq_true_eq] at hown
      refine .inr ⟨u.host, hown.2, ?_⟩
      rw [trimSuffix_toLower hslash ?_, hown.1]
      rw [hown.1, toLower_append, hhttps, hfOwnHost_fixed hown.2]

/-! ## The law -/

/-- What a request carries is for its own origin. -/
structure Scoped (go : Go) (env : Text) (t : Transport) (r : Request) : Prop where
  token : ∀ name, ∀ v ∈ r.header name, v.source = .token → go.Entitled env r.url
  profile : ∀ p, t.profile = some p → ∀ name, ∀ v ∈ r.header name, v.source = .profile →
    r.url.origin ∈ p.origins

/-- The token or the profile's headers are put on a request to this URL. -/
def Transport.Reaches (t : Transport) (go : Go) (u : Url) : Prop :=
  t.sendsToken (go.urlOrigin u) = true ∨
    ∃ p, t.profile = some p ∧ p.headers ≠ [] ∧ p.allows (go.urlOrigin u) = true

/-- A transport whose profile has passed, and whose origins for the token are
the endpoint's and Hugging Face's own. -/
structure Sane (go : Go) (env : Text) (t : Transport) : Prop where
  profile : ∀ p, t.profile = some p → Passed go (go.hfEndpointOrigin env) p
  origins : ∀ o ∈ t.hfOrigs, o = go.hfEndpointOrigin env ∨
    ∃ host, hfOwnHost host = true ∧ o = text "https://" ++ host

theorem origin_https {host : Text} (h : u.origin = text "https://" ++ host) :
    u.secure = true ∧ u.host.map asciiLower = host := by
  obtain ⟨secure, uhost⟩ := u
  cases secure with
  | true => exact ⟨rfl, List.append_cancel_left h⟩
  | false =>
    have hhttp : text "http" ++ text "://" ++ uhost.map asciiLower = text "https://" ++ host := h
    have hfront := congrArg (List.take 5) hhttp
    simp [text] at hfront

theorem Sane.entitled (ht : Sane go env t) (h : u.origin ∈ t.hfOrigs) :
    go.Entitled env u :=
  (ht.origins _ h).imp_right fun ⟨host, hown, ho⟩ => by
    obtain ⟨hsecure, rfl⟩ := origin_https ho
    exact ⟨hsecure, hown⟩

theorem entitled_not_disguised (h : go.Entitled env u) :
    ¬ go.Disguised u := by
  obtain h | ⟨_, h⟩ := h
  · exact not_disguised (hfEndpointOrigin_fixed env) h
  · intro hd
    refine hd ?_
    rw [← toLower_asciiLower, hfOwnHost_fixed h]

theorem asciiLowerChar_idem (c : Char) : asciiLowerChar (asciiLowerChar c) = asciiLowerChar c := by
  by_cases hc : 'A' ≤ c ∧ c ≤ 'Z'
  · have hall : ∀ n < 128, asciiLowerChar (asciiLowerChar (Char.ofNat n)) =
        asciiLowerChar (Char.ofNat n) := by decide
    simpa only [Char.ofNat_toNat] using hall c.toNat (asciiLowerChar_ascii hc)
  · have hself : asciiLowerChar c = c := if_neg hc
    rw [hself, hself]

theorem asciiLowerChar_upperChar (c : Char) : asciiLowerChar (upperChar c) = asciiLowerChar c := by
  by_cases hc : 'a' ≤ c ∧ c ≤ 'z'
  · have hall : ∀ n < 128, asciiLowerChar (upperChar (Char.ofNat n)) =
        asciiLowerChar (Char.ofNat n) := by decide
    have hlt : c.toNat < 128 := Nat.lt_of_le_of_lt hc.2 (by decide)
    simpa only [Char.ofNat_toNat] using hall c.toNat hlt
  · rw [upperChar, if_neg hc]

theorem titleCase_lower (front : Bool) (name : Text) :
    (titleCase front name).map asciiLower = name.map asciiLower := by
  induction name generalizing front with
  | nil => rfl
  | cons r rest ih =>
    cases r with
    | invalid b =>
      rw [titleCase, List.map_cons, List.map_cons, ih]
      intro c h
      cases h
    | char c =>
      rw [titleCase, List.map_cons, List.map_cons, ih]
      refine congrArg (· :: rest.map asciiLower) (congrArg Rune.char ?_)
      split
      · exact asciiLowerChar_upperChar c
      · exact asciiLowerChar_idem c

theorem canonicalKey_lower (name : Text) :
    (canonicalKey name).map asciiLower = name.map asciiLower := by
  unfold canonicalKey
  split
  · exact titleCase_lower true name
  · rfl

theorem equalFold_of_key {a b : Text} (h : canonicalKey a = canonicalKey b) :
    equalFold a b = true := by
  have hlower := congrArg (List.map asciiLower) h
  rw [canonicalKey_lower, canonicalKey_lower] at hlower
  exact decide_eq_true hlower

theorem roundTrip_token (hsends : t.sendsToken (go.urlOrigin u) = true) :
    ∃ name, ∃ v ∈ t.roundTrip go u h name, v.source = .token := by
  refine ⟨canonicalKey authorization, ⟨text "Bearer " ++ t.hfToken, .token⟩, ?_, rfl⟩
  rw [roundTrip_eq, if_pos hsends, Header.set, Function.update_self]
  exact List.mem_singleton.mpr rfl

theorem roundTrip_profile (hp : t.profile = some p)
    (hheaders : ∀ e ∈ p.headers, e.2 ≠ [] ∧ canonicalKey e.1 ∉ reserved) (hne : p.headers ≠ [])
    (hallows : p.allows (go.urlOrigin u) = true) :
    ∃ name, ∃ v ∈ t.roundTrip go u h name, v.source = .profile := by
  obtain ⟨e, rest, he⟩ := List.exists_cons_of_ne_nil hne
  have hmem : e ∈ p.headers := by
    rw [he]
    exact List.mem_cons_self
  obtain ⟨hvalue, hfree⟩ := hheaders e hmem
  have hkey : canonicalKey e.1 ∈ keys p.settable :=
    List.mem_map.mpr ⟨e, List.mem_filter.mpr ⟨hmem, by simpa using hfree⟩, rfl⟩
  obtain ⟨value, hset⟩ := setAll_of_mem
    (delAll p.settable ((h.del authorization).del (text "Cookie"))) hkey
  have hbefore : t.before go u h (canonicalKey e.1) = [⟨value, .profile⟩] := by
    rw [Transport.before, hp, Option.elim_some, Profile.apply, if_pos hallows, hset]
  refine ⟨canonicalKey e.1, ⟨value, .profile⟩, ?_, rfl⟩
  rw [roundTrip_eq]
  split
  · next hsends =>
    -- The token gives way to a profile that has the header itself.
    have hother : canonicalKey e.1 ≠ canonicalKey authorization := by
      intro hsame
      simp only [Transport.sendsToken, hp, Option.all_some, Bool.and_eq_true,
        Bool.not_eq_true'] at hsends
      have hsets : p.sets authorization = true :=
        List.any_eq_true.mpr ⟨e, hmem, by simp [hvalue, equalFold_of_key hsame]⟩
      rw [hsets] at hsends
      cases hsends.2
    rw [Header.set, Function.update_of_ne hother, hbefore]
    exact List.mem_singleton.mpr rfl
  · rw [hbefore]
    exact List.mem_singleton.mpr rfl

/-- One request: its credentials are for its own origin, unless it has them by a
disguise. -/
theorem scoped_iff (ht : Sane go env t) (hh : Placed t h) (u : Url) :
    Scoped go env t ⟨u, t.roundTrip go u h⟩ ↔ ¬ (go.Disguised u ∧ t.Reaches go u) := by
  constructor
  · rintro hs ⟨hd, hsends | ⟨p, hp, hne, hallows⟩⟩
    · obtain ⟨name, v, hv, hsource⟩ := roundTrip_token (h := h) hsends
      exact entitled_not_disguised (hs.token name v hv hsource) hd
    · have hpassed := ht.profile p hp
      obtain ⟨name, v, hv, hsource⟩ :=
        roundTrip_profile (h := h) hp hpassed.headers hne hallows
      have hlisted := hs.profile p hp name v hv hsource
      exact not_disguised (hpassed.fixed hlisted) rfl hd
  · intro hno
    have hplain : t.Reaches go u → go.urlOrigin u = u.origin := fun hreach => by
      by_contra hne
      exact hno ⟨disguised_iff.mpr hne, hreach⟩
    refine ⟨fun name v hv hsource => ?_, fun p hp name v hv hsource => ?_⟩
    · obtain ⟨hsends, _⟩ := (roundTrip_carries hh hv).1 hsource
      have horigin := hplain (.inl hsends)
      simp only [Transport.sendsToken, Bool.and_eq_true, decide_eq_true_eq] at hsends
      exact ht.entitled (horigin ▸ hsends.1.2)
    · obtain ⟨p', hp', hallows, hname⟩ := (roundTrip_carries hh hv).2 hsource
      rw [hp] at hp'
      cases hp'
      have hne : p.headers ≠ [] := by
        intro he
        rw [keys, Profile.settable, he] at hname
        cases hname
      have horigin := hplain (.inr ⟨p, hp, hne, hallows⟩)
      exact horigin ▸ of_decide_eq_true hallows

/-! ### Chains -/

/-- A request whose headers the client made of ones it had placed. -/
def Built (go : Go) (t : Transport) (r : Request) : Prop :=
  ∃ h, Placed t h ∧ r.header = t.roundTrip go r.url h

theorem follow_built {caller : Header} {first : Request} (hcaller : Placed t caller)
    (hfirst : Placed t first.header) (redirects : List Redirect) {via : List Request}
    (hvia : ∀ r ∈ via, Built go t r) :
    ∀ r ∈ t.follow go caller first via redirects, Built go t r := by
  induction redirects generalizing via with
  | nil => exact hvia
  | cons r rest ih =>
    rw [Transport.follow]
    split
    · exact hvia
    · refine ih fun r' hr' => ?_
      obtain hr' | hr' := List.mem_append.mp hr'
      · exact hvia r' hr'
      · rw [List.mem_singleton.mp hr']
        refine ⟨_, ?_, rfl⟩
        split
        · exact hfirst
        · exact hcaller

theorem redirectPolicy_none {via : List Url} (h : redirectPolicy u via = none) :
    ∀ v ∈ via, v.secure = true → u.secure = true := by
  unfold redirectPolicy at h
  split at h
  · cases h
  · split at h
    · cases h
    · next hno =>
      intro v hv hsecure
      by_contra hplain
      exact hno (List.any_eq_true.mpr ⟨v, hv, by simp [hsecure, hplain]⟩)

/-- Once https, no plain http later. -/
def NoDowngrade (urls : List Url) : Prop :=
  urls.Pairwise fun u v => u.secure = true → v.secure = true

theorem follow_noDowngrade {caller : Header} {first : Request} (redirects : List Redirect)
    {via : List Request} (hvia : NoDowngrade (via.map (·.url))) :
    NoDowngrade ((t.follow go caller first via redirects).map (·.url)) := by
  induction redirects generalizing via with
  | nil => exact hvia
  | cons r rest ih =>
    rw [Transport.follow]
    split
    · exact hvia
    · next hpolicy =>
      refine ih ?_
      rw [List.map_append]
      refine List.pairwise_append.mpr ⟨hvia, List.pairwise_singleton _ _, ?_⟩
      intro v hv u hu
      rw [List.mem_singleton.mp hu]
      exact redirectPolicy_none hpolicy v hv

/-- The headers a downloader builds. -/
def callerHeader (built : Text → List Text) : Header :=
  fun name => (built name).map fun v => ⟨v, .caller⟩

/-- The client of a download: its profile by name, from the file. -/
def Go.clientFor (go : Go) (env : Text) (file : List Profile) (id : Option Text)
    (hfToken : Text) : Transport :=
  go.newClient env (id.bind (go.loadProfiles env file).get) hfToken (go.hfTokenOrigins env file)

theorem clientFor_sane (env : Text) (file : List Profile) (id : Option Text) (hfToken : Text) :
    Sane go env (go.clientFor env file id hfToken) where
  profile p hp := by
    obtain ⟨name, _, hname⟩ := Option.bind_eq_some_iff.mp hp
    exact loadProfiles_passed (get_mem hname).1
  origins o ho := by
    obtain rfl | ho := List.mem_cons.mp ho
    · exact .inl rfl
    · unfold Go.hfTokenOrigins at ho
      cases hget : (go.loadProfiles env file).get hfProfileID with
      | none => rw [hget] at ho; cases ho
      | some p =>
        rw [hget] at ho
        obtain ⟨hmem, hid⟩ := get_mem hget
        exact (loadProfiles_passed hmem).hf hid (hfEndpointOrigin_fixed env) ho

theorem callerHeader_placed (t : Transport) (built : Text → List Text) :
    Placed t (callerHeader built) := by
  have hsource : ∀ name, ∀ v ∈ callerHeader built name, v.source = .caller := by
    intro name v hv
    obtain ⟨value, _, rfl⟩ := List.mem_map.mp hv
    rfl
  constructor
  · intro name v hv h
    rw [hsource name v hv] at h
    cases h
  · intro name v hv h
    rw [hsource name v hv] at h
    cases h

/-- Every request of a download carries credentials for its own origin alone and
none goes from https to http, exactly if no request's host has a letter in upper
case outside ASCII and is in lower case one that the credentials may reach. -/
theorem download_scoped_iff (go : Go) (env : Text) (file : List Profile) (id : Option Text)
    (hfToken : Text) (built : Text → List Text) (start : Url) (redirects : List Redirect) :
    ((∀ r ∈ (go.clientFor env file id hfToken).send go (callerHeader built) start redirects,
        Scoped go env (go.clientFor env file id hfToken) r) ∧
      NoDowngrade (((go.clientFor env file id hfToken).send go (callerHeader built) start
        redirects).map (·.url))) ↔
    ∀ r ∈ (go.clientFor env file id hfToken).send go (callerHeader built) start redirects,
      ¬ (go.Disguised r.url ∧ (go.clientFor env file id hfToken).Reaches go r.url) := by
  have hsane : Sane go env (go.clientFor env file id hfToken) :=
    clientFor_sane env file id hfToken
  have hcaller := callerHeader_placed (go.clientFor env file id hfToken) built
  have hbuilt : ∀ r ∈ (go.clientFor env file id hfToken).send go (callerHeader built) start
      redirects, Built go (go.clientFor env file id hfToken) r :=
    follow_built hcaller (roundTrip_placed hcaller) redirects fun r hr => by
      rw [List.mem_singleton.mp hr]
      exact ⟨_, hcaller, rfl⟩
  have hone : ∀ r ∈ (go.clientFor env file id hfToken).send go (callerHeader built) start
      redirects, (Scoped go env (go.clientFor env file id hfToken) r ↔
        ¬ (go.Disguised r.url ∧ (go.clientFor env file id hfToken).Reaches go r.url)) := by
    intro r hr
    obtain ⟨h, hplaced, hheader⟩ := hbuilt r hr
    have hscoped := scoped_iff hsane hplaced r.url
    rwa [← hheader] at hscoped
  constructor
  · rintro ⟨hall, _⟩ r hr
    exact (hone r hr).mp (hall r hr)
  · intro hnone
    exact ⟨fun r hr => (hone r hr).mpr (hnone r hr),
      follow_noDowngrade redirects (List.pairwise_singleton _ _)⟩

/-! ### A disguise -/

/-- The lower case of ASCII, and of the two letters outside it that have one in it. -/
def fewLower (c : Char) : Char :=
  if c = 'İ' then 'i' else if c = '\u212a' then 'k' else asciiLowerChar c

theorem fewLower_ascii (c : Char) (h : c.toNat < 128) : fewLower c = asciiLowerChar c := by
  have hdot : c ≠ 'İ' := by
    rintro rfl
    exact absurd h (by decide)
  have hkelvin : c ≠ '\u212a' := by
    rintro rfl
    exact absurd h (by decide)
  rw [fewLower, if_neg hdot, if_neg hkelvin]

theorem fewLower_fewLower (c : Char) : fewLower (fewLower c) = fewLower c := by
  by_cases hdot : c = 'İ'
  · rw [hdot]
    decide
  · by_cases hkelvin : c = '\u212a'
    · rw [hkelvin]
      decide
    · have hself : fewLower c = asciiLowerChar c := by rw [fewLower, if_neg hdot, if_neg hkelvin]
      by_cases hc : 'A' ≤ c ∧ c ≤ 'Z'
      · have hlower : (asciiLowerChar c).toNat < 128 := by
          have hall : ∀ n < 128, (asciiLowerChar (Char.ofNat n)).toNat < 128 := by decide
          simpa only [Char.ofNat_toNat] using hall c.toNat (asciiLowerChar_ascii hc)
        rw [hself, fewLower_ascii _ hlower, asciiLowerChar_idem]
      · have hplain : asciiLowerChar c = c := if_neg hc
        rw [hself, hplain, hself, hplain]

/-- `url.Parse`, of a scheme and a host. -/
def parseHost (raw : Text) : Option Parsed :=
  if (text "https://").isPrefixOf raw then
    some ⟨text "https", (raw.drop 8).takeWhile fun r => decide (r ≠ .char '/')⟩
  else if (text "http://").isPrefixOf raw then
    some ⟨text "http", (raw.drop 7).takeWhile fun r => decide (r ≠ .char '/')⟩
  else none

def fewGo : Go where
  lower := fewLower
  lower_ascii := fewLower_ascii
  lower_lower := fewLower_fewLower
  lower_replacement := by decide
  parse := parseHost

/-- A redirect to a host with a dotted I carries the Hugging Face token there. -/
theorem disguise_takes_token :
    ¬ ((∀ r ∈ (fewGo.clientFor [] [] none (text "secret")).send fewGo (callerHeader fun _ => [])
          ⟨true, text "huggingface.co"⟩ [⟨⟨true, text "huggİngface.co"⟩, false⟩],
        Scoped fewGo [] (fewGo.clientFor [] [] none (text "secret")) r) ∧
      NoDowngrade (((fewGo.clientFor [] [] none (text "secret")).send fewGo
        (callerHeader fun _ => []) ⟨true, text "huggingface.co"⟩
        [⟨⟨true, text "huggİngface.co"⟩, false⟩]).map (·.url))) := by
  rintro ⟨hall, _⟩
  have hsecond := hall _ (List.mem_cons_of_mem _ List.mem_cons_self)
  have htoken := hsecond.token (canonicalKey authorization)
    ⟨text "Bearer secret", .token⟩ (by decide) rfl
  obtain hendpoint | ⟨_, hown⟩ := htoken
  · exact absurd hendpoint (by decide)
  · exact absurd hown (by decide)

end LocalBase.Credentials
