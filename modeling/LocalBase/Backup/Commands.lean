import LocalBase.Backup.PutBack
import LocalBase.Lib.SplitOn
import Mathlib.Data.List.Forall2
import Mathlib.Data.List.TakeWhile

/-!
# A backup puts no command in a shell

Whatever the fields of a removed secret are, the command that is built from them is read by a
shell as the words it is meant to be, and prints as one line.

The shell is one that reads words and quotes: a single quote ends a quoted part, and
nothing is expanded within one. So a word comes back if each quote of the field is
taken out of the quotes.
-/

namespace LocalBase.Backup

open Shell

/-! ## Words -/

variable {s w : Text} {fill : Nat → Text} {start name : String} {c : Char}

theorem not_mem_marks (h : isShellPlain c = true) : c ∉ marks := by
  intro hmem
  have hall : marks.all (! isShellPlain ·) = true := by decide
  have hnot := List.all_eq_true.1 hall c hmem
  rw [h] at hnot
  cases hnot

theorem reads_shellArg (s : Text) : Reads (shellArg s) s := by
  unfold shellArg
  split
  · next h =>
    unfold shellPlain at h
    rw [Bool.and_eq_true, decide_eq_true_eq, List.all_eq_true] at h
    exact reads_all h.1 fun c hc => not_mem_marks (h.2 c hc)
  · exact reads_quoted s

/-- The word that an option is: its name, and the exact text of its value. -/
def optionWord (name : String) (value : Text) : Text :=
  "--".toList ++ name.toList ++ "=".toList ++ value

theorem reads_option (hname : plain name.toList = true) (value : Text) :
    Reads (option name value) (optionWord name value) := by
  have hdash : Reads "--".toList "--".toList := reads_plain (by decide)
  have hequals : Reads "=".toList "=".toList := reads_plain (by decide)
  exact ((hdash.append (reads_plain hname)).append hequals).append (reads_shellArg value)

theorem spaced_cons (t : Text) (texts : List Text) :
    spaced (t :: texts) = t ++ texts.flatMap fun t => ' ' :: t := by
  induction texts generalizing t with
  | nil => rw [spaced, List.intercalate_singleton, List.flatMap_nil, List.append_nil]
  | cons t' texts ih =>
    rw [spaced, List.intercalate_cons_cons, List.flatMap_cons, ← spaced, ih, List.append_assoc,
      List.singleton_append, List.cons_append]

theorem spaced_append {texts texts' : List Text} (hne : texts ≠ []) (hne' : texts' ≠ []) :
    spaced (texts ++ texts') = spaced texts ++ ' ' :: spaced texts' := by
  cases texts with
  | nil => exact absurd rfl hne
  | cons t texts =>
    cases texts' with
    | nil => exact absurd rfl hne'
    | cons t' texts' =>
      rw [List.cons_append, spaced_cons, spaced_cons, spaced_cons, List.flatMap_append,
        List.flatMap_cons, List.append_assoc, List.cons_append]

/-- What the commands start with, and the words of that after the program's name. -/
def starts : List (String × List String) :=
  [("local-base configure --hf-token ", ["configure", "--hf-token"]),
    ("local-base configure --otel-headers ", ["configure", "--otel-headers"]),
    ("local-base access github-oauth add ", ["access", "github-oauth", "add"]),
    ("local-base access oidc add ", ["access", "oidc", "add"]),
    ("local-base auth-profiles add ", ["auth-profiles", "add"])]

theorem starts_spec : ∀ p ∈ starts,
    p.1.toList = spaced (("local-base" :: p.2).map String.toList) ++ [' '] ∧
      (∀ s ∈ p.2, plain s.toList = true) ∧ p.1.toList.all (! isControl ·) = true := by
  decide

theorem fixed_spec :
    " --client-secret-env ".toList = ' ' :: "--client-secret-env".toList ++ [' '] ∧
      read ("local-base access email configure".toList ++ []) =
        .ok (["local-base", "access", "email", "configure"].map String.toList) ∧
      "local-base access email configure".toList.all (! isControl ·) = true := by
  decide

theorem read_command {fixed : List String} {texts words : List Text}
    (hmem : (start, fixed) ∈ starts) (hne : texts ≠ []) (h : List.Forall₂ Reads texts words) :
    read (start.toList ++ spaced texts) =
      .ok (("local-base" :: fixed).map String.toList ++ words) := by
  obtain ⟨hstart, hfixed, -⟩ := starts_spec _ hmem
  have hline : start.toList ++ spaced texts =
      spaced (("local-base" :: fixed).map String.toList ++ texts) := by
    rw [spaced_append (by rw [List.map_cons]; exact List.cons_ne_nil _ _) hne, hstart,
      List.append_assoc, List.singleton_append]
  have hwords : List.Forall₂ Reads (fixed.map String.toList) (fixed.map String.toList) := by
    refine List.forall₂_same.2 fun t ht => ?_
    obtain ⟨s, hs, rfl⟩ := List.mem_map.1 ht
    exact reads_plain (hfixed s hs)
  rw [hline]
  refine read_spaced (.cons (reads_plain (by decide)) ?_) (by decide) (by decide)
  exact List.rel_append hwords h

/-! ## Placeholders -/

/-- The texts of the header options, each with its own word for the placeholder. -/
def headerTexts (text : Text → Text) : List Text → (Nat → Text) → List Text
  | [], _ => []
  | h :: headers, fill =>
    (text h ++ "=".toList ++ fill 0) :: headerTexts text headers fun n => fill (n + 1)

theorem filled_origins (origins : List Text) (t : Template) (fill : Nat → Text) :
    filled ((origins.map originOption).flatMap (lit " " :: ·) ++ t) fill =
      (origins.map (option "origin")).flatMap (' ' :: ·) ++ filled t fill := by
  induction origins with
  | nil => rfl
  | cons o origins ih =>
    rw [List.map_cons, List.map_cons, List.flatMap_cons, List.flatMap_cons, List.append_assoc,
      List.append_assoc, ← ih]
    rfl

theorem filled_headers (headers : List Text) (fill : Nat → Text) :
    filled ((headers.map headerOption).flatMap (lit " " :: ·)) fill =
      (headerTexts (option "header-env") headers fill).flatMap (' ' :: ·) := by
  induction headers generalizing fill with
  | nil => rfl
  | cons h headers ih =>
    rw [List.map_cons, List.flatMap_cons, headerTexts, List.flatMap_cons, ← ih]
    show ' ' :: (option "header-env" h ++ "=".toList ++ (fill 0 ++ filled _ _)) = _
    rw [← List.append_assoc]
    rfl

theorem reads_headers (headers : List Text) (hfill : ∀ n, plain (fill n) = true) :
    List.Forall₂ Reads (headerTexts (option "header-env") headers fill)
      (headerTexts (optionWord "header-env") headers fill) := by
  induction headers generalizing fill with
  | nil => exact .nil
  | cons h headers ih =>
    have hequals : Reads "=".toList "=".toList := reads_plain (by decide)
    refine .cons ?_ (ih fun n => hfill (n + 1))
    exact ((reads_option (by decide) h).append hequals).append (reads_plain (hfill 0))

/-! ## The commands -/

def fixedWords (words : List String) : List Text := words.map String.toList

/-- The words that the command of a kind is meant to be. -/
def commandWords (r : RemovedSecret) (fill : Nat → Text) : List Text :=
  if r.kind = kindHFToken then
    fixedWords ["local-base", "configure", "--hf-token"] ++ [fill 0]
  else if r.kind = kindOTLPHeaders then
    fixedWords ["local-base", "configure", "--otel-headers"] ++ [fill 0]
  else if r.kind = kindSMTP then
    fixedWords ["local-base", "access", "email", "configure"]
  else if r.kind = kindGitHub then
    fixedWords ["local-base", "access", "github-oauth", "add"] ++ [optionWord "id" r.id]
  else if r.kind = kindOIDC then
    fixedWords ["local-base", "access", "oidc", "add"] ++
      [optionWord "id" r.id, optionWord "name" r.label, optionWord "issuer" r.issuer,
        optionWord "client-id" r.clientID, "--client-secret-env".toList, fill 0]
  else
    fixedWords ["local-base", "auth-profiles", "add"] ++
      (optionWord "id" r.id :: (r.origins.map (optionWord "origin") ++
        headerTexts (optionWord "header-env") r.headers fill))

section
variable {urls : URLs} {r : RemovedSecret} {t : Template}

theorem read_download (hkind : r.kind = kindDownload) (hfill : ∀ n, plain (fill n) = true) :
    read (filled ([lit " "].intercalate
      ([lit "local-base auth-profiles add ", .text (option "id" r.id)] ::
        (r.origins.map originOption ++ r.headers.map headerOption))) fill) =
      .ok (commandWords r fill) := by
  have hwords : commandWords r fill = fixedWords ["local-base", "auth-profiles", "add"] ++
      (optionWord "id" r.id :: (r.origins.map (optionWord "origin") ++
        headerTexts (optionWord "header-env") r.headers fill)) := by
    rw [commandWords, hkind]
    rfl
  have htext : filled ([lit " "].intercalate
      ([lit "local-base auth-profiles add ", .text (option "id" r.id)] ::
        (r.origins.map originOption ++ r.headers.map headerOption))) fill =
      "local-base auth-profiles add ".toList ++ spaced (option "id" r.id ::
        (r.origins.map (option "origin") ++
          headerTexts (option "header-env") r.headers fill)) := by
    rw [SplitOn.intercalate_eq, List.flatMap_append, spaced_cons, List.flatMap_append,
      ← filled_headers, ← filled_origins]
    rfl
  rw [htext, hwords]
  refine read_command (by simp [starts]) (List.cons_ne_nil _ _)
    (.cons (reads_option (by decide) r.id) (List.rel_append ?_ (reads_headers r.headers hfill)))
  rw [List.forall₂_map_left_iff, List.forall₂_map_right_iff, List.forall₂_same]
  exact fun o _ => reads_option (by decide) o

theorem read_oidc (hkind : r.kind = kindOIDC) (hfill : ∀ n, plain (fill n) = true) :
    read (filled [lit "local-base access oidc add ", .text (option "id" r.id), lit " ",
      .text (option "name" r.label), lit " ", .text (option "issuer" r.issuer), lit " ",
      .text (option "client-id" r.clientID), lit " --client-secret-env ",
      .placeholder "ENVIRONMENT_VARIABLE"] fill) = .ok (commandWords r fill) := by
  have hwords : commandWords r fill = fixedWords ["local-base", "access", "oidc", "add"] ++
      [optionWord "id" r.id, optionWord "name" r.label, optionWord "issuer" r.issuer,
        optionWord "client-id" r.clientID, "--client-secret-env".toList, fill 0] := by
    rw [commandWords, hkind]
    rfl
  have hsecret := fixed_spec.1
  have htext : filled [lit "local-base access oidc add ", .text (option "id" r.id), lit " ",
      .text (option "name" r.label), lit " ", .text (option "issuer" r.issuer), lit " ",
      .text (option "client-id" r.clientID), lit " --client-secret-env ",
      .placeholder "ENVIRONMENT_VARIABLE"] fill =
      "local-base access oidc add ".toList ++ spaced [option "id" r.id, option "name" r.label,
        option "issuer" r.issuer, option "client-id" r.clientID, "--client-secret-env".toList,
        fill 0] := by
    have hspace : " ".toList = [' '] := by decide
    simp only [filled, lit, spaced_cons, List.flatMap_cons, List.flatMap_nil, hsecret, hspace,
      List.append_assoc, List.cons_append, List.nil_append, List.append_nil]
  rw [htext, hwords]
  refine read_command (by simp [starts]) (List.cons_ne_nil _ _) ?_
  refine .cons (reads_option (by decide) r.id) <| .cons (reads_option (by decide) r.label) <|
    .cons (reads_option (by decide) r.issuer) <|
    .cons (reads_option (by decide) r.clientID) <|
    .cons (reads_plain (by decide)) <| .cons (reads_plain (hfill 0)) .nil

theorem read_last {fixed : List String} {text word : Text} (hmem : (start, fixed) ∈ starts)
    (h : Reads text word) :
    read (start.toList ++ (text ++ [])) = .ok (fixedWords ("local-base" :: fixed) ++ [word]) := by
  have hone := read_command hmem (List.cons_ne_nil text []) (.cons h .nil)
  rw [spaced, List.intercalate_singleton] at hone
  rw [List.append_nil]
  exact hone

theorem read_command_of {check : Bool} (h : putBackCommand urls r check = some t)
    (hfill : ∀ n, plain (fill n) = true) : read (filled t fill) = .ok (commandWords r fill) := by
  unfold putBackCommand at h
  dsimp only at h
  split at h
  · next hkind =>
    obtain rfl := (Option.some.inj h).symm
    rw [commandWords, if_pos hkind]
    exact read_last (by simp [starts]) (reads_plain (hfill 0))
  next hhf =>
  split at h
  · next hkind =>
    obtain rfl := (Option.some.inj h).symm
    rw [commandWords, if_neg hhf, if_pos hkind]
    exact read_last (by simp [starts]) (reads_plain (hfill 0))
  next hotlp =>
  split at h
  · next hkind =>
    obtain rfl := (Option.some.inj h).symm
    rw [commandWords, if_neg hhf, if_neg hotlp, if_pos hkind]
    exact fixed_spec.2.1
  next hsmtp =>
  split at h
  · next hkind =>
    split at h
    · cases h
    obtain rfl := (Option.some.inj h).symm
    rw [commandWords, if_neg hhf, if_neg hotlp, if_neg hsmtp, if_pos hkind]
    exact read_last (by simp [starts]) (reads_option (by decide) r.id)
  split at h
  · next hkind =>
    split at h
    · cases h
    obtain rfl := (Option.some.inj h).symm
    exact read_oidc hkind hfill
  split at h
  · next hkind =>
    split at h
    · cases h
    split at h
    · cases h
    split at h
    · cases h
    obtain rfl := (Option.some.inj h).symm
    exact read_download hkind hfill
  · cases h

end

/-! ## One line -/

/-- Nothing in a text is a control character. -/
def Quiet (s : Text) : Prop := ∀ c ∈ s, isControl c = false

theorem quiet_iff : s.all (! isControl ·) = true ↔ Quiet s := by
  simp only [Quiet, List.all_eq_true, Bool.not_eq_true']

instance (s : Text) : Decidable (Quiet s) := decidable_of_iff _ quiet_iff

section
variable {s' : Text} {urls : URLs} {r : RemovedSecret} {t t' : Template}

theorem Quiet.append (h : Quiet s) (h' : Quiet s') : Quiet (s ++ s') := by
  intro c hc
  rcases List.mem_append.1 hc with hc | hc
  · exact h c hc
  · exact h' c hc

theorem quiet_of_all {p : Char → Bool} (hp : ∀ c, p c = true → isControl c = false)
    (h : s.all p = true) : Quiet s := fun c hc => hp c (List.all_eq_true.1 h c hc)

theorem quiet_shellArg (h : Quiet s) : Quiet (shellArg s) := by
  unfold shellArg
  split
  · exact h
  · have hmark : Quiet [quoteMark] := by decide
    have hescaped : Quiet (s.flatMap escaped) := by
      intro c hc
      obtain ⟨d, hd, hcd⟩ := List.mem_flatMap.1 hc
      unfold escaped at hcd
      split at hcd
      · have hall : Quiet [quoteMark, '\\', quoteMark, quoteMark] := by decide
        exact hall c hcd
      · rw [List.mem_singleton.1 hcd]
        exact h d hd
    exact (hmark.append hescaped).append hmark

theorem quiet_option (hname : Quiet name.toList) (h : Quiet s) :
    Quiet (option name s) := by
  have hdash : Quiet "--".toList := by decide
  have hequals : Quiet "=".toList := by decide
  exact ((hdash.append hname).append hequals).append (quiet_shellArg h)

theorem isControl_of_printable (hlo : 0x20 ≤ c.toNat) (hhi : c.toNat ≤ 0x7e) :
    isControl c = false := by
  simp only [isControl, Bool.or_eq_false_iff, decide_eq_false_iff_not]
  omega

theorem isControl_of_alnum (h : isAlnum c = true) : isControl c = false := by
  have hrange : ∀ a b : Char, 0x20 ≤ a.toNat → b.toNat ≤ 0x7e → a ≤ c → c ≤ b →
      isControl c = false := fun a b ha hb hac hcb =>
    isControl_of_printable (Nat.le_trans ha hac) (Nat.le_trans hcb hb)
  simp only [isAlnum, isLowerAlnum, Bool.or_eq_true, Bool.and_eq_true, decide_eq_true_eq] at h
  obtain (⟨hlo, hhi⟩ | ⟨hlo, hhi⟩) | ⟨hlo, hhi⟩ := h
  · exact hrange 'a' 'z' (by decide) (by decide) hlo hhi
  · exact hrange '0' '9' (by decide) (by decide) hlo hhi
  · exact hrange 'A' 'Z' (by decide) (by decide) hlo hhi

theorem isControl_of_lower (h : isLowerAlnum c = true) : isControl c = false :=
  isControl_of_alnum (by rw [isAlnum, h, Bool.true_or])

theorem isControl_of_contains {marks : Text} (hmarks : Quiet marks)
    (h : marks.contains c = true) : isControl c = false :=
  hmarks c (List.contains_iff_mem.1 h)

theorem quiet_registrationID (h : registrationID s = true) : Quiet s := by
  cases s with
  | nil => cases h
  | cons c rest =>
    rw [registrationID, Bool.and_eq_true, Bool.or_eq_true, decide_eq_true_eq] at h
    obtain ⟨hfirst, rfl | hrest⟩ := h
    · intro d hd
      rw [List.mem_singleton.1 hd]
      exact isControl_of_lower hfirst
    · rw [Bool.and_eq_true, Bool.and_eq_true] at hrest
      obtain ⟨⟨-, hmiddle⟩, hlast⟩ := hrest
      have hmiddle : Quiet rest.dropLast := quiet_of_all (fun d hd => by
        rw [Bool.or_eq_true, decide_eq_true_eq] at hd
        rcases hd with hd | rfl
        · exact isControl_of_lower hd
        · decide) hmiddle
      obtain ⟨e, he, hlower⟩ := (Option.any_eq_true _ _).1 hlast
      have hsplit : rest = rest.dropLast ++ [e] := (List.dropLast_append_getLast? e he).symm
      have hend : Quiet [e] := fun d hd => by
        rw [List.mem_singleton.1 hd]
        exact isControl_of_lower hlower
      intro d hd
      rcases List.mem_cons.1 hd with rfl | hd
      · exact isControl_of_lower hfirst
      · rw [hsplit] at hd
        exact hmiddle.append hend d hd

theorem quiet_profileID (h : profileID s = true) : Quiet s := by
  cases s with
  | nil => cases h
  | cons c rest =>
    rw [profileID, Bool.and_eq_true, Bool.and_eq_true] at h
    have hrest : Quiet rest := quiet_of_all (fun d hd => by
      rcases Bool.or_eq_true _ _ ▸ hd with hd | hd
      · exact isControl_of_lower hd
      · exact isControl_of_contains (by decide) hd) h.2
    intro d hd
    rcases List.mem_cons.1 hd with rfl | hd
    · exact isControl_of_lower h.1.1
    · exact hrest d hd

theorem quiet_headerName (h : headerName s = true) : Quiet s := by
  rw [headerName, Bool.and_eq_true] at h
  refine quiet_of_all (fun c hc => ?_) h.2
  simp only [isHeaderChar, Bool.or_eq_true, decide_eq_true_eq] at hc
  rcases hc with (hc | hc) | rfl
  · exact isControl_of_alnum hc
  · exact isControl_of_contains (by decide) hc
  · decide

theorem quiet_plainText {max : Nat} (h : plainText s max = true) : Quiet s := by
  rw [plainText, Bool.and_eq_true] at h
  refine quiet_of_all (fun c hc => ?_) h.2
  simp only [Bool.and_eq_true, decide_eq_true_eq] at hc
  exact isControl_of_printable hc.1 hc.2

theorem URLs.quiet {u : ParsedURL} (h : urls.parse s = some u) (hmark : '#' ∉ s) : Quiet s := by
  have hbefore : s.takeWhile (· ≠ '#') = s := by
    rw [List.takeWhile_eq_self_iff]
    intro c hc
    refine decide_eq_true ?_
    rintro rfl
    exact hmark hc
  have hall := urls.noControl s u h
  rw [hbefore] at hall
  refine quiet_of_all (fun c hc => ?_) hall
  rwa [Bool.not_eq_true'] at hc

theorem quiet_origin (h : urls.validOrigin s = true) : Quiet s := by
  unfold URLs.validOrigin at h
  split at h
  · cases h
  · next u hu =>
    simp only [Bool.and_eq_true, decide_eq_true_eq] at h
    refine urls.quiet hu ?_
    rw [← h.2, List.mem_append]
    rintro (hmem | hmem)
    · exact absurd hmem (by decide)
    · exact urls.host_before s u hu hmem

theorem quiet_issuer (h : urls.validIssuer s = true) : Quiet s := by
  unfold URLs.validIssuer at h
  split at h
  · cases h
  · next u hu =>
    simp only [Bool.and_eq_true, Bool.not_eq_true'] at h
    refine urls.quiet hu fun hmem => ?_
    rw [List.contains_iff_mem.2 hmem] at h
    exact Bool.noConfusion h.2

theorem printed_append : printed (t ++ t') = printed t ++ printed t' := by
  induction t with
  | nil => rfl
  | cons p t ih =>
    cases p with
    | text s => rw [List.cons_append, printed, printed, ih, List.append_assoc]
    | placeholder name =>
      rw [List.cons_append, printed, printed, ih, ← List.append_assoc]

theorem quiet_start (fixed : List String) (hmem : (start, fixed) ∈ starts)
    (ht : Quiet (printed t)) : Quiet (printed (lit start :: t)) :=
  Quiet.append (quiet_iff.1 (starts_spec _ hmem).2.2) ht

theorem quiet_cons_text (h : Quiet s) (ht : Quiet (printed t)) : Quiet (printed (.text s :: t)) :=
  h.append ht

theorem quiet_placeholder (h : Quiet name.toList) (ht : Quiet (printed t)) :
    Quiet (printed (.placeholder name :: t)) := by
  have hopen : Quiet "<".toList := by decide
  have hclose : Quiet ">".toList := by decide
  exact ((hopen.append h).append hclose).append ht

theorem quiet_nil : Quiet (printed []) := by decide

theorem quiet_flatMap {sep : Template} {ts : List Template} (hsep : Quiet (printed sep))
    (h : ∀ t ∈ ts, Quiet (printed t)) : Quiet (printed (ts.flatMap (sep ++ ·))) := by
  induction ts with
  | nil => exact quiet_nil
  | cons t ts ih =>
    rw [List.flatMap_cons, printed_append, printed_append]
    exact (hsep.append (h t (List.mem_cons_self ..))).append
      (ih fun t' ht' => h t' (List.mem_cons_of_mem t ht'))

theorem quiet_download (hid : profileID r.id = true)
    (horigins : ∀ o ∈ r.origins, urls.validOrigin o = true)
    (hheaders : ∀ h ∈ r.headers, headerName h = true) :
    Quiet (printed ([lit " "].intercalate
      ([lit "local-base auth-profiles add ", .text (option "id" r.id)] ::
        (r.origins.map originOption ++ r.headers.map headerOption)))) := by
  rw [SplitOn.intercalate_eq, printed_append]
  refine Quiet.append ?_ (quiet_flatMap (by decide) fun t ht => ?_)
  · exact quiet_start ["auth-profiles", "add"] (by simp [starts]) (quiet_cons_text
      (quiet_option (by decide) (quiet_profileID hid)) quiet_nil)
  · rcases List.mem_append.1 ht with ht | ht
    · obtain ⟨o, ho, rfl⟩ := List.mem_map.1 ht
      exact quiet_cons_text (quiet_option (by decide) (quiet_origin (horigins o ho))) quiet_nil
    · obtain ⟨h, hh, rfl⟩ := List.mem_map.1 ht
      have hequals : Quiet "=".toList := by decide
      refine quiet_cons_text (Quiet.append ?_ hequals) (quiet_placeholder (by decide) quiet_nil)
      exact quiet_option (by decide) (quiet_headerName (hheaders h hh))

theorem quiet_oidc (hid : registrationID r.id = true) (hlabel : plainText r.label 100 = true)
    (hissuer : urls.validIssuer r.issuer = true) (hclient : plainText r.clientID 256 = true) :
    Quiet (printed [lit "local-base access oidc add ", .text (option "id" r.id), lit " ",
      .text (option "name" r.label), lit " ", .text (option "issuer" r.issuer), lit " ",
      .text (option "client-id" r.clientID), lit " --client-secret-env ",
      .placeholder "ENVIRONMENT_VARIABLE"]) := by
  have hspace : Quiet " ".toList := by decide
  refine quiet_start ["access", "oidc", "add"] (by simp [starts]) <|
    quiet_cons_text ?_ <| quiet_cons_text hspace <| quiet_cons_text ?_ <|
    quiet_cons_text hspace <| quiet_cons_text ?_ <|
    quiet_cons_text hspace <| quiet_cons_text ?_ <| quiet_cons_text (by decide) <|
    quiet_placeholder (by decide) quiet_nil
  · exact quiet_option (by decide) (quiet_registrationID hid)
  · exact quiet_option (by decide) (quiet_plainText hlabel)
  · exact quiet_option (by decide) (quiet_issuer hissuer)
  · exact quiet_option (by decide) (quiet_plainText hclient)

theorem quiet_command (h : putBackCommand urls r true = some t) : Quiet (printed t) := by
  unfold putBackCommand at h
  simp only [Bool.not_true, Bool.or_false, Bool.not_eq_true'] at h
  split at h
  · obtain rfl := (Option.some.inj h).symm
    exact quiet_start ["configure", "--hf-token"] (by simp [starts])
      (quiet_placeholder (by decide) quiet_nil)
  split at h
  · obtain rfl := (Option.some.inj h).symm
    exact quiet_start ["configure", "--otel-headers"] (by simp [starts])
      (quiet_placeholder (by decide) quiet_nil)
  split at h
  · obtain rfl := (Option.some.inj h).symm
    exact quiet_cons_text (quiet_iff.1 fixed_spec.2.2) quiet_nil
  split at h
  · split at h
    · cases h
    next hid =>
    obtain rfl := (Option.some.inj h).symm
    rw [Bool.not_eq_false] at hid
    exact quiet_start ["access", "github-oauth", "add"] (by simp [starts]) (quiet_cons_text
      (quiet_option (by decide) (quiet_registrationID hid)) quiet_nil)
  split at h
  · split at h
    · cases h
    next hvalid =>
    obtain rfl := (Option.some.inj h).symm
    rw [Bool.not_eq_false] at hvalid
    simp only [Bool.and_eq_true] at hvalid
    obtain ⟨⟨⟨⟨⟨hid, hlabel⟩, hissuer⟩, hclient⟩, -⟩, -⟩ := hvalid
    exact quiet_oidc hid hlabel hissuer hclient
  split at h
  · split at h
    · cases h
    next hid =>
    split at h
    · cases h
    next horigins =>
    split at h
    · cases h
    next hheaders =>
    obtain rfl := (Option.some.inj h).symm
    rw [Bool.not_eq_false] at hid horigins hheaders
    exact quiet_download hid (List.all_eq_true.1 horigins) (List.all_eq_true.1 hheaders)
  · cases h

end

/-- A backup puts no command in a shell: the command that is built from a file is read as the
fixed words of its kind and one word for each field, with the field's exact text, and it is
one line. -/
theorem putBackCommand_safe (urls : URLs) (r : RemovedSecret) (t : Template)
    (h : putBackCommand urls r true = some t) :
    (∀ fill : Nat → Text, (∀ n, plain (fill n) = true) →
      read (filled t fill) = .ok (commandWords r fill)) ∧
      ∀ c ∈ printed t, isControl c = false :=
  ⟨fun _ hfill => read_command_of h hfill, quiet_command h⟩

/-- `url.Parse`, of one issuer. -/
def oneIssuer : URLs where
  parse s :=
    if s = "https://a.example".toList then some ⟨httpsScheme, "a.example".toList, false, [], []⟩
    else none
  noControl s u h := by
    split at h
    · next hs =>
      subst hs
      decide
    · cases h
  host_before s u h := by
    split at h
    · cases h
      decide
    · cases h

/-- A provider whose name would run a command, were it not quoted. -/
def hostile : RemovedSecret where
  kind := kindOIDC
  id := "google".toList
  label := "it's $(rm -rf ~)".toList
  issuer := "https://a.example".toList
  clientID := "a;b".toList
  origins := []
  headers := []

theorem putBackCommand_safe_hostile : ∃ t, putBackCommand oneIssuer hostile true = some t ∧
    read (filled t fun _ => "SECRET".toList) =
      .ok (commandWords hostile fun _ => "SECRET".toList) ∧
    ∀ c ∈ printed t, isControl c = false := by
  obtain ⟨t, ht⟩ : ∃ t, putBackCommand oneIssuer hostile true = some t :=
    Option.isSome_iff_exists.1 (by decide)
  obtain ⟨hread, hline⟩ := putBackCommand_safe oneIssuer hostile t ht
  exact ⟨t, ht, hread _ fun _ => by decide, hline⟩

end LocalBase.Backup
