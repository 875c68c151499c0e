import LocalBase.Upgrade.Prepare

/-!
# Nothing runs that is not vouched for

The rule of each piece of `prepare`. What is run is the binary that was taken out of the
archive, and by then the archive had its hash and the hash its signature; what refuses
removes the directory; and what is handed on was run, and said the version of its tag.
-/

namespace LocalBase.Upgrade.Release

open Program

section
variable (sha256 : Bytes → Bytes) (read : Bytes → Archive) (ed25519 : Bytes → Bytes → Bytes → Bool)

/-- The binary of an archive whose hash is on a list that a key that counts has signed. -/
def Vouched (o : Options) (bytes : Bytes) : Prop :=
  ∃ key ∈ o.keys, ∃ checksums body archive binary e,
    Signed ed25519 key checksums ∧
    assetArchive o.goos o.goarch = some archive ∧ assetBinary o.goos o.goarch = some binary ∧
    findChecksum checksums (text archive) = some (sumText sha256 body) ∧
    findEntry (read body) binary = some e ∧ e.regular = true ∧ e.body = bytes

def Clean (o : Options) (w : World) : Prop :=
  ∀ run ∈ w.ran, Vouched sha256 read ed25519 o run.1

/-- What is to be swapped in: it was run, and said the version of its tag. -/
def Ready (o : Options) (c : Candidate) (w : World) : Prop :=
  ∃ new out version, w.new = some new ∧ (new, some out) ∈ w.ran ∧ c.sum = sumText sha256 new ∧
    parseVersion (trimSpace (trimSpace out)) = some version ∧ parseTag o.tag = some version

end

variable {sha256 : Bytes → Bytes} {read : Bytes → Archive}
  {ed25519 : Bytes → Bytes → Bytes → Bool} {o : Options} {w : World} {want : Version} {op : Op}
  {key : Key}

theorem safe_op {α : Type} {I : World → Prop} {Q : α → World → Prop} {f : Answer op → Steps α}
    (h : ∀ c, I (act sha256 w op c).2 ∧
      (f (act sha256 w op c).1).Safe (sem sha256) I Q (act sha256 w op c).2) :
    (perform op >>= f).Safe (sem sha256) I Q w := by
  intro c r t ht
  obtain ⟨rfl, rfl⟩ := Prod.mk.inj (Option.some.inj ht)
  exact h c

theorem ran_act (hop : op ≠ .runNew) (c : Choice) :
    (act sha256 w op c).2.ran = w.ran := by
  cases op with
  | runNew => exact absurd rfl hop
  | fetch | chmodDir | closeArchive | download | readArchive | writeNew | closeNew | chmodNew
  | sumNew => rfl
  | mkdirTemp | createArchive | createNew | removeArchive | removeAll =>
    cases c with
    | mk err => cases err <;> rfl

theorem Clean.act (h : Clean sha256 read ed25519 o w) (hop : op ≠ .runNew) (c : Choice) :
    Clean sha256 read ed25519 o (act sha256 w op c).2 := by
  intro run hrun
  rw [ran_act hop] at hrun
  exact h run hrun

theorem safe_quiet {α : Type} {Q : α → World → Prop} {f : Answer op → Steps α}
    (hop : op ≠ .runNew) (h : Clean sha256 read ed25519 o w)
    (hrest : ∀ c, Clean sha256 read ed25519 o (Release.act sha256 w op c).2 →
      (f (Release.act sha256 w op c).1).Safe (sem sha256) (Clean sha256 read ed25519 o) Q
        (Release.act sha256 w op c).2) :
    (perform op >>= f).Safe (sem sha256) (Clean sha256 read ed25519 o) Q w :=
  safe_op fun c => ⟨h.act hop c, hrest c (h.act hop c)⟩

theorem writeBinary_safe (h : Clean sha256 read ed25519 o w) (e : Entry) :
    (writeBinary e).Safe (sem sha256) (Clean sha256 read ed25519 o)
      (fun r t => Clean sha256 read ed25519 o t ∧ (r = none → t.new = some e.body)) w := by
  refine safe_quiet (by simp) h fun c hc => ?_
  cases hcreated : (act sha256 w .createNew c).1 with
  | some err => exact ⟨hc, fun hr => by cases hr⟩
  | none =>
    have hnew : (act sha256 w .createNew c).2.new = some [] := by
      have herr : c.err = none := hcreated
      simp [act, herr]
    generalize (act sha256 w .createNew c).2 = u at hc hnew
    refine safe_quiet (by simp) hc fun c hc => ?_
    have hwrote : (act sha256 u (.writeNew (e.body.take (maxBinaryBytes + 1))) c).1 = none →
        (act sha256 u (.writeNew (e.body.take (maxBinaryBytes + 1))) c).2.new =
          some (e.body.take (maxBinaryBytes + 1)) := by
      intro herr
      have herr' : c.err = none := herr
      simp [act, herr', hnew]
    generalize (act sha256 u (.writeNew (e.body.take (maxBinaryBytes + 1))) c) = x at hc hwrote
    obtain ⟨wrote, v⟩ := x
    simp only [] at hc hwrote ⊢
    refine safe_quiet (by simp) hc fun c hc => ?_
    cases hend : (wrote.or (if e.body.length ≤ maxBinaryBytes then e.broken else none)).or
        (act sha256 v .closeNew c).1 with
    | some err => exact ⟨hc, fun hr => by cases hr⟩
    | none =>
      simp only []
      split
      · exact ⟨hc, fun hr => by cases hr⟩
      · next hlimit =>
        have hnone : wrote = none :=
          (Option.or_eq_none_iff.mp (Option.or_eq_none_iff.mp hend).1).1
        have hwhole : v.new = some e.body := by
          rw [hwrote hnone, List.take_of_length_le (by omega)]
        refine safe_quiet (by simp) hc fun c hc => ?_
        exact ⟨hc, fun _ => hwhole⟩

theorem extract_safe (h : Clean sha256 read ed25519 o w) (a : Archive) (name : String) :
    (extract a name).Safe (sem sha256) (Clean sha256 read ed25519 o)
      (fun r t => Clean sha256 read ed25519 o t ∧ (r = none →
        ∃ e, findEntry a name = some e ∧ e.regular = true ∧ t.new = some e.body)) w := by
  unfold extract
  cases he : findEntry a name with
  | some e =>
    simp only []
    split
    · exact ⟨h, fun hr => by cases hr⟩
    · next hregular =>
      cases e.opens with
      | some err => exact ⟨h, fun hr => by cases hr⟩
      | none =>
        refine (writeBinary_safe h e).mono (fun _ hu => hu) ?_
        rintro r t ⟨ht, hnew⟩
        exact ⟨ht, fun hr => ⟨e, rfl, by simpa using hregular, hnew hr⟩⟩
  | none =>
    cases a.broken with
    | some err => exact ⟨h, fun hr => by cases hr⟩
    | none => exact ⟨h, fun hr => by cases hr⟩

theorem tryRun_safe (h : Clean sha256 read ed25519 o w) {new : Bytes} (hnew : w.new = some new)
    (hvouched : Vouched sha256 read ed25519 o new) (hwant : parseTag o.tag = some want) :
    (tryRun o want key).Safe (sem sha256) (Clean sha256 read ed25519 o)
      (fun r t => Clean sha256 read ed25519 o t ∧
        ∀ c, r = .ok c → Ready sha256 o c t) w := by
  refine safe_quiet (by simp) h fun c hc => ?_
  have hsame : (act sha256 w .sumNew c).2 = w := rfl
  rw [hsame]
  cases hsum : (act sha256 w .sumNew c).1 with
  | error err => exact ⟨h, fun _ hr => by cases hr⟩
  | ok sum =>
    have hsum' : sum = sumText sha256 new := by
      simp only [act, answered, hnew, Option.getD_some] at hsum
      split at hsum <;> cases hsum
      rfl
    refine safe_op fun c => ?_
    have hran : (act sha256 w .runNew c).2 =
        { w with ran := (new, if c.err.isNone then some c.body else none) :: w.ran } := by
      simp [act, hnew]
    have hclean : Clean sha256 read ed25519 o (act sha256 w .runNew c).2 := by
      rw [hran]
      intro run hrun
      rcases List.mem_cons.mp hrun with rfl | hrun
      · exact hvouched
      · exact h run hrun
    refine ⟨hclean, ?_⟩
    cases hout : (act sha256 w .runNew c).1 with
    | error err => exact ⟨hclean, fun _ hr => by cases hr⟩
    | ok out =>
      have hsaid : (new, some out) ∈ (act sha256 w .runNew c).2.ran := by
        simp only [act, answered] at hout
        split at hout <;> cases hout
        next herr => rw [hran]; simp [herr]
      have hnew' : (act sha256 w .runNew c).2.new = some new := by rw [hran]; exact hnew
      generalize (act sha256 w .runNew c).2 = u at hclean hsaid hnew'
      simp only []
      split
      · next hversion =>
        refine safe_quiet (by simp) hclean fun c hc => ⟨hc, fun cand hr => ?_⟩
        cases hr
        refine ⟨new, out, want, ?_, ?_, hsum', hversion, hwant⟩
        · cases c with
          | mk err => cases err <;> exact hnew'
        · rw [ran_act (by simp)]
          exact hsaid
      · exact ⟨hclean, fun _ hr => by cases hr⟩

theorem build_safe (h : Clean sha256 read ed25519 o w) {archive binary : String}
    {checksums wantSum : Bytes} (hkey : key ∈ o.keys) (hsigned : Signed ed25519 key checksums)
    (harchive : assetArchive o.goos o.goarch = some archive)
    (hbinary : assetBinary o.goos o.goarch = some binary)
    (hsum : findChecksum checksums (text archive) = some wantSum)
    (hwant : parseTag o.tag = some want) :
    (build sha256 read o want archive binary wantSum key).Safe (sem sha256)
      (Clean sha256 read ed25519 o)
      (fun r t => Clean sha256 read ed25519 o t ∧ ∀ c, r = .ok c → Ready sha256 o c t) w := by
  refine safe_quiet (by simp) h fun c hc => ?_
  generalize act sha256 w .createArchive c = x at hc
  obtain ⟨created, u⟩ := x
  cases created with
  | some err => exact ⟨hc, fun _ hr => by cases hr⟩
  | none =>
    refine safe_quiet (by simp) hc fun c hc => ?_
    -- What was summed is what was written.
    have hfile : ∀ bytes, (act sha256 u .download c).1 = .ok bytes →
        (act sha256 u .download c).2.archive = some bytes := by
      intro bytes hgot
      simp only [act, limited] at hgot ⊢
      split at hgot
      · cases hgot
      · split at hgot
        · cases hgot
        · cases hgot
          rw [List.take_of_length_le (by omega)]
    generalize act sha256 u .download c = x at hc hfile
    obtain ⟨got, v⟩ := x
    refine safe_quiet (by simp) hc fun c hc => ?_
    have hsame : (act sha256 v .closeArchive c).2 = v := rfl
    rw [hsame] at hc ⊢
    cases got with
    | error err => exact ⟨hc, fun _ hr => by cases hr⟩
    | ok bytes =>
      cases (act sha256 v .closeArchive c).1 with
      | some err => exact ⟨hc, fun _ hr => by cases hr⟩
      | none =>
        simp only []
        split
        · exact ⟨hc, fun _ hr => by cases hr⟩
        · next hmatch =>
          refine safe_quiet (by simp) hc fun c hc => ?_
          have hheld : v.archive = some bytes := hfile bytes rfl
          have hread : ∀ held, (act sha256 v .readArchive c).1 = .ok held →
              held = bytes := by
            intro held hok
            simp only [act, answered, hheld, Option.getD_some] at hok
            split at hok <;> cases hok
            rfl
          have hsame : (act sha256 v .readArchive c).2 = v := rfl
          rw [hsame]
          cases hheld : (act sha256 v .readArchive c).1 with
          | error err => exact ⟨hc, fun _ hr => by cases hr⟩
          | ok held =>
            obtain rfl := hread held hheld
            refine safe_bind ?_
            refine (extract_safe hc _ _).mono (fun _ ht => ht) ?_
            rintro r t ⟨ht, hfound⟩
            cases r with
            | some failure => exact ⟨ht, fun _ hr => by cases hr⟩
            | none =>
              obtain ⟨e, he, hregular, hnew⟩ := hfound rfl
              refine tryRun_safe ht hnew ?_ hwant
              refine ⟨key, hkey, checksums, held, archive, binary, e, hsigned,
                harchive, hbinary, ?_, he, hregular, rfl⟩
              rw [hsum, ← not_not.mp hmatch]

/-- What is left behind by what refuses. -/
def Gone (w : World) : Prop := w.dir = false ∨ w.notRemoved = true

theorem orRemove_safe (h : Clean sha256 read ed25519 o w) {c : Except Failure Candidate}
    (hready : ∀ cand, c = .ok cand → Ready sha256 o cand w) :
    (orRemove c).Safe (sem sha256) (Clean sha256 read ed25519 o)
      (fun r t => (∀ cand, r = .ok cand → Ready sha256 o cand t) ∧
        ∀ failure, r = .error failure → Gone t) w := by
  cases c with
  | ok cand => exact ⟨hready, fun _ hr => by cases hr⟩
  | error failure =>
    refine safe_quiet (by simp) h fun c hc => ⟨fun _ hr => (by cases hr), fun _ _ => ?_⟩
    cases c with
    | mk err => cases err with
      | none => exact Or.inl rfl
      | some err => exact Or.inr rfl

theorem prepareIn_safe (h : Clean sha256 read ed25519 o w) (hdir : w.dir = false)
    {archive binary : String} {checksums wantSum : Bytes} (hkey : key ∈ o.keys)
    (hsigned : Signed ed25519 key checksums)
    (harchive : assetArchive o.goos o.goarch = some archive)
    (hbinary : assetBinary o.goos o.goarch = some binary)
    (hsum : findChecksum checksums (text archive) = some wantSum)
    (hwant : parseTag o.tag = some want) :
    (prepareIn sha256 read o want archive binary wantSum key).Safe (sem sha256)
      (Clean sha256 read ed25519 o)
      (fun r t => (∀ cand, r = .ok cand → Ready sha256 o cand t) ∧
        ∀ failure, r = .error failure → Gone t) w := by
  refine safe_quiet (by simp) h fun c hc => ?_
  cases hmade : (act sha256 w .mkdirTemp c).1 with
  | some err =>
    refine ⟨fun _ hr => (by cases hr), fun _ _ => Or.inl ?_⟩
    have herr : c.err = some err := hmade
    simpa [act, herr] using hdir
  | none =>
    refine safe_quiet (by simp) hc fun c hc => ?_
    generalize act sha256 _ .chmodDir c = x at hc
    obtain ⟨changed, u⟩ := x
    cases changed with
    | some err => exact orRemove_safe hc fun _ hr => by cases hr
    | none =>
      refine safe_bind ?_
      refine (build_safe hc hkey hsigned harchive hbinary hsum hwant).mono (fun _ ht => ht) ?_
      rintro r t ⟨ht, hready⟩
      exact orRemove_safe ht hready

theorem prepare_safe (h : Clean sha256 read ed25519 o w) (hdir : w.dir = false) :
    (prepare sha256 read ed25519 o).Safe (sem sha256) (Clean sha256 read ed25519 o)
      (fun r t => (∀ cand, r = .ok cand → Ready sha256 o cand t) ∧
        ∀ failure, r = .error failure → Gone t) w := by
  have hearly : ∀ failure : Failure,
      (Prog.done (Except.error failure) : Steps (Except Failure Candidate)).Safe (sem sha256)
        (Clean sha256 read ed25519 o)
        (fun r t => (∀ cand, r = .ok cand → Ready sha256 o cand t) ∧
          ∀ failure, r = .error failure → Gone t) w :=
    fun failure => ⟨fun _ hr => (by cases hr), fun _ _ => Or.inl hdir⟩
  unfold prepare
  split
  · exact hearly _
  · split
    · next archive binary want harchive hbinary hwant =>
      refine safe_quiet (by simp) h fun c _ => ?_
      have hsame : (act sha256 w (.fetch maxChecksumBytes) c).2 = w := rfl
      rw [hsame]
      cases (act sha256 w (.fetch maxChecksumBytes) c).1 with
      | error err => exact hearly _
      | ok checksums =>
        refine safe_quiet (by simp) h fun c _ => ?_
        have hsame : (act sha256 w (.fetch maxSignatureBytes) c).2 = w := rfl
        rw [hsame]
        cases (act sha256 w (.fetch maxSignatureBytes) c).1 with
        | error err => exact hearly _
        | ok sig =>
          simp only []
          cases hverified : verifySignature ed25519 checksums sig o.keys with
          | none => exact hearly _
          | some key =>
            obtain ⟨hkey, hsigned⟩ := verifySignature_spec hverified
            simp only []
            cases hsum : findChecksum checksums (text archive) with
            | none => exact hearly _
            | some wantSum =>
              exact prepareIn_safe h hdir hkey hsigned harchive hbinary hsum hwant
    · exact hearly _
    · exact hearly _

/-- In every run of the command, whatever is served and wherever it fails or is cut off:
nothing was run that is not vouched for; a refusal leaves no directory behind, unless the
removal itself failed; and what is to be swapped in was run, said the version of its tag,
and is newer than what runs unless a downgrade was allowed. -/
theorem nothing_unvouched {current : Bytes} {allowDowngrade : Bool} {cs : List Choice}
    {left : Steps (Except Refusal Candidate)}
    (h : (upgrade sha256 read ed25519 current allowDowngrade o).after (sem sha256) {} cs =
      some (left, w)) :
    (∀ run ∈ w.ran, Vouched sha256 read ed25519 o run.1) ∧
      (∀ why, left = .done (.error why) → Gone w) ∧
      ∀ c, left = .done (.ok c) → Ready sha256 o c w ∧
        (allowDowngrade = false → ∃ cur got, parseVersion current = some cur ∧
          parseTag o.tag = some got ∧ cur.less got = true) := by
  have hsafe : (upgrade sha256 read ed25519 current allowDowngrade o).Safe (sem sha256)
      (Clean sha256 read ed25519 o)
      (fun r t => (∀ why, r = .error why → Gone t) ∧ ∀ c, r = .ok c → Ready sha256 o c t ∧
        (allowDowngrade = false → ∃ cur got, parseVersion current = some cur ∧
          parseTag o.tag = some got ∧ cur.less got = true)) {} := by
    unfold upgrade
    split
    · exact ⟨fun _ _ => Or.inl rfl, fun _ hr => by cases hr⟩
    · split
      · exact ⟨fun _ _ => Or.inl rfl, fun _ hr => by cases hr⟩
      · next hdecided =>
        refine safe_bind ?_
        have hstart : Clean sha256 read ed25519 o {} := fun run hrun => by cases hrun
        refine (prepare_safe hstart rfl).mono (fun _ ht => ht) ?_
        rintro r t ⟨hready, hgone⟩
        cases r with
        | error failure => exact ⟨fun _ _ => hgone failure rfl, fun _ hr => by cases hr⟩
        | ok cand =>
          refine ⟨fun _ hr => (by cases hr), fun c hr => ?_⟩
          cases hr
          refine ⟨hready cand rfl, fun hallow => ?_⟩
          subst hallow
          obtain ⟨cur, got, hcur, hgot, hless⟩ := newer_of_decided hdecided
          obtain ⟨-, -, version, -, -, -, -, htag⟩ := hready cand rfl
          refine ⟨cur, got, hcur, ?_, hless⟩
          rw [← hgot, ← parseTag_drop (by rw [htag]; rfl)]
  have hstart : Clean sha256 read ed25519 o {} := fun run hrun => by cases hrun
  refine ⟨hsafe.after hstart h, fun why hleft => ?_, fun c hleft => ?_⟩
  · subst hleft
    exact (hsafe.ends h).1 why rfl
  · subst hleft
    exact (hsafe.ends h).2 c rfl

/-- A key, a list it signed, and an archive of one file. -/
def oneKey : Options where
  tag := text "v1.2.0"
  goos := "linux"
  goarch := "amd64"
  keys := [⟨text "k", List.replicate 43 65 ++ [61], false⟩]

def oneArchive : Bytes → Archive := fun _ =>
  { entries := [⟨text "local-base-linux-x64", true, none, [7], none⟩] }

def served : List Choice :=
  [{ body := List.replicate 64 48 ++ text "  local-base-linux-x64.tar.gz\n" },
    { body := text "k " ++ List.replicate 86 65 ++ [61, 61, 10] }, {}, {}, {}, { body := [1, 2] },
    {}, {}, {}, {}, {}, {}, {}, { body := text "1.2.0\n" }, {}]

theorem one_key_vouched :
    ∃ c w, (upgrade (fun _ => List.replicate 32 0) oneArchive (fun _ _ _ => true) (text "1.1.9")
        false oneKey).after (sem fun _ => List.replicate 32 0) {} served =
          some (.done (.ok c), w) ∧
      Ready (fun _ => List.replicate 32 0) oneKey c w := by
  have h : (upgrade (fun _ => List.replicate 32 0) oneArchive (fun _ _ _ => true) (text "1.1.9")
      false oneKey).after (sem fun _ => List.replicate 32 0) {} served =
        some (.done (.ok ⟨text "1.2.0", List.replicate 64 48, text "k"⟩),
          { dir := true, new := some [7], ran := [([7], some (text "1.2.0\n"))] }) := rfl
  exact ⟨_, _, h, ((nothing_unvouched h).2.2 _ rfl).1⟩

end LocalBase.Upgrade.Release
