import Mathlib.Data.Fintype.Basic
import LocalBase.Acquire.Download

/-!
# An unpinned download is one object

A call that returns success leaves the bytes of one version. The partial is
always the beginning of the version it was last begun with (`Begun`), and the
validator beside it names no other one (`Tells`). The second can be lost in
two windows: a validator is written before the partial is truncated for it,
and a validator that could not be written leaves that of an older object. And
a partial that holds as much as is expected is taken to be complete, although
the version it began with may be longer. `Careful` says that the steps of a run
stay out of the three.
-/

namespace LocalBase.Acquire

open Program

variable {V : Type} {server : Server V} {k : Kind} {w t : World V} {v : V}

/-- The bytes of the partial, none where there is no file. -/
def World.part (w : World V) : Bytes := w.file.getD []

/-- The validator names no version that the partial is not the beginning of. -/
def Tells (server : Server V) (w : World V) : Prop :=
  ∀ v, w.validator = some (server.validator v) → w.part <+: server.bytes v

/-- The partial is the beginning of the version it was last begun with. -/
def Begun (server : Server V) (w : World V) : Prop :=
  w.part = [] ∨ ∃ v, w.begun = some v ∧ w.part <+: server.bytes v

/-- The operation fails before it has changed anything. -/
def Choice.refuses : Choice V → Bool
  | .fails _ => true
  | _ => false

structure Sound (server : Server V) (w : World V) : Prop where
  tells : Tells server w
  begun : Begun server w

/-- Where the steps of a call may go wrong. A validator that names the object
of a response is not refused while the file has that of another; a partial that
has another object's validator by now is not refused its opening; and a partial
of as many bytes as are expected is not found where the version it began with
is longer. -/
def Careful (server : Server V) (k : Kind) (w : World V) (o : Op) (c : Choice V) : Prop :=
  match o with
  | .writeValidator text => c.refuses = true → usable text = true →
      ∀ v, w.validator = some (server.validator v) → server.validator v = text
  | .openPartial truncate => c.refuses = true → truncate = true → Tells server w
  | .stat => 0 < k.expected → w.part.length = k.expected →
      ∀ v, w.begun = some v → (server.bytes v).length ≤ k.expected
  | _ => True

/-! ## Single operations -/

theorem sound_of_part (h : w.part = []) : Sound server w :=
  ⟨fun _ _ => h ▸ List.nil_prefix, .inl h⟩

theorem Begun.same (h : Begun server w) (hf : t.file = w.file) (hb : t.begun = w.begun) :
    Begun server t := by
  have hpart : t.part = w.part := by rw [World.part, hf, World.part]
  rw [Begun, hpart, hb]
  exact h

theorem Tells.same (h : Tells server w) (hf : t.file = w.file) (hv : t.validator = w.validator) :
    Tells server t := by
  have hpart : t.part = w.part := by rw [World.part, hf, World.part]
  rw [Tells, hpart, hv]
  exact h

theorem Sound.same (h : Sound server w) (hf : t.file = w.file) (hb : t.begun = w.begun)
    (hv : t.validator = w.validator) : Sound server t :=
  ⟨h.tells.same hf hv, h.begun.same hf hb⟩

theorem Sound.unnamed (h : Sound server w) (hf : t.file = w.file) (hb : t.begun = w.begun)
    (hv : ∀ v, t.validator ≠ some (server.validator v)) : Sound server t :=
  ⟨fun v hn => absurd hn (hv v), h.begun.same hf hb⟩

theorem validator_ne (server : Server V) {text : String} (h : usable text = false) (v : V) :
    text ≠ server.validator v := by
  rintro rfl
  have hs := server.strong v
  rw [Server.validator] at h
  rw [h] at hs
  cases hs

/-- The calls' operations, where they are careful. -/
noncomputable def carefully (server : Server V) (k : Kind) : Sem Answer (World V) (Choice V) :=
  @Sem.under _ _ _ _ (act server) (Careful server k) fun _ _ _ => Classical.propDecidable _

/-- Whatever happens, the partial is the beginning of what it was begun with,
and this is so at the end. -/
abbrev Ends {α : Type} (server : Server V) (k : Kind) (Q : α → World V → Prop) (p : Steps α)
    (w : World V) : Prop :=
  p.Safe (carefully server k) (Begun server) Q w

theorem ends_op {α : Type} {Q : α → World V → Prop} {o : Op} {f : Answer o → Steps α}
    (h : ∀ c r t, Careful server k w o c → act server w o c = some (r, t) →
      Begun server t ∧ Ends server k Q (f r) t) :
    Ends server k Q (perform o >>= f) w := by
  intro c r t hact
  obtain ⟨hg, hact⟩ :=
    (@under_eq_some _ _ _ _ _ _ _ (fun _ _ _ => Classical.propDecidable _) _ _ _).mp hact
  exact h c r t hg hact

theorem remove_step {c : Choice V} {r : Answer .remove}
    (h : act server w .remove c = some (r, t)) : t = { w with file := none } ∨ t = w := by
  cases c <;> cases h
  · exact .inl rfl
  · exact .inr rfl

theorem clear_step {c : Choice V} {r : Answer .clearValidator}
    (h : act server w .clearValidator c = some (r, t)) :
    t = { w with validator := none } ∨ t = w := by
  cases c <;> cases h
  · exact .inl rfl
  · exact .inr rfl

theorem writeValidator_step {c : Choice V} {text : String} {r : Answer (.writeValidator text)}
    (h : act server w (.writeValidator text) c = some (r, t)) :
    t = { w with validator := some text } ∨ t = w ∧ ∃ err, c = .fails err := by
  cases c <;> cases h
  · exact .inl rfl
  · exact .inr ⟨rfl, _, rfl⟩

theorem quiet_step {c : Choice V} {o : Op} {r : Answer o}
    (ho : o = .stat ∨ o = .readValidator ∨ o = .notice ∨ o = .read ∨ o = .freeSpace ∨ o = .close)
    (h : act server w o c = some (r, t)) : t = w := by
  obtain rfl | rfl | rfl | rfl | rfl | rfl := ho
  all_goals cases c <;> cases h <;> rfl

theorem Sound.remove (h : Sound server w) {c : Choice V} {r : Answer .remove}
    (hact : act server w .remove c = some (r, t)) : Sound server t := by
  rcases remove_step hact with rfl | rfl
  · exact sound_of_part rfl
  · exact h

theorem Sound.clear (h : Sound server w) {c : Choice V} {r : Answer .clearValidator}
    (hact : act server w .clearValidator c = some (r, t)) :
    Sound server t ∧ t.file = w.file := by
  rcases clear_step hact with rfl | rfl
  · exact ⟨h.unnamed rfl rfl fun v => by simp, rfl⟩
  · exact ⟨h, rfl⟩

/-! ## Receiving a body -/

/-- The validator names no version but this one. -/
def Names (server : Server V) (v : V) (w : World V) : Prop :=
  ∀ v', w.validator = some (server.validator v') → v' = v

/-- The partial was begun with a version, and lacks its last bytes. -/
structure Receiving (server : Server V) (v : V) (pending : Bytes) (w : World V) : Prop where
  bytes : server.bytes v = w.part ++ pending
  begun : w.begun = some v
  names : Names server v w
  file : w.file = some w.part

theorem Receiving.sound {pending : Bytes} (h : Receiving server v pending w) : Sound server w := by
  have hpre : w.part <+: server.bytes v := ⟨pending, h.bytes.symm⟩
  exact ⟨fun v' hv' => h.names v' hv' ▸ hpre, .inr ⟨v, h.begun, hpre⟩⟩

theorem Receiving.write {piece pending : Bytes} (h : Receiving server v (piece ++ pending) w) :
    Receiving server v pending { w with file := some (w.file.getD [] ++ piece) } where
  bytes := by rw [h.bytes, ← List.append_assoc]; rfl
  begun := h.begun
  names := h.names
  file := rfl

/-- What a call leaves: a sound partial, and on success one version. -/
structure Left (server : Server V) (failure : Option Failure) (w : World V) : Prop where
  sound : Sound server w
  whole : failure = none → ∃ v, w.file = some (server.bytes v)

theorem Left.fails (h : Sound server w) (failure : Failure) : Left server (some failure) w :=
  ⟨h, fun he => absurd he (Option.some_ne_none _)⟩

theorem check_ends {b : Budget} {done : Nat} {Q : Option Refused × Budget → World V → Prop}
    (h : ∀ r, Q r w) (hw : Begun server w) : Ends server k Q (b.check done) w := by
  unfold Budget.check
  split
  · exact h _
  · split
    · exact h _
    · refine ends_op fun c r t _ hact => ?_
      obtain rfl := quiet_step (by simp) hact
      refine ⟨hw, ?_⟩
      cases r with
      | none => exact h _
      | some free =>
        dsimp only
        split <;> exact h _

theorem keep_ends {b : Budget} {done : Nat} {piece pending : Bytes}
    (h : Receiving server v (piece ++ pending) w) :
    Ends server k (fun r t => Sound server t ∧
      ∀ x, r = .ok x → Receiving server v pending t) (keep k b done piece) w := by
  unfold keep
  split
  · next hp =>
    subst hp
    exact ⟨h.sound, fun _ _ => h⟩
  · refine ends_op fun c r t hcareful hact => ?_
    clear hcareful
    cases c <;> cases hact
    · have hnow := h.write
      refine ⟨hnow.sound.begun, ?_⟩
      dsimp only
      split
      · exact ⟨hnow.sound, fun _ hx => by cases hx⟩
      · refine safe_bind (check_ends (fun r => ?_) hnow.sound.begun)
        obtain ⟨low, b⟩ := r
        cases low with
        | some why => exact ⟨hnow.sound, fun _ hx => by cases hx⟩
        | none => exact ⟨hnow.sound, fun _ _ => hnow⟩
    · next n err =>
      have hnow : Receiving server v (piece.drop n ++ pending)
          { w with file := some (w.file.getD [] ++ piece.take n) } :=
        Receiving.write (by rwa [← List.append_assoc, List.take_append_drop])
      exact ⟨hnow.sound.begun, hnow.sound, fun _ hx => by cases hx⟩

theorem receive_ends {b : Budget} {done : Nat} {piece body : Bytes}
    (h : Receiving server v (piece ++ body) w) :
    Ends server k (Left server) (receive k b done piece body) w := by
  induction body generalizing w b done piece with
  | nil =>
    refine ends_op fun c r t _ hact => ?_
    obtain rfl := quiet_step (by simp) hact
    refine ⟨h.sound.begun, safe_bind ((keep_ends h).mono (fun _ => id) ?_)⟩
    rintro (failure | x) t ⟨hs, hok⟩
    · exact .fails hs failure
    · have hrec := hok x rfl
      have hwhole : t.file = some (server.bytes v) := by
        rw [hrec.file, hrec.bytes, List.append_nil]
      cases r with
      | more => exact ⟨hs, fun _ => ⟨v, hwhole⟩⟩
      | ends => exact ⟨hs, fun _ => ⟨v, hwhole⟩⟩
      | failed err => exact .fails hs _
  | cons byte rest ih =>
    have hpiece : Receiving server v ((piece ++ [byte]) ++ rest) w := by simpa using h
    refine ends_op fun c r t _ hact => ?_
    obtain rfl := quiet_step (by simp) hact
    refine ⟨h.sound.begun, ?_⟩
    cases r with
    | more => exact ih hpiece
    | ends =>
      refine safe_bind ((keep_ends hpiece).mono (fun _ => id) ?_)
      rintro (failure | ⟨b, done⟩) t ⟨hs, hok⟩
      · exact .fails hs failure
      · exact ih (hok _ rfl)
    | failed err =>
      refine safe_bind ((keep_ends h).mono (fun _ => id) ?_)
      rintro (failure | x) t ⟨hs, _⟩
      · exact .fails hs failure
      · exact .fails hs _

theorem settle_ends {failure : Option Failure} (h : Left server failure w) :
    Ends server k (Left server) (settle failure) w := by
  unfold settle
  split
  · next why =>
    refine ends_op fun c r t _ hact => ?_
    have hs := h.sound.remove hact
    refine ⟨hs.begun, ends_op fun c r u _ hact => ?_⟩
    have hu := (hs.clear hact).1
    exact ⟨hu.begun, .fails hu _⟩
  · exact h
  · refine ends_op fun c r t _ hact => ?_
    obtain ⟨hs, hfile⟩ := h.sound.clear hact
    exact ⟨hs.begun, hs, fun _ => hfile ▸ h.whole rfl⟩

theorem receiveAll_ends {truncate : Bool} {offset : Nat} {body : Bytes}
    (hw : Begun server w) (htells : truncate = false → Tells server w)
    (hserving : w.serving = some v) (hnames : Names server v w)
    (hbytes : server.bytes v = (if truncate then [] else w.part) ++ body) :
    Ends server k (Left server) (receiveAll k truncate offset body) w := by
  refine ends_op fun c r t hcareful hact => ?_
  cases c <;> cases hact
  · have hrec : Receiving server v ([] ++ body)
        ⟨some (if truncate then [] else w.part), w.validator, w.serving, w.serving⟩ :=
      ⟨hbytes, hserving, hnames, rfl⟩
    refine ⟨hrec.sound.begun, safe_bind ((receive_ends hrec).mono (fun _ => id) ?_)⟩
    intro failure t hleft
    refine ends_op fun c r u _ hact => ?_
    obtain rfl := quiet_step (by simp) hact
    refine ⟨hleft.sound.begun, settle_ends ⟨hleft.sound, fun hnone => hleft.whole ?_⟩⟩
    exact (Option.or_eq_none_iff.mp hnone).1
  · have htells' : Tells server w := by
      cases truncate with
      | false => exact htells rfl
      | true => exact hcareful rfl rfl
    exact ⟨hw, .fails ⟨htells', hw⟩ _⟩
  · cases truncate with
    | false => exact ⟨hw, .fails ⟨htells rfl, hw⟩ _⟩
    | true =>
      have hs : Sound server { w with file := some [] } := sound_of_part rfl
      exact ⟨hs.begun, .fails hs _⟩

/-! ## One attempt -/

abbrev Tried (server : Server V) (a : Attempt) (t : World V) : Prop :=
  Sound server t ∧ ∀ failure, a = .over failure → Left server failure t

theorem Tried.again (h : Sound server w) : Tried server .again w :=
  ⟨h, fun _ he => by cases he⟩

theorem Tried.fails (h : Sound server w) (failure : Failure) :
    Tried server (.over (some failure)) w :=
  ⟨h, fun _ he => by cases he; exact .fails h failure⟩

/-- A response that is the whole of a version: its validator is written, and
the partial is begun anew. -/
theorem whole_ends {text : String} (hw : Sound server w) (hserving : w.serving = some v) :
    Ends server k (Tried server)
      (do
        if usable (server.validator v) ∨ text ≠ validatorNoticed then
          writeValidator (server.validator v)
        let failure ← receiveAll k true 0 (server.bytes v)
        return Attempt.over failure) w := by
  have hrest : ∀ u, Begun server u → u.serving = some v → Names server v u →
      Ends server k (Tried server)
        (receiveAll k true 0 (server.bytes v) >>= fun failure => pure (.over failure)) u := by
    intro u hu hs hn
    refine safe_bind ((receiveAll_ends hu (fun h => by cases h) hs hn rfl).mono (fun _ => id) ?_)
    intro failure t hleft
    exact ⟨hleft.sound, fun _ he => by cases he; exact hleft⟩
  dsimp only
  rw [if_pos (.inl (server.strong v))]
  refine ends_op fun c r t hcareful hact => ?_
  rcases writeValidator_step hact with rfl | ⟨rfl, err, rfl⟩
  · have hbegun := hw.begun.same (t := { w with validator := some (server.validator v) }) rfl rfl
    exact ⟨hbegun, hrest _ hbegun hserving fun v' hv' =>
      (server.own _ _ (Option.some.inj hv')).symm⟩
  · refine ⟨hw.begun, hrest _ hw.begun hserving fun v' hv' => ?_⟩
    exact server.own _ _ (hcareful rfl (server.strong v) v' hv')

theorem removed_ends (h : Sound server w) :
    Ends server k (Tried server) (remove >>= fun _ => pure .again) w := by
  refine ends_op fun c r t _ hact => ?_
  have ht := h.remove hact
  exact ⟨ht.begun, .again ht⟩

/-- The whole of a version, as a response. -/
def Server.whole (server : Server V) (v : V) : Response :=
  ⟨200, none, server.etag v, server.modified v, server.bytes v⟩

/-- What comes of asking for a range by a validator: the whole, or the range of
the version it names, or nothing of it. -/
theorem respond_ranged (server : Server V) (v : V) (ranged : Bool) (start : Nat) (text : String) :
    let resp := server.respond v ranged (some start) (some text)
    resp = server.whole v ∨ text = server.validator v ∧ resp.etag = server.etag v ∧
      resp.modified = server.modified v ∧
      (resp.status = 206 ∧ resp.contentRange = some (toString start) ∧
          resp.body = (server.bytes v).drop start ∨ resp.status = 416) := by
  intro resp
  by_cases h : ranged ∧ (some text = none ∨ some text = some (server.validator v))
  · have htext : text = server.validator v := by simpa using h.2
    by_cases hlt : start < (server.bytes v).length
    · have hr : resp = { server.whole v with
          status := 206, contentRange := some (toString start)
          body := (server.bytes v).drop start } := by
        simp only [resp, Server.respond, if_pos h, if_pos hlt, Server.whole]
      exact .inr ⟨htext, by rw [hr]; rfl, by rw [hr]; rfl, .inl (by rw [hr]; exact ⟨rfl, rfl, rfl⟩)⟩
    · have hr : resp = { server.whole v with status := 416, body := [] } := by
        simp only [resp, Server.respond, if_pos h, if_neg hlt, Server.whole]
      exact .inr ⟨htext, by rw [hr]; rfl, by rw [hr]; rfl, .inr (by rw [hr])⟩
  · left
    simp only [resp, Server.respond, if_neg h, Server.whole]

theorem received_ends {truncate : Bool} {offset : Nat} {body : Bytes}
    (h : Ends server k (Left server) (receiveAll k truncate offset body) w) :
    Ends server k (Tried server)
      (receiveAll k truncate offset body >>= fun failure => pure (.over failure)) w := by
  refine safe_bind (h.mono (fun _ => id) ?_)
  intro failure t hleft
  exact ⟨hleft.sound, fun _ he => by cases he; exact hleft⟩

theorem fetch_ends {offset : Nat} {validator : String} (hw : Sound server w)
    (hoffset : 0 < offset → offset = w.part.length ∧ usable validator = true ∧
      w.validator = some validator) :
    Ends server k (Tried server) (fetch k offset validator) w := by
  refine ends_op fun c r t hcareful hact => ?_
  clear hcareful
  cases c <;> simp only [act, reduceCtorEq, Option.some.injEq, Prod.mk.injEq] at hact
  · obtain ⟨rfl, rfl⟩ := hact
    exact ⟨hw.begun, .fails hw _⟩
  · next v ranged =>
    obtain ⟨rfl, rfl⟩ := hact
    have hs : Sound server { w with serving := some v } := hw.same rfl rfl rfl
    refine ⟨hs.begun, ?_⟩
    by_cases hpos : 0 < offset
    · obtain ⟨hlen, husable, hnamed⟩ := hoffset hpos
      simp only [hpos, husable, and_self, if_true]
      rcases respond_ranged server v ranged offset validator with
        hr | ⟨htext, hetag, hmod, ⟨hst, hrange, hbody⟩ | hst⟩
      · rw [hr]
        exact whole_ends hs rfl
      · have hnow : validatorOf (server.etag v) (server.modified v) = validator := htext.symm
        simp only [hst, hrange, hetag, hmod, hnow, hbody, ne_eq, not_true, and_false, and_true,
          if_false, if_true]
        have hpre : w.part <+: server.bytes v := hw.tells v (hnamed.trans (congrArg _ htext))
        have hjoin : server.bytes v = w.part ++ (server.bytes v).drop offset := by
          obtain ⟨rest, hrest⟩ := hpre
          rw [hlen, ← hrest, List.drop_left]
        refine received_ends
          (receiveAll_ends (v := v) hs.begun (fun _ => hs.tells) rfl (fun v' hv' => ?_) ?_)
        swap
        · exact hjoin
        have hsame : server.validator v = server.validator v' := by
          rw [← htext]
          exact Option.some.inj (hnamed.symm.trans hv')
        exact (server.own _ _ hsame).symm
      · simp only [hst]
        exact removed_ends hs
    · simp only [hpos, false_and, if_false]
      exact whole_ends hs rfl
  · next code =>
    split at hact
    · cases hact
    · next hcode =>
      obtain ⟨rfl, rfl⟩ := hact
      simp only [not_or] at hcode
      refine ⟨hw.begun, ?_⟩
      simp only [hcode.1, hcode.2.1, hcode.2.2, false_and, if_false]
      exact Tried.fails hw _

/-! ## A call -/

theorem resumeFrom_ends {offset : Nat} (hw : Sound server w) (hpin : k.pinned = false)
    (hoffset : 0 < offset → offset = w.part.length) :
    Ends server k (Tried server) (resumeFrom k offset) w := by
  refine ends_op fun c r t _ hact => ?_
  obtain rfl := quiet_step (by simp) hact
  refine ⟨hw.begun, ?_⟩
  dsimp only
  split
  · -- The partial is given up, or stays with a validator that names nothing.
    have hgive : ∀ u, Sound server u → Ends server k (Tried server)
        (remove >>= fun _ => writeValidator validatorNoticed >>= fun _ =>
          fetch k 0 validatorNoticed) u := by
      intro u hu
      refine ends_op fun c r t _ hact => ?_
      have ht := hu.remove hact
      refine ⟨ht.begun, ends_op fun c r x _ hact => ?_⟩
      have hx : Sound server x := by
        rcases writeValidator_step hact with rfl | ⟨rfl, _⟩
        · exact ht.unnamed rfl rfl fun v hv =>
            validator_ne server (by decide) v (Option.some.inj hv)
        · exact ht
      exact ⟨hx.begun, fetch_ends hx fun h => absurd h (Nat.lt_irrefl 0)⟩
    split
    · refine ends_op fun c r u _ hact => ?_
      obtain rfl := quiet_step (by simp) hact
      exact ⟨hw.begun, hgive _ hw⟩
    · exact hgive _ hw
  · next hkept =>
    refine fetch_ends hw fun hpos => ⟨hoffset hpos, ?_⟩
    have husable : usable r = true := by simpa [hpos, hpin] using hkept
    refine ⟨husable, ?_⟩
    cases c <;> cases hact
    · cases hv : t.validator with
      | none => rw [hv] at husable; cases husable
      | some text => rfl
    · cases husable

theorem attempt_ends (hw : Sound server w) (hpin : k.pinned = false) :
    Ends server k (Tried server) (attempt k) w := by
  refine ends_op fun c r t hcareful hact => ?_
  obtain rfl := quiet_step (by simp) hact
  have hsize : r.getD 0 = 0 ∨ r.getD 0 = t.part.length := by
    cases c <;> cases hact
    · right
      unfold World.part
      cases t.file <;> rfl
    · exact .inl rfl
  refine ⟨hw.begun, ?_⟩
  dsimp only
  split
  · refine ends_op fun c r u _ hact => ?_
    have hu := hw.remove hact
    exact ⟨hu.begun, resumeFrom_ends hu hpin fun h => absurd h (Nat.lt_irrefl 0)⟩
  · split
    · next hfull =>
      have hlen : t.part.length = k.expected := by omega
      obtain hnil | ⟨v, hbegun, hpre⟩ := hw.begun
      · rw [hnil] at hlen
        have : (0 : Nat) = k.expected := hlen
        omega
      · have hwhole : t.part = server.bytes v :=
          hpre.eq_of_length_le (hlen.symm ▸ hcareful hfull.1 hlen v hbegun)
        have hfile : t.file = some (server.bytes v) := by
          rw [← hwhole, World.part]
          cases hf : t.file with
          | none => simp [World.part, hf] at hlen; omega
          | some bytes => rfl
        refine ends_op fun c r u _ hact => ?_
        obtain ⟨hu, hsame⟩ := hw.clear hact
        refine ⟨hu.begun, hu, fun failure _ => ⟨hu, fun _ => ⟨v, hsame.trans hfile⟩⟩⟩
    · exact resumeFrom_ends hw hpin fun hpos => by omega

theorem download_ends (hw : Sound server w) (hpin : k.pinned = false) :
    Ends server k (Left server) (download k) w := by
  refine safe_bind ((attempt_ends hw hpin).mono (fun _ => id) ?_)
  rintro (_ | failure) t ⟨ht, hover⟩
  · refine safe_bind ((attempt_ends ht hpin).mono (fun _ => id) ?_)
    rintro (_ | failure) u ⟨hu, hover⟩
    · exact .fails hu _
    · exact hover failure rfl
  · exact hover failure rfl

/-! ## Any number of calls -/

/-- Calls are cut off only while the validator tells of the partial. -/
abbrev Kept (server : Server V) :
    Moment Answer (World V) Kind (Option Failure) → Event Kind (Choice V) → Prop :=
  Shop.Guard (Careful server) (Tells server)

/-- A call that returns success leaves the bytes of one version, in every run
whose steps are careful and which no cut leaves with a validator of something
else. -/
theorem success_leaves_one_version {m : Moment Answer (World V) Kind (Option Failure)}
    (h : Machine.ReachesUnder ((downloads server).machine Fresh) (Kept server) m)
    {c : Call Answer (World V) Kind (Option Failure)} (hc : m.call = some c)
    (hr : c.left = .done none) : ∃ v, m.now.file = some (server.bytes v) := by
  classical
  obtain ⟨_, hcall⟩ := Shop.follows_under (S := Sound server) (I := fun _ _ => Begun server)
    (Q := fun _ _ => Left server) (fun w hw => sound_of_part (by rw [hw]; rfl))
    (fun w k t hw ht => by
      simp only [downloads] at ht
      split at ht
      · cases ht
      · next hpin =>
        cases ht
        exact ⟨hw.begun, download_ends hw (by simpa using hpin)⟩)
    (fun _ _ _ hb ht => ⟨ht, hb⟩) (fun _ _ _ _ _ hl => hl.sound) h
  have hsafe := (hcall c hc).2
  rw [hr] at hsafe
  exact hsafe.whole rfl

/-! ### A crash between the validator and the truncation -/

instance decidableTells [Fintype V] (w : World V) : Decidable (Tells server w) :=
  inferInstanceAs
    (Decidable (∀ v, w.validator = some (server.validator v) → w.part <+: server.bytes v))

instance decidableCareful [DecidableEq V] [Fintype V] (k : Kind) (w : World V) (o : Op)
    (c : Choice V) : Decidable (Careful server k w o c) :=
  match o with
  | .writeValidator text => inferInstanceAs (Decidable (c.refuses = true → usable text = true →
      ∀ v, w.validator = some (server.validator v) → server.validator v = text))
  | .openPartial truncate =>
    inferInstanceAs (Decidable (c.refuses = true → truncate = true → Tells server w))
  | .stat => inferInstanceAs (Decidable (0 < k.expected → w.part.length = k.expected →
      ∀ v, w.begun = some v → (server.bytes v).length ≤ k.expected))
  | .remove | .readValidator | .clearValidator | .notice | .get _ _ | .read | .write _
  | .freeSpace | .close => isTrue trivial

/-- An object of two bytes, which both change. -/
def twice : Server Bool where
  bytes v := if v then [3, 4] else [1, 2]
  etag v := if v then "\"b\"" else "\"a\""
  modified _ := ""
  strong := by decide
  own := by decide

/-- Nobody has said how big the object is. -/
def ofAnySize : Kind := ⟨0, false, 1000, false⟩

/-- The first byte of the object, until the call is cut off. -/
def firstByte : List (Event Kind (Choice Bool)) :=
  [.begin ofAnySize, .next .ok, .next .ok, .next (.serves false true), .next .ok, .next .ok,
    .next .ok, .next .ok, .next (.space freeSpaceReserve), .cut]

/-- The rest of the version that a call finds on the server. -/
def theRest (v : Bool) : List (Event Kind (Choice Bool)) :=
  [.begin ofAnySize, .next .ok, .next .ok, .next (.serves v true), .next .ok, .next .ok, .next .ok,
    .next (.space freeSpaceReserve), .next .ok, .next .ok, .next .ok]

/-- The object has changed: its validator is written, and the call is cut
off. -/
def newValidator : List (Event Kind (Choice Bool)) :=
  [.begin ofAnySize, .next .ok, .next .ok, .next (.serves true true), .next .ok, .cut]

/-- Nothing has been downloaded, and no call is under way. -/
def nothing : Moment Answer (World Bool) Kind (Option Failure) := ⟨⟨none, none, none, none⟩, none⟩

/-- The next call takes the byte that is left for one of the new version. -/
theorem crash_joins_two_versions :
    ∃ m, Machine.Reachable ((downloads twice).machine Fresh) m ∧
      (∃ c, m.call = some c ∧ c.left = .done none) ∧
      ¬ ∃ v, m.now.file = some (twice.bytes v) :=
  ⟨((downloads twice).machine Fresh).after nothing (firstByte ++ newValidator ++ theRest true),
    Machine.reachable_after ⟨rfl, rfl⟩ (by decide), ⟨_, rfl, rfl⟩, by decide⟩

theorem cut_and_resumed_leaves_one_version :
    ∃ v, (((downloads twice).machine Fresh).after nothing
      (firstByte ++ theRest false)).now.file = some (twice.bytes v) :=
  success_leaves_one_version (c := _)
    (Machine.reaches_under_after ⟨rfl, rfl⟩ (by decide) (by decide)) rfl rfl

end LocalBase.Acquire
