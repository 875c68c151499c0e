import LocalBase.Auth.LoginState

/-!
# A state works once

A callback that has used a state and not given it back has it in the record,
under the text it was presented as, until it expires. So no other uses it, if
every callback presents a state as the text its bytes encode to, uses it before it
expires, and finds room for it in the record.

Outside these a state works again. A text has four bits that decoding does not look
at, and the record goes by the text. And a callback that checked the expiry in time
may use the state when its record has been swept, or forgotten to make room for
callbacks that are not done.
-/

namespace LocalBase.Auth

open Machine

/-- The text its bytes encode to. -/
def Canonical (text : List Char) : Prop :=
  ∀ raw, Base64.decode text = some raw → text = Base64.encode raw

/-- States are used as they were issued, before they expire, and with room in the
record. -/
def UsesFairly (b : Browser) : Nat × LoginMove → Prop
  | (i, .spend _) => ∀ text state, b.call i = .checked text state →
      Canonical text ∧ b.clock < state.expires ∧
        (sweep b.spent b.clock).entries.length < maxSpentStates
  | _ => True

instance (text : List Char) : Decidable (Canonical text) :=
  match h : Base64.decode text with
  | none => isTrue fun raw hraw => by rw [h] at hraw; cases hraw
  | some raw => decidable_of_iff (text = Base64.encode raw) (by simp [Canonical, h])

instance : ∀ (b : Browser) (e : Nat × LoginMove), Decidable (UsesFairly b e)
  | b, (i, .spend _) =>
    match h : b.call i with
    | .checked text state =>
      decidable_of_iff (Canonical text ∧ b.clock < state.expires ∧
        (sweep b.spent b.clock).entries.length < maxSpentStates) (by simp [UsesFairly, h])
    | .idle | .exchanging _ _ | .failing _ _ | .exchanged _ _ | .established _ _ | .denied _ _
    | .failed => isTrue (by simp [UsesFairly, h])
  | _, (_, .tick _) | _, (_, .callback _) | _, (_, .exchange _) | _, (_, .unspend)
  | _, (_, .establish _) => isTrue trivial

/-- The text a callback presented, and what it stands for, once it was accepted. -/
def LoginPc.carries : LoginPc → Option (List Char × LoginState)
  | .checked text state | .exchanging text state | .failing text state | .exchanged text state
  | .established text state | .denied text state => some (text, state)
  | .idle | .failed => none

/-- The same, from when it has used the state until it gives it back. -/
def LoginPc.used : LoginPc → Option (List Char × LoginState)
  | .exchanging text state | .failing text state | .exchanged text state
  | .established text state | .denied text state => some (text, state)
  | .idle | .checked _ _ | .failed => none

namespace Browser

/-- No two callbacks start a session with one state, whatever texts it came in. -/
def UsedOnce (b : Browser) : Prop :=
  ∀ i j text text' state state', b.call i = .established text state →
    b.call j = .established text' state' → Base64.decode text = Base64.decode text' → i = j

structure Inv (hmac : List UInt8 → List UInt8) (oidc : List String) (b : Browser) : Prop where
  made : ∀ i text state, (b.call i).carries = some (text, state) →
    loginStateOf hmac oidc text = some state
  canonical : ∀ i text state, (b.call i).used = some (text, state) → Canonical text
  kept : ∀ i text state, (b.call i).used = some (text, state) →
    b.spent.lookup text = some state.expires ∨ state.expires ≤ b.clock
  single : ∀ i j text text' state state', (b.call i).used = some (text, state) →
    (b.call j).used = some (text', state') → Base64.decode text = Base64.decode text' → i = j

variable {hmac : List UInt8 → List UInt8} {oidc : List String} {b b' : Browser} {i : Nat}
  {pc : LoginPc} {state : LoginState} {text : List Char}

theorem carries_of_used {p : LoginPc} {x : List Char × LoginState} (h : p.used = some x) :
    p.carries = some x := by
  cases p with
  | idle | checked | failed => exact absurd h (by simp [LoginPc.used])
  | exchanging | failing | exchanged | established | denied => exact h

theorem decode_of_loginStateOf
    (h : loginStateOf hmac oidc text = some state) : ∃ raw, Base64.decode text = some raw := by
  unfold loginStateOf at h
  split at h
  · exact absurd h (by simp)
  · next raw hraw => exact ⟨raw, hraw⟩

theorem eq_of_canonical {text' : List Char} (h : loginStateOf hmac oidc text = some state)
    (hc : Canonical text) (hc' : Canonical text')
    (hd : Base64.decode text = Base64.decode text') : text = text' := by
  obtain ⟨raw, hraw⟩ := decode_of_loginStateOf h
  rw [hc raw hraw, hc' raw (hd ▸ hraw)]

/-! ## One step -/

theorem Inv.goto (h : Inv hmac oidc b)
    (hcarries : ∀ text state, pc.carries = some (text, state) →
      loginStateOf hmac oidc text = some state)
    (hused : ∀ x, pc.used = some x → (b.call i).used = some x) :
    Inv hmac oidc (b.goto i pc) := by
  have hall : ∀ j x, ((b.goto i pc).call j).used = some x → (b.call j).used = some x :=
    fun j x => (Function.forall_update_iff b.call
      fun j p => ∀ x, p.used = some x → (b.call j).used = some x).2
      ⟨hused, fun j _ x hx => hx⟩ j x
  refine ⟨?_, fun j text state hj => h.canonical j text state (hall j _ hj),
    fun j text state hj => h.kept j text state (hall j _ hj), ?_⟩
  · exact (Function.forall_update_iff b.call fun _ p => ∀ text state,
      p.carries = some (text, state) → loginStateOf hmac oidc text = some state).2
      ⟨hcarries, fun j _ => h.made j⟩
  · intro j k text text' state state' hj hk
    exact h.single j k text text' state state' (hall j _ hj) (hall k _ hk)

theorem Inv.failed (h : Inv hmac oidc b) : Inv hmac oidc (b.goto i .failed) :=
  h.goto (fun _ _ hc => absurd hc (by simp [LoginPc.carries]))
    fun _ hu => absurd hu (by simp [LoginPc.used])

theorem Inv.tick (h : Inv hmac oidc b) {t : Int} (ht : b.clock ≤ t) :
    Inv hmac oidc { b with clock := t } where
  made := h.made
  canonical := h.canonical
  kept i text state hi := (h.kept i text state hi).imp_right fun he => Int.le_trans he ht
  single := h.single

theorem makeRoom_room {spent spent' : Spent} {victims : List (List Char)}
    (hlen : spent.entries.length < maxSpentStates) (h : makeRoom spent victims = some spent') :
    spent' = spent := by
  cases victims with
  | nil =>
    rw [makeRoom, if_neg (by omega)] at h
    exact (Option.some.inj h).symm
  | cons k ks =>
    rw [makeRoom, if_neg (by omega)] at h
    exact absurd h (by simp)

theorem lookup_sweep {spent : Spent} {now e : Int} (h : spent.lookup text = some e)
    (he : now < e) :
    (sweep spent now).lookup text = some e := by
  unfold sweep
  rw [Rows.lookup_keep, h, Option.filter_some]
  exact if_pos (decide_eq_true he)

theorem Inv.not_used (h : Inv hmac oidc b) (hmade : loginStateOf hmac oidc text = some state)
    (hc : Canonical text) (he : b.clock < state.expires) (hfree : b.spent.lookup text = none)
    {j : Nat} {text' : List Char} {state' : LoginState}
    (hj : (b.call j).used = some (text', state')) :
    Base64.decode text' ≠ Base64.decode text := by
  intro hd
  have hmade' := h.made j text' state' (carries_of_used hj)
  have htext : text' = text := eq_of_canonical hmade' (h.canonical j text' state' hj) hc hd
  subst htext
  have hstate : state = state' := Option.some.inj (hmade.symm.trans hmade')
  subst hstate
  obtain hkept | hexpired := h.kept j text' state hj
  · rw [hfree] at hkept
    exact absurd hkept (by simp)
  · omega

theorem Inv.spend (h : Inv hmac oidc b) {victims : List (List Char)}
    (hi : b.call i = .checked text state) (hg : UsesFairly b (i, .spend victims))
    (hs : b.spend i text state victims = some b') :
    Inv hmac oidc b' := by
  obtain ⟨hcanon, hfresh, hroom⟩ := hg text state hi
  have hmade : loginStateOf hmac oidc text = some state := h.made i text state (by rw [hi]; rfl)
  unfold Browser.spend at hs
  split at hs
  · obtain rfl := Option.some.inj hs
    exact h.failed
  · next hfree =>
    have hfree : b.spent.lookup text = none := by simpa using hfree
    obtain ⟨spent, hspent, rfl⟩ := Option.map_eq_some_iff.1 hs
    rw [makeRoom_room hroom hspent]
    have hothers : ∀ j text' state', (b.call j).used = some (text', state') →
        Base64.decode text' ≠ Base64.decode text := fun j text' state' hj =>
      h.not_used hmade hcanon hfresh hfree hj
    refine ⟨?_, ?_, ?_, ?_⟩
    · exact (Function.forall_update_iff b.call fun _ p => ∀ text state,
        p.carries = some (text, state) → loginStateOf hmac oidc text = some state).2
        ⟨fun t s ht => by cases ht; exact hmade, fun j _ => h.made j⟩
    · exact (Function.forall_update_iff b.call fun _ p => ∀ text state,
        p.used = some (text, state) → Canonical text).2
        ⟨fun t s ht => by cases ht; exact hcanon, fun j _ => h.canonical j⟩
    · refine (Function.forall_update_iff b.call fun _ p => ∀ t s, p.used = some (t, s) →
        ((sweep b.spent b.clock).insert text state.expires).lookup t = some s.expires ∨
          s.expires ≤ b.clock).2 ⟨fun t s ht => ?_, fun j hj t s ht => ?_⟩
      · cases ht
        exact .inl (AList.lookup_insert _)
      · have hne : t ≠ text := fun he => hothers j t s ht (by rw [he])
        rw [AList.lookup_insert_ne hne]
        by_cases hexp : s.expires ≤ b.clock
        · exact .inr hexp
        · exact .inl (lookup_sweep ((h.kept j t s ht).resolve_right hexp) (by omega))
    · intro j k t t' s s' hj hk hd
      change (Function.update b.call i (.exchanging text state) j).used = _ at hj
      change (Function.update b.call i (.exchanging text state) k).used = _ at hk
      by_cases hji : j = i
      · by_cases hki : k = i
        · rw [hji, hki]
        · rw [hji, Function.update_self] at hj
          rw [Function.update_of_ne hki] at hk
          cases hj
          exact absurd hd.symm (hothers k t' s' hk)
      · rw [Function.update_of_ne hji] at hj
        by_cases hki : k = i
        · rw [hki, Function.update_self] at hk
          cases hk
          exact absurd hd (hothers j t s hj)
        · rw [Function.update_of_ne hki] at hk
          exact h.single j k t t' s s' hj hk hd

theorem Inv.unspend (h : Inv hmac oidc b) (hi : b.call i = .failing text state) :
    Inv hmac oidc { b.goto i .failed with spent := b.spent.erase text } where
  made := (h.failed (i := i)).made
  canonical := (h.failed (i := i)).canonical
  single := (h.failed (i := i)).single
  kept := by
    refine (Function.forall_update_iff b.call fun _ p => ∀ t s, p.used = some (t, s) →
      (b.spent.erase text).lookup t = some s.expires ∨ s.expires ≤ b.clock).2
      ⟨fun t s ht => absurd ht (by simp [LoginPc.used]), fun j hj t s ht => ?_⟩
    have hne : t ≠ text := fun he =>
      hj (h.single j i t text s state ht (by rw [hi]; rfl) (by rw [he]))
    rw [AList.lookup_erase_ne hne]
    exact h.kept j t s ht

/-! ## Every run -/

theorem Inv.stepCall (h : Inv hmac oidc b) {m : LoginMove} (hg : UsesFairly b (i, m))
    (hs : b.stepCall hmac oidc i (b.call i) m = some b') : Inv hmac oidc b' := by
  generalize hi : b.call i = pc at hs
  -- A callback that goes on with the state it carries.
  have hmade : ∀ text state, pc.carries = some (text, state) →
      loginStateOf hmac oidc text = some state := fun text state hc =>
    h.made i text state (hi ▸ hc)
  unfold Browser.stepCall at hs
  split at hs
  · split at hs
    · obtain rfl := Option.some.inj hs
      exact h.failed
    · next state hstate =>
      split at hs
      · obtain rfl := Option.some.inj hs
        exact h.failed
      · obtain rfl := Option.some.inj hs
        refine h.goto (fun t s ht => ?_) fun x hx => absurd hx (by simp [LoginPc.used])
        cases ht
        exact hstate
  · exact h.spend hi hg hs
  · obtain rfl := Option.some.inj hs
    exact h.goto hmade fun x hx => hi ▸ hx
  · obtain rfl := Option.some.inj hs
    exact h.goto hmade fun x hx => hi ▸ hx
  · obtain rfl := Option.some.inj hs
    exact h.unspend hi
  · obtain rfl := Option.some.inj hs
    exact h.goto hmade fun x hx => hi ▸ hx
  · obtain rfl := Option.some.inj hs
    exact h.goto hmade fun x hx => hi ▸ hx
  · exact absurd hs (by simp)

theorem Inv.step (h : Inv hmac oidc b) {e : Nat × LoginMove} (hg : UsesFairly b e)
    (hs : b.step hmac oidc e = some b') : Inv hmac oidc b' := by
  unfold Browser.step at hs
  split at hs
  · split at hs
    · next ht =>
      obtain rfl := Option.some.inj hs
      exact h.tick ht
    · exact absurd hs (by simp)
  · exact h.stepCall hg hs

theorem inv_init (h : (browser hmac oidc).init b) : Inv hmac oidc b where
  made i text state hi := by
    rw [h.2] at hi
    exact absurd hi (by simp [LoginPc.carries])
  canonical i text state hi := by
    rw [h.2] at hi
    exact absurd hi (by simp [LoginPc.used])
  kept i text state hi := by
    rw [h.2] at hi
    exact absurd hi (by simp [LoginPc.used])
  single i j text text' state state' hi := by
    rw [h.2] at hi
    exact absurd hi (by simp [LoginPc.used])

/-- Where every state is used as it was issued, before it expires and with room in
the record, no state starts two sessions. -/
theorem usedOnce_of_fair (h : ReachesUnder (browser hmac oidc) UsesFairly b) : b.UsedOnce := by
  have hinv : Inv hmac oidc b :=
    ReachesUnder.invariant (fun _ => inv_init) (fun _ _ _ hI hg hs => hI.step hg hs) h
  intro i j text text' state state' hi hj hd
  exact hinv.single i j text text' state state' (by rw [hi]; rfl) (by rw [hj]; rfl) hd

end Browser

/-! ## Issued states -/

theorem canonical_encode (raw : List UInt8) : Canonical (Base64.encode raw) := by
  intro raw' h
  rw [Base64.decode_encode] at h
  rw [Option.some.inj h]

theorem canonical_newLoginState (hmac : List UInt8 → List UInt8) (registration : String)
    (random : List UInt8) (expires : Int) :
    Canonical (newLoginState hmac registration random expires) :=
  canonical_encode _

/-! ## One state, two texts -/

/-- A MAC whose bytes are all zero. -/
def zeroMac (_ : List UInt8) : List UInt8 := List.replicate macSize 0

/-- A state that expires ten minutes after the clock starts. -/
def issuedState : List Char :=
  newLoginState zeroMac "idp" (List.replicate loginStateRandom 0) 600000000000

/-- The same bytes, with other bits at the end. -/
def otherText : List Char := issuedState.dropLast ++ ['B']

def issuedLogin : LoginState where
  registration := "idp"
  verifier := Base64.encode (List.replicate macSize 0)
  nonce := Base64.encode (List.replicate macSize 0)
  expires := 600000000000

/-- A callback with a state and its cookie. -/
def callbackOf (text : List Char) : Callback where
  state := text
  cookies := [text]
  code := "c"

def newBrowser : Browser where
  clock := 0

theorem init_newBrowser : (browser zeroMac ["idp"]).init newBrowser := ⟨rfl, fun _ => rfl⟩

/-- A callback signs in, and so does a second one with the other text. -/
def replayed : List (Nat × LoginMove) :=
  [(0, .callback (callbackOf issuedState)), (0, .spend []), (0, .exchange true),
    (0, .establish true), (1, .callback (callbackOf otherText)), (1, .spend []),
    (1, .exchange true), (1, .establish true)]

/-- Both sign in with one state, its verifier and its nonce. -/
theorem replayed_twice :
    ∃ b, Reachable (browser zeroMac ["idp"]) b ∧
      b.call 0 = .established issuedState issuedLogin ∧
      b.call 1 = .established otherText issuedLogin ∧
      Base64.decode issuedState = Base64.decode otherText ∧ ¬ b.UsedOnce := by
  have hreach := reachable_after init_newBrowser
    (show ((browser zeroMac ["idp"]).run newBrowser replayed).isSome = true by decide +kernel)
  have hfirst : ((browser zeroMac ["idp"]).after newBrowser replayed).call 0 =
      .established issuedState issuedLogin := by decide +kernel
  have hsecond : ((browser zeroMac ["idp"]).after newBrowser replayed).call 1 =
      .established otherText issuedLogin := by decide +kernel
  have hdecode : Base64.decode issuedState = Base64.decode otherText := by decide
  refine ⟨_, hreach, hfirst, hsecond, hdecode, fun honce => ?_⟩
  exact absurd (honce 0 1 _ _ _ _ hfirst hsecond hdecode) (by decide)

/-- Two callbacks come with one state before either has used it. -/
def raced : List (Nat × LoginMove) :=
  [(0, .callback (callbackOf issuedState)), (1, .callback (callbackOf issuedState)),
    (0, .spend []), (1, .spend []), (0, .exchange true), (0, .establish true)]

/-- One signs in, and the other is refused. -/
theorem raced_once :
    ((browser zeroMac ["idp"]).after newBrowser raced).UsedOnce ∧
      ((browser zeroMac ["idp"]).after newBrowser raced).call 0 =
        .established issuedState issuedLogin ∧
      ((browser zeroMac ["idp"]).after newBrowser raced).call 1 = .failed :=
  ⟨Browser.usedOnce_of_fair
      (reaches_under_after init_newBrowser (by decide +kernel) (by decide +kernel)),
    by decide +kernel, by decide +kernel⟩

end LocalBase.Auth
