import LocalBase.Relay.Events

/-!
# Whole events, within the limit

A client gets whole events of the upstream, in order, and at most one error
event after them, however the body was cut into reads. The limit is on what an
event may hold in memory, but a line is read up to the whole limit whatever the
event it belongs to holds already: an event that passes the limit with a line
that is not its first has more than the limit in hand.
-/

namespace LocalBase.Relay

open Buffered
open Pieces (cut cutAt cut_eq_none cut_eq_some)
open StructuredOutput (Object)

/-! ## What an event is forwarded as -/

/-- A line that does not end the stream. -/
def CleanLine (c : Call) (line : Bytes) : Prop :=
  ∀ data, dataOf line = some data →
    data = doneMark ∨ ∃ obj, c.decode data = some obj ∧ Object.has obj "error" = false

def Clean (c : Call) (e : List Bytes) : Prop := ∀ line ∈ content e, CleanLine c line

def SaysDone (e : List Bytes) : Prop := ∃ line ∈ content e, dataOf line = some doneMark

def lineText (c : Call) (line : Bytes) : Bytes :=
  match rewriteLine c line with
  | .ok (out, _) => out
  | .error _ => []

/-- The rewriting of the lines of an event. -/
def rewritten (c : Call) (ls : List Bytes) : Bytes := ls.flatMap (lineText c) ++ [newline]

/-- What is written for an event. For empty lines alone there is nothing. -/
def forwarded (c : Call) (e : List Bytes) : List Write :=
  if content e = [] then [] else [.event (rewritten c (content e))]

/-- The gateway's own error events. -/
def ownErrors (limit : Nat) : List Bytes :=
  [limitEvent limit, upstreamInvalidStream, memoryEmergencyEvent, idleEvent, streamFailedEvent,
    midEventEvent]

/-- The error that a line of the upstream is. -/
def LineError (c : Call) (line text : Bytes) : Prop :=
  ∃ data obj, dataOf line = some data ∧ c.decode data = some obj ∧
    Object.has obj "error" = true ∧ text = utf8 "data: " ++ data ++ [newline, newline]

/-- An upstream error that an event has in it. -/
def UpstreamError (c : Call) (e : List Bytes) (text : Bytes) : Prop :=
  ∃ line ∈ content e, LineError c line text

section Rewrite

variable {c : Call} {line : Bytes} {ls : List Bytes}

theorem rewriteLine_cases (c : Call) (line : Bytes) :
    (CleanLine c line ∧ rewriteLine c line =
      .ok (lineText c line, decide (dataOf line = some doneMark))) ∨
    (¬ CleanLine c line ∧ ∃ text terminal, rewriteLine c line = .error (text, terminal) ∧
      (text = upstreamInvalidStream ∨ LineError c line text)) := by
  unfold lineText
  cases hdata : dataOf line with
  | none =>
    refine .inl ⟨fun data h => ?_, ?_⟩
    · rw [hdata] at h
      cases h
    · simp [rewriteLine, hdata]
  | some data =>
    by_cases hdone : data = doneMark
    · refine .inl ⟨fun data' h => .inl ?_, ?_⟩
      · rw [hdata] at h
        exact (Option.some.inj h).symm.trans hdone
      · simp [rewriteLine, hdata, hdone]
    · have hclean : CleanLine c line ↔
          ∃ obj, c.decode data = some obj ∧ Object.has obj "error" = false := by
        simp [CleanLine, hdata, hdone]
      cases hobj : c.decode data with
      | none =>
        refine .inr ⟨by simp [hclean, hobj], upstreamInvalidStream, .responseValidation, ?_,
          .inl rfl⟩
        simp [rewriteLine, hdata, hdone, hobj]
      | some obj =>
        by_cases herror : Object.has obj "error" = true
        · refine .inr ⟨by simp [hclean, hobj, herror], _, .upstreamErrorEvent, ?_,
            .inr ⟨data, obj, hdata, hobj, herror, rfl⟩⟩
          simp [rewriteLine, hdata, hdone, hobj, herror]
        · refine .inl ⟨hclean.mpr ⟨obj, hobj, by simpa using herror⟩, ?_⟩
          simp [rewriteLine, hdata, hdone, hobj, herror]

/-- Lines are rewritten one and all, or the first that is not clean ends the
stream. -/
theorem rewrite_cases (c : Call) (ls : List Bytes) :
    ((∀ line ∈ ls, CleanLine c line) ∧ rewrite c ls =
      .ok (rewritten c ls, ls.any fun line => dataOf line = some doneMark)) ∨
    ((¬ ∀ line ∈ ls, CleanLine c line) ∧ ∃ text terminal, rewrite c ls = .error (text, terminal) ∧
      (text = upstreamInvalidStream ∨ ∃ line ∈ ls, LineError c line text)) := by
  induction ls with
  | nil => exact .inl ⟨nofun, rfl⟩
  | cons line ls ih =>
    rcases rewriteLine_cases c line with
      ⟨hclean, hline⟩ | ⟨hbad, text, terminal, hline, htext⟩
    · rcases ih with ⟨hls, hrest⟩ | ⟨hbad, text, terminal, hrest, htext⟩
      · refine .inl ⟨List.forall_mem_cons.mpr ⟨hclean, hls⟩, ?_⟩
        simp [rewrite, hline, hrest, rewritten, Bind.bind, Except.bind]
      · refine .inr ⟨fun h => hbad (List.forall_mem_cons.mp h).2, text, terminal, ?_, ?_⟩
        · simp [rewrite, hline, hrest, Bind.bind, Except.bind]
        · exact htext.imp_right fun ⟨l, hl, herror⟩ => ⟨l, List.mem_cons_of_mem _ hl, herror⟩
    · refine .inr ⟨fun h => hbad (List.forall_mem_cons.mp h).1, text, terminal, ?_, ?_⟩
      · simp [rewrite, hline, Bind.bind, Except.bind]
      · exact htext.imp_right fun herror => ⟨line, List.mem_cons_self, herror⟩

end Rewrite

/-! ## What one event does -/

/-- An event is within the limit, clean, and the client takes what is written
for it, as it has taken `n` writes before. -/
structure Served (c : Call) (limit n : Nat) (e : List Bytes) : Prop where
  within : size e ≤ limit
  clean : Clean c e
  taken : ∀ i < (forwarded c e).length, c.goes (n + i) = true

section Event

variable {c : Call} {limit : Nat} {s s' : State} {a : Answer} {e ls : List Bytes} {err : ReadError}

theorem takeEvent_cases (c : Call) (limit : Nat) (s : State) (e : List Bytes) :
    (Served c limit s.writes.length e ∧ s.takeEvent c limit e = .ok
      { s with
        event := []
        sawDone := s.sawDone || (content e).any fun line => dataOf line = some doneMark
        writes := s.writes ++ forwarded c e
        peak := max s.peak (size e) }) ∨
    (¬ Served c limit s.writes.length e ∧ ∃ a, s.takeEvent c limit e = .error a ∧
      a.outcome ≠ .completed ∧ a.peak = max s.peak (heldFrom limit 0 e) ∧
      ((∃ text, a.writes = s.writes ++ [.error text] ∧
          (text ∈ ownErrors limit ∨ UpstreamError c e text)) ∨
        (Clean c e ∧ a.writes = s.writes ++ forwarded c e ∧ (forwarded c e).length = 1 ∧
          c.goes s.writes.length = false))) := by
  rw [State.takeEvent]
  by_cases hover : limit < size e
  · rw [if_pos hover]
    refine .inr ⟨fun h => Nat.not_lt.mpr h.within hover, _, rfl, by rintro ⟨⟩, rfl,
      .inl ⟨_, rfl, .inl ?_⟩⟩
    exact List.mem_cons_self
  · have hwithin := Nat.not_lt.mp hover
    rw [if_neg hover, heldFrom_eq hwithin]
    by_cases hnil : content e = []
    · have hforwarded : forwarded c e = [] := if_pos hnil
      refine .inl ⟨⟨hwithin, ?_, ?_⟩, ?_⟩
      · simp [Clean, hnil]
      · simp [hforwarded]
      · simp [State.emit, hnil, hforwarded]
    · have hforwarded : forwarded c e = [.event (rewritten c (content e))] := if_neg hnil
      rcases rewrite_cases c (content e) with
        ⟨hclean, hrewrite⟩ | ⟨hbad, text, terminal, hrewrite, htext⟩
      · by_cases hgoes : c.goes s.writes.length = true
        · refine .inl ⟨⟨hwithin, hclean, ?_⟩, ?_⟩
          · simpa [hforwarded] using hgoes
          · simp [State.emit, hnil, hrewrite, hgoes, hforwarded, State.write]
        · refine .inr ⟨fun h => hgoes (h.taken 0 (by simp [hforwarded])),
            ⟨s.writes ++ forwarded c e, .cancelled, .responseCancelled, max s.peak (size e)⟩, ?_,
            by rintro ⟨⟩, rfl, .inr ⟨hclean, rfl, by simp [hforwarded], by simpa using hgoes⟩⟩
          simp [State.emit, hnil, hrewrite, hgoes, hforwarded, State.write, State.stop]
      · refine .inr ⟨fun h => hbad h.clean,
          ⟨s.writes ++ [.error text], .error, terminal, max s.peak (size e)⟩, ?_, by rintro ⟨⟩, rfl,
          .inl ⟨text, rfl, htext.imp_left fun h => ?_⟩⟩
        · simp [State.emit, hnil, hrewrite, State.fail, State.write, State.stop]
        · simp [ownErrors, h]

theorem fail_cases {text : Bytes} (s : State) (terminal : Terminal)
    (h : text ∈ ownErrors limit) :
    (s.fail text terminal).peak = s.peak ∧ (s.fail text terminal).outcome ≠ .completed ∧
      ∃ last, (s.fail text terminal).writes = s.writes ++ last ∧ last.length ≤ 1 ∧
        ∀ w ∈ last, ∃ text ∈ ownErrors limit, w = .error text :=
  ⟨rfl, nofun, [.error text], rfl, Nat.le_refl _, fun _ hw =>
    ⟨text, h, List.mem_singleton.mp hw⟩⟩

/-- A read that fails completes the stream or writes an error event of the
gateway's own. -/
theorem ending_cases (c : Call) (err : ReadError) (limit : Nat) (s : State) :
    (s.ending c err).peak = s.peak ∧
    ((s.ending c err).outcome = .completed ↔ err = .eof ∧ c.aborted = false ∧
      c.interrupted = false ∧ s.event = [] ∧ s.sawDone = true) ∧
    ((s.ending c err).outcome = .completed → (s.ending c err).writes = s.writes) ∧
    ∃ last, (s.ending c err).writes = s.writes ++ last ∧ last.length ≤ 1 ∧
      ∀ w ∈ last, ∃ text ∈ ownErrors limit, w = .error text := by
  have hstop (outcome : Outcome) (terminal : Terminal) :
      ∃ last, (s.stop outcome terminal).writes = s.writes ++ last ∧ last.length ≤ 1 ∧
        ∀ w ∈ last, ∃ text ∈ ownErrors limit, w = .error text :=
    ⟨[], (List.append_nil _).symm, Nat.zero_le _, nofun⟩
  unfold State.ending
  by_cases haborted : c.aborted = true
  · rw [if_pos haborted]
    exact ⟨rfl, by simp [State.stop, haborted], fun _ => rfl, hstop _ _⟩
  rw [if_neg haborted]
  by_cases hinterrupted : c.interrupted = true
  · rw [if_pos hinterrupted]
    obtain ⟨hpeak, houtcome, hlast⟩ := fail_cases s .memoryEmergency
            (show memoryEmergencyEvent ∈ ownErrors limit by simp [ownErrors])
    exact ⟨hpeak, by simp [houtcome, hinterrupted], fun h => absurd h houtcome, hlast⟩
  rw [if_neg hinterrupted]
  cases err with
  | idle =>
    obtain ⟨hpeak, houtcome, hlast⟩ := fail_cases s .responseIdle
          (show idleEvent ∈ ownErrors limit by simp [ownErrors])
    exact ⟨hpeak, by simp [houtcome], fun h => absurd h houtcome, hlast⟩
  | failed =>
    obtain ⟨hpeak, houtcome, hlast⟩ := fail_cases s .responseStreamError
          (show streamFailedEvent ∈ ownErrors limit by simp [ownErrors])
    exact ⟨hpeak, by simp [houtcome], fun h => absurd h houtcome, hlast⟩
  | eof =>
    by_cases hevent : s.event = []
    · by_cases hdone : s.sawDone = true
      · simp [hevent, hdone, haborted, hinterrupted, State.stop]
      · obtain ⟨hpeak, houtcome, hlast⟩ := fail_cases s .responseValidation
          (show upstreamInvalidStream ∈ ownErrors limit by simp [ownErrors])
        simp only [hevent, hdone, ne_eq, not_true_eq_false, if_false]
        exact ⟨hpeak, by simp [houtcome], fun h => absurd h houtcome, hlast⟩
    · obtain ⟨hpeak, houtcome, hlast⟩ := fail_cases s .responseStreamError
          (show midEventEvent ∈ ownErrors limit by simp [ownErrors])
      simp only [ne_eq, hevent, not_false_eq_true, if_true]
      exact ⟨hpeak, by simp [houtcome], fun h => absurd h houtcome, hlast⟩

theorem takeOpened_cases (c : Call) (limit : Nat) (s : State) (ls : List Bytes) (err : ReadError) :
    (s.takeOpened c limit ls err).peak = max s.peak (heldFrom limit 0 ls) ∧
    ((s.takeOpened c limit ls err).outcome = .completed ↔ err = .eof ∧ c.aborted = false ∧
      c.interrupted = false ∧ ls = [] ∧ s.sawDone = true) ∧
    ((s.takeOpened c limit ls err).outcome = .completed →
      (s.takeOpened c limit ls err).writes = s.writes) ∧
    ∃ last, (s.takeOpened c limit ls err).writes = s.writes ++ last ∧ last.length ≤ 1 ∧
      ∀ w ∈ last, ∃ text ∈ ownErrors limit, w = .error text := by
  unfold State.takeOpened
  by_cases hover : limit < size ls
  · have hne : ls ≠ [] := by
      rintro rfl
      exact Nat.not_lt_zero _ hover
    obtain ⟨hpeak, houtcome, hlast⟩ := fail_cases
      { s with peak := max s.peak (heldFrom limit 0 ls) } .responseEventLimit
      (show limitEvent limit ∈ ownErrors limit from List.mem_cons_self)
    rw [if_pos hover]
    exact ⟨hpeak, by simp [houtcome, hne], fun h => absurd h houtcome, hlast⟩
  · rw [if_neg hover]
    simpa using ending_cases c err limit
      { s with event := ls.map trimmed, peak := max s.peak (heldFrom limit 0 ls) }

end Event

/-! ## The run -/

section Run

variable {c : Call} {limit : Nat} {s : State} {es : List (List Bytes)} {ls : List Bytes}
  {err : ReadError}

/-- The error event after the events of a prefix: one of the gateway's own, or
an error of the upstream that the next event has in it. -/
def IsError (c : Call) (limit : Nat) (next : Option (List Bytes)) (text : Bytes) : Prop :=
  text ∈ ownErrors limit ∨ ∃ e, next = some e ∧ UpstreamError c e text

/-- What is written is the rewriting of some first events, all of them clean,
and at most an error event. -/
theorem relayEvents_writes : ∃ k last,
    (relayEvents c limit ls err s es).writes =
      s.writes ++ (es.take k).flatMap (forwarded c) ++ last ∧
    last.length ≤ 1 ∧ (∀ e ∈ es.take k, Clean c e) ∧
    ∀ w ∈ last, ∃ text, w = .error text ∧ IsError c limit es[k]? text := by
  induction es generalizing s with
  | nil =>
    obtain ⟨-, -, -, last, hwrites, hlast, hown⟩ :=
      takeOpened_cases c limit s ls err
    refine ⟨0, last, by simpa [relayEvents] using hwrites, hlast, by simp, fun w hw => ?_⟩
    obtain ⟨text, htext, rfl⟩ := hown w hw
    exact ⟨text, rfl, .inl htext⟩
  | cons e es ih =>
    rw [relayEvents]
    rcases takeEvent_cases c limit s e with
      ⟨hserved, htake⟩ | ⟨-, a, htake, -, -, hwrites⟩
    · rw [htake]
      obtain ⟨k, last, hwrites, hlast, hclean, herror⟩ := ih (s := { s with
        event := []
        sawDone := s.sawDone || (content e).any fun line => dataOf line = some doneMark
        writes := s.writes ++ forwarded c e
        peak := max s.peak (size e) })
      refine ⟨k + 1, last, ?_, hlast, ?_, by simpa using herror⟩
      · rw [hwrites]
        simp
      · exact List.forall_mem_cons.mpr ⟨hserved.clean, hclean⟩
    · rw [htake]
      rcases hwrites with ⟨text, hwrites, htext⟩ | ⟨hclean, hwrites, -, -⟩
      · refine ⟨0, [.error text], by simpa using hwrites, Nat.le_refl _, by simp, fun w hw => ?_⟩
        obtain rfl := List.mem_singleton.mp hw
        exact ⟨text, rfl, htext.imp_right fun h => ⟨e, rfl, h⟩⟩
      · refine ⟨1, [], by simpa using hwrites, Nat.zero_le _, ?_, by simp⟩
        simpa using hclean

theorem relayEvents_goes (hs : ∀ i < s.writes.length, c.goes i = true) :
    ∀ i, i + 1 < (relayEvents c limit ls err s es).writes.length → c.goes i = true := by
  induction es generalizing s with
  | nil =>
    obtain ⟨-, -, -, last, hwrites, hlast, -⟩ :=
      takeOpened_cases c limit s ls err
    intro i hi
    rw [relayEvents, hwrites, List.length_append] at hi
    exact hs i (by omega)
  | cons e es ih =>
    intro i hi
    rw [relayEvents] at hi
    rcases takeEvent_cases c limit s e with
      ⟨hserved, htake⟩ | ⟨-, a, htake, -, -, hwrites⟩
    · rw [htake] at hi
      refine ih (fun j hj => ?_) i hi
      simp only [List.length_append] at hj
      by_cases hold : j < s.writes.length
      · exact hs j hold
      · have := hserved.taken (j - s.writes.length) (by omega)
        rwa [Nat.add_sub_cancel' (Nat.not_lt.mp hold)] at this
    · rw [htake] at hi
      refine hs i ?_
      rcases hwrites with ⟨text, hwrites, -⟩ | ⟨-, hwrites, hone, -⟩
      all_goals
        simp only [hwrites, List.length_append, List.length_singleton] at hi
        omega

theorem saysDone_iff {e : List Bytes} :
    SaysDone e ↔ ((content e).any fun line => dataOf line = some doneMark) = true := by
  simp [SaysDone]

theorem relayEvents_completed (hs : ∀ i < s.writes.length, c.goes i = true)
    (hw : ∀ w ∈ s.writes, ∀ text, w ≠ .error text) :
    (relayEvents c limit ls err s es).outcome = .completed ↔
      err = .eof ∧ c.aborted = false ∧ c.interrupted = false ∧ ls = [] ∧
      (s.sawDone = true ∨ ∃ e ∈ es, SaysDone e) ∧
      (∀ w ∈ (relayEvents c limit ls err s es).writes, ∀ text, w ≠ .error text) ∧
      ∀ i < (relayEvents c limit ls err s es).writes.length, c.goes i = true := by
  induction es generalizing s with
  | nil =>
    obtain ⟨-, hcompleted, hnone, -⟩ :=
      takeOpened_cases c limit s ls err
    rw [relayEvents]
    constructor
    · intro h
      obtain ⟨heof, haborted, hinterrupted, hls, hdone⟩ := hcompleted.mp h
      rw [hnone h]
      exact ⟨heof, haborted, hinterrupted, hls, .inl hdone, hw, hs⟩
    · rintro ⟨heof, haborted, hinterrupted, hls, hdone | ⟨e, he, -⟩, -⟩
      · exact hcompleted.mpr ⟨heof, haborted, hinterrupted, hls, hdone⟩
      · cases he
  | cons e es ih =>
    rw [relayEvents]
    rcases takeEvent_cases c limit s e with
      ⟨hserved, htake⟩ | ⟨-, a, htake, houtcome, -, hwrites⟩
    · rw [htake]
      refine (ih (fun j hj => ?_) fun w hmem text => ?_).trans ?_
      · simp only [List.length_append] at hj
        by_cases hold : j < s.writes.length
        · exact hs j hold
        · have := hserved.taken (j - s.writes.length) (by omega)
          rwa [Nat.add_sub_cancel' (Nat.not_lt.mp hold)] at this
      · rcases List.mem_append.mp hmem with hmem | hmem
        · exact hw w hmem text
        · rw [forwarded] at hmem
          split at hmem
          · cases hmem
          · obtain rfl := List.mem_singleton.mp hmem
            rintro ⟨⟩
      · simp [saysDone_iff, or_assoc]
    · rw [htake]
      refine ⟨fun h => absurd h houtcome, ?_⟩
      rintro ⟨-, -, -, -, -, hclean, htaken⟩
      rcases hwrites with ⟨text, hwrites, -⟩ | ⟨-, hwrites, hone, hgoes⟩
      · exact absurd rfl (hclean (.error text) (by simp [hwrites]) text)
      · have := htaken s.writes.length (by rw [hwrites, List.length_append]; omega)
        rw [hgoes] at this
        cases this

end Run

/-! ## What is in hand -/

/-- An event is within the limit, or it is over it with its first line already. -/
def Fits (limit : Nat) (e : List Bytes) : Prop :=
  size e ≤ limit ∨ ∃ l, e.head? = some l ∧ limit < l.length

/-- The relay gets past events that it serves one and all. -/
structure Passes (c : Call) (limit n : Nat) (es : List (List Bytes)) : Prop where
  within : ∀ e ∈ es, size e ≤ limit
  clean : ∀ e ∈ es, Clean c e
  taken : ∀ i < (es.flatMap (forwarded c)).length, c.goes (n + i) = true

section Held

variable {c : Call} {limit n : Nat} {s : State} {e : List Bytes} {es : List (List Bytes)}
  {ls : List Bytes} {err : ReadError}

theorem heldFrom_le (hlimit : bufferSize ∣ limit) (hn : 0 < n) (hle : n ≤ limit) :
    heldFrom limit n ls ≤ limit ↔ n + size ls ≤ limit := by
  induction ls generalizing n with
  | nil => rfl
  | cons l ls ih =>
    rw [heldFrom, size_cons]
    split
    · next hover =>
      have hkept : limit < n + kept limit l := by
        rw [kept]
        split
        · rw [Nat.div_mul_cancel hlimit]
          omega
        · exact hover
      omega
    · rw [ih (by omega) (by omega), Nat.add_assoc]

theorem heldFrom_le_iff (hlimit : bufferSize ∣ limit) (hls : ∀ l ∈ ls, l ≠ []) :
    heldFrom limit 0 ls ≤ limit ↔ Fits limit ls := by
  cases ls with
  | nil => simp [heldFrom, Fits, size]
  | cons l ls =>
    have hpos := List.length_pos_iff.mpr (hls l List.mem_cons_self)
    rw [heldFrom, Fits, size_cons, Nat.zero_add]
    by_cases hover : limit < l.length
    · simp [hover, kept, Nat.div_mul_cancel hlimit]
    · rw [if_neg hover, heldFrom_le hlimit hpos (Nat.not_lt.mp hover)]
      simp [hover]

theorem passes_nil : Passes c limit n [] := ⟨nofun, nofun, nofun⟩

theorem passes_cons : Passes c limit n (e :: es) ↔
    Served c limit n e ∧ Passes c limit (n + (forwarded c e).length) es := by
  constructor
  · intro ⟨hwithin, hclean, htaken⟩
    rw [List.forall_mem_cons] at hwithin hclean
    rw [List.flatMap_cons, List.length_append] at htaken
    refine ⟨⟨hwithin.1, hclean.1, fun i hi => htaken i (by omega)⟩, hwithin.2, hclean.2,
      fun i hi => ?_⟩
    rw [Nat.add_assoc]
    exact htaken _ (by omega)
  · intro ⟨⟨hwithin, hclean, htaken⟩, h⟩
    refine ⟨List.forall_mem_cons.mpr ⟨hwithin, h.within⟩,
      List.forall_mem_cons.mpr ⟨hclean, h.clean⟩, fun i hi => ?_⟩
    rw [List.flatMap_cons, List.length_append] at hi
    by_cases hfirst : i < (forwarded c e).length
    · exact htaken i hfirst
    · have := h.taken (i - (forwarded c e).length) (by omega)
      rwa [Nat.add_assoc, Nat.add_sub_cancel' (Nat.not_lt.mp hfirst)] at this

theorem forall_nat {p : Nat → Prop} : (∀ k, p k) ↔ p 0 ∧ ∀ k, p (k + 1) :=
  ⟨fun h => ⟨h 0, fun k => h (k + 1)⟩, fun h k => Nat.casesOn k h.1 h.2⟩

/-- Nothing has more than the limit in hand as long as each event that the relay
gets to fits. -/
theorem relayEvents_peak (hlimit : bufferSize ∣ limit) (hls : ∀ l ∈ ls, l ≠ [])
    (hes : ∀ e ∈ es, ∀ l ∈ e, l ≠ []) :
    (relayEvents c limit ls err s es).peak ≤ limit ↔ s.peak ≤ limit ∧
      ∀ k, Passes c limit s.writes.length (es.take k) → Fits limit (es[k]?.getD ls) := by
  induction es generalizing s with
  | nil =>
    obtain ⟨hpeak, -⟩ :=
      takeOpened_cases c limit s ls err
    rw [relayEvents, hpeak, Nat.max_le, heldFrom_le_iff hlimit hls]
    simp [passes_nil]
  | cons e es ih =>
    rw [List.forall_mem_cons] at hes
    rw [relayEvents, forall_nat]
    simp only [List.take_zero, passes_nil, List.take_succ_cons, passes_cons,
      List.getElem?_cons_zero, List.getElem?_cons_succ, Option.getD_some, true_imp_iff]
    rcases takeEvent_cases c limit s e with
      ⟨hserved, htake⟩ | ⟨hserved, a, htake, -, hpeak, -⟩
    · have hfits : Fits limit e := .inl hserved.within
      rw [htake]
      simp only [ih hes.2, Nat.max_le, hserved.within, hserved, hfits, List.length_append,
        true_and, and_true]
    · rw [htake]
      simp only [hpeak, Nat.max_le, heldFrom_le_iff hlimit hes.1, hserved, false_and,
        false_imp_iff, implies_true, and_true]

end Held

/-! ## Every stream, however it is cut -/

/-- What the relay answers a stream with. -/
structure Faithful (c : Call) (s : Bytes × ReadError) (a : Answer) : Prop where
  /-- The rewriting of some first events, all clean, and at most an error event. -/
  whole : ∃ k last, a.writes = ((events s.1).take k).flatMap (forwarded c) ++ last ∧
    last.length ≤ 1 ∧ (∀ e ∈ (events s.1).take k, Clean c e) ∧
    ∀ w ∈ last, ∃ text, w = .error text ∧ IsError c sseEventLimit (events s.1)[k]? text
  /-- After a write that does not go through there is no other. -/
  goes : ∀ i, i + 1 < a.writes.length → c.goes i = true
  completed : a.outcome = .completed ↔
    s.2 = .eof ∧ c.aborted = false ∧ c.interrupted = false ∧ opened s.1 = [] ∧
    (∃ e ∈ events s.1, SaysDone e) ∧ (∀ w ∈ a.writes, ∀ text, w ≠ .error text) ∧
    ∀ i < a.writes.length, c.goes i = true
  held : a.peak ≤ sseEventLimit

/-- What a body comes to, with `io.ErrNoProgress` where it finds nothing too
often. -/
def Body.comes (body : Body) : Bytes × ReadError := body.stream .failed

/-- Whole events or nothing, however the body is cut into reads. -/
structure WholeEvents (c : Call) (body : Body) : Prop where
  faithful : Faithful c (Body.comes body) (relaySSE c body)
  uncut : ∀ body' : Body, Body.comes body' = Body.comes body → relaySSE c body' = relaySSE c body

section Claim

variable {c : Call} {body body' : Body}

theorem relaySSE_eq : relaySSE c body =
    relayEvents c sseEventLimit (opened (Body.comes body).1) (Body.comes body).2 {}
      (events (Body.comes body).1) :=
  relayFrom_eq ⟨rfl, rfl⟩

theorem relaySSE_uncut (h : Body.comes body' = Body.comes body) :
    relaySSE c body' = relaySSE c body := by
  rw [relaySSE_eq, relaySSE_eq, h]

theorem relaySSE_peak : (relaySSE c body).peak ≤ sseEventLimit ↔
    ∀ k, Passes c sseEventLimit 0 ((events (Body.comes body).1).take k) →
      Fits sseEventLimit ((events (Body.comes body).1)[k]?.getD (opened (Body.comes body).1)) := by
  rw [relaySSE_eq, relayEvents_peak (by decide) (fun _ => opened_ne)
    fun _ he _ hl => events_ne he hl]
  simp only [Nat.zero_le, true_and]
  rfl

end Claim

/-- The relay holds to all of it, but for an event that passes the limit with a
line after its first. -/
theorem relaySSE_whole_iff (c : Call) (body : Body) :
    WholeEvents c body ↔ ∀ k, Passes c sseEventLimit 0 ((events (Body.comes body).1).take k) →
      Fits sseEventLimit ((events (Body.comes body).1)[k]?.getD (opened (Body.comes body).1)) := by
  rw [← relaySSE_peak]
  refine ⟨fun h => h.faithful.held, fun hheld => ⟨⟨?_, ?_, ?_, hheld⟩, fun _ => relaySSE_uncut⟩⟩
  · rw [relaySSE_eq]
    simpa using relayEvents_writes (s := {})
  · rw [relaySSE_eq]
    exact relayEvents_goes (s := {}) nofun
  · rw [relaySSE_eq]
    simpa using relayEvents_completed (s := {}) nofun nofun

/-! ## Two long comments in one event -/

/-- A comment of `n + 2` bytes. -/
def comment (n : Nat) : Bytes := 58 :: List.replicate n 120 ++ [newline]

/-- Two comments, each found by one read. -/
def twoComments (n : Nat) : Body where
  pieces := [comment n, comment n]
  err := .eof

/-- A client that stays, and an upstream of which nothing decodes. -/
def quietCall : Call where
  modelID := "local"
  decode _ := none
  marshal _ := []

section Comments

variable {n limit : Nat}

theorem comment_length : (comment n).length = n + 2 := by
  simp [comment]

theorem comment_cut (rest : Bytes) :
    cut isNewline (comment n ++ rest) = some (comment n, rest) := by
  refine cut_eq_some.mpr ⟨rfl, 58 :: List.replicate n 120, newline, rfl, fun b hb => ?_, rfl⟩
  rcases List.mem_cons.mp hb with rfl | hb
  · rfl
  · rw [List.eq_of_mem_replicate hb]
    rfl

theorem comment_open : isBlank (comment n) = false := by
  refine decide_eq_false fun h => ?_
  have hcolon := List.rdropWhile_eq_nil_iff.mp h.1 58 (by simp [comment])
  exact absurd (of_decide_eq_true hcolon) (by decide)

theorem twoComments_comes : Body.comes (twoComments n) = (comment n ++ comment n, .eof) := by
  rw [Body.comes, Source.stream_of_pieces]
  · simp [twoComments]
  · simp [twoComments, comment]

theorem comments_lines : lines (comment n ++ comment n) = ([comment n, comment n], []) := by
  have hlast := comment_cut (n := n) []
  rw [List.append_nil] at hlast
  rw [lines_of_cut (comment_cut _), lines_of_cut hlast, lines_of_none rfl]

theorem comments_drain :
    (cutAt isBlank).drain [comment n, comment n] = ([], [comment n, comment n]) :=
  Pieces.Splitter.drain_of_none (s := cutAt isBlank) (cut_eq_none.mpr (by simp [comment_open]))

theorem comments_events : events (comment n ++ comment n) = [] := by
  rw [events, comments_lines, comments_drain]

theorem comments_opened : opened (comment n ++ comment n) = [comment n, comment n] := by
  rw [opened, comments_lines, comments_drain]
  simp

theorem comments_not_fits (h : n + 2 ≤ limit) (h' : limit < 2 * (n + 2)) :
    ¬ Fits limit [comment n, comment n] := by
  rintro (hsize | ⟨l, hl, hlong⟩)
  · simp only [size, List.map_cons, List.map_nil, List.sum_cons, List.sum_nil,
      comment_length] at hsize
    omega
  · cases hl
    rw [comment_length] at hlong
    omega

end Comments

/-- The second is read while the first is held: 32 MiB of one event. -/
theorem twoComments_held : ¬ WholeEvents quietCall (twoComments (16 * 2 ^ 20 - 2)) := by
  intro h
  have hfits := relaySSE_peak.mp h.faithful.held 0 ⟨nofun, nofun, nofun⟩
  rw [twoComments_comes, comments_events, comments_opened] at hfits
  exact comments_not_fits (by norm_num [sseEventLimit]) (by norm_num [sseEventLimit]) hfits

end LocalBase.Relay
