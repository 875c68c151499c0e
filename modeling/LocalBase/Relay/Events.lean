import LocalBase.Relay.Forward

/-!
# The events of an upstream stream

A stream is its complete lines and what is left after them, and the lines are
complete events, each with its empty line, and those of an event still open.
The relay takes them line by line. Seen from between two events it takes a
whole event at a time, and what it had in hand on the way is `heldFrom`.
-/

namespace LocalBase.Relay

open Buffered
open Pieces (cut cutAt cut_eq_none cut_eq_some)
open StructuredOutput (Json Object)

/-! ## Lines and events -/

/-- The complete lines, and what is left. -/
def lines (bytes : Bytes) : List Bytes × Bytes := (cutAt isNewline).drain bytes

/-- The complete events, each with the empty line that ends it. -/
def events (bytes : Bytes) : List (List Bytes) := ((cutAt isBlank).drain (lines bytes).1).1

/-- The lines of the event that is open at the end, the last perhaps cut. -/
def opened (bytes : Bytes) : List Bytes :=
  ((cutAt isBlank).drain (lines bytes).1).2 ++
    if (lines bytes).2 = [] then [] else [(lines bytes).2]

/-- The lines of an event as the relay keeps them. -/
def content (e : List Bytes) : List Bytes := e.dropLast.map trimmed

def size (ls : List Bytes) : Nat := (ls.map List.length).sum

/-! ## What is in hand -/

/-- What is held of a line while it is read, or of its front when it is too long. -/
def kept (limit : Nat) (line : Bytes) : Nat :=
  if limit < line.length then limit / bufferSize * bufferSize else line.length

/-- The most bytes in hand over the lines of an event, of which `n` are there. -/
def heldFrom (limit : Nat) : Nat → List Bytes → Nat
  | n, [] => n
  | n, l :: ls =>
    if limit < n + l.length then n + kept limit l else heldFrom limit (n + l.length) ls

namespace State

def takeEvent (c : Call) (limit : Nat) (s : State) (e : List Bytes) : Except Answer State :=
  let s' := { s with peak := max s.peak (heldFrom limit 0 e) }
  if limit < size e then .error (s'.fail (limitEvent limit) .responseEventLimit)
  else { s' with event := content e }.emit c

/-- The event that is open when a read fails. -/
def takeOpened (c : Call) (limit : Nat) (s : State) (ls : List Bytes) (err : ReadError) : Answer :=
  let s' := { s with peak := max s.peak (heldFrom limit 0 ls) }
  if limit < size ls then s'.fail (limitEvent limit) .responseEventLimit
  else { s' with event := ls.map trimmed }.ending c err

end State

def relayEvents (c : Call) (limit : Nat) (opened : List Bytes) (err : ReadError) :
    State → List (List Bytes) → Answer
  | s, [] => s.takeOpened c limit opened err
  | s, e :: es =>
    match s.takeEvent c limit e with
    | .error a => a
    | .ok s' => relayEvents c limit opened err s' es

section Held

variable {limit n : Nat} {ls ls' : List Bytes}

theorem size_append : size (ls ++ ls') = size ls + size ls' := by
  simp [size]

theorem size_cons {l : Bytes} : size (l :: ls) = l.length + size ls := by
  simp [size]

theorem le_heldFrom (limit n : Nat) (ls : List Bytes) : n ≤ heldFrom limit n ls := by
  induction ls generalizing n with
  | nil => exact Nat.le_refl _
  | cons l ls ih =>
    rw [heldFrom]
    split
    · exact Nat.le_add_right _ _
    · exact Nat.le_trans (Nat.le_add_right _ _) (ih _)

theorem heldFrom_over (hn : n ≤ limit) (h : limit < n + size ls) :
    heldFrom limit n (ls ++ ls') = heldFrom limit n ls := by
  induction ls generalizing n with
  | nil => exact absurd h (Nat.not_lt.mpr hn)
  | cons l ls ih =>
    rw [List.cons_append, heldFrom, heldFrom]
    rw [size_cons] at h
    split
    · rfl
    · exact ih (by omega) (by omega)

theorem heldFrom_within (ls' : List Bytes) (h : n + size ls ≤ limit) :
    heldFrom limit n (ls ++ ls') = heldFrom limit (n + size ls) ls' := by
  induction ls generalizing n with
  | nil => rfl
  | cons l ls ih =>
    rw [size_cons] at h ⊢
    rw [List.cons_append, heldFrom, if_neg (by omega), ih (by omega), Nat.add_assoc]

end Held

/-! ## A line at a time -/

section Lines

variable {c : Call} {limit : Nat} {s : State} {l : Bytes} {ls : List Bytes}
  {err : Option ReadError}

namespace State

/-- A state that has kept the given lines as well. -/
def having (s : State) (ls : List Bytes) : State :=
  { s with
    event := s.event ++ ls.map trimmed
    eventBytes := s.eventBytes + size ls
    peak := max s.peak (s.eventBytes + size ls) }

/-- A state that has given up on an event over the limit. -/
def refused (s : State) (limit : Nat) (ls : List Bytes) : Answer :=
  { s with peak := max s.peak (heldFrom limit s.eventBytes ls) }.fail (limitEvent limit)
    .responseEventLimit

theorem having_nil (hs : s.eventBytes ≤ s.peak) : s.having [] = s := by
  simp [having, size, Nat.max_eq_left hs]

theorem having_having (ls' : List Bytes) : (s.having ls).having ls' = s.having (ls ++ ls') := by
  simp only [having, size_append, List.map_append, List.append_assoc, Nat.add_assoc, mk.injEq,
    true_and]
  omega

theorem having_refused (h : s.eventBytes + l.length ≤ limit) :
    (s.having [l]).refused limit ls = s.refused limit (l :: ls) := by
  have hsize : s.eventBytes + size [l] = s.eventBytes + l.length := by simp [size]
  have hle := le_heldFrom limit (s.eventBytes + l.length) ls
  simp only [refused, having, hsize, heldFrom, Nat.not_lt.mpr h, ↓reduceIte, Nat.max_assoc,
    Nat.max_eq_right hle]
  rfl

theorem step_readOf : s.step c limit (readOf limit l err) =
    if limit < s.eventBytes + l.length then .error (s.refused limit [l])
    else { s with
      eventBytes := s.eventBytes + l.length
      peak := max s.peak (s.eventBytes + l.length) }.takeLine c l >>= after c err := by
  unfold readOf
  by_cases hl : limit < l.length
  · rw [if_pos hl, if_pos (by omega)]
    simp [step, refused, heldFrom, kept, hl, show limit < s.eventBytes + l.length by omega]
  · rw [if_neg hl, step]
    split
    · next h => simp [refused, heldFrom, kept, hl, fail, stop, write, show _ < _ from h]
    · rfl

theorem takeLine_open (hl : l ≠ []) (hblank : isBlank l = false) :
    s.takeLine c l = .ok { s with event := s.event ++ [trimmed l] } := by
  rw [takeLine, if_neg hl, hblank]
  rfl

end State

theorem follow_open (hs : s.eventBytes ≤ s.peak) (hlimit : s.eventBytes ≤ limit)
    (hls : ∀ l ∈ ls, l ≠ [] ∧ isBlank l = false) :
    ls.foldlM (fun s l => s.step c limit (readOf limit l none)) s =
      if limit < s.eventBytes + size ls then .error (s.refused limit ls)
      else .ok (s.having ls) := by
  induction ls generalizing s with
  | nil =>
    rw [if_neg (by simpa [size] using hlimit), State.having_nil hs]
    rfl
  | cons l ls ih =>
    obtain ⟨hl, hblank⟩ := hls l List.mem_cons_self
    rw [List.foldlM_cons, State.step_readOf, size_cons]
    by_cases hover : limit < s.eventBytes + l.length
    · rw [if_pos hover, if_pos (by omega)]
      simp [State.refused, heldFrom, hover, Bind.bind, Except.bind]
    · have hsize : size [l] = l.length := by simp [size]
      rw [if_neg hover, State.takeLine_open hl hblank]
      show ls.foldlM _ (s.having [l]) = _
      rw [ih, State.having_having, State.having_refused (Nat.not_lt.mp hover)]
      · simp only [State.having, hsize, Nat.add_assoc, List.singleton_append]
      · exact Nat.le_max_right _ _
      · simpa [State.having, hsize] using hover
      · exact fun l' hl' => hls l' (List.mem_cons_of_mem _ hl')

end Lines

/-! ## An event at a time -/

/-- Between two events nothing is kept. -/
def State.Between (s : State) : Prop := s.event = [] ∧ s.eventBytes = 0

section Events

variable {c : Call} {limit : Nat} {s : State} {b rest : Bytes} {ls : List Bytes} {err : ReadError}

theorem heldFrom_eq (h : size ls ≤ limit) : heldFrom limit 0 ls = size ls := by
  have := heldFrom_within (n := 0) [] ((Nat.zero_add _).trans_le h)
  rwa [List.append_nil, Nat.zero_add] at this

theorem isBlank_ne (hb : isBlank b = true) : b ≠ [] := by
  rintro rfl
  cases hb

theorem takeLine_blank (hb : isBlank b = true) :
    s.takeLine c b = { s with eventBytes := 0 }.emit c := by
  rw [State.takeLine, if_neg (isBlank_ne hb), if_pos hb]

theorem having_refused_append (hs : s.eventBytes = 0) (hls : size ls ≤ limit) :
    (s.having ls).refused limit [b] = s.refused limit (ls ++ [b]) := by
  have hheld := heldFrom_within (n := 0) [b] ((Nat.zero_add _).trans_le hls)
  have hle := le_heldFrom limit (0 + size ls) [b]
  simp only [State.refused, State.having, hs, hheld, Nat.max_assoc, Nat.max_eq_right hle]
  rfl

theorem refused_append {ls' : List Bytes} (hs : s.eventBytes = 0) (hls : limit < size ls) :
    s.refused limit (ls ++ ls') = s.refused limit ls := by
  rw [State.refused, State.refused, hs, heldFrom_over (Nat.zero_le _) (by omega)]

theorem bind_after_none {x : Except Answer State} : x >>= State.after c none = x := by
  cases x <;> rfl

theorem follow_event (hs : s.Between) (hls : ∀ l ∈ ls, l ≠ [] ∧ isBlank l = false)
    (hb : isBlank b = true) :
    (ls ++ [b]).foldlM (fun s l => s.step c limit (readOf limit l none)) s =
      s.takeEvent c limit (ls ++ [b]) := by
  obtain ⟨hevent, hbytes⟩ := hs
  have hsize : size (ls ++ [b]) = size ls + b.length := by simp [size]
  rw [List.foldlM_append, follow_open (by omega) (by omega) hls, hbytes, Nat.zero_add]
  have htake : s.takeEvent c limit (ls ++ [b]) =
      if limit < size (ls ++ [b]) then .error (s.refused limit (ls ++ [b]))
      else { s with
        event := content (ls ++ [b])
        peak := max s.peak (heldFrom limit 0 (ls ++ [b])) }.emit c := by
    rw [State.takeEvent, State.refused, hbytes]
  by_cases hover : limit < size ls
  · rw [if_pos hover, htake, if_pos (by omega), refused_append hbytes hover]
    rfl
  · rw [if_neg hover]
    show (s.having ls).step c limit (readOf limit b none) >>= pure = _
    rw [bind_pure, State.step_readOf, htake, hsize]
    have hhaving : (s.having ls).eventBytes = size ls := by simp [State.having, hbytes]
    rw [hhaving, having_refused_append hbytes (Nat.not_lt.mp hover)]
    split
    · rfl
    · rw [bind_after_none, takeLine_blank hb, heldFrom_eq (by omega)]
      congr 1
      simp only [State.having, hevent, hbytes, hsize, content, List.dropLast_concat,
        List.nil_append, State.mk.injEq, true_and]
      omega

theorem ending_eventBytes (n : Nat) :
    State.ending c { s with eventBytes := n } err = s.ending c err := rfl

theorem follow_opened (hs : s.Between) (hls : ∀ l ∈ ls, l ≠ [] ∧ isBlank l = false)
    (hrest : isBlank rest = false) :
    (ls.foldlM (fun s l => s.step c limit (readOf limit l none)) s >>=
        fun s => s.step c limit (readOf limit rest (some err))) =
      .error (s.takeOpened c limit (ls ++ if rest = [] then [] else [rest]) err) := by
  obtain ⟨hevent, hbytes⟩ := hs
  have htake (ls' : List Bytes) : s.takeOpened c limit ls' err =
      if limit < size ls' then s.refused limit ls'
      else State.ending c { s with
        event := ls'.map trimmed
        peak := max s.peak (heldFrom limit 0 ls') } err := by
    rw [State.takeOpened, State.refused, hbytes]
  rw [follow_open (by omega) (by omega) hls, hbytes, Nat.zero_add]
  by_cases hover : limit < size ls
  · rw [if_pos hover, htake, if_pos (by rw [size_append]; omega), refused_append hbytes hover]
    rfl
  · rw [if_neg hover]
    show (s.having ls).step c limit (readOf limit rest (some err)) = _
    have hhaving : (s.having ls).eventBytes = size ls := by simp [State.having, hbytes]
    rw [State.step_readOf, htake, hhaving]
    by_cases hnil : rest = []
    · subst hnil
      rw [if_pos rfl, List.append_nil, if_neg (by simpa using hover), if_neg hover,
        heldFrom_eq (Nat.not_lt.mp hover), ← ending_eventBytes (size ls)]
      show Except.error (State.ending c _ err) = _
      simp [State.having, hevent, hbytes]
    · have hsize : size (ls ++ [rest]) = size ls + rest.length := by simp [size]
      rw [if_neg hnil, hsize, having_refused_append hbytes (Nat.not_lt.mp hover)]
      split
      · rfl
      · rw [State.takeLine_open hnil hrest, heldFrom_eq (by omega),
          ← ending_eventBytes (size (ls ++ [rest]))]
        show Except.error (State.ending c _ err) = _
        congr 2
        simp only [State.having, hevent, hbytes, hsize, List.map_append, List.map_cons,
          List.map_nil, List.nil_append, State.mk.injEq, true_and]
        omega

theorem State.Between.takeEvent {s' : State} {e : List Bytes} (hs : s.Between)
    (h : s.takeEvent c limit e = .ok s') : s'.Between := by
  rw [State.takeEvent] at h
  split at h
  · cases h
  · rw [State.emit] at h
    split at h
    · next hcontent =>
      cases h
      exact ⟨hcontent, hs.2⟩
    · split at h
      · cases h
      · split at h
        · cases h
          exact ⟨rfl, hs.2⟩
        · cases h

theorem follow_events (hs : s.Between) (hls : ∀ l ∈ ls, l ≠ []) (hrest : isBlank rest = false) :
    (ls.foldlM (fun s l => s.step c limit (readOf limit l none)) s >>=
        fun s => s.step c limit (readOf limit rest (some err))) =
      .error (relayEvents c limit
        (((cutAt isBlank).drain ls).2 ++ if rest = [] then [] else [rest]) err s
        ((cutAt isBlank).drain ls).1) := by
  induction hn : ls.length using Nat.strongRecOn generalizing s ls with
  | ind n ih =>
    cases hcut : (cutAt isBlank).next ls with
    | none =>
      rw [Pieces.Splitter.drain_of_none hcut, relayEvents]
      exact follow_opened hs (fun l hl => ⟨hls l hl, cut_eq_none.mp hcut l hl⟩) hrest
    | some q =>
      obtain ⟨e, r⟩ := q
      have hshort := (cutAt isBlank).shrinks hcut
      obtain ⟨rfl, ns, b, rfl, hns, hb⟩ := cut_eq_some.mp hcut
      rw [Pieces.Splitter.drain_of_some hcut, relayEvents, List.foldlM_append,
        follow_event hs (fun l hl => ⟨hls l (by simp [hl]), hns l hl⟩) hb]
      cases htake : s.takeEvent c limit (ns ++ [b]) with
      | error a => rfl
      | ok s' =>
        exact ih r.length (hn ▸ hshort) (hs.takeEvent htake)
          (fun l hl => hls l (List.mem_append_right _ hl)) rfl

end Events

/-! ## The whole relay -/

section Relay

variable {c : Call} {limit : Nat} {s : State} {rd : LineReader}

theorem lines_of_cut {line rest bytes : Bytes} (h : cut isNewline bytes = some (line, rest)) :
    lines bytes = (line :: (lines rest).1, (lines rest).2) :=
  Pieces.Splitter.drain_of_some (s := cutAt isNewline) h

theorem lines_of_none {bytes : Bytes} (h : cut isNewline bytes = none) :
    lines bytes = ([], bytes) :=
  Pieces.Splitter.drain_of_none (s := cutAt isNewline) h

theorem relayFrom_lines : ((lines (coming rd).1).1.foldlM
      (fun s l => s.step c limit (readOf limit l none)) s >>=
        fun s => s.step c limit (readOf limit (lines (coming rd).1).2 (some (coming rd).2))) =
      .error (relayFrom c limit s rd) := by
  fun_induction relayFrom c limit s rd with
  | case1 s rd a hstep =>
    rw [(readSSELine_eq limit rd).1] at hstep
    cases hcut : cut isNewline (coming rd).1 with
    | none =>
      rw [nextRead_of_none hcut] at hstep
      rw [lines_of_none hcut]
      exact hstep
    | some p =>
      rw [nextRead_of_cut hcut] at hstep
      rw [lines_of_cut hcut, List.foldlM_cons, hstep]
      rfl
  | case2 s rd s' hstep ih =>
    obtain ⟨line, hline⟩ := step_ok hstep
    obtain ⟨hread, hrest⟩ := readSSELine_eq limit rd
    rw [hread] at hline hstep
    cases hcut : cut isNewline (coming rd).1 with
    | none =>
      rw [nextRead_of_none hcut, readOf] at hline
      split at hline <;> cases hline
    | some p =>
      rw [nextRead_of_cut hcut] at hstep hline
      rw [lines_of_cut hcut, List.foldlM_cons, hstep]
      have hshort : p.1.length ≤ limit := by
        by_contra hover
        rw [readOf_over (Nat.not_le.mp hover)] at hline
        cases hline
      rw [hrest p.1 p.2 hcut hshort] at ih
      exact ih

theorem lines_ne {bytes line : Bytes} (h : line ∈ (lines bytes).1) : line ≠ [] := by
  obtain ⟨y, a, rfl, -⟩ := Pieces.mem_drain_cutAt h
  exact List.concat_ne_nil a y

theorem events_ne {bytes line : Bytes} {e : List Bytes} (he : e ∈ events bytes) (hl : line ∈ e) :
    line ≠ [] := by
  refine lines_ne (?_ : line ∈ (lines bytes).1)
  rw [← Pieces.drain_cutAt_flatten (p := isBlank) (lines bytes).1]
  exact List.mem_append_left _ (List.mem_flatten_of_mem he hl)

theorem opened_ne {bytes line : Bytes} (h : line ∈ opened bytes) : line ≠ [] := by
  rcases List.mem_append.mp h with h | h
  · refine lines_ne (?_ : line ∈ (lines bytes).1)
    rw [← Pieces.drain_cutAt_flatten (p := isBlank) (lines bytes).1]
    exact List.mem_append_right _ h
  · split at h
    · cases h
    · next hrest => exact List.mem_singleton.mp h ▸ hrest

theorem relayFrom_eq (hs : s.Between) : relayFrom c limit s rd =
    relayEvents c limit (opened (coming rd).1) (coming rd).2 s (events (coming rd).1) := by
  have hlines : ∀ l ∈ (lines (coming rd).1).1, l ≠ [] := fun _ => lines_ne
  have hrest : isBlank (lines (coming rd).1).2 = false := by
    rw [Bool.eq_false_iff]
    intro hblank
    obtain ⟨-, hlast⟩ := of_decide_eq_true hblank
    have hnone := Pieces.drain_cutAt_rest (p := isNewline) (coming rd).1 newline
      (List.mem_of_getLast? hlast)
    cases hnone
  exact Except.error.inj (relayFrom_lines.symm.trans (follow_events hs hlines hrest))

end Relay

end LocalBase.Relay
