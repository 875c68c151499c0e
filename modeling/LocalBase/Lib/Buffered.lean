import LocalBase.Lib.Pieces

/-!
# Buffered readers

A source answers each read with a piece of what it has, as long as it likes and
perhaps nothing, and the last one with its error as well. A buffered reader
keeps what has no use yet in a buffer of a fixed size, reads on when it has to,
and gives up on a source that finds nothing too many times in a row. What comes
out of it is the source's stream: where the reads cut it is not to be seen.
-/

namespace Buffered

open Pieces (cut cut_eq_none cut_eq_some)

variable {α ε : Type*} {size k : Nat}

/-- What each of the next reads finds, what the last one finds, and the error
that comes with it. -/
structure Source (α ε : Type*) where
  pieces : List (List α)
  last : List α := []
  err : ε

/-- One read into `k` free places. What has no room there stays for the next. -/
def Source.read (s : Source α ε) (k : Nat) : List α × Option ε × Source α ε :=
  match s.pieces with
  | p :: ps =>
    if p.length ≤ k then (p, none, { s with pieces := ps })
    else (p.take k, none, { s with pieces := p.drop k :: ps })
  | [] =>
    if s.last.length ≤ k then (s.last, some s.err, { s with last := [] })
    else (s.last.take k, none, { s with last := s.last.drop k })

theorem Source.read_length (s : Source α ε) : (s.read k).1.length ≤ k := by
  unfold Source.read
  split
  · split
    · assumption
    · exact List.length_take_le ..
  · split
    · assumption
    · exact List.length_take_le ..

/-- A reader with a buffer of `size` places, and the error it has met but not
yet handed on. -/
structure Reader (α ε : Type*) (size : Nat) where
  buf : List α := []
  err : Option ε := none
  source : Source α ε
  fits : buf.length ≤ size := by exact Nat.zero_le _

def maxConsecutiveEmptyReads : Nat := 100

namespace Reader

/-- What a read found, behind what is there. -/
def put (r : Reader α ε size) (found : List α × Option ε × Source α ε)
    (h : found.1.length ≤ size - r.buf.length) : Reader α ε size where
  buf := r.buf ++ found.1
  err := found.2.1
  source := found.2.2
  fits := by
    have := r.fits
    rw [List.length_append]
    omega

/-- `fill`, with the reads it may still try. -/
def fillFor (noProgress : ε) : Nat → Reader α ε size → Reader α ε size
  | 0, r => { r with err := some noProgress }
  | i + 1, r =>
    let r' := r.put (r.source.read (size - r.buf.length)) r.source.read_length
    if r'.err.isNone ∧ r'.buf.length = r.buf.length then fillFor noProgress i r' else r'

/-- Reads a new piece into the buffer. -/
def fill (noProgress : ε) (r : Reader α ε size) : Reader α ε size :=
  r.fillFor noProgress maxConsecutiveEmptyReads

end Reader

/-! ## The stream -/

namespace Source

variable {noProgress : ε} {i : Nat} {s : Source α ε}

/-- What comes of pieces, when a reader may find nothing `i` more times, and the
error at the end. -/
def arriveFrom (noProgress : ε) (last : List α) (err : ε) :
    List (List α) → Nat → List α × ε
  | _, 0 => ([], noProgress)
  | [], _ + 1 => (last, err)
  | p :: ps, i + 1 =>
    if p = [] then arriveFrom noProgress last err ps i
    else
      (p ++ (arriveFrom noProgress last err ps maxConsecutiveEmptyReads).1,
        (arriveFrom noProgress last err ps maxConsecutiveEmptyReads).2)

def arrive (noProgress : ε) (i : Nat) (s : Source α ε) : List α × ε :=
  arriveFrom noProgress s.last s.err s.pieces i

/-- All that a source gives. -/
def stream (noProgress : ε) (s : Source α ε) : List α × ε :=
  s.arrive noProgress maxConsecutiveEmptyReads

/-- A source that never finds nothing gives all its pieces. -/
theorem stream_of_pieces (h : ∀ p ∈ s.pieces, p ≠ []) :
    s.stream noProgress = (s.pieces.flatten ++ s.last, s.err) := by
  obtain ⟨pieces, last, err⟩ := s
  have harrive : ∀ i, arriveFrom noProgress last err pieces (i + 1) =
      (pieces.flatten ++ last, err) := by
    induction pieces with
    | nil => exact fun _ => rfl
    | cons p ps ih =>
      intro i
      have hps : ∀ q ∈ ps, q ≠ [] := fun q hq => h q (List.mem_cons_of_mem _ hq)
      have hrest := ih hps (maxConsecutiveEmptyReads - 1)
      rw [arriveFrom, if_neg (h p List.mem_cons_self)]
      rw [show maxConsecutiveEmptyReads - 1 + 1 = maxConsecutiveEmptyReads from rfl] at hrest
      simp [hrest]
  exact harrive (maxConsecutiveEmptyReads - 1)

/-- A read meets the end, finds nothing, or finds the next of the stream. -/
theorem read_cases (noProgress : ε) (i : Nat) (s : Source α ε) (hk : 0 < k) :
    (∃ e, (s.read k).2.1 = some e ∧ s.arrive noProgress (i + 1) = ((s.read k).1, e)) ∨
    ((s.read k).2.1 = none ∧ (s.read k).1 = [] ∧
      s.arrive noProgress (i + 1) = (s.read k).2.2.arrive noProgress i) ∨
    ((s.read k).2.1 = none ∧ (s.read k).1 ≠ [] ∧ s.arrive noProgress (i + 1) =
      ((s.read k).1 ++ ((s.read k).2.2.stream noProgress).1,
        ((s.read k).2.2.stream noProgress).2)) := by
  obtain ⟨pieces, last, err⟩ := s
  cases pieces with
  | nil =>
    by_cases hlast : last.length ≤ k
    · exact .inl ⟨err, by simp [read, hlast], by simp [read, hlast, arrive, arriveFrom]⟩
    · have hne : last ≠ [] := fun h => hlast (h ▸ Nat.zero_le _)
      refine .inr (.inr ⟨by simp [read, hlast],
        by simp [read, hlast, Nat.pos_iff_ne_zero.mp hk, hne], ?_⟩)
      simp [read, hlast, stream, arrive, arriveFrom, maxConsecutiveEmptyReads]
  | cons p ps =>
    by_cases hp : p.length ≤ k
    · by_cases hempty : p = []
      · subst hempty
        exact .inr (.inl ⟨by simp [read], by simp [read], by simp [read, arrive, arriveFrom]⟩)
      · refine .inr (.inr ⟨by simp [read, hp], by simp [read, hp, hempty], ?_⟩)
        simp [read, hp, hempty, stream, arrive, arriveFrom]
    · have hne : p ≠ [] := fun h => hp (h ▸ Nat.zero_le _)
      have hdrop : p.drop k ≠ [] := fun h => hp (List.drop_eq_nil_iff.mp h)
      refine .inr (.inr ⟨by simp [read, hp],
        by simp [read, hp, Nat.pos_iff_ne_zero.mp hk, hne], ?_⟩)
      simp [read, hp, hne, hdrop, stream, arrive, arriveFrom, maxConsecutiveEmptyReads,
        ← List.append_assoc]

end Source

namespace Reader

variable {noProgress : ε} {i : Nat} {r : Reader α ε size}

/-- What is still to come out of a reader. -/
def stream (noProgress : ε) (r : Reader α ε size) : List α × ε :=
  match r.err with
  | some e => (r.buf, e)
  | none => (r.buf ++ (r.source.stream noProgress).1, (r.source.stream noProgress).2)

theorem stream_of_err {e : ε} (h : r.err = some e) : r.stream noProgress = (r.buf, e) := by
  rw [stream, h]

theorem stream_of_none (h : r.err = none) : r.stream noProgress =
    (r.buf ++ (r.source.stream noProgress).1, (r.source.stream noProgress).2) := by
  rw [stream, h]

/-- Reads go on from where the buffer ends, and what they find is what comes. -/
theorem fillFor_stream (hroom : r.buf.length < size) :
    (r.fillFor noProgress i).stream noProgress =
      (r.buf ++ (r.source.arrive noProgress i).1, (r.source.arrive noProgress i).2) := by
  induction i generalizing r with
  | zero => simp [fillFor, stream, Source.arrive, Source.arriveFrom]
  | succ i ih =>
    rw [fillFor]
    rcases Source.read_cases noProgress i r.source (Nat.sub_pos_of_lt hroom) with
      ⟨e, he, hs⟩ | ⟨he, hempty, hs⟩ | ⟨he, hfound, hs⟩
    · rw [if_neg (by simp [put, he]), stream_of_err he, hs]
      rfl
    · have hbuf : (r.put _ r.source.read_length).buf = r.buf := by simp [put, hempty]
      rw [if_pos ⟨by simp [put, he], congrArg List.length hbuf⟩, ih (by rwa [hbuf]), hbuf, hs]
      rfl
    · rw [if_neg (by simp [put, hfound]), stream_of_none he, hs]
      simp [put]

theorem fill_stream (herr : r.err = none) (hroom : r.buf.length < size) :
    (r.fill noProgress).stream noProgress = r.stream noProgress := by
  rw [fill, fillFor_stream hroom, stream_of_none herr]
  rfl

/-- After it there is more in the buffer, or an error to hand on. -/
theorem fillFor_length (noProgress : ε) (i : Nat) (r : Reader α ε size) :
    r.buf.length ≤ (r.fillFor noProgress i).buf.length ∧
    ((r.fillFor noProgress i).err = none →
      r.buf.length < (r.fillFor noProgress i).buf.length) := by
  induction i generalizing r with
  | zero => exact ⟨Nat.le_refl _, nofun⟩
  | succ i ih =>
    rw [fillFor]
    have hle : r.buf.length ≤ (r.put _ r.source.read_length).buf.length := by simp [put]
    split
    · next hagain =>
      have heq := Nat.le_of_eq hagain.2.symm
      exact ⟨Nat.le_trans heq (ih _).1, fun h => Nat.lt_of_le_of_lt heq ((ih _).2 h)⟩
    · next hdone =>
      refine ⟨hle, fun h => Nat.lt_of_le_of_ne hle fun heq => hdone ⟨?_, heq.symm⟩⟩
      rw [h]
      rfl

end Reader

/-! ## Slices -/

/-- What `readSlice` answers: a slice that ends with a mark, what there was
before the error, or a whole buffer without a mark. -/
inductive Slice (α ε : Type*) (size : Nat)
  | marked (part : List α) (r : Reader α ε size)
  | ended (part : List α) (e : ε)
  | full (part : List α) (r : Reader α ε size)

namespace Reader

variable {noProgress : ε} {p : α → Bool} {r : Reader α ε size}

/-- Up to the first element that `p` marks. -/
def readSlice (noProgress : ε) (p : α → Bool) (r : Reader α ε size) : Slice α ε size :=
  match hcut : cut p r.buf with
  | some (part, rest) =>
    .marked part { r with buf := rest, fits := Nat.le_trans (Pieces.cut_length hcut).2 r.fits }
  | none =>
    match _ : r.err with
    | some e => .ended r.buf e
    | none =>
      if _ : r.buf.length < size then readSlice noProgress p (r.fill noProgress)
      else .full r.buf { r with buf := [], fits := Nat.zero_le _ }
termination_by (if r.err = none then 1 else 0) + (size - r.buf.length)
decreasing_by
  rename_i herr hroom
  have hlen := fillFor_length noProgress maxConsecutiveEmptyReads r
  rw [if_pos herr]
  split
  · next hnone =>
    have := hlen.2 hnone
    show 1 + (size - (r.fillFor noProgress maxConsecutiveEmptyReads).buf.length) < _
    omega
  · show 0 + (size - (r.fillFor noProgress maxConsecutiveEmptyReads).buf.length) < _
    omega

end Reader

/-- A slice is the front of a stream. Only at its end does it have a mark. -/
def Slice.Of (noProgress : ε) (p : α → Bool) (s : List α × ε) : Slice α ε size → Prop
  | .marked part r => part.length ≤ size ∧ (∃ y a, part = y ++ [a] ∧ (∀ a ∈ y, p a = false) ∧
      p a = true) ∧ s = (part ++ (r.stream noProgress).1, (r.stream noProgress).2)
  | .ended part e => part.length ≤ size ∧ (∀ a ∈ part, p a = false) ∧ s = (part, e)
  | .full part r => part.length = size ∧ (∀ a ∈ part, p a = false) ∧
      s = (part ++ (r.stream noProgress).1, (r.stream noProgress).2)

theorem Reader.readSlice_of (noProgress : ε) (p : α → Bool) (r : Reader α ε size) :
    (r.readSlice noProgress p).Of noProgress p (r.stream noProgress) := by
  fun_induction Reader.readSlice noProgress p r with
  | case1 r part rest hcut =>
    obtain ⟨hbuf, hpart⟩ := cut_eq_some.mp hcut
    refine ⟨Nat.le_trans (Pieces.cut_length hcut).1 r.fits, hpart, ?_⟩
    cases herr : r.err with
    | some e => simp [stream, herr, hbuf]
    | none => simp [stream, herr, hbuf]
  | case2 r hcut e herr => exact ⟨r.fits, cut_eq_none.mp hcut, stream_of_err herr⟩
  | case3 r hcut herr hroom ih => rwa [fill_stream herr hroom] at ih
  | case4 r hcut herr hroom =>
    refine ⟨Nat.le_antisymm r.fits (Nat.not_lt.mp hroom), cut_eq_none.mp hcut, ?_⟩
    simp [stream, herr]

end Buffered
