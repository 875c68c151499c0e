import LocalBase.Lib.Buffered

/-!
# The lines of an upstream stream

`readSSELine` puts a line together from the slices of a buffered reader and
gives up when it passes a limit. What it answers is a matter of the stream
alone: how the body was cut into reads does not show, neither in the line nor
in how much of a line too long was put together before it was given up.
-/

namespace LocalBase.Relay

open Buffered
open Pieces (cut cut_eq_none cut_eq_some)

abbrev Bytes := List UInt8

def newline : UInt8 := 10

def isNewline (b : UInt8) : Bool := b = newline

/-- How a body ends: `io.EOF`, `errStreamIdle`, or any other error. -/
inductive ReadError
  | eof
  | idle
  | failed
  deriving DecidableEq

/-- The size of the buffer, 64 KiB. -/
def bufferSize : Nat := 64 * 1024

abbrev Body := Source UInt8 ReadError

abbrev LineReader := Reader UInt8 ReadError bufferSize

/-- What is still to come, with `io.ErrNoProgress` where a body finds nothing
too often. -/
def coming (rd : LineReader) : Bytes × ReadError := rd.stream .failed

/-- What `readSSELine` answers. Of a line too long it says how much it held. -/
inductive Read
  | tooLong (held : Nat)
  | line (line : Bytes) (err : Option ReadError)

/-- `readSSELine`, with what it has of the line. -/
def readSSELineFrom (limit : Nat) (long : Bytes) (rd : LineReader) : Read × LineReader :=
  match _ : rd.readSlice .failed isNewline with
  | .marked part rd' =>
    if limit < long.length + part.length then (.tooLong long.length, rd')
    else (.line (long ++ part) none, rd')
  | .ended part e =>
    if limit < long.length + part.length then (.tooLong long.length, rd)
    else (.line (long ++ part) (some e), rd)
  | .full part rd' =>
    if limit < long.length + part.length then (.tooLong long.length, rd')
    else readSSELineFrom limit (long ++ part) rd'
termination_by limit - long.length
decreasing_by
  rename_i hslice hlimit
  have hpart : part.length = bufferSize := by
    have h := rd.readSlice_of .failed isNewline
    rw [hslice] at h
    exact h.1
  have hsize : 0 < bufferSize := by decide
  rw [List.length_append]
  omega

def readSSELine (limit : Nat) (rd : LineReader) : Read × LineReader := readSSELineFrom limit [] rd

/-! ## Lines of the stream -/

/-- What a line within the limit, or over it, is answered with. A line over the
limit was put together by whole buffers. -/
def readOf (limit : Nat) (line : Bytes) (err : Option ReadError) : Read :=
  if limit < line.length then .tooLong (limit / bufferSize * bufferSize) else .line line err

/-- The first line of a stream, or all of it where it has none. -/
def nextRead (limit : Nat) (s : Bytes × ReadError) : Read :=
  match cut isNewline s.1 with
  | some (line, _) => readOf limit line none
  | none => readOf limit s.1 (some s.2)

/-- A part of a line that is not its end. -/
def Unended (bs : Bytes) : Prop := ∀ b ∈ bs, isNewline b = false

section Slices

variable {part long rest line : Bytes} {e : ReadError} {rd rd' : LineReader}

theorem unended_append (hlong : Unended long) (hpart : Unended part) : Unended (long ++ part) := by
  intro b hb
  rcases List.mem_append.mp hb with hb | hb
  · exact hlong b hb
  · exact hpart b hb

theorem marked_slice (h : rd.readSlice .failed isNewline = .marked part rd')
    (hlong : Unended long) : part.length ≤ bufferSize ∧
      coming rd = (part ++ (coming rd').1, (coming rd').2) ∧
      cut isNewline (long ++ (coming rd).1) = some (long ++ part, (coming rd').1) := by
  have hof := rd.readSlice_of .failed isNewline
  rw [h] at hof
  obtain ⟨hlen, ⟨y, a, rfl, hy, ha⟩, hs : coming rd = (_ ++ (coming rd').1, (coming rd').2)⟩ := hof
  refine ⟨hlen, hs, ?_⟩
  rw [hs]
  exact cut_eq_some.mpr ⟨by simp, long ++ y, a, by simp, unended_append hlong hy, ha⟩

theorem ended_slice (h : rd.readSlice .failed isNewline = .ended part e)
    (hlong : Unended long) : part.length ≤ bufferSize ∧ coming rd = (part, e) ∧
      cut isNewline (long ++ part) = none := by
  have hof := rd.readSlice_of .failed isNewline
  rw [h] at hof
  exact ⟨hof.1, hof.2.2, cut_eq_none.mpr (unended_append hlong hof.2.1)⟩

theorem full_slice (h : rd.readSlice .failed isNewline = .full part rd') :
    part.length = bufferSize ∧ Unended part ∧
      coming rd = (part ++ (coming rd').1, (coming rd').2) := by
  have hof := rd.readSlice_of .failed isNewline
  rwa [h] at hof

theorem length_lt_of_cut (hlong : Unended long)
    (h : cut isNewline (long ++ part) = some (line, rest)) : long.length < line.length := by
  obtain ⟨heq, y, a, rfl, -, ha⟩ := cut_eq_some.mp h
  by_contra hle
  have hpre : y ++ [a] <+: long :=
    List.prefix_of_prefix_length_le ⟨rest, heq.symm⟩ ⟨part, rfl⟩ (Nat.not_lt.mp hle)
  have hmem : a ∈ long := hpre.subset (List.mem_append_right _ List.mem_cons_self)
  rw [hlong a hmem] at ha
  cases ha

end Slices

section Spec

variable {limit k : Nat} {long part line rest : Bytes} {s : Bytes × ReadError} {rd : LineReader}

theorem nextRead_of_cut (h : cut isNewline s.1 = some (line, rest)) :
    nextRead limit s = readOf limit line none := by
  rw [nextRead, h]

theorem nextRead_of_none (h : cut isNewline s.1 = none) :
    nextRead limit s = readOf limit s.1 (some s.2) := by
  rw [nextRead, h]

theorem readOf_over {err : Option ReadError} (h : limit < line.length) :
    readOf limit line err = .tooLong (limit / bufferSize * bufferSize) := if_pos h

theorem nextRead_over {e : ReadError} (hlong : Unended long) (h : limit < long.length) :
    nextRead limit (long ++ part, e) = .tooLong (limit / bufferSize * bufferSize) := by
  cases hcut : cut isNewline (long ++ part) with
  | none =>
    rw [nextRead_of_none hcut, readOf_over]
    exact Nat.lt_of_lt_of_le h (List.length_append ▸ Nat.le_add_right _ _)
  | some p =>
    rw [nextRead_of_cut hcut]
    exact readOf_over (Nat.lt_trans h (length_lt_of_cut hlong hcut))

theorem held_eq {n : Nat} (hlong : long.length = k * bufferSize) (hle : long.length ≤ limit)
    (hn : n ≤ bufferSize) (hover : limit < long.length + n) :
    long.length = limit / bufferSize * bufferSize := by
  have hk : limit / bufferSize = k := by
    rw [Nat.div_eq_iff (by decide)]
    omega
  rw [hk, hlong]

theorem readOf_append {err : Option ReadError} (hlong : long.length = k * bufferSize)
    (hle : long.length ≤ limit) (hpart : part.length ≤ bufferSize) :
    readOf limit (long ++ part) err =
      if limit < long.length + part.length then .tooLong long.length
      else .line (long ++ part) err := by
  rw [readOf, List.length_append]
  split
  · next hover => rw [held_eq hlong hle hpart hover]
  · rfl

theorem readSSELineFrom_eq (hlong : long.length = k * bufferSize) (hle : long.length ≤ limit)
    (hnone : Unended long) :
    (readSSELineFrom limit long rd).1 = nextRead limit (long ++ (coming rd).1, (coming rd).2) ∧
      ∀ line rest, cut isNewline (long ++ (coming rd).1) = some (line, rest) →
        line.length ≤ limit → coming (readSSELineFrom limit long rd).2 = (rest, (coming rd).2) := by
  fun_induction readSSELineFrom limit long rd generalizing k with
  | case1 long rd part rd' hslice hover =>
    obtain ⟨hpart, hs, hcut⟩ := marked_slice hslice hnone
    rw [nextRead_of_cut hcut, readOf_append hlong hle hpart, if_pos hover]
    refine ⟨rfl, fun line rest hline _ => ?_⟩
    rw [hcut] at hline
    cases hline
    rw [hs]
  | case2 long rd part rd' hslice hover =>
    obtain ⟨hpart, hs, hcut⟩ := marked_slice hslice hnone
    rw [nextRead_of_cut hcut, readOf_append hlong hle hpart, if_neg hover]
    refine ⟨rfl, fun line rest hline _ => ?_⟩
    rw [hcut] at hline
    cases hline
    rw [hs]
  | case3 long rd part e hslice hover =>
    obtain ⟨hpart, hs, hcut⟩ := ended_slice hslice hnone
    rw [hs, nextRead_of_none hcut, readOf_append hlong hle hpart, if_pos hover]
    refine ⟨rfl, fun line rest hline _ => ?_⟩
    rw [hcut] at hline
    cases hline
  | case4 long rd part e hslice hover =>
    obtain ⟨hpart, hs, hcut⟩ := ended_slice hslice hnone
    rw [hs, nextRead_of_none hcut, readOf_append hlong hle hpart, if_neg hover]
    refine ⟨rfl, fun line rest hline _ => ?_⟩
    rw [hcut] at hline
    cases hline
  | case5 long rd part rd' hslice hover =>
    obtain ⟨hpart, hunended, hs⟩ := full_slice hslice
    have hlen : limit < (long ++ part).length := by rwa [List.length_append]
    have hfront := unended_append hnone hunended
    rw [hs, ← List.append_assoc, nextRead_over hfront hlen,
      held_eq hlong hle (Nat.le_of_eq hpart) hover]
    refine ⟨rfl, fun line rest hline hshort => ?_⟩
    have := length_lt_of_cut hfront hline
    omega
  | case6 long rd part rd' hslice hover ih =>
    obtain ⟨hpart, hunended, hs⟩ := full_slice hslice
    rw [hs, ← List.append_assoc]
    refine ih (k := k + 1) ?_ ?_ (unended_append hnone hunended)
    · rw [List.length_append, hlong, hpart, Nat.succ_mul]
    · rw [List.length_append]
      omega

end Spec

theorem readSSELine_eq (limit : Nat) (rd : LineReader) :
    (readSSELine limit rd).1 = nextRead limit (coming rd) ∧
      ∀ line rest, cut isNewline (coming rd).1 = some (line, rest) → line.length ≤ limit →
        coming (readSSELine limit rd).2 = (rest, (coming rd).2) :=
  readSSELineFrom_eq (k := 0) (Nat.zero_mul _).symm (Nat.zero_le _) nofun

theorem coming_shrinks {limit : Nat} {rd : LineReader} {line : Bytes}
    (h : (readSSELine limit rd).1 = .line line none) :
    (coming (readSSELine limit rd).2).1.length < (coming rd).1.length := by
  obtain ⟨hread, hrest⟩ := readSSELine_eq limit rd
  rw [hread] at h
  cases hcut : cut isNewline (coming rd).1 with
  | none =>
    rw [nextRead_of_none hcut, readOf] at h
    split at h <;> cases h
  | some p =>
    rw [nextRead_of_cut hcut, readOf] at h
    split at h
    · cases h
    · next hshort =>
      rw [hrest p.1 p.2 hcut (Nat.not_lt.mp hshort)]
      exact (Pieces.cutAt isNewline).shrinks hcut

end LocalBase.Relay
