import LocalBase.Lib.SplitOn
import Mathlib.Data.List.Infix
import Mathlib.Data.List.Basic
import Mathlib.Tactic.Common

/-!
# Where an entry goes

An entry of an archive is put under a directory by its name, less some leading
components. A name is cleaned as text before it is judged, so what is judged is
a path that goes up only at its front, and what is let through does not go up at
all.
-/

namespace LocalBase.Unpack

abbrev Name : Type := List Char

abbrev Path : Type := List Name

def dot : Name := ['.']

def dotdot : Name := ['.', '.']

def isAbs (text : Name) : Bool := text.head? = some '/'

/-- What `Clean` leaves of components, after those it has. -/
def reduce (rooted : Bool) : List Name → List Name → List Name
  | done, [] => done
  | done, c :: rest =>
    if c = [] ∨ c = dot then reduce rooted done rest
    else if c = dotdot then
      if done ≠ [] ∧ done.getLast? ≠ some dotdot then reduce rooted done.dropLast rest
      else if rooted then reduce rooted done rest
      else reduce rooted (done ++ [dotdot]) rest
    else reduce rooted (done ++ [c]) rest

/-- `path.Clean`. -/
def clean (text : Name) : Name :=
  let parts := reduce (isAbs text) [] (text.splitOn '/')
  if isAbs text then '/' :: ['/'].intercalate parts
  else if parts = [] then dot
  else ['/'].intercalate parts

/-- `path.Join`. -/
def joinParts (parts : List Name) : Name :=
  let text := ['/'].intercalate (parts.filter (· ≠ []))
  if text = [] then [] else clean text

/-- `filepath.Join` of a clean path and text. -/
def join (p : Path) (text : Name) : Path := reduce true p (text.splitOn '/')

def trimDotSlash (name : Name) : Name :=
  if ['.', '/'].isPrefixOf name then name.drop 2 else name

/-- Joins an entry's name under a directory after stripping leading components,
refusing absolute paths and anything that escapes the directory. -/
def safeTarget (dir : Path) (name : Name) (strip : Nat) : Option Path :=
  let name := clean (trimDotSlash name)
  let parts := name.splitOn '/'
  if parts.length ≤ strip then none
  else
    let rel := joinParts (parts.drop strip)
    if rel = dot ∨ (dotdot ++ ['/']).isPrefixOf rel ∨ rel = dotdot ∨ isAbs name then none
    else some (join dir rel)

/-! ## Plain names -/

/-- A name of something in a directory. -/
structure Plain (n : Name) : Prop where
  nonempty : n ≠ []
  ne_dot : n ≠ dot
  ne_dotdot : n ≠ dotdot
  no_slash : '/' ∉ n

theorem reduce_plain {rooted : Bool} {done ps : List Name} (h : ∀ p ∈ ps, Plain p) :
    reduce rooted done ps = done ++ ps := by
  induction ps generalizing done with
  | nil => rw [reduce, List.append_nil]
  | cons p ps ih =>
    have hp := h p List.mem_cons_self
    rw [reduce, if_neg (not_or.mpr ⟨hp.nonempty, hp.ne_dot⟩), if_neg hp.ne_dotdot,
      ih fun q hq => h q (List.mem_cons_of_mem _ hq), List.append_assoc]
    rfl

theorem join_plain {p : Path} {text : Name} (h : Plain text) : join p text = p ++ [text] := by
  rw [join, List.splitOn_eq_singleton h.no_slash]
  exact reduce_plain fun q hq => by
    obtain rfl := List.mem_singleton.mp hq
    exact h

/-- Up at the front, and plain names after it. -/
def Shape (cs : List Name) : Prop :=
  ∃ k ps, cs = List.replicate k dotdot ++ ps ∧ ∀ p ∈ ps, Plain p

variable {cs : List Name}

theorem reduce_shape {done : List Name} (hcs : ∀ c ∈ cs, '/' ∉ c) (h : Shape done) :
    Shape (reduce false done cs) := by
  induction cs generalizing done with
  | nil => exact h
  | cons c cs ih =>
    have hrest := fun d hd => hcs d (List.mem_cons_of_mem c hd)
    obtain ⟨k, ps, rfl, hps⟩ := h
    rw [reduce]
    split
    · exact ih hrest ⟨k, ps, rfl, hps⟩
    · next hc =>
      obtain ⟨hnil, hdot⟩ := not_or.mp hc
      split
      · cases ps using List.reverseRecOn with
        | nil =>
          -- There is nothing but what goes up, and one more goes up.
          have hup : ¬ (List.replicate k dotdot ++ ([] : List Name) ≠ [] ∧
              (List.replicate k dotdot ++ ([] : List Name)).getLast? ≠ some dotdot) := by
            rw [List.append_nil]
            cases k with
            | zero => simp
            | succ k => simp [List.getLast?_replicate]
          rw [if_neg hup, if_neg Bool.false_ne_true]
          refine ih hrest ⟨k + 1, [], ?_, fun _ h => by cases h⟩
          rw [List.append_nil, List.append_nil, List.replicate_succ']
        | append_singleton ps p _ =>
          have hp := hps p (List.mem_append_right _ List.mem_cons_self)
          rw [← List.append_assoc, if_pos ⟨by simp, by simp [hp.ne_dotdot]⟩,
            List.dropLast_concat]
          exact ih hrest ⟨k, ps, rfl, fun q hq => hps q (List.mem_append_left _ hq)⟩
      · next hdotdot =>
        refine ih hrest ⟨k, ps ++ [c], List.append_assoc .., fun q hq => ?_⟩
        obtain hq | hq := List.mem_append.mp hq
        · exact hps q hq
        · obtain rfl := List.mem_singleton.mp hq
          exact ⟨hnil, hdot, hdotdot, hcs q List.mem_cons_self⟩

theorem Shape.no_slash (h : Shape cs) : ∀ c ∈ cs, '/' ∉ c := by
  obtain ⟨k, ps, rfl, hps⟩ := h
  intro c hc
  obtain hc | hc := List.mem_append.mp hc
  · rw [List.eq_of_mem_replicate hc]
    decide
  · exact (hps c hc).no_slash

theorem Shape.nonempty (h : Shape cs) : ∀ c ∈ cs, c ≠ [] := by
  obtain ⟨k, ps, rfl, hps⟩ := h
  intro c hc
  obtain hc | hc := List.mem_append.mp hc
  · rw [List.eq_of_mem_replicate hc]
    decide
  · exact (hps c hc).nonempty

theorem Shape.drop (h : Shape cs) (n : Nat) : Shape (cs.drop n) := by
  obtain ⟨k, ps, rfl, hps⟩ := h
  refine ⟨k - n, ps.drop (n - k), ?_, fun p hp => hps p (List.mem_of_mem_drop hp)⟩
  rw [List.drop_append, List.drop_replicate, List.length_replicate]

theorem reduce_ups (k : Nat) (done ps : List Name) (h : ∀ c ∈ done, c = dotdot) :
    reduce false done (List.replicate k dotdot ++ ps) =
      reduce false (done ++ List.replicate k dotdot) ps := by
  induction k generalizing done with
  | zero => simp
  | succ k ih =>
    have hup : ¬ (done ≠ [] ∧ done.getLast? ≠ some dotdot) := by
      rintro ⟨hne, hlast⟩
      refine hlast ?_
      rw [List.getLast?_eq_some_getLast hne, h _ (List.getLast_mem hne)]
    rw [List.replicate_succ, List.cons_append, reduce, if_neg (by decide), if_pos rfl,
      if_neg hup, if_neg Bool.false_ne_true, ih, List.append_assoc]
    · rfl
    · intro c hc
      obtain hc | hc := List.mem_append.mp hc
      · exact h c hc
      · exact List.mem_singleton.mp hc

theorem Shape.reduce (h : Shape cs) : reduce false [] cs = cs := by
  obtain ⟨k, ps, rfl, hps⟩ := h
  rw [reduce_ups k [] ps (fun _ h => by cases h), reduce_plain hps, List.nil_append]

/-! ## What is let through -/

theorem intercalate_cons (c : Name) (cs : List Name) :
    ['/'].intercalate (c :: cs) =
      if cs = [] then c else c ++ '/' :: ['/'].intercalate cs := by
  cases cs with
  | nil => simp
  | cons d cs => simp

theorem Shape.not_isAbs (h : Shape cs) :
    isAbs (['/'].intercalate cs) = false := by
  cases cs with
  | nil => rfl
  | cons c cs =>
    have hne := h.nonempty c List.mem_cons_self
    have hslash := h.no_slash c List.mem_cons_self
    cases c with
    | nil => exact absurd rfl hne
    | cons x c =>
      have hx : x ≠ '/' := fun he => hslash (by rw [he]; exact List.mem_cons_self)
      rw [intercalate_cons]
      split <;> simp [isAbs, hx]

theorem Shape.intercalate_ne_nil (h : Shape cs) (hne : cs ≠ []) :
    ['/'].intercalate cs ≠ [] := by
  cases cs with
  | nil => exact absurd rfl hne
  | cons c cs =>
    have hc := h.nonempty c List.mem_cons_self
    rw [intercalate_cons]
    split
    · exact hc
    · simp

theorem Shape.clean (h : Shape cs) (hne : cs ≠ []) :
    clean (['/'].intercalate cs) = ['/'].intercalate cs := by
  simp only [Unpack.clean, h.not_isAbs, List.splitOn_intercalate '/' h.no_slash hne, h.reduce]
  rw [if_neg Bool.false_ne_true, if_neg hne]

theorem clean_shape {text : Name} (h : isAbs (clean text) = false) :
    clean text = dot ∨ ∃ cs, cs ≠ [] ∧ Shape cs ∧ clean text = ['/'].intercalate cs := by
  cases habs : isAbs text with
  | true =>
    have hclean : ∃ t, clean text = '/' :: t :=
      ⟨_, by simp only [clean, habs]; exact if_pos trivial⟩
    obtain ⟨t, ht⟩ := hclean
    rw [ht] at h
    cases h
  | false =>
    have hshape : Shape (reduce false [] (text.splitOn '/')) :=
      reduce_shape (fun c hc => SplitOn.not_mem_of_splitOn hc) ⟨0, [], rfl, fun _ h => by cases h⟩
    simp only [clean, habs]
    rw [if_neg Bool.false_ne_true]
    split
    · exact .inl rfl
    · next hne => exact .inr ⟨_, hne, hshape, rfl⟩

theorem joinParts_shape (h : Shape cs) (hne : cs ≠ []) :
    joinParts cs = ['/'].intercalate cs := by
  have hfilter : cs.filter (· ≠ []) = cs :=
    List.filter_eq_self.mpr fun c hc => by simpa using h.nonempty c hc
  simp only [joinParts, hfilter]
  rw [if_neg (h.intercalate_ne_nil hne), h.clean hne]

theorem safeTarget_below {dir target : Path} {name : Name} {strip : Nat}
    (h : safeTarget dir name strip = some target) :
    ∃ rel, rel ≠ [] ∧ (∀ n ∈ rel, Plain n) ∧ target = dir ++ rel := by
  simp only [safeTarget] at h
  split at h
  · cases h
  · next hlen =>
    split at h
    · cases h
    · next hok =>
      obtain ⟨hdot, hok⟩ := not_or.mp hok
      obtain ⟨hfront, hok⟩ := not_or.mp hok
      obtain ⟨hup, habs⟩ := not_or.mp hok
      obtain hclean | ⟨cs, hcs, hshape, hclean⟩ :=
        clean_shape (Bool.eq_false_iff.mpr habs)
      · -- The whole name is a dot, and so is what is left of it.
        rw [hclean] at hlen hdot
        cases strip with
        | zero => exact absurd rfl hdot
        | succ strip => exact absurd (Nat.le_add_left 1 strip) hlen
      · rw [hclean, List.splitOn_intercalate '/' hshape.no_slash hcs] at hlen hdot hfront hup h
        have hne : cs.drop strip ≠ [] := fun he => hlen (List.drop_eq_nil_iff.mp he)
        have hrel := hshape.drop strip
        rw [joinParts_shape hrel hne] at hdot hfront hup h
        obtain ⟨k, ps, hps, hplain⟩ := id hrel
        cases k with
        | succ k =>
          rw [hps, List.replicate_succ, List.cons_append, intercalate_cons] at hfront hup
          split at hup
          · exact absurd rfl hup
          · next hmore =>
            rw [if_neg hmore] at hfront
            exact absurd rfl hfront
        | zero =>
          rw [List.replicate_zero, List.nil_append] at hps
          cases h
          rw [join, List.splitOn_intercalate '/' hrel.no_slash hne, hps,
            reduce_plain hplain]
          exact ⟨ps, hps ▸ hne, hplain, rfl⟩

end LocalBase.Unpack
