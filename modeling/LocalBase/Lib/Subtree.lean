import LocalBase.Lib.Tree
import Mathlib.Data.Fintype.EquivFin
import Mathlib.Data.List.Basic

/-!
# A subtree that is moved

The directories and links below a place may come to stand below another, with
anything around them. A walk that starts among them and never goes up from their
top is the same walk at either place, so it ends among them again. One that does
go up from their top goes on wherever its new surroundings take it.
-/

namespace Tree

variable {ν β : Type}

/-- What stands below a place. -/
def below (t : Disk ν β) (b : List ν) : Disk ν β := fun s => t (b ++ s)

/-- The directory or link at a place. -/
def frame (t : Disk ν β) (p : List ν) : Option (Node ν β) :=
  match t p with
  | some .dir => some .dir
  | some (.link rooted steps) => some (.link rooted steps)
  | _ => none

/-- Two disks with the same directories and links. -/
def SameFrame (t t' : Disk ν β) : Prop := ∀ p, frame t p = frame t' p

/-- Every link has its steps from the directory it is in. -/
def Relative (k : Disk ν β) : Prop := ∀ p steps, k p ≠ some (.link true steps)

section
variable (k : Disk ν β)

def leavesBy (follow : List ν → List (Step ν) → Bool) : List ν → List (Step ν) → Bool
  | _, [] => false
  | p, s :: rest =>
    if isDir k p then
      match s with
      | .here => leavesBy follow p rest
      | .up => if p.isEmpty then true else leavesBy follow p.dropLast rest
      | .down x =>
        match k (p ++ [x]) with
        | some .dir => leavesBy follow (p ++ [x]) rest
        | some (.link _ steps) => follow p (steps ++ rest)
        -- A file, or nothing: no step goes on from it.
        | _ => false
    else false

/-- Whether the steps, from a place and through at most `n` links, go up from the
top. -/
def leaves : Nat → List ν → List (Step ν) → Bool
  | 0 => leavesBy k fun _ _ => false
  | n + 1 => leavesBy k (leaves n)

end

variable {k t t' : Disk ν β} {b c p r : List ν} {xs : List (Step ν)} {n m : Nat}

theorem frame_dir : frame t p = some .dir ↔ t p = some .dir := by
  unfold frame
  cases t p with
  | none => simp
  | some node => cases node <;> simp

theorem frame_link {rooted : Bool} {steps : List (Step ν)} :
    frame t p = some (.link rooted steps) ↔ t p = some (.link rooted steps) := by
  unfold frame
  cases t p with
  | none => simp
  | some node => cases node <;> simp

theorem SameFrame.isDir (h : SameFrame t t') (p : List ν) : isDir t p = isDir t' p := by
  rw [Bool.eq_iff_iff, isDir_iff, isDir_iff, ← frame_dir, h p, frame_dir]

/-! ## Walks that stay -/

/-- A walk that does not go up from the top of a subtree ends in it. -/
theorem walk_stays (hsame : SameFrame (below t b) k) (hrel : Relative k)
    (h : leaves k n p xs = false) (hw : walk t n (b ++ p) xs = .ok (r, m)) : b <+: r := by
  have hby : ∀ {n : Nat} {leave : List ν → List (Step ν) → Bool}
      {follow : List ν → List (Step ν) → Except Why (List ν × Nat)},
      (∀ p xs, leave p xs = false → follow (b ++ p) xs = .ok (r, m) → b <+: r) →
      ∀ {xs : List (Step ν)} {p : List ν}, leavesBy k leave p xs = false →
        walkBy t n follow (b ++ p) xs = .ok (r, m) → b <+: r := by
    intro n leave follow hfollow xs
    induction xs with
    | nil =>
      intro p _ hw
      cases hw
      exact List.prefix_append ..
    | cons s xs ih =>
      intro p h hw
      have hboth : Tree.isDir t (b ++ p) = Tree.isDir k p := hsame.isDir p
      by_cases hdir : Tree.isDir k p = true
      · rw [hdir] at hboth
        cases s with
        | here =>
          simp only [leavesBy, walkBy, hdir, hboth, if_true] at h hw
          exact ih h hw
        | up =>
          simp only [leavesBy, walkBy, hdir, hboth, if_true] at h hw
          split at h
          · cases h
          · next hp =>
            rw [List.isEmpty_iff] at hp
            rw [List.dropLast_append_of_ne_nil hp] at hw
            exact ih h hw
        | down x =>
          simp only [leavesBy, walkBy, hdir, hboth, if_true] at h hw
          have hx : frame t (b ++ (p ++ [x])) = frame k (p ++ [x]) := hsame (p ++ [x])
          rw [List.append_assoc] at hw
          cases ht : t (b ++ (p ++ [x])) with
          | none =>
            rw [ht] at hw
            cases hw
          | some node =>
            rw [ht] at hw
            cases node with
            | dir =>
              rw [frame_dir.mp (hx.symm.trans (frame_dir.mpr ht))] at h
              exact ih h hw
            | file bytes =>
              -- The file is where the walk ends.
              cases xs with
              | nil =>
                cases hw
                exact List.prefix_append ..
              | cons y ys =>
                have hfile : Tree.isDir t (b ++ (p ++ [x])) = false := by
                  rw [Tree.isDir, ht]
                  rfl
                simp only [walkBy, hfile] at hw
                cases hw
            | link rooted steps =>
              have hk := frame_link.mp (hx.symm.trans (frame_link.mpr ht))
              cases rooted with
              | true => exact absurd hk (hrel _ _)
              | false =>
                rw [hk] at h
                exact hfollow _ _ h hw
      · rw [Bool.not_eq_true] at hdir
        rw [hdir] at hboth
        simp only [walkBy, hboth] at hw
        cases hw
  induction n generalizing p xs with
  | zero => exact hby (fun _ _ _ h => by cases h) h hw
  | succ n ih => exact hby (fun _ _ h hw => ih h hw) h hw

/-! ## Walks that leave -/

/-- A walk that goes up from the top of a subtree comes, wherever that stands, to
the directory that it stands in. -/
theorem walk_leaves (hrel : Relative k) (h : leaves k n p xs = true) :
    ∃ m rest, ∀ t b, b ≠ [] → SameFrame (below t b) k →
      walk t n (b ++ p) xs = walk t m b.dropLast rest := by
  have hby : ∀ {n : Nat} {leave : List ν → List (Step ν) → Bool}
      {follow : Disk ν β → List ν → List (Step ν) → Except Why (List ν × Nat)},
      (∀ p xs, leave p xs = true → ∃ m rest, ∀ t b, b ≠ [] → SameFrame (below t b) k →
        follow t (b ++ p) xs = walk t m b.dropLast rest) →
      (∀ t p xs, walkBy t n (follow t) p xs = walk t n p xs) →
      ∀ {xs : List (Step ν)} {p : List ν}, leavesBy k leave p xs = true →
        ∃ m rest, ∀ t b, b ≠ [] → SameFrame (below t b) k →
          walkBy t n (follow t) (b ++ p) xs = walk t m b.dropLast rest := by
    intro n leave follow hfollow hend xs
    induction xs with
    | nil =>
      intro p h
      cases h
    | cons s xs ih =>
      intro p h
      by_cases hdir : Tree.isDir k p = true
      · have hat : ∀ {t b}, SameFrame (below t b) k → Tree.isDir t (b ++ p) = true :=
          fun {t b} hsame => (hsame.isDir p).trans hdir
        cases s with
        | here =>
          simp only [leavesBy, hdir, if_true] at h
          obtain ⟨m, rest, hrest⟩ := ih h
          refine ⟨m, rest, fun t b hb hsame => ?_⟩
          simp only [walkBy, hat hsame, if_true]
          exact hrest t b hb hsame
        | up =>
          simp only [leavesBy, hdir, if_true] at h
          split at h
          · next hp =>
            rw [List.isEmpty_iff] at hp
            refine ⟨n, xs, fun t b _ hsame => ?_⟩
            simp only [walkBy, hat hsame, if_true]
            rw [hp, List.append_nil]
            exact hend t _ _
          · next hp =>
            rw [List.isEmpty_iff] at hp
            obtain ⟨m, rest, hrest⟩ := ih h
            refine ⟨m, rest, fun t b hb hsame => ?_⟩
            simp only [walkBy, hat hsame, if_true]
            rw [List.dropLast_append_of_ne_nil hp]
            exact hrest t b hb hsame
        | down x =>
          simp only [leavesBy, hdir, if_true] at h
          cases hk : k (p ++ [x]) with
          | none =>
            rw [hk] at h
            cases h
          | some node =>
            rw [hk] at h
            cases node with
            | file bytes => cases h
            | dir =>
              obtain ⟨m, rest, hrest⟩ := ih h
              refine ⟨m, rest, fun t b hb hsame => ?_⟩
              have ht : t (b ++ (p ++ [x])) = some .dir :=
                frame_dir.mp ((hsame (p ++ [x])).trans (frame_dir.mpr hk))
              simp only [walkBy, hat hsame, if_true]
              rw [List.append_assoc, ht]
              exact hrest t b hb hsame
            | link rooted steps =>
              obtain ⟨m, rest, hrest⟩ := hfollow _ _ h
              refine ⟨m, rest, fun t b hb hsame => ?_⟩
              have ht : t (b ++ (p ++ [x])) = some (.link rooted steps) :=
                frame_link.mp ((hsame (p ++ [x])).trans (frame_link.mpr hk))
              cases rooted with
              | true => exact absurd hk (hrel _ _)
              | false =>
                simp only [walkBy, hat hsame, if_true]
                rw [List.append_assoc, ht]
                exact hrest t b hb hsame
      · simp only [leavesBy, hdir] at h
        cases h
  induction n generalizing p xs with
  | zero => exact hby (fun _ _ h => by cases h) (fun _ _ _ => rfl) h
  | succ n ih => exact hby (fun _ _ h => ih h) (fun _ _ _ => rfl) h

theorem walk_here (t : Disk ν β) (n : Nat) (p : List ν) (xs : List (Step ν)) :
    walk t n p (.here :: xs) = if isDir t p then walk t n p xs else .error .notDir := by
  cases n <;> rfl

theorem walk_up (t : Disk ν β) (n : Nat) (p : List ν) (xs : List (Step ν)) :
    walk t n p (.up :: xs) = if isDir t p then walk t n p.dropLast xs else .error .notDir := by
  cases n <;> rfl

/-- Where there are directories all around a subtree, a walk outside it does not
come into it but by its name. -/
theorem walk_around (hout : ∀ q, ¬ b <+: q → t q = some .dir)
    (hname : ∀ x ∈ b.getLast?, Step.down x ∉ xs) (hp : ¬ b <+: p) :
    ∃ r, walk t n p xs = .ok (r, n) ∧ ¬ b <+: r := by
  induction xs generalizing p with
  | nil => exact ⟨p, walk_nil n p, hp⟩
  | cons s xs ih =>
    have hdir : isDir t p = true := isDir_iff.mpr (hout p hp)
    have hrest : ∀ x ∈ b.getLast?, Step.down x ∉ xs := fun x hx hmem =>
      hname x hx (List.mem_cons_of_mem _ hmem)
    cases s with
    | here =>
      rw [walk_here, if_pos hdir]
      exact ih hrest hp
    | up =>
      rw [walk_up, if_pos hdir]
      exact ih hrest fun h => hp (h.trans (List.dropLast_prefix p))
    | down x =>
      have hx : ¬ b <+: p ++ [x] := by
        intro h
        obtain rfl | h := List.prefix_concat_iff.mp h
        · exact hname x (by simp) List.mem_cons_self
        · exact hp h
      have hlink : isLink t (p ++ [x]) = false := by
        rw [isLink, hout _ hx]
        rfl
      rw [walk_down hlink, if_pos hdir, if_pos (by rw [hout _ hx]; rfl)]
      exact ih hrest hx

/-! ## Moving a subtree -/

section
variable [DecidableEq ν] {out : Disk ν β}

/-- What stands below `b` stands below `c`, in other surroundings. -/
def elsewhere (t out : Disk ν β) (b c : List ν) : Disk ν β := fun q =>
  if c <+: q then t (b ++ q.drop c.length) else out q

theorem below_elsewhere : below (elsewhere t out b c) c = below t b := by
  funext s
  show (if c <+: c ++ s then _ else _) = _
  rw [if_pos (List.prefix_append ..), List.drop_left]
  rfl

theorem elsewhere_out {q : List ν} (h : ¬ c <+: q) : elsewhere t out b c q = out q := if_neg h

theorem Grown.elsewhere (h : Grown t) (hout : Grown out)
    (hc : ∀ p x, c = p ++ [x] → isDir out p = true) : Grown (elsewhere t out b c) := by
  intro p x hx
  by_cases hp : c <+: p
  · obtain ⟨s, rfl⟩ := hp
    have hbelow : ∀ s, Tree.elsewhere t out b c (c ++ s) = t (b ++ s) := fun s =>
      congrFun below_elsewhere s
    rw [List.append_assoc, hbelow, ← List.append_assoc] at hx
    rw [isDir, hbelow]
    exact h _ x hx
  · rw [isDir, elsewhere_out hp]
    by_cases hpx : c <+: p ++ [x]
    · obtain hpx | hpx := List.prefix_concat_iff.mp hpx
      · exact hc p x hpx
      · exact absurd hpx hp
    · rw [elsewhere_out hpx] at hx
      exact hout p x hx

end

end Tree
