import Mathlib.Data.List.Infix
import Mathlib.Logic.Function.Basic
import Mathlib.Tactic.Common

/-!
# A tree of directories, files and links

What is on a disk, by where it really is: the names from the root down, with no
link on the way. A path is walked step by step, and a step onto a link goes on
with what the link says. The walk of one path after another is the walk of the
first and then of the second from where the first ended, with as many links
left to follow as the first did not.

Below a directory where no link is, paths lead where they say.
-/

namespace Tree

variable {ν β : Type} {n : Nat} {p : List ν}

/-- A step of a path. -/
inductive Step (ν : Type) where
  | here
  | up
  | down (n : ν)
deriving DecidableEq

/-- A link has steps from the root, or from the directory it is in. -/
inductive Node (ν β : Type) where
  | dir
  | file (bytes : List β)
  | link (rooted : Bool) (steps : List (Step ν))

inductive Why where
  | absent
  | notDir
  | loop
deriving DecidableEq

abbrev Disk (ν β : Type) : Type := List ν → Option (Node ν β)

def Node.isDir : Node ν β → Bool
  | .dir => true
  | _ => false

def Node.isLink : Node ν β → Bool
  | .link _ _ => true
  | _ => false

variable (t : Disk ν β)

def isDir (p : List ν) : Bool := (t p).any Node.isDir

/-- A walk with no link left to follow but by `follow`. -/
def walkBy (n : Nat) (follow : List ν → List (Step ν) → Except Why (List ν × Nat)) :
    List ν → List (Step ν) → Except Why (List ν × Nat)
  | p, [] => .ok (p, n)
  | p, s :: rest =>
    if isDir t p then
      match s with
      | .here => walkBy n follow p rest
      | .up => walkBy n follow p.dropLast rest
      | .down x =>
        match t (p ++ [x]) with
        | none => .error .absent
        | some .dir => walkBy n follow (p ++ [x]) rest
        | some (.file _) => walkBy n follow (p ++ [x]) rest
        | some (.link rooted steps) => follow (if rooted then [] else p) (steps ++ rest)
    else .error .notDir

/-- Where the steps lead from a place, following at most `n` links, and how many
are left. -/
def walk : Nat → List ν → List (Step ν) → Except Why (List ν × Nat)
  | 0 => walkBy t 0 fun _ _ => .error .loop
  | n + 1 => walkBy t (n + 1) (walk n)

/-- The place of a name in a directory that a path leads to. -/
def place (n : Nat) (path : List ν) (x : ν) : Except Why (List ν) :=
  match walk t n [] (path.map .down) with
  | .ok (p, _) => if isDir t p then .ok (p ++ [x]) else .error .notDir
  | .error e => .error e

variable {t}

@[simp] theorem walk_nil (n : Nat) (p : List ν) : walk t n p [] = .ok (p, n) := by
  cases n <;> rfl

theorem walkBy_append {follow : List ν → List (Step ν) → Except Why (List ν × Nat)}
    {ys : List (Step ν)}
    (hfollow : ∀ p xs, follow p (xs ++ ys) = follow p xs >>= fun x => walk t x.2 x.1 ys)
    (hend : ∀ p, walkBy t n follow p ys = walk t n p ys) (p : List ν) (xs : List (Step ν)) :
    walkBy t n follow p (xs ++ ys) =
      walkBy t n follow p xs >>= fun x => walk t x.2 x.1 ys := by
  induction xs generalizing p with
  | nil => exact hend p
  | cons s xs ih =>
    rw [List.cons_append]
    by_cases hp : isDir t p = true
    · cases s with
      | here =>
        simp only [walkBy, hp, if_true]
        exact ih p
      | up =>
        simp only [walkBy, hp, if_true]
        exact ih p.dropLast
      | down x =>
        simp only [walkBy, hp, if_true]
        cases t (p ++ [x]) with
        | none => rfl
        | some node =>
          cases node with
          | dir => exact ih (p ++ [x])
          | file bytes => exact ih (p ++ [x])
          | link rooted steps =>
            show follow _ (steps ++ (xs ++ ys)) = _
            rw [← List.append_assoc]
            exact hfollow _ _
    · simp only [walkBy, hp]
      rfl

theorem walk_append (n : Nat) (p : List ν) (xs ys : List (Step ν)) :
    walk t n p (xs ++ ys) = walk t n p xs >>= fun x => walk t x.2 x.1 ys := by
  induction n generalizing p xs with
  | zero => exact walkBy_append (fun _ _ => rfl) (fun _ => rfl) p xs
  | succ n ih => exact walkBy_append ih (fun _ => rfl) p xs

/-! ## Where no link is -/

def isLink (t : Disk ν β) (p : List ν) : Bool := (t p).any Node.isLink

theorem isDir_iff : isDir t p = true ↔ t p = some .dir := by
  unfold isDir
  cases t p with
  | none => simp
  | some node => cases node <;> simp [Node.isDir]

theorem isSome_of_isDir (h : isDir t p = true) : (t p).isSome := by
  rw [isDir_iff.mp h]
  rfl

theorem walk_down {x : ν} (h : isLink t (p ++ [x]) = false) (rest : List (Step ν)) :
    walk t n p (.down x :: rest) =
      if isDir t p then
        if (t (p ++ [x])).isSome then walk t n (p ++ [x]) rest else .error .absent
      else .error .notDir := by
  unfold isLink at h
  cases n <;>
  · simp only [walk, walkBy]
    cases hx : t (p ++ [x]) with
    | none => rfl
    | some node =>
      rw [hx] at h
      cases node with
      | dir => rfl
      | file bytes => rfl
      | link rooted steps => cases h

/-- A path along which no link is leads where it says, if anywhere. -/
theorem walk_names {m : Nat} {q r : List ν}
    (hlink : ∀ s, s ≠ [] → s <+: q → isLink t (p ++ s) = false)
    (h : walk t n p (q.map .down) = .ok (r, m)) : r = p ++ q ∧ m = n := by
  induction q generalizing p with
  | nil =>
    rw [List.map_nil, walk_nil] at h
    cases h
    exact ⟨(List.append_nil _).symm, rfl⟩
  | cons x q ih =>
    have hx := hlink [x] (by simp) (by simp)
    rw [List.map_cons, walk_down hx] at h
    split at h
    · split at h
      · have hrest := ih (p := p ++ [x]) (fun s _ hs => by
          rw [List.append_assoc]
          exact hlink (x :: s) (by simp) (by simpa using hs)) h
        rwa [List.append_assoc] at hrest
      · cases h
    · cases h

/-- A path along which directories are leads where it says. -/
theorem walk_dirs (n : Nat) {q : List ν} (h : ∀ s, s <+: q → isDir t (p ++ s) = true) :
    walk t n p (q.map .down) = .ok (p ++ q, n) := by
  induction q generalizing p with
  | nil => rw [List.map_nil, walk_nil, List.append_nil]
  | cons x q ih =>
    have hp : isDir t p = true := by simpa using h [] (List.nil_prefix ..)
    have hx : isDir t (p ++ [x]) = true := h [x] (by simp)
    have hlink : isLink t (p ++ [x]) = false := by simp [isLink, isDir_iff.mp hx, Node.isLink]
    rw [List.map_cons, walk_down hlink, if_pos hp, if_pos (isSome_of_isDir hx)]
    have hrest := ih (p := p ++ [x]) fun s hs => by
      rw [List.append_assoc]
      exact h (x :: s) (by simpa using hs)
    rw [hrest, List.append_assoc]
    rfl

/-! ## Below a directory -/

def Below (b p : List ν) : Prop := ∃ q, q ≠ [] ∧ p = b ++ q

variable {n m : Nat} {d b q : List ν} {x : ν}

theorem place_names (hbase : walk t n [] (d.map .down) = .ok (b, m))
    (hlink : ∀ s, s ≠ [] → s <+: q → isLink t (b ++ s) = false)
    (h : place t n (d ++ q) x = .ok p) : p = b ++ (q ++ [x]) := by
  unfold place at h
  split at h
  · next r k hwalk =>
    rw [List.map_append, walk_append, hbase] at hwalk
    obtain ⟨rfl, _⟩ := walk_names hlink hwalk
    split at h
    · cases h
      rw [List.append_assoc]
    · cases h
  · cases h

/-- Along directories, a place is there, and it is where its path says. -/
theorem place_dirs (hbase : walk t n [] (d.map .down) = .ok (b, m))
    (h : ∀ s, s <+: q → isDir t (b ++ s) = true) :
    place t n (d ++ q) x = .ok (b ++ (q ++ [x])) := by
  have hwalk : walk t n [] ((d ++ q).map .down) = .ok (b ++ q, m) := by
    rw [List.map_append, walk_append, hbase]
    exact walk_dirs m h
  simp only [place, hwalk, h q List.prefix_rfl, if_true, List.append_assoc]

theorem place_isSome {rest : List ν} {y : List ν × Nat}
    (hwalk : walk t n [] ((d ++ x :: rest).map .down) = .ok y)
    (h : place t n d x = .ok p) : (t p).isSome := by
  unfold place at h
  split at h
  · next r k hr =>
    split at h
    · next hdir =>
      cases h
      rw [List.map_append, walk_append, hr] at hwalk
      cases hx : t (r ++ [x]) with
      | some node => rfl
      | none =>
        have hlink : isLink t (r ++ [x]) = false := by simp [isLink, hx]
        have hnone : walk t k r ((x :: rest).map .down) = .error .absent := by
          rw [List.map_cons, walk_down hlink, if_pos hdir, if_neg (by simp [hx])]
        exact absurd (hnone.symm.trans hwalk) (by simp)
    · cases h
  · cases h

/-- What is below an empty directory is not on the way of a walk that arrives. -/
theorem walk_congr {t' : Disk ν β} (hsame : ∀ p, ¬ Below b p → t' p = t p)
    (hempty : ∀ p, Below b p → t p = none) {xs : List (Step ν)} {y : List ν × Nat}
    (h : walk t n p xs = .ok y) : walk t' n p xs = .ok y := by
  have hat : ∀ p, (t p).isSome → t' p = t p := fun p hp => hsame p fun hb => by
    rw [hempty p hb] at hp
    cases hp
  have hby : ∀ {n : Nat} {follow follow' : List ν → List (Step ν) → Except Why (List ν × Nat)},
      (∀ p xs, follow p xs = .ok y → follow' p xs = .ok y) → ∀ {xs : List (Step ν)} {p : List ν},
      walkBy t n follow p xs = .ok y → walkBy t' n follow' p xs = .ok y := by
    intro n follow follow' hfollow xs
    induction xs with
    | nil => exact fun h => h
    | cons s xs ih =>
      intro p h
      by_cases hdir : isDir t p = true
      · have hdir' : isDir t' p = true := by
          rw [isDir, hat p (isSome_of_isDir hdir)]
          exact hdir
        cases s with
        | here =>
          simp only [walkBy, hdir, hdir', if_true] at h ⊢
          exact ih h
        | up =>
          simp only [walkBy, hdir, hdir', if_true] at h ⊢
          exact ih h
        | down x =>
          simp only [walkBy, hdir, hdir', if_true] at h ⊢
          cases hx : t (p ++ [x]) with
          | none =>
            rw [hx] at h
            cases h
          | some node =>
            rw [hx] at h
            rw [hat _ (by rw [hx]; rfl), hx]
            cases node with
            | dir => exact ih h
            | file bytes => exact ih h
            | link rooted steps => exact hfollow _ _ h
      · simp only [walkBy, hdir] at h
        cases h
  induction n generalizing p xs with
  | zero => exact hby (fun _ _ h => by cases h) h
  | succ n ih => exact hby (fun _ _ h => ih h) h

/-! ## Disks that grow -/

/-- What is there is in a directory. -/
def Grown (t : Disk ν β) : Prop := ∀ p x, (t (p ++ [x])).isSome → isDir t p = true

/-- Everything on the way to what is there is a directory. -/
theorem Grown.dirs (h : Grown t) {q : List ν} (hq : q ≠ []) (hp : (t (p ++ q)).isSome) :
    isDir t p = true := by
  induction q using List.reverseRecOn with
  | nil => exact absurd rfl hq
  | append_singleton q x ih =>
    rw [← List.append_assoc] at hp
    have hdir := h _ _ hp
    cases q with
    | nil => rwa [List.append_nil] at hdir
    | cons y q => exact ih (by simp) (isSome_of_isDir hdir)

section
variable [DecidableEq ν] {node : Node ν β}

/-- Something put where no directory is. -/
def put (t : Disk ν β) (p : List ν) (node : Node ν β) : Disk ν β :=
  Function.update t p (some node)

theorem put_self : put t p node p = some node :=
  Function.update_self ..

theorem put_of_ne {q : List ν} (h : q ≠ p) : put t p node q = t q :=
  Function.update_of_ne h _ _

theorem Grown.put (h : Grown t) {x : ν} (hp : isDir t p = true)
    (hx : isDir t (p ++ [x]) = false) :
    Grown (put t (p ++ [x]) node) := by
  intro q y hy
  have hkeep : isDir t q = true → isDir (Tree.put t (p ++ [x]) node) q = true := by
    intro hq
    have hne : q ≠ p ++ [x] := by
      rintro rfl
      rw [hx] at hq
      cases hq
    rw [isDir, put_of_ne hne]
    exact hq
  by_cases he : q ++ [y] = p ++ [x]
  · rw [(List.append_inj' he rfl).1]
    rw [(List.append_inj' he rfl).1] at hkeep
    exact hkeep hp
  · rw [put_of_ne he] at hy
    exact hkeep (h q y hy)

end

end Tree
