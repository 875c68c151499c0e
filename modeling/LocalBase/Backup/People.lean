import LocalBase.Lib.Records
import LocalBase.Backup.Keys

/-!
# A restore's comparison of people

A restore takes over what the root says of a person who is removed or disabled
there. A person of the backup is found on the root by id, and by address when
the root does not know the id.
-/

namespace LocalBase.Backup

structure ComparedUser where
  status : String
  /-- Empty for a person without an address. -/
  email : String
deriving DecidableEq

/-- The people of one database, by id. -/
abbrev Users := AList fun _ : String => ComparedUser

/-- The people of a root. No two of them have one address. -/
structure People where
  users : Users
  unique : ∀ r ∈ users.entries, ∀ q ∈ users.entries,
    r.2.email ≠ "" → r.2.email = q.2.email → r = q

def ComparedUser.letIn (u : ComparedUser) : Prop := u.status = "active" ∨ u.status = "pending"

def ComparedUser.keptOut (u : ComparedUser) : Prop := u.status = "removed" ∨ u.status = "disabled"

instance (u : ComparedUser) : Decidable u.letIn := inferInstanceAs (Decidable (_ ∨ _))

instance (u : ComparedUser) : Decidable u.keptOut := inferInstanceAs (Decidable (_ ∨ _))

/-- The people of a root by address. -/
def byEmail (now : Users) : Users :=
  now.entries.foldl (fun m r => if r.2.email ≠ "" then m.insert r.2.email r.2 else m) ∅

/-- Who the root has for a person of the backup. An id survives within one root's
lineage, and the address is the fallback. -/
def rootUser (now : Users) (id : String) (u : ComparedUser) : Option ComparedUser :=
  match now.lookup id with
  | some was => some was
  | none => if u.email ≠ "" then (byEmail now).lookup u.email else none

structure ComparingUsers where
  staged : Users
  report : Report

/-- `UPDATE auth_users SET status = ? WHERE id = ?`. -/
def updateStatus (fails : String → Bool) (staged : Users) (id status : String) :
    Except CompareError Users :=
  if fails id then .error (.statement id)
  else match staged.lookup id with
    | none => .ok staged
    | some row => .ok (staged.insert id { row with status := status })

def compareUser (fails : String → Bool) (now : Users) (c : ComparingUsers)
    (r : Σ _ : String, ComparedUser) : Except CompareError ComparingUsers :=
  match rootUser now r.1 r.2 with
  | none =>
    if r.2.status ≠ "removed" then
      .ok { c with report := { c.report with returningUsers := c.report.returningUsers + 1 } }
    else .ok c
  | some was =>
    if was.status = r.2.status then .ok c
    else if was.keptOut then do
      let staged ← updateStatus fails c.staged r.1 was.status
      let kept := c.report.userStatusesKept + 1
      return { staged := staged, report := { c.report with userStatusesKept := kept } }
    else .ok { c with report := { c.report with usersChanged := c.report.usersChanged + 1 } }

/-- The comparison of people in `compareWithTarget`. -/
def compareUsers (fails : String → Bool) (now staged : Users) (report : Report) :
    Except CompareError ComparingUsers :=
  staged.entries.foldlM (compareUser fails now) { staged := staged, report := report }

/-! ## People by address -/

variable {u : ComparedUser}

theorem foldl_byEmail {rs : List (Σ _ : String, ComparedUser)} {m : Users} {e : String}
    (h : (rs.foldl (fun m r => if r.2.email ≠ "" then m.insert r.2.email r.2 else m) m).lookup e =
      some u) :
    m.lookup e = some u ∨ ∃ r ∈ rs, r.2 = u ∧ u.email = e ∧ e ≠ "" := by
  induction rs generalizing m with
  | nil => exact .inl h
  | cons r rs ih =>
    rw [List.foldl_cons] at h
    obtain hm | ⟨q, hq, hu⟩ := ih h
    · split at hm
      · next hr =>
        by_cases he : e = r.2.email
        · rw [he, AList.lookup_insert] at hm
          injection hm with hm
          exact .inr ⟨r, by simp, hm, hm ▸ he.symm, he ▸ hr⟩
        · rw [AList.lookup_insert_ne he] at hm
          exact .inl hm
      · exact .inl hm
    · exact .inr ⟨q, by simp [hq], hu⟩

theorem foldl_byEmail_isSome {rs : List (Σ _ : String, ComparedUser)} {m : Users} {e : String}
    (he : e ≠ "") (h : (m.lookup e).isSome ∨ ∃ r ∈ rs, r.2.email = e) :
    ((rs.foldl (fun m r => if r.2.email ≠ "" then m.insert r.2.email r.2 else m) m).lookup
      e).isSome := by
  induction rs generalizing m with
  | nil =>
    obtain h | ⟨r, hr, -⟩ := h
    · exact h
    · exact absurd hr (by simp)
  | cons r rs ih =>
    rw [List.foldl_cons]
    apply ih
    by_cases hr : r.2.email = e
    · left
      rw [if_pos (hr ▸ he), hr, AList.lookup_insert]
      rfl
    · obtain h | ⟨q, hq, hqe⟩ := h
      · left
        split
        · rw [AList.lookup_insert_ne (Ne.symm hr)]
          exact h
        · exact h
      · right
        rcases List.mem_cons.1 hq with rfl | hq
        · exact absurd hqe hr
        · exact ⟨q, hq, hqe⟩

variable {r : Σ _ : String, ComparedUser}

theorem byEmail_lookup {now : People} (hr : r ∈ now.users.entries) (he : r.2.email ≠ "") :
    (byEmail now.users).lookup r.2.email = some r.2 := by
  have hs : ((byEmail now.users).lookup r.2.email).isSome :=
    foldl_byEmail_isSome he (.inr ⟨r, hr, rfl⟩)
  obtain ⟨u, hu⟩ := Option.isSome_iff_exists.1 hs
  obtain h | ⟨q, hq, hqu, hue, -⟩ := foldl_byEmail hu
  · exact absurd h (by simp)
  · rw [hu]
    have hrq : r = q := now.unique r hr q hq he (by rw [hqu, hue])
    rw [hrq, hqu]

/-! ## What the comparison leaves -/

/-- What the comparison leaves of a person. -/
def comparedUserRow (now : Users) (id : String) (u : ComparedUser) : Option ComparedUser :=
  (rootUser now id u).elim (some u)
    fun was => if was.keptOut then some { u with status := was.status } else some u

def ComparingUsers.row (c : ComparingUsers) (id : String) : Option ComparedUser :=
  c.staged.lookup id

variable {id : String} {fails : String → Bool}

theorem updateStatus_ok {staged staged' : Users} {status : String}
    (h : updateStatus fails staged id status = .ok staged')
    (hu : staged.lookup id = some u) : staged'.lookup id = some { u with status := status } := by
  unfold updateStatus at h
  split at h
  · simp at h
  · rw [hu] at h
    injection h with h
    rw [← h, AList.lookup_insert]

theorem updateStatus_other {staged staged' : Users} {status i : String}
    (h : updateStatus fails staged id status = .ok staged')
    (hi : i ≠ id) : staged'.lookup i = staged.lookup i := by
  unfold updateStatus at h
  split at h
  · simp at h
  · split at h
    · injection h with h
      rw [h]
    · injection h with h
      rw [← h, AList.lookup_insert_ne hi]

variable {now : Users}

theorem compareUser_ok {c c' : ComparingUsers} (h : compareUser fails now c r = .ok c') :
    (c'.staged = c.staged ∧ comparedUserRow now r.1 r.2 = some r.2) ∨
      ∃ was, rootUser now r.1 r.2 = some was ∧ was.keptOut ∧
        updateStatus fails c.staged r.1 was.status = .ok c'.staged := by
  unfold compareUser at h
  unfold comparedUserRow
  split at h
  · next hw =>
    rw [hw]
    left
    split at h <;>
    · injection h with h
      rw [← h]
      exact ⟨rfl, rfl⟩
  · next was hw =>
    rw [hw]
    split at h
    · next hs =>
      injection h with h
      rw [h]
      refine .inl ⟨rfl, ?_⟩
      show (if was.keptOut then _ else _) = some r.2
      rw [hs]
      split <;> rfl
    · split at h
      · next hk =>
        right
        refine ⟨was, rfl, hk, ?_⟩
        cases hu : updateStatus fails c.staged r.1 was.status with
        | error e => rw [hu] at h; exact absurd h (by simp [bind, Except.bind])
        | ok staged =>
          rw [hu] at h
          injection h with h
          rw [← h]
      · next hk =>
        injection h with h
        rw [← h]
        refine .inl ⟨rfl, ?_⟩
        show (if was.keptOut then _ else _) = some r.2
        rw [if_neg hk]

theorem compareUser_settles :
    Rows.Settles ComparingUsers.row (comparedUserRow now) (compareUser fails now) := by
  constructor
  · intro c c' r h hr
    unfold ComparingUsers.row at hr ⊢
    obtain ⟨hs, hu⟩ | ⟨was, hw, hk, hu⟩ := compareUser_ok h
    · rw [hs, hr, hu]
    · rw [updateStatus_ok hu hr, comparedUserRow, hw]
      show _ = if was.keptOut then _ else _
      rw [if_pos hk]
  · intro c c' r i h hi
    unfold ComparingUsers.row
    obtain ⟨hs, -⟩ | ⟨was, -, -, hu⟩ := compareUser_ok h
    · rw [hs]
    · exact updateStatus_other hu hi

theorem compareUsers_ok {staged : Users} {report : Report} {c : ComparingUsers}
    (h : compareUsers fails now staged report = .ok c) (id : String) :
    c.staged.lookup id = (staged.lookup id).bind (comparedUserRow now id) := by
  cases hl : staged.lookup id with
  | none =>
    have hi : id ∉ staged.entries.keys := AList.lookup_eq_none.1 hl
    exact (compareUser_settles.untouched h hi).trans hl
  | some u =>
    have hr : (⟨id, u⟩ : Σ _ : String, ComparedUser) ∈ staged.entries :=
      AList.mem_lookup_iff.1 hl
    exact compareUser_settles.walked h staged.nodupKeys (fun r hr => AList.mem_lookup_iff.2 hr)
      hr

/-! ## Nobody is let back in -/

/-- Whoever may sign in has neither the id nor the address of a person the root
keeps out. -/
def NobodyBackIn (now staged : Users) : Prop :=
  ∀ id u, staged.lookup id = some u → u.letIn →
    (∀ was, now.lookup id = some was → ¬ was.keptOut) ∧
      (u.email ≠ "" → ∀ r ∈ now.entries, r.2.email = u.email → ¬ r.2.keptOut)

/-- A person of the backup whom the root knows by id and does not keep out, under
the address of another it does. -/
def Crossed (now staged : Users) : Prop :=
  ∃ id u was, staged.lookup id = some u ∧ u.letIn ∧ u.email ≠ "" ∧
    now.lookup id = some was ∧ ¬ was.keptOut ∧
    ∃ r ∈ now.entries, r.2.email = u.email ∧ r.2.keptOut

theorem not_letIn_of_keptOut (h : u.keptOut) : ¬ u.letIn := by
  obtain h | h := h <;> simp [ComparedUser.letIn, h]

/-- Whoever the comparison leaves able to sign in, it left as the backup had
them, and found nobody kept out in their place. -/
theorem comparedUserRow_letIn {b : ComparedUser} (h : comparedUserRow now id b = some u)
    (hu : u.letIn) :
    u = b ∧ ∀ was, rootUser now id b = some was → ¬ was.keptOut := by
  unfold comparedUserRow at h
  cases hw : rootUser now id b with
  | none =>
    rw [hw] at h
    injection h with h
    exact ⟨h.symm, fun was hwas => absurd hwas (by simp)⟩
  | some was =>
    rw [hw] at h
    change (if was.keptOut then _ else _) = some u at h
    split at h
    · next hk =>
      injection h with h
      have hku : u.keptOut := by
        rw [← h]
        exact hk
      exact absurd hu (not_letIn_of_keptOut hku)
    · next hk =>
      injection h with h
      refine ⟨h.symm, fun was' hwas => ?_⟩
      injection hwas with hwas
      exact hwas ▸ hk

theorem rootUser_of_id {was : ComparedUser}
    (h : now.lookup id = some was) : rootUser now id u = some was := by
  unfold rootUser
  rw [h]

theorem rootUser_of_email {now : People} (h : now.users.lookup id = none)
    (hr : r ∈ now.users.entries) (he : u.email ≠ "") (hre : r.2.email = u.email) :
    rootUser now.users id u = some r.2 := by
  unfold rootUser
  rw [h]
  show (if u.email ≠ "" then _ else none) = some r.2
  rw [if_pos he, ← hre]
  exact byEmail_lookup hr (hre ▸ he)

/-- The comparison lets nobody back in exactly when no id of the root comes back
under the address of somebody it keeps out. -/
theorem compareUsers_nobodyBackIn {fails : String → Bool} {now : People} {staged : Users}
    {report : Report} {c : ComparingUsers}
    (h : compareUsers fails now.users staged report = .ok c) :
    NobodyBackIn now.users c.staged ↔ ¬ Crossed now.users staged := by
  constructor
  · rintro hn ⟨id, u, was, hu, hin, he, hw, hk, r, hr, hre, hrk⟩
    have hrow : c.staged.lookup id = some u := by
      rw [compareUsers_ok h id, hu]
      show comparedUserRow now.users id u = some u
      unfold comparedUserRow
      rw [rootUser_of_id hw]
      show (if was.keptOut then _ else _) = some u
      rw [if_neg hk]
    exact (hn id u hrow hin).2 he r hr hre hrk
  · intro hc id u hu hin
    rw [compareUsers_ok h id] at hu
    obtain ⟨b, hb, hrow⟩ := Option.bind_eq_some_iff.1 hu
    obtain ⟨rfl, hroot⟩ := comparedUserRow_letIn hrow hin
    constructor
    · intro was hw
      exact hroot was (rootUser_of_id hw)
    · intro he r hr hre hrk
      cases hw : now.users.lookup id with
      | none => exact hroot r.2 (rootUser_of_email hw hr he hre) hrk
      | some was =>
        exact hc ⟨id, u, was, hb, hin, he, hw, hroot was (rootUser_of_id hw), r, hr, hre, hrk⟩

/-- Two people of a root, one of them removed. -/
def twoPeople : People where
  users := (AList.singleton "1" ⟨"active", "ann@a.net"⟩).insert "2" ⟨"removed", "bob@a.net"⟩
  unique := by decide

/-- A backup that has the first under the address of the second. -/
def crossedBackup : Users := AList.singleton "1" ⟨"active", "bob@a.net"⟩

theorem compared_crossedBackup :
    compareUsers (fun _ => false) twoPeople.users crossedBackup {} =
      .ok { staged := crossedBackup, report := {} } := by
  rfl

/-- The address of the person removed signs in again. -/
theorem crossedBackup_letIn :
    ∃ c, compareUsers (fun _ => false) twoPeople.users crossedBackup {} = .ok c ∧
      ¬ NobodyBackIn twoPeople.users c.staged := by
  refine ⟨_, compared_crossedBackup, fun h => ?_⟩
  refine (h "1" ⟨"active", "bob@a.net"⟩ rfl (by decide)).2 (by decide)
    ⟨"2", "removed", "bob@a.net"⟩ ?_ rfl (by decide)
  exact AList.mem_lookup_iff.1 rfl

theorem compareUsers_nobodyBackIn_two :
    NobodyBackIn twoPeople.users crossedBackup ↔ ¬ Crossed twoPeople.users crossedBackup :=
  compareUsers_nobodyBackIn compared_crossedBackup

end LocalBase.Backup
