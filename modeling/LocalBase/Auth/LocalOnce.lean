import LocalBase.Auth.Local

/-!
# A link signs in once

Every session is made of a link of its own, which was issued, and spent within its ten
minutes; a link that was spent, replaced or revoked is never spent again. A session that
is found was used within the last twelve hours, and that use was within twelve hours of
one before it, back to the sign-in; and none is found after seven days, or after it has
ended. There are never more sessions than five and those stored since the last trim.

All of it holds in every interleaving of the callers, also when some of them are gone in
between. What one caller needs from the others is `Later`: they leave it what it has
drawn and what it has spent, and what is dead stays dead.
-/

namespace LocalBase.Auth.Local

open Program

variable {hashToken : String → String} {p q : Pid} {w t : World} {h : String} {token x : String}
  {now : Int} {o : Op} {r : Answer o}

/-- Nobody can store the token any more, and no row has it. -/
structure Dead (w : World) (h : String) : Prop where
  drawn : h ∈ w.drawn
  nobody : w.holder h = none
  link : ∀ l ∈ w.links, l.tokenHash ≠ h
  session : ∀ r ∈ w.sessions, r.tokenHash ≠ h

/-- The session was made, or found and due, at the time `u`. -/
def Used (e : Made) (seen : List (String × Int)) (u : Int) : Prop :=
  u = e.createdAt ∨ (e.tokenHash, u) ∈ seen

/-- A session may be found at the time `now`: it was used not long before. -/
def Fresh (e : Made) (seen : List (String × Int)) (now : Int) : Prop :=
  now < e.createdAt + localAbsoluteTTL ∧ ∃ u, Used e seen u ∧ now < u + localIdleTTL

/-- Each time that a session was found, it was fresh. -/
def Kept (made : List Made) : List (String × Int) → Prop
  | [] => True
  | (h, now) :: seen => (∃ e ∈ made, e.tokenHash = h ∧ Fresh e seen now) ∧ Kept made seen

/-- The row is one of a session that was made. -/
structure Stored (seen : List (String × Int)) (e : Made) (r : SessionRow) : Prop where
  token : e.tokenHash = r.tokenHash
  created : r.createdAt = e.createdAt
  idle : r.idleExpiresAt = r.lastSeenAt + localIdleTTL
  absolute : r.absoluteExpiresAt = r.createdAt + localAbsoluteTTL
  used : Used e seen r.lastSeenAt

abbrev World.used (w : World) : List String := w.spent.map Prod.fst

structure Good (w : World) : Prop where
  one : w.links.length ≤ 1
  live : ∀ l ∈ w.links, l ∈ w.issued ∧ l.tokenHash ∉ w.used
  term : ∀ l ∈ w.issued, l.expiresAt = l.createdAt + localLinkTTL
  issued : ∀ l ∈ w.issued, l.tokenHash ∈ w.drawn ∧ w.holder l.tokenHash = none
  issuedOnce : (w.issued.map LinkRow.tokenHash).Nodup
  linkOnly : ∀ l ∈ w.issued, ∀ e ∈ w.made, e.tokenHash ≠ l.tokenHash
  held : ∀ h p, w.holder h = some p → h ∈ w.drawn
  spentOnce : w.used.Nodup
  inTime : ∀ x ∈ w.spent, ∃ l ∈ w.issued, l.tokenHash = x.1 ∧ x.2 < l.expiresAt
  credit : ∀ p h, w.credit p = some h → h ∈ w.used ∧ some h ∉ w.made.map Made.link
  apart : ∀ p q h, w.credit p = some h → w.credit q = some h → p = q
  ownLink : (w.made.map Made.link).Nodup
  spentLink : ∀ e ∈ w.made, ∃ h ∈ w.used, e.link = some h
  made : ∀ e ∈ w.made, e.tokenHash ∈ w.drawn ∧ w.holder e.tokenHash = none
  madeOnce : (w.made.map Made.tokenHash).Nodup
  stored : ∀ r ∈ w.sessions, ∃ e ∈ w.made, Stored w.seen e r
  ids : (w.sessions.map SessionRow.id).Nodup
  kept : Kept w.made w.seen
  bounded : w.sessions.length ≤ maxLocalSessions + w.untrimmed

/-- What a caller may rely on, whatever the others do. -/
structure Later (p : Pid) (w t : World) : Prop where
  holder : ∀ h, w.holder h = some p → t.holder h = some p
  credit : t.credit p = w.credit p
  issued : w.issued ⊆ t.issued
  spent : w.spent ⊆ t.spent
  made : w.made ⊆ t.made
  seen : w.seen ⊆ t.seen
  dead : ∀ h, Dead w h → Dead t h ∧ (h ∈ t.used → h ∈ w.used)

theorem Later.refl (p : Pid) (w : World) : Later p w w :=
  ⟨fun _ h => h, rfl, fun _ h => h, fun _ h => h, fun _ h => h, fun _ h => h,
    fun _ h => ⟨h, fun hu => hu⟩⟩

theorem Later.trans {u : World} (h : Later p w t) (h' : Later p t u) : Later p w u where
  holder x hx := h'.holder x (h.holder x hx)
  credit := h'.credit.trans h.credit
  issued _ hx := h'.issued (h.issued hx)
  spent _ hx := h'.spent (h.spent hx)
  made _ hx := h'.made (h.made hx)
  seen _ hx := h'.seen (h.seen hx)
  dead x hx := by
    obtain ⟨ht, hused⟩ := h.dead x hx
    obtain ⟨hu, hused'⟩ := h'.dead x ht
    exact ⟨hu, fun hxu => hused (hused' hxu)⟩

theorem Used.mono {e : Made} {seen seen' : List (String × Int)} {u : Int} (h : Used e seen u)
    (hs : seen ⊆ seen') : Used e seen' u :=
  h.imp id fun hu => hs hu

theorem Fresh.mono {e : Made} {seen seen' : List (String × Int)} {u : Int}
    (h : Fresh e seen u) (hs : seen ⊆ seen') : Fresh e seen' u :=
  ⟨h.1, h.2.imp fun _ hu => ⟨hu.1.mono hs, hu.2⟩⟩

theorem Kept.mono {made made' : List Made} {seen : List (String × Int)} (h : Kept made seen)
    (hm : made ⊆ made') : Kept made' seen := by
  induction seen with
  | nil => trivial
  | cons x seen ih =>
    obtain ⟨⟨e, he, hx⟩, hrest⟩ := h
    exact ⟨⟨e, hm he, hx⟩, ih hrest⟩

/-! ## What a statement does -/

/-- What a program of this process must see to before an operation. -/
def Fair (p : Pid) (w : World) : Op → Prop
  | .replaceLink row =>
    w.holder row.tokenHash = some p ∧ row.expiresAt = row.createdAt + localLinkTTL
  | .insert row =>
    w.holder row.tokenHash = some p ∧ (∃ h, w.credit p = some h) ∧
      row.lastSeenAt = row.createdAt ∧ row.idleExpiresAt = row.createdAt + localIdleTTL ∧
      row.absoluteExpiresAt = row.createdAt + localAbsoluteTTL
  | .touch h now idle =>
    idle = now + localIdleTTL ∧ ∃ e ∈ w.made, e.tokenHash = h ∧ Fresh e w.seen now
  | _ => True

theorem Good.not_issued (hw : Good w) (hh : w.holder h = some p) :
    ∀ l ∈ w.issued, l.tokenHash ≠ h := by
  rintro l hl rfl
  rw [(hw.issued l hl).2] at hh
  cases hh

theorem Good.not_made (hw : Good w) (hh : w.holder h = some p) :
    ∀ e ∈ w.made, e.tokenHash ≠ h := by
  rintro e he rfl
  rw [(hw.made e he).2] at hh
  cases hh

theorem draw_good (hw : Good w) (hnew : h ∉ w.drawn) : Good (w.draw p h) := by
  have hfree : ∀ x, x ∈ w.drawn ∧ w.holder x = none →
      x ∈ h :: w.drawn ∧ Function.update w.holder h (some p) x = none := by
    rintro x ⟨hx, hnone⟩
    refine ⟨List.mem_cons_of_mem _ hx, ?_⟩
    rw [Function.update_of_ne fun he : x = h => hnew (he ▸ hx)]
    exact hnone
  refine { hw with issued := ?_, held := ?_, made := ?_ }
  · exact fun l hl => hfree _ (hw.issued l hl)
  · intro x q hx
    by_cases he : x = h
    · rw [he]
      exact List.mem_cons_self
    · rw [World.draw_holder, Function.update_of_ne he] at hx
      exact List.mem_cons_of_mem _ (hw.held x q hx)
  · exact fun e he => hfree _ (hw.made e he)

theorem draw_later (hw : Good w) (hnew : h ∉ w.drawn) : Later q w (w.draw p h) where
  holder x hx := by
    have hne : x ≠ h := fun he => hnew (he ▸ hw.held x q hx)
    rw [World.draw_holder, Function.update_of_ne hne]
    exact hx
  credit := rfl
  issued _ h := h
  spent _ h := h
  made _ h := h
  seen _ h := h
  dead x hx := by
    have hne : x ≠ h := fun he => hnew (he ▸ hx.drawn)
    refine ⟨⟨List.mem_cons_of_mem _ hx.drawn, ?_, hx.link, hx.session⟩, fun h => h⟩
    rw [World.draw_holder, Function.update_of_ne hne]
    exact hx.nobody

/-! ### Storing a token -/

theorem settled (hx : x ∈ w.drawn ∧ w.holder x = none) :
    x ∈ w.drawn ∧ Function.update w.holder h none x = none := by
  refine ⟨hx.1, ?_⟩
  by_cases he : x = h
  · rw [he, Function.update_self]
  · rw [Function.update_of_ne he]
    exact hx.2

theorem held_of_update (hw : Good w)
    (hx : Function.update w.holder h none x = some q) : x ∈ w.drawn := by
  by_cases he : x = h
  · rw [he, Function.update_self] at hx
    cases hx
  · rw [Function.update_of_ne he] at hx
    exact hw.held x q hx

theorem update_holder (hhold : w.holder h = some p) {o : Option Pid} (hx : w.holder x = o)
    (hne : o ≠ some p) : Function.update w.holder h none x = o := by
  have : x ≠ h := by
    rintro rfl
    exact hne (hx.symm.trans hhold)
  rw [Function.update_of_ne this]
  exact hx

theorem Dead.ne (hx : Dead w h) (hhold : w.holder x = some p) : x ≠ h := by
  rintro rfl
  rw [hx.nobody] at hhold
  cases hhold

theorem replaceLink_good {row : LinkRow} (hw : Good w) (hfair : Fair p w (.replaceLink row)) :
    Good (w.replaceLink row) := by
  obtain ⟨hhold, hterm⟩ := hfair
  have hunspent : row.tokenHash ∉ w.used := by
    intro hu
    obtain ⟨x, hx, he⟩ := List.mem_map.mp hu
    obtain ⟨l, hl, hlx, _⟩ := hw.inTime x hx
    exact hw.not_issued hhold l hl (hlx.trans he)
  refine { hw with
    one := Nat.le_refl _, live := ?_, term := ?_, issued := ?_, issuedOnce := ?_
    linkOnly := ?_, inTime := ?_
    held := fun x q hx => held_of_update (w := w) hw hx
    made := fun e he => settled (hw.made e he) }
  · intro l hl
    obtain rfl := List.mem_singleton.mp hl
    exact ⟨List.mem_cons_self, hunspent⟩
  · intro l hl
    obtain rfl | hl := List.mem_cons.mp hl
    · exact hterm
    · exact hw.term l hl
  · intro l hl
    obtain rfl | hl := List.mem_cons.mp hl
    · exact ⟨hw.held _ _ hhold, Function.update_self ..⟩
    · exact settled (hw.issued l hl)
  · refine List.nodup_cons.mpr ⟨fun hmem => ?_, hw.issuedOnce⟩
    obtain ⟨l, hl, heq⟩ := List.mem_map.mp hmem
    exact hw.not_issued hhold l hl heq
  · intro l hl e he
    obtain rfl | hl := List.mem_cons.mp hl
    · exact hw.not_made hhold e he
    · exact hw.linkOnly l hl e he
  · intro x hx
    obtain ⟨l, hl, hrest⟩ := hw.inTime x hx
    exact ⟨l, List.mem_cons_of_mem _ hl, hrest⟩

theorem replaceLink_later {row : LinkRow} (hq : q ≠ p) (hfair : Fair p w (.replaceLink row)) :
    Later q w (w.replaceLink row) where
  holder x hx := update_holder hfair.1 hx fun he => hq (Option.some.inj he)
  credit := rfl
  issued _ h := List.mem_cons_of_mem _ h
  spent _ h := h
  made _ h := h
  seen _ h := h
  dead x hx := by
    refine ⟨⟨hx.drawn, update_holder hfair.1 hx.nobody (by simp), ?_, hx.session⟩, fun h => h⟩
    intro l hl
    obtain rfl := List.mem_singleton.mp hl
    exact hx.ne hfair.1

theorem insert_good {row : SessionRow} (hw : Good w) (hfair : Fair p w (.insert row))
    (hnew : w.taken row = false) : Good (w.insert p row) := by
  obtain ⟨hhold, ⟨l, hl⟩, hseen, hidle, habs⟩ := hfair
  obtain ⟨hspent, hunmade⟩ := hw.credit p l hl
  have hlink : (w.insert p row).made = ⟨row.tokenHash, row.createdAt, some l⟩ :: w.made := by
    rw [← hl]
    rfl
  refine { hw with
    issued := fun l hl => settled (hw.issued l hl)
    held := fun x q hx => held_of_update (w := w) hw hx
    linkOnly := ?_, credit := ?_, apart := ?_, ownLink := ?_, spentLink := ?_
    made := ?_, madeOnce := ?_
    stored := ?_, ids := ?_, kept := ?_, bounded := ?_ }
  · intro l hl e he
    obtain rfl | he := List.mem_cons.mp he
    · exact Ne.symm (hw.not_issued hhold l hl)
    · exact hw.linkOnly l hl e he
  · intro q x hx
    have hq : q ≠ p := by
      rintro rfl
      rw [World.insert_credit, Function.update_self] at hx
      cases hx
    rw [World.insert_credit, Function.update_of_ne hq] at hx
    obtain ⟨hx', hno⟩ := hw.credit q x hx
    refine ⟨hx', ?_⟩
    rw [hlink, List.map_cons, List.mem_cons, not_or]
    refine ⟨fun he => hq (hw.apart q p l ?_ hl), hno⟩
    rw [← Option.some.inj he]
    exact hx
  · intro q q' x hx hx'
    have hold : ∀ q x, (w.insert p row).credit q = some x → w.credit q = some x := by
      intro q x hx
      by_cases hq : q = p
      · rw [hq, World.insert_credit, Function.update_self] at hx
        cases hx
      · rwa [World.insert_credit, Function.update_of_ne hq] at hx
    exact hw.apart q q' x (hold q x hx) (hold q' x hx')
  · rw [hlink, List.map_cons, List.nodup_cons]
    exact ⟨hunmade, hw.ownLink⟩
  · intro e he
    rw [hlink] at he
    obtain rfl | he := List.mem_cons.mp he
    · exact ⟨l, hspent, rfl⟩
    · exact hw.spentLink e he
  · intro e he
    obtain rfl | he := List.mem_cons.mp he
    · exact ⟨hw.held _ _ hhold, Function.update_self ..⟩
    · exact settled (hw.made e he)
  · rw [hlink, List.map_cons, List.nodup_cons]
    refine ⟨fun hmem => ?_, hw.madeOnce⟩
    obtain ⟨e, he, heq⟩ := List.mem_map.mp hmem
    exact hw.not_made hhold e he heq
  · intro r hr
    obtain rfl | hr := List.mem_cons.mp hr
    · exact ⟨_, List.mem_cons_self, rfl, rfl, by rw [hidle, hseen], habs, .inl hseen⟩
    · obtain ⟨e, he, hst⟩ := hw.stored r hr
      exact ⟨e, List.mem_cons_of_mem _ he, hst⟩
  · show ((row :: w.sessions).map SessionRow.id).Nodup
    rw [List.map_cons, List.nodup_cons]
    refine ⟨fun hmem => ?_, hw.ids⟩
    obtain ⟨r, hr, heq⟩ := List.mem_map.mp hmem
    have hno := List.any_eq_false.mp hnew r hr
    simp [heq] at hno
  · exact hw.kept.mono fun e he => List.mem_cons_of_mem _ he
  · show w.sessions.length + 1 ≤ maxLocalSessions + (w.untrimmed + 1)
    have := hw.bounded
    omega

theorem insert_later {row : SessionRow} (hq : q ≠ p) (hfair : Fair p w (.insert row)) :
    Later q w (w.insert p row) where
  holder x hx := update_holder hfair.1 hx fun he => hq (Option.some.inj he)
  credit := Function.update_of_ne hq ..
  issued _ h := h
  spent _ h := h
  made _ h := List.mem_cons_of_mem _ h
  seen _ h := h
  dead x hx := by
    refine ⟨⟨hx.drawn, update_holder hfair.1 hx.nobody (by simp), hx.link, ?_⟩, fun h => h⟩
    intro r hr
    obtain rfl | hr := List.mem_cons.mp hr
    · exact hx.ne hfair.1
    · exact hx.session r hr

/-! ### Spending a link -/

theorem Good.only_link (hw : Good w) {l : LinkRow} (hl : l ∈ w.links) : w.links = [l] := by
  obtain ⟨x, hx⟩ := List.length_eq_one_iff.mp
    (Nat.le_antisymm hw.one (List.length_pos_of_mem hl))
  rw [hx] at hl ⊢
  rw [List.mem_singleton.mp hl]

theorem spend_cases (hw : Good w) (now : Int) :
    (w.spend p h now = w ∧ w.links.countP (·.spends h now) = 0) ∨
      ∃ l ∈ w.links, l.tokenHash = h ∧ now < l.expiresAt ∧ w.spend p h now =
        { w with
          links := []
          spent := (h, now) :: w.spent
          credit := Function.update w.credit p (some h) } := by
  unfold World.spend
  split
  · next hany =>
    obtain ⟨l, hl, hspends⟩ := List.any_eq_true.mp hany
    have honly := hw.only_link hl
    obtain ⟨hh, hnow⟩ := (Bool.and_eq_true _ _).mp hspends
    refine .inr ⟨l, hl, of_decide_eq_true hh, of_decide_eq_true hnow, ?_⟩
    rw [honly]
    simp [hspends]
  · next hany =>
    refine .inl ⟨rfl, List.countP_eq_zero.mpr fun l hl hs => hany ?_⟩
    exact List.any_eq_true.mpr ⟨l, hl, hs⟩

theorem spend_good (hw : Good w) : Good (w.spend p h now) := by
  obtain ⟨hsame, _⟩ | ⟨l, hl, rfl, hnow, hspend⟩ := spend_cases (p := p) (h := h) hw now
  · rw [hsame]
    exact hw
  obtain ⟨hissued, hunspent⟩ := hw.live l hl
  have hcredit : ∀ q x, Function.update w.credit p (some l.tokenHash) q = some x →
      (q = p ∧ x = l.tokenHash) ∨ (q ≠ p ∧ w.credit q = some x) := by
    intro q x hx
    by_cases hq : q = p
    · rw [hq, Function.update_self] at hx
      exact .inl ⟨hq, (Option.some.inj hx).symm⟩
    · rw [Function.update_of_ne hq] at hx
      exact .inr ⟨hq, hx⟩
  have hold : ∀ q, w.credit q ≠ some l.tokenHash := fun q hq => hunspent (hw.credit q _ hq).1
  rw [hspend]
  have hunmade : some l.tokenHash ∉ w.made.map Made.link := by
    intro hmem
    obtain ⟨e, he, heq⟩ := List.mem_map.mp hmem
    obtain ⟨x, hx, hex⟩ := hw.spentLink e he
    rw [hex] at heq
    exact hunspent (Option.some.inj heq ▸ hx)
  refine { hw with
    one := Nat.zero_le _, live := fun _ h => absurd h List.not_mem_nil
    spentOnce := List.nodup_cons.mpr ⟨hunspent, hw.spentOnce⟩
    inTime := ?_, credit := ?_, apart := ?_, spentLink := ?_ }
  · intro x hx
    obtain rfl | hx := List.mem_cons.mp hx
    · exact ⟨l, hissued, rfl, hnow⟩
    · exact hw.inTime x hx
  · intro q x hx
    obtain ⟨_, rfl⟩ | ⟨_, hx⟩ := hcredit q x hx
    · exact ⟨List.mem_cons_self, hunmade⟩
    · obtain ⟨hx, hno⟩ := hw.credit q x hx
      exact ⟨List.mem_cons_of_mem _ hx, hno⟩
  · intro q q' x hx hx'
    obtain ⟨hq, rfl⟩ | ⟨_, hx⟩ := hcredit q x hx
    · obtain ⟨hq', _⟩ | ⟨_, hx'⟩ := hcredit q' _ hx'
      · rw [hq, hq']
      · exact absurd hx' (hold q')
    · obtain ⟨_, rfl⟩ | ⟨_, hx'⟩ := hcredit q' x hx'
      · exact absurd hx (hold q)
      · exact hw.apart q q' x hx hx'
  · intro e he
    obtain ⟨x, hx, hex⟩ := hw.spentLink e he
    exact ⟨x, List.mem_cons_of_mem _ hx, hex⟩

theorem spend_later (hw : Good w) (hq : q ≠ p) : Later q w (w.spend p h now) := by
  obtain ⟨hsame, _⟩ | ⟨l, hl, rfl, hnow, hspend⟩ := spend_cases (p := p) (h := h) hw now
  · rw [hsame]
    exact .refl q w
  rw [hspend]
  refine ⟨fun _ h => h, Function.update_of_ne hq .., fun _ h => h,
    fun _ h => List.mem_cons_of_mem _ h, fun _ h => h, fun _ h => h, fun x hx => ?_⟩
  refine ⟨⟨hx.drawn, hx.nobody, fun _ h => absurd h List.not_mem_nil, hx.session⟩, fun hu => ?_⟩
  obtain he | hu := List.mem_cons.mp hu
  · exact absurd he.symm (hx.link l hl)
  · exact hu

/-! ### Fewer rows, and rows that are touched -/

theorem fewer_good {ss : List SessionRow} (hw : Good w) (hss : ss.Sublist w.sessions) :
    Good { w with sessions := ss } :=
  { hw with
    stored := fun r hr => hw.stored r (hss.subset hr)
    ids := hw.ids.sublist (hss.map _)
    bounded := Nat.le_trans hss.length_le hw.bounded }

theorem fewer_later {ss : List SessionRow} {n : Nat} (hss : ss.Sublist w.sessions) :
    Later q w { w with sessions := ss, untrimmed := n } where
  holder _ h := h
  credit := rfl
  issued _ h := h
  spent _ h := h
  made _ h := h
  seen _ h := h
  dead _ hx := ⟨⟨hx.drawn, hx.nobody, hx.link, fun r hr => hx.session r (hss.subset hr)⟩,
    fun h => h⟩

theorem trim_good (hw : Good w) : Good w.trim := by
  refine { fewer_good hw List.filter_sublist with bounded := ?_ }
  have hsub : (w.trim.sessions.map SessionRow.id) ⊆ w.keep := by
    intro id hid
    obtain ⟨r, hr, rfl⟩ := List.mem_map.mp hid
    exact of_decide_eq_true (List.mem_filter.mp hr).2
  have hkeep : w.keep.length ≤ maxLocalSessions := by
    rw [World.keep, List.length_map]
    exact List.length_take_le _ _
  have hids : (w.trim.sessions.map SessionRow.id).Nodup :=
    hw.ids.sublist (List.filter_sublist.map _)
  have hle := (List.subperm_of_subset hids hsub).length_le
  rw [List.length_map] at hle
  exact Nat.le_trans hle hkeep

theorem noLinks_good (hw : Good w) : Good { w with links := [] } :=
  { hw with one := Nat.zero_le _, live := fun _ h => absurd h List.not_mem_nil }

theorem noLinks_later : Later q w { w with links := [] } where
  holder _ h := h
  credit := rfl
  issued _ h := h
  spent _ h := h
  made _ h := h
  seen _ h := h
  dead _ hx := ⟨⟨hx.drawn, hx.nobody, fun _ h => absurd h List.not_mem_nil, hx.session⟩,
    fun h => h⟩

theorem touch_good {idle : Int} (hw : Good w) (hfair : Fair p w (.touch h now idle)) :
    Good (w.touch h now idle) := by
  obtain ⟨rfl, e, he, heh, hfresh⟩ := hfair
  have hmore : w.seen ⊆ (h, now) :: w.seen := List.subset_cons_self _ _
  refine { hw with stored := ?_, ids := ?_, kept := ⟨⟨e, he, heh, hfresh⟩, hw.kept⟩, bounded := ?_ }
  · intro r hr
    obtain ⟨r', hr', rfl⟩ := List.mem_map.mp hr
    obtain ⟨e', he', hst⟩ := hw.stored r' hr'
    refine ⟨e', he', ?_⟩
    split
    · next hh =>
      exact { hst with idle := rfl, used := .inr (by rw [hst.token, hh]; exact List.mem_cons_self) }
    · exact { hst with used := hst.used.mono hmore }
  · have hsame : (w.touch h now (now + localIdleTTL)).sessions.map SessionRow.id =
        w.sessions.map SessionRow.id := by
      rw [World.touch, List.map_map]
      refine List.map_congr_left fun r _ => ?_
      show SessionRow.id (if _ then _ else _) = _
      split <;> rfl
    rw [hsame]
    exact hw.ids
  · rw [World.touch, List.length_map]
    exact hw.bounded

theorem touch_later {idle : Int} : Later q w (w.touch h now idle) where
  holder _ h := h
  credit := rfl
  issued _ h := h
  spent _ h := h
  made _ h := h
  seen _ hx := List.mem_cons_of_mem _ hx
  dead x hx := by
    refine ⟨⟨hx.drawn, hx.nobody, hx.link, fun r hr => ?_⟩, fun h => h⟩
    obtain ⟨r', hr', rfl⟩ := List.mem_map.mp hr
    have := hx.session r' hr'
    split <;> exact this

/-! ### Any statement -/

/-- A statement that changes what its own process relies on. -/
def Op.own : Op → Bool
  | .replaceLink _ | .spend _ _ | .insert _ => true
  | _ => false

theorem does_step (hw : Good w) (hfair : Fair p w o) (h : does p w o = some (r, t)) :
    Good t ∧ ∀ q, q ≠ p ∨ o.own = false → Later q w t := by
  have hsame : Good w ∧ ∀ q, q ≠ p ∨ o.own = false → Later q w w :=
    ⟨hw, fun q _ => .refl q w⟩
  have hfewer : ∀ ss : List SessionRow, ss.Sublist w.sessions →
      Good { w with sessions := ss } ∧
        ∀ q, q ≠ p ∨ o.own = false → Later q w { w with sessions := ss } :=
    fun ss hss => ⟨fewer_good hw hss, fun _ _ => fewer_later hss⟩
  cases o with
  | now | randomToken | randomId => cases h
  | link | session h' | list now => cases h; exact hsame
  | tidy now | drop h' | revoke id => cases h; exact hfewer _ List.filter_sublist
  | clearSessions => cases h; exact hfewer _ (List.nil_sublist _)
  | replaceLink row =>
    cases h
    exact ⟨replaceLink_good hw hfair,
      fun q hq => replaceLink_later (hq.resolve_right (by simp [Op.own])) hfair⟩
  | spend h' now =>
    cases h
    exact ⟨spend_good hw, fun q hq => spend_later hw (hq.resolve_right (by simp [Op.own]))⟩
  | insert row =>
    simp only [does] at h
    split at h
    · cases h
      exact hsame
    · next hnew =>
      cases h
      exact ⟨insert_good hw hfair (Bool.eq_false_iff.mpr hnew),
        fun q hq => insert_later (hq.resolve_right (by simp [Op.own])) hfair⟩
  | trim =>
    cases h
    exact ⟨trim_good hw, fun _ _ => fewer_later List.filter_sublist⟩
  | touch h' now idle =>
    cases h
    exact ⟨touch_good hw hfair, fun _ _ => touch_later⟩
  | clearLinks =>
    cases h
    exact ⟨noLinks_good hw, fun _ _ => noLinks_later⟩

theorem act_step {c : Choice} (hw : Good w) (hfair : Fair p w o)
    (h : act hashToken p w o c = some (r, t)) :
    Good t ∧ ∀ q, q ≠ p ∨ o.own = false → Later q w t := by
  cases c with
  | reads now =>
    cases o <;> cases h
    exact ⟨hw, fun q _ => .refl q w⟩
  | draws s =>
    cases o with
    | randomId =>
      cases h
      exact ⟨hw, fun q _ => .refl q w⟩
    | randomToken =>
      simp only [act] at h
      split at h
      · cases h
      · next hnew =>
        cases h
        exact ⟨draw_good hw hnew, fun q _ => draw_later hw hnew⟩
    | _ => cases h
  | ok => exact does_step hw hfair h
  | fails err =>
    obtain ⟨_, _, heq⟩ := Option.map_eq_some_iff.mp h
    cases heq
    exact ⟨hw, fun q _ => .refl q w⟩
  | lost err =>
    obtain ⟨_, _, hdone⟩ := Option.bind_eq_some_iff.mp h
    obtain ⟨⟨r', u⟩, hdoes, heq⟩ := Option.map_eq_some_iff.mp hdone
    cases heq
    exact does_step hw hfair hdoes

/-! ## The program -/

/-- A program of one caller, among the others. -/
abbrev Runs (hashToken : String → String) {α : Type} (p : Pid) (Q : α → World → Prop)
    (left : Steps α) (w : World) : Prop :=
  Crew.Holds (callers hashToken) (fun _ _ _ _ => True) Good Later p Q left w

section Programs

variable {α : Type} {Q : α → World → Prop}

theorem runs_op {f : Answer o → Steps α} (hfair : ∀ u, Later p w u → Good u → Fair p u o)
    (h : ∀ u c r t, Later p w u → Good u → act hashToken p u o c = some (r, t) →
      (o.own = false → Later p w t) → Runs hashToken p Q (f r) t) :
    Runs hashToken p Q (perform o >>= f) w := by
  intro u hl hu c r t hact
  obtain ⟨_, hact⟩ := under_eq_some.mp hact
  obtain ⟨ht, hlater⟩ := act_step hu (hfair u hl hu) hact
  refine ⟨ht, fun q hq => hlater q (.inl hq), h u c r t hl hu hact fun ho => ?_⟩
  exact hl.trans (hlater p (.inr ho))

theorem runs_quiet {f : Answer o → Steps α} (ho : o.own = false) (hfair : ∀ u, Fair p u o)
    (h : ∀ r t, Later p w t → Runs hashToken p Q (f r) t) :
    Runs hashToken p Q (perform o >>= f) w :=
  runs_op (fun u _ _ => hfair u) fun _ _ r t _ _ _ hl => h r t (hl ho)

theorem runs_randomToken {f : String → Steps α}
    (h : ∀ token t, Later p w t → t.holder (hashToken token) = some p →
      Runs hashToken p Q (f token) t) :
    Runs hashToken p Q (perform Op.randomToken >>= f) w := by
  refine runs_op (fun _ _ _ => trivial) fun u c token t hl hu hact hlt => ?_
  refine h token t (hlt rfl) ?_
  cases c with
  | draws s =>
    simp only [act] at hact
    split at hact
    · cases hact
    · cases hact
      exact Function.update_self ..
  | reads | ok | fails | lost => cases hact

end Programs

theorem act_done {c : Choice} (hr : ∀ err, failed err o ≠ some r)
    (ho : o ≠ .now ∧ o ≠ .randomToken ∧ o ≠ .randomId)
    (h : act hashToken p w o c = some (r, t)) : does p w o = some (r, t) := by
  cases c with
  | reads now => cases o <;> first | exact absurd rfl ho.1 | cases h
  | draws s =>
    cases o <;> first | exact absurd rfl ho.2.1 | exact absurd rfl ho.2.2 | cases h
  | ok => exact h
  | fails err =>
    obtain ⟨r', hr', heq⟩ := Option.map_eq_some_iff.mp h
    cases heq
    exact absurd hr' (hr err)
  | lost err =>
    obtain ⟨r', hr', hdone⟩ := Option.bind_eq_some_iff.mp h
    obtain ⟨_, _, heq⟩ := Option.map_eq_some_iff.mp hdone
    cases heq
    exact absurd hr' (hr err)

theorem issueLocalLink_runs :
    Runs hashToken p (fun r t => ∀ token, r = .ok token →
      ∃ l ∈ t.issued, l.tokenHash = hashToken token) (issueLocalLink hashToken) w := by
  refine runs_randomToken fun token t _ hhold => ?_
  refine runs_quiet rfl (fun _ => trivial) fun at' u hlu => ?_
  refine runs_op (fun v hlv _ => ⟨hlv.holder _ (hlu.holder _ hhold), rfl⟩) ?_
  intro v c r x _ _ hact _
  cases r with
  | some err => exact fun _ h => by cases h
  | none =>
    have hdone := act_done (by simp [failed]) (by simp) hact
    cases hdone
    rintro _ ⟨⟩
    exact ⟨_, List.mem_cons_self, rfl⟩

theorem consumeLocalLink_runs :
    Runs hashToken p (fun r t => r = .ok true → t.credit p = some (hashToken token))
      (consumeLocalLink hashToken token) w := by
  refine runs_quiet rfl (fun _ => trivial) fun r t _ => ?_
  cases r with
  | error err => exact fun h => by cases h
  | ok stored =>
    cases stored with
    | none => exact fun h => by cases h
    | some stored =>
      dsimp only
      split
      · exact fun h => by cases h
      · next heq =>
        refine runs_quiet rfl (fun _ => trivial) fun now u _ => ?_
        refine runs_op (fun _ _ _ => trivial) fun v c n x _ hv hact _ => ?_
        cases n with
        | error err => exact fun h => by cases h
        | ok n =>
          have hdone := act_done (by simp [failed]) (by simp) hact
          cases hdone
          intro hn
          obtain ⟨_, hzero⟩ | ⟨l, hl, rfl, _, hspend⟩ :=
            spend_cases (p := p) (h := stored) hv now
          · rw [hzero] at hn
            cases hn
          · rw [hspend, ← Classical.not_not.mp heq]
            exact Function.update_self ..

theorem createLocalSession_runs {l : String} (hl : w.credit p = some l) :
    Runs hashToken p (fun r t => ∀ token id, r = .ok (token, id) →
      ∃ e ∈ t.made, e.tokenHash = hashToken token ∧ e.link = some l)
      (createLocalSession hashToken) w := by
  refine runs_quiet rfl (fun _ => trivial) fun now t hlt => ?_
  refine runs_randomToken fun token u hlu hhold => ?_
  refine runs_quiet rfl (fun _ => trivial) fun id v hlv => ?_
  refine runs_quiet rfl (fun _ => trivial) fun _ x hlx => ?_
  have hcredit : x.credit p = some l :=
    hlx.credit.trans (hlv.credit.trans (hlu.credit.trans (hlt.credit.trans hl)))
  have hheld := hlx.holder _ (hlv.holder _ hhold)
  refine runs_op (fun y hly _ => ⟨hly.holder _ hheld, ⟨l, hly.credit.trans hcredit⟩, rfl, rfl, rfl⟩)
    fun y c r z hly _ hact _ => ?_
  cases r with
  | some err => exact fun _ _ h => by cases h
  | none =>
    have hdone := act_done (by simp [failed]) (by simp) hact
    simp only [does] at hdone
    split at hdone
    · cases hdone
    · cases hdone
      refine runs_quiet rfl (fun _ => trivial) fun r x' hlx' => ?_
      cases r with
      | some err => exact fun _ _ h => by cases h
      | none =>
        rintro _ _ ⟨⟩
        exact ⟨_, hlx'.made List.mem_cons_self, rfl, hly.credit.trans hcredit⟩

theorem localOnce_runs :
    Runs hashToken p (fun r t => ∀ cookie id, r = .signedIn cookie id →
      ∃ e ∈ t.made, e.tokenHash = hashToken cookie ∧ e.link = some (hashToken token))
      (localOnce hashToken token) w := by
  refine stands_bind (consumeLocalLink_runs.mono fun r t hr => ?_)
  cases r with
  | error err => exact fun _ _ h => by cases h
  | ok spent =>
    cases spent with
    | false => exact fun _ _ h => by cases h
    | true =>
      refine stands_bind ((createLocalSession_runs (hr rfl)).mono fun r u hr => ?_)
      cases r with
      | error err => exact fun _ _ h => by cases h
      | ok made =>
        rintro cookie id ⟨⟩
        exact hr _ _ rfl

/-- A session was found that was made, and used not long before the time it was looked
up at. -/
def Found (hashToken : String → String) (token : String) (now : Int) (s : LocalSession)
    (w : World) : Prop :=
  ∃ e ∈ w.made, e.tokenHash = hashToken token ∧ s.createdAt = e.createdAt ∧
    s.expiresAt ≤ e.createdAt + localAbsoluteTTL ∧ Fresh e w.seen now ∧ now < s.expiresAt

theorem Found.later {s : LocalSession} (h : Found hashToken token now s w)
    (hl : Later p w t) : Found hashToken token now s t := by
  obtain ⟨e, he, hh, hc, hx, hfresh, hnow⟩ := h
  exact ⟨e, hl.made he, hh, hc, hx, hfresh.mono hl.seen, hnow⟩

theorem findLocalSession_runs :
    Runs hashToken p (fun r t => ∀ s, r.2 = .ok (some s) → Found hashToken token r.1 s t)
      (findLocalSession hashToken token) w := by
  refine runs_quiet rfl (fun _ => trivial) fun now t _ => ?_
  refine runs_op (fun _ _ _ => trivial) fun u c r v _ hu hact _ => ?_
  cases r with
  | error err => exact fun _ h => by cases h
  | ok row =>
    have hdone := act_done (by simp [failed]) (by simp) hact
    cases hrow : row with
    | none => exact fun _ h => by cases h
    | some r =>
      rw [hrow] at hdone
      simp only [does, Option.some.injEq, Prod.mk.injEq, Except.ok.injEq] at hdone
      obtain ⟨hfind, rfl⟩ := hdone
      obtain ⟨e, he, hst⟩ := hu.stored r (List.mem_of_find?_eq_some hfind)
      have hhash : e.tokenHash = hashToken token :=
        hst.token.trans (of_decide_eq_true (List.find?_some (p := fun r : SessionRow =>
          decide (r.tokenHash = hashToken token)) hfind))
      dsimp only
      split
      · exact runs_quiet rfl (fun _ => trivial) fun _ x _ _ h => by cases h
      · next hlive =>
        obtain ⟨hidle, habs⟩ := not_or.mp hlive
        rw [Int.not_le] at hidle habs
        have hfresh : Fresh e u.seen now := by
          refine ⟨?_, r.lastSeenAt, hst.used, ?_⟩
          · rw [← hst.created, ← hst.absolute]
            exact habs
          · rw [← hst.idle]
            exact hidle
        have hmax : r.absoluteExpiresAt = e.createdAt + localAbsoluteTTL := by
          rw [hst.absolute, hst.created]
        split
        · refine runs_op (fun x hlx _ => ⟨rfl, e, hlx.made he, hhash, hfresh.mono hlx.seen⟩)
            fun x c _ y _ _ _ hly => ?_
          rintro _ ⟨⟩
          refine ⟨e, (hly rfl).made he, hhash, hst.created, ?_, hfresh.mono (hly rfl).seen, ?_⟩
          · exact hmax ▸ Int.min_le_right ..
          · exact Int.lt_min.mpr ⟨Int.lt_add_of_pos_right _ (by decide), habs⟩
        · rintro _ ⟨⟩
          refine ⟨e, he, hhash, hst.created, ?_, hfresh, Int.lt_min.mpr ⟨hidle, habs⟩⟩
          exact hmax ▸ Int.min_le_right ..

/-! ## Any number of callers -/

/-- What a call was answered is so. -/
def Told (hashToken : String → String) (k : Kind) (r : Result) (w : World) : Prop :=
  match k, r with
  | .issue, .issued (.ok token) => ∃ l ∈ w.issued, l.tokenHash = hashToken token
  | .once token, .once (.signedIn cookie _) =>
    ∃ e ∈ w.made, e.tokenHash = hashToken cookie ∧ e.link = some (hashToken token)
  | .find token, .found now (.ok (some s)) => Found hashToken token now s w
  | _, _ => True

theorem Told.later {k : Kind} {r : Result} (h : Told hashToken k r w) (hl : Later p w t) :
    Told hashToken k r t := by
  unfold Told at h ⊢
  split
  · exact h.imp fun _ hx => ⟨hl.issued hx.1, hx.2⟩
  · exact h.imp fun _ hx => ⟨hl.made hx.1, hx.2⟩
  · exact Found.later h hl
  · trivial

theorem call_runs (k : Kind) :
    Runs hashToken p (fun a t => Told hashToken k a.1 t) (call hashToken k ()) w := by
  cases k with
  | issue =>
    refine stands_bind (issueLocalLink_runs.mono fun r t hr => ?_)
    cases r with
    | error err => trivial
    | ok token => exact hr token rfl
  | once token =>
    refine stands_bind (localOnce_runs.mono fun r t hr => ?_)
    cases r with
    | busy | expired | failed => trivial
    | signedIn cookie id => exact hr cookie id rfl
  | find token =>
    refine stands_bind (findLocalSession_runs.mono fun r t hr => ?_)
    obtain ⟨now, r⟩ := r
    cases r with
    | error err => trivial
    | ok s =>
      cases s with
      | none => trivial
      | some s => exact hr s rfl
  | signOut token => exact runs_quiet rfl (fun _ => trivial) fun _ _ _ => trivial
  | sessions =>
    refine runs_quiet rfl (fun _ => trivial) fun _ _ _ =>
      runs_quiet rfl (fun _ => trivial) fun r _ _ => ?_
    cases r <;> trivial
  | revoke id =>
    refine runs_quiet rfl (fun _ => trivial) fun r _ _ => ?_
    cases r <;> trivial
  | revokeAll =>
    refine runs_quiet rfl (fun _ => trivial) fun r _ _ => ?_
    cases r with
    | error err => trivial
    | ok n => exact runs_quiet rfl (fun _ => trivial) fun _ _ _ => trivial

theorem good_unused : Good {} where
  one := Nat.zero_le _
  live _ h := absurd h List.not_mem_nil
  term _ h := absurd h List.not_mem_nil
  issued _ h := absurd h List.not_mem_nil
  issuedOnce := List.nodup_nil
  linkOnly _ h := absurd h List.not_mem_nil
  held _ _ h := by cases h
  spentOnce := List.nodup_nil
  inTime _ h := absurd h List.not_mem_nil
  credit _ _ h := by cases h
  apart _ _ _ h := by cases h
  ownLink := List.nodup_nil
  spentLink _ h := absurd h List.not_mem_nil
  made _ h := absurd h List.not_mem_nil
  madeOnce := List.nodup_nil
  stored _ h := absurd h List.not_mem_nil
  ids := List.nodup_nil
  kept := trivial
  bounded := Nat.zero_le _

theorem callers_sound :
    Crew.Sound (callers hashToken) (fun _ _ _ _ => True) Good Later (fun _ _ _ => True)
      (fun _ => Told hashToken) Unused where
  refl := .refl
  trans _ _ _ _ := .trans
  memory _ _ _ _ _ _ := trivial
  result _ _ _ _ _ h hl := h.later hl
  init _ h := h ▸ good_unused
  start _ _ _ _ := trivial
  call _ k _ _ _ _ := (call_runs k).mono fun _ _ h => ⟨trivial, h⟩
  die _ w hw := ⟨hw, fun q _ => .refl q w⟩

section Runs

variable {m m' : Scene Answer World Kind Result Unit Pid} {es : List (Deed Pid Unit Kind Choice)}

theorem good_of_reachable (h : Machine.Reachable ((callers hashToken).machine Unused) m) :
    Good m.now :=
  (callers_sound.reached (Crew.reaches_free h)).1

theorem told_of_reachable (h : Machine.Reachable ((callers hashToken).machine Unused) m)
    {k : Kind} {r : Result} (hp : m.party p = .busy k (.done (r, ()))) :
    Told hashToken k r m.now := by
  have hdone := (callers_sound.reached (Crew.reaches_free h)).2 p
  rw [hp] at hdone
  exact hdone.2

theorem later_of_run (h : Machine.Reachable ((callers hashToken).machine Unused) m)
    (hr : ((callers hashToken).machine Unused).run m es = some m') :
    ∃ q, Later q m.now m'.now :=
  callers_sound.run_watched (Crew.reaches_free h) (Crew.obeys_free _ _) hr

theorem Good.dead_link (hw : Good w) {l : LinkRow} (hl : l ∈ w.issued) (hgone : l ∉ w.links) :
    Dead w l.tokenHash where
  drawn := (hw.issued l hl).1
  nobody := (hw.issued l hl).2
  link l' hl' heq :=
    hgone (List.inj_on_of_nodup_map hw.issuedOnce hl (hw.live l' hl').1 heq.symm ▸ hl')
  session r hr heq := by
    obtain ⟨e, he, hst⟩ := hw.stored r hr
    exact hw.linkOnly l hl e he (hst.token.trans heq)

/-- A link is spent once, within its ten minutes, and never after another was issued or
it was revoked. Every session is made of a link of its own, which was spent, and a caller
that is signed in spent the link it was given. -/
theorem link_signs_in_once (h : Machine.Reachable ((callers hashToken).machine Unused) m)
    (hr : ((callers hashToken).machine Unused).run m es = some m') :
    m'.now.used.Nodup ∧
      (∀ x ∈ m'.now.spent, ∃ l ∈ m'.now.issued, l.tokenHash = x.1 ∧
        x.2 < l.createdAt + localLinkTTL) ∧
      (∀ l ∈ m.now.issued, l ∉ m.now.links → l.tokenHash ∈ m'.now.used →
        l.tokenHash ∈ m.now.used) ∧
      (m'.now.made.map Made.link).Nodup ∧
      (∀ e ∈ m'.now.made, ∃ h ∈ m'.now.used, e.link = some h) ∧
      ∀ p token cookie id,
        m'.party p = .busy (.once token) (.done (.once (.signedIn cookie id), ())) →
        hashToken token ∈ m'.now.used ∧ ∃ e ∈ m'.now.made,
          e.tokenHash = hashToken cookie ∧ e.link = some (hashToken token) := by
  have h' := h.run hr
  have hgood := good_of_reachable h'
  obtain ⟨q, hlater⟩ := later_of_run h hr
  refine ⟨hgood.spentOnce, fun x hx => ?_, fun l hl hgone => ?_, hgood.ownLink,
    hgood.spentLink, ?_⟩
  · obtain ⟨l, hl, hhash, hnow⟩ := hgood.inTime x hx
    exact ⟨l, hl, hhash, hgood.term l hl ▸ hnow⟩
  · exact (hlater.dead _ ((good_of_reachable h).dead_link hl hgone)).2
  · intro p token cookie id hp
    obtain ⟨e, he, hhash, hlink⟩ := told_of_reachable h' hp
    obtain ⟨x, hx, hex⟩ := hgood.spentLink e he
    rw [hlink] at hex
    exact ⟨Option.some.inj hex ▸ hx, e, he, hhash, hlink⟩

end Runs

/-! ### A link, two tabs, and a second link -/

def nobody : Scene Answer World Kind Result Unit Pid := ⟨{}, fun _ => .gone⟩

theorem nobody_unused : ((callers id).machine Unused).init nobody := ⟨rfl, fun _ => rfl⟩

def oks (p : Pid) (n : Nat) : List (Deed Pid Unit Kind Choice) := List.replicate n (.act p .ok)

/-- The command line issues a link. -/
def issues (p : Pid) (token : String) (at' : Int) : List (Deed Pid Unit Kind Choice) :=
  [.start p (), .call p .issue, .act p (.draws token), .act p (.reads at'), .act p .ok, .ret p]

/-- Two tabs post the same token; both have read the link before one spends it. -/
def twoTabs : List (Deed Pid Unit Kind Choice) :=
  [.start 2 (), .call 2 (.once "a"), .act 2 .ok, .start 3 (), .call 3 (.once "a"), .act 3 .ok,
    .act 3 (.reads 60000), .act 3 .ok, .act 2 (.reads 60001), .act 2 .ok,
    .act 3 (.reads 60002), .act 3 (.draws "c"), .act 3 (.draws "s")] ++ oks 3 3

/-- One of the tabs has a session, the other found the link spent. -/
theorem two_tabs_one_session :
    let m := ((callers id).machine Unused).after nobody (issues 1 "a" 0)
    let m' := ((callers id).machine Unused).after m twoTabs
    m'.party 3 = .busy (.once "a") (.done (.once (.signedIn "c" "ls_s"), ())) ∧
      m'.party 2 = .busy (.once "a") (.done (.once .expired, ())) ∧
      (m'.now.made.map Made.link).Nodup :=
  ⟨rfl, rfl, (link_signs_in_once (Machine.reachable_after nobody_unused rfl)
    (Machine.run_after rfl)).2.2.2.1⟩

/-! ## Sessions -/

section Runs

variable {m m' : Scene Answer World Kind Result Unit Pid} {es : List (Deed Pid Unit Kind Choice)}

/-- A session that has ended is in no table again. One that is found was used within the
twelve hours before it was looked up, each of its uses was within twelve hours of one
before it or of the sign-in, and all of them are within seven days of it. -/
theorem sessions_end (h : Machine.Reachable ((callers hashToken).machine Unused) m)
    (hr : ((callers hashToken).machine Unused).run m es = some m') :
    (∀ e ∈ m.now.made, (∀ r ∈ m.now.sessions, r.tokenHash ≠ e.tokenHash) →
        ∀ r ∈ m'.now.sessions, r.tokenHash ≠ e.tokenHash) ∧
      m'.now.sessions.length ≤ maxLocalSessions + m'.now.untrimmed ∧
      Kept m'.now.made m'.now.seen ∧
      ∀ p token now s,
        m'.party p = .busy (.find token) (.done (.found now (.ok (some s)), ())) →
        Found hashToken token now s m'.now := by
  have h' := h.run hr
  have hgood := good_of_reachable h'
  obtain ⟨q, hlater⟩ := later_of_run h hr
  refine ⟨fun e he hgone => ?_, hgood.bounded, hgood.kept, fun p token now s hp => ?_⟩
  · obtain ⟨hdrawn, hnobody⟩ := (good_of_reachable h).made e he
    refine (hlater.dead _ ⟨hdrawn, hnobody, fun l hl => ?_, hgone⟩).1.session
    exact Ne.symm ((good_of_reachable h).linkOnly l ((good_of_reachable h).live l hl).1 e he)
  · exact told_of_reachable h' hp

end Runs

/-- Another link, and the session is found two hours later. -/
def anotherLink : List (Deed Pid Unit Kind Choice) :=
  issues 4 "b" 70000 ++
    [.start 5 (), .call 5 (.find "c"), .act 5 (.reads 7260002), .act 5 .ok, .act 5 .ok]

/-- The session is found again two hours later, and the link of another is the one that
waits. -/
theorem found_two_hours_later :
    let m := ((callers id).machine Unused).after nobody (issues 1 "a" 0 ++ twoTabs)
    let m' := ((callers id).machine Unused).after m anotherLink
    m'.party 5 = .busy (.find "c")
        (.done (.found 7260002 (.ok (some ⟨"ls_s", 60002, 7260002, 50460002⟩)), ())) ∧
      Kept m'.now.made m'.now.seen :=
  ⟨rfl, (sessions_end (Machine.reachable_after nobody_unused rfl)
    (Machine.run_after rfl)).2.2.1⟩

end LocalBase.Auth.Local
