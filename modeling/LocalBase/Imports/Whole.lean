import Mathlib
import LocalBase.Imports.Fetch
import LocalBase.Imports.Spared

/-!
# A recorded import is whole

What was fetched is moved to where the models are while the root is held, and
recorded when it is there. Until then it is the import's own, and from then on
it is no other call's to change.

What the others may do to it meanwhile is said once, as what they leave of a call's
own files; each operation is then followed on its own.
-/

namespace LocalBase.Imports

open Program Files

variable {sum : Bytes → String} {short : String → String} {p : Run} {w t u : World} {d : Dir}
  {work : Work} {n : Nat} {es : Entries} {α β : Type} {plan : Plan} {m : Model} {name : Name}
  {id : String} {I : World → Prop}

/-! ## Removing a directory -/

section
variable (hd : d ≠ .imports) (hI : Stable short p I)
  (hT : ∀ w t, I w → Touches (· = d) w t → I t) (hO : ∀ w, I w → Owns short p w d)
include hd hI hT hO

theorem removeNames_runs (xs : List Name) : ∀ {w : World}, I w → w.folders.place d = some n →
    Runs sum short p (fun _ u => I u) (removeNames n xs) w := by
  have hstable : Stable short p fun w => I w ∧ w.folders.place d = some n := by
    intro w t h hk
    refine ⟨hI w t h.1 hk, ?_⟩
    have hlook := (hO w h.1).look hd hk
    rw [Folders.look_of_place h.2] at hlook
    exact (Folders.place_of_look hlook).1
  induction xs with
  | nil => exact fun hw _ => hw
  | cons x xs ih =>
    intro w hw hplace
    refine runs_own (D := (· = d)) hstable ⟨hw, hplace⟩ (fun t ht _ e he => he ▸ hO t ht.1)
      fun t c r u ht _ hact => ?_
    cases c <;> simp only [act, reduceCtorEq, Option.some.injEq, Prod.mk.injEq] at hact
    · obtain ⟨_, rfl⟩ := hact
      have htouches : Touches (· = d) t { t with folders := t.folders.remove n x } :=
        ⟨rfl, rfl, rfl, fun e he => Folders.remove_look fun k hk =>
          Folders.number_ne_of_folder ht.2 hk he⟩
      exact ⟨htouches, ih (hT _ _ ht.1 htouches) ht.2⟩
    · obtain ⟨_, rfl⟩ := hact
      exact ⟨.refl _ t, ih ht.1 ht.2⟩

theorem removeAll_runs (hw : I w) : Runs sum short p (fun _ u => I u) (removeAll d) w := by
  refine runs_quiet hI hw rfl fun r t c ht _ hact => ?_
  cases r with
  | error err => exact ht
  | ok found =>
    cases found with
    | none => exact ht
    | some found =>
      have hplace : t.folders.place d = some found.1 := by
        cases c <;> simp only [act, reduceCtorEq, Option.some.injEq, Prod.mk.injEq, Except.ok.injEq,
          Option.map_eq_some_iff, false_and] at hact
        obtain ⟨⟨k, hk, rfl⟩, _⟩ := hact
        exact hk
      refine Runs.bind (removeNames_runs hd hI hT hO found.2 ht hplace) fun _ u hu => ?_
      refine runs_own (D := (· = d)) (k := .done) hI hu (fun v hv _ e he => he ▸ hO v hv)
        fun v c r z hv _ hact => ?_
      cases c <;> simp only [act, reduceCtorEq, Option.some.injEq, Prod.mk.injEq] at hact
      · obtain ⟨_, rfl⟩ := hact
        have htouches : Touches (· = d) v { v with folders := v.folders.drop d } :=
          ⟨rfl, rfl, rfl, fun e he => Folders.drop_look he⟩
        exact ⟨htouches, hT _ _ hv htouches⟩
      · obtain ⟨_, rfl⟩ := hact
        exact ⟨.refl _ v, hv⟩

end

/-! ## Working in a staging directory -/

def Under (p : Run) (works : List Work) (w : World) : Prop := ∀ x ∈ works, (p, x) ∈ w.under

theorem under_stable {works : List Work} : Stable short p (Under p works) :=
  fun _ _ h hk x hx => (hk.under _ (h x hx) rfl).1

theorem Under.touches {works : List Work} {D : Dir → Prop} (h : Under p works w)
    (ht : Touches D w t) : Under p works t := fun x hx => ht.under ▸ h x hx

theorem Mine.under_self (h : Mine short p work n es w) : Under p [work] w :=
  List.forall_mem_singleton.mpr h.under

theorem runs_begins {Q : α → World → Prop} {k : Unit → Steps α} (hI : Stable short p I) (hw : I w)
    (h : ∀ t, I t → (∀ plan ∈ work.plan, plan.Apart) →
      Runs sum short p Q (k ()) { t with under := (p, work) :: t.under }) :
    Runs sum short p Q (perform (.begins work) >>= k) w :=
  runs_op hI hw fun t c r u ht hs halone hact => by
    obtain ⟨hfree, hapart⟩ := halone work rfl
    cases c <;> simp only [act, reduceCtorEq, Option.some.injEq, Prod.mk.injEq] at hact
    obtain ⟨_, rfl⟩ := hact
    refine ⟨⟨List.pairwise_cons.mpr ⟨fun x hx => (hfree x hx).symm, hs.apart⟩, hs.whole⟩,
      fun q _ => ⟨fun x hx _ => ⟨List.mem_cons_of_mem _ hx, rfl⟩,
        fun hq => ⟨hq, rfl, fun _ => rfl⟩⟩,
      h t ht hapart⟩

theorem runs_ends {Q : α → World → Prop} {k : Unit → Steps α} (hI : Stable short p I) (hw : I w)
    (h : ∀ t, I t →
      Runs sum short p Q (k ()) { t with under := t.under.filter fun x => x ≠ (p, work) }) :
    Runs sum short p Q (perform (.ends work) >>= k) w :=
  runs_op hI hw fun t c r u ht hs _ hact => by
    cases c <;> simp only [act, reduceCtorEq, Option.some.injEq, Prod.mk.injEq] at hact
    obtain ⟨_, rfl⟩ := hact
    refine ⟨⟨hs.apart.filter _, hs.whole⟩, fun q hq => ⟨fun x hx hxq => ⟨?_, rfl⟩,
      fun hq' => ⟨hq', rfl, fun _ => rfl⟩⟩, h t ht⟩
    refine List.mem_filter.mpr ⟨hx, decide_eq_true fun he => hq ?_⟩
    rw [← hxq, he]

theorem pruneEach_runs {plans : List Plan} {keep : Option Name} (names : List Name) :
    ∀ {w : World}, Under p (plans.map .importing) w →
      Runs sum short p (fun _ u => Under p (plans.map .importing) u) (pruneEach keep names) w := by
  induction names with
  | nil => exact fun hw => hw
  | cons name rest ih =>
    intro w hw
    unfold pruneEach
    split
    · exact ih hw
    · refine runs_quiet under_stable hw rfl fun r t _ ht _ _ => ?_
      cases r with
      | false => exact ih ht
      | true =>
        refine runs_begins under_stable ht fun u hu _ => ?_
        have hboth : Under p (.clearing name :: plans.map .importing)
            { u with under := (p, .clearing name) :: u.under } :=
          List.forall_mem_cons.mpr
            ⟨List.mem_cons_self, fun x hx => List.mem_cons_of_mem _ (hu x hx)⟩
        refine Runs.bind (removeAll_runs (d := .staging name) (by simp) under_stable
          (fun _ _ h ht => h.touches ht)
          (fun _ h => ⟨.clearing name, h _ List.mem_cons_self, rfl⟩) hboth) fun _ v hv => ?_
        refine runs_ends under_stable hv fun z hz => ih fun x hx => ?_
        refine List.mem_filter.mpr ⟨hz x (List.mem_cons_of_mem _ hx), decide_eq_true fun he => ?_⟩
        obtain ⟨plan, _, rfl⟩ := List.mem_map.mp hx
        cases he

theorem pruneStaging_runs (plans : List Plan) {keep : Option Name}
    (hw : Under p (plans.map .importing) w) :
    Runs sum short p (fun _ u => Under p (plans.map .importing) u) (pruneStaging keep) w :=
  runs_quiet under_stable hw rfl fun _ _ _ ht _ _ => pruneEach_runs _ ht

/-! ## Fetching -/

theorem needed_runs (hI : Stable short p I) (todo : List PlannedFile) : ∀ {w : World}, I w →
    Runs sum short p (fun _ u => I u) (needed d todo) w := by
  induction todo with
  | nil => exact fun hw => hw
  | cons f rest ih =>
    intro w hw
    unfold needed
    split
    · exact ih hw
    · have hstaged : Runs sum short p (fun _ u => I u) (staged d f) w := by
        refine runs_quiet hI hw rfl fun r t _ ht _ _ => ?_
        cases r with
        | some n => exact ht
        | none => exact runs_quiet hI ht rfl fun _ _ _ hu _ _ => hu
      exact Runs.bind hstaged fun _ _ ht => Runs.bind (ih ht) fun _ _ hu => hu

theorem checkSpace_runs (hI : Stable short p I) (hw : I w) :
    Runs sum short p (fun _ u => I u) (checkSpace plan d) w := by
  refine runs_quiet hI hw rfl fun r t _ ht _ _ => ?_
  cases r with
  | none => exact ht
  | some free => exact Runs.bind (needed_runs hI _ ht) fun _ _ hu => hu

/-- What a fetch that went well brought: the files of the model in the staging
directory. -/
def Fetched (sum : Bytes → String) (short : String → String) (p : Run) (plan : Plan) (m : Model)
    (w : World) : Prop :=
  m.id = plan.id ∧ ∃ n es, Mine short p (.importing plan) n es w ∧ Present sum es m.artifacts

theorem fetched_stable : Stable short p (Fetched sum short p plan m) :=
  fun _ _ ⟨hid, n, es, hm, hp⟩ hk => ⟨hid, n, es, mine_stable _ _ hm hk, hp⟩

theorem Fetched.under (h : Fetched sum short p plan m w) : Under p [.importing plan] w := by
  obtain ⟨_, n, es, hm, _⟩ := h
  exact hm.under_self

theorem fetchInto_runs (hapart : plan.Apart) (hw : Under p [.importing plan] w) :
    Runs sum short p
      (fun r u => Under p [.importing plan] u ∧ ∀ m, r = .ok m → Fetched sum short p plan m u)
      (fetchInto sum plan (.staging (plan.staging short))) w := by
  refine Runs.bind (checkSpace_runs under_stable hw) fun r t ht => ?_
  cases r with
  | some err => exact ⟨ht, fun _ h => by cases h⟩
  | none =>
    refine runs_own (D := (· = .staging (plan.staging short))) under_stable ht
      (fun u hu _ e he => he ▸ ⟨.importing plan, hu _ List.mem_cons_self, rfl⟩)
      fun u c r v hu _ hact => ?_
    cases c <;> simp only [act, reduceCtorEq, Option.some.injEq, Prod.mk.injEq] at hact
    · obtain ⟨rfl, rfl⟩ := hact
      obtain ⟨n, hn⟩ := Folders.make_place (f := u.folders) (d := .staging (plan.staging short))
      have hmine : Mine short p (.importing plan) n (Folders.entry (u.folders.make _) n)
          { u with folders := u.folders.make (.staging (plan.staging short)) } :=
        ⟨hu _ List.mem_cons_self, Folders.look_of_place hn⟩
      refine ⟨⟨rfl, rfl, rfl, fun e he => Folders.make_look he⟩, ?_⟩
      refine Runs.bind (fetchFiles_runs hapart plan.files [] hmine (fun _ h => h) plan.distinct
        (fun _ h => by cases h) (fun _ h => by cases h) (fun _ h => by cases h))
        fun r z hz => ?_
      obtain ⟨es, hm, hkept⟩ := hz
      cases r with
      | error err => exact ⟨hm.under_self, fun _ h => by cases h⟩
      | ok arts =>
        refine (inspect_runs hm (hkept arts rfl)).mono fun r y hy => ?_
        obtain ⟨es', hm', hfetched⟩ := hy
        refine ⟨hm'.under_self, fun m h => ?_⟩
        obtain ⟨hid, hpresent⟩ := hfetched m h
        exact ⟨hid, n, es', hm', hpresent⟩
    · obtain ⟨rfl, rfl⟩ := hact
      exact ⟨.refl _ u, hu, fun _ h => by cases h⟩

theorem fetch_runs (hapart : plan.Apart) (hw : Under p [.importing plan] w) :
    Runs sum short p
      (fun r u => Under p [.importing plan] u ∧ ∀ m, r = .ok m → Fetched sum short p plan m u)
      (fetch sum short plan) w := by
  have hrefused : ∀ {err : Err} {u : World}, Under p [.importing plan] u →
      Runs sum short p
        (fun (r : Except Err Model) u =>
          Under p [.importing plan] u ∧ ∀ m, r = .ok m → Fetched sum short p plan m u)
        (pure (.error err)) u := fun hu => ⟨hu, fun _ h => by cases h⟩
  unfold fetch
  split
  · exact hrefused hw
  · split
    · exact hrefused hw
    · split
      · exact hrefused hw
      · refine runs_quiet under_stable hw rfl fun r t _ ht _ _ => ?_
        cases r with
        | true => exact hrefused ht
        | false =>
          exact Runs.bind (pruneStaging_runs [plan] ht) fun _ u hu =>
            fetchInto_runs hapart hu

/-! ## Holding the root -/

def Leads (p : Run) (w : World) : Prop := w.lease = some p

theorem leads_stable : Stable short p (Leads p) := fun _ _ h hk => (hk.lease h).1

theorem Stable.and {J : World → Prop} (hI : Stable short p I) (hJ : Stable short p J) :
    Stable short p fun w => I w ∧ J w := fun w t h hk => ⟨hI w t h.1 hk, hJ w t h.2 hk⟩

theorem recorded_stable (P : List Model → Prop) :
    Stable short p fun w => Leads p w ∧ P w.recorded := fun w t h hk => by
  obtain ⟨hlease, hrec, _⟩ := hk.lease h.1
  exact ⟨hlease, hrec.symm ▸ h.2⟩

theorem underLease_runs {J : World → Prop} {fn : Steps (Except Err α)} (hI : Stable short p I)
    (hw : I w) (hlease : ∀ w, I w → I { w with lease := some p })
    (hJ : Stable short p J) (hIJ : ∀ w, I w → J w) (hfree : ∀ w, J w → J { w with lease := none })
    (hfn : ∀ t, I t → Leads p t → Runs sum short p (fun _ u => J u ∧ Leads p u) fn t) :
    Runs sum short p (fun _ u => J u) (underLease fn) w := by
  refine runs_op hI hw fun t c r u ht hs _ hact => ?_
  cases c <;> simp only [act, reduceCtorEq, Option.ite_none_right_eq_some, Option.some.injEq,
    Prod.mk.injEq] at hact
  · obtain ⟨hnone, rfl, rfl⟩ := hact
    refine ⟨⟨hs.apart, hs.whole⟩, fun q _ => ⟨fun x hx _ => ⟨hx, rfl⟩, fun hq => ?_⟩, ?_⟩
    · rw [hnone] at hq
      cases hq
    · refine Runs.bind (hfn _ (hlease t ht) rfl) fun r v hv => ?_
      refine runs_op (hJ.and leads_stable) hv fun z c _ y hz hs' _ hact' => ?_
      cases c <;> simp only [act, reduceCtorEq, Option.some.injEq, Prod.mk.injEq] at hact'
      obtain ⟨_, rfl⟩ := hact'
      refine ⟨⟨hs'.apart, hs'.whole⟩, fun q hq => ⟨fun x hx _ => ⟨hx, rfl⟩, fun hq' => ?_⟩,
        hfree _ hz.1⟩
      exact absurd (Option.some.inj (hq'.symm.trans hz.2)) hq
  · obtain ⟨rfl, rfl⟩ := hact
    exact ⟨hs, fun q _ => .refl q _, hIJ _ ht⟩

theorem reclaim_runs (hI : Stable short p I)
    (hT : ∀ w t, I w → Touches (· = .imported id) w t → I t) (hw : I w) (hlead : Leads p w) :
    Runs sum short p (fun _ u => I u ∧ Leads p u) (reclaim id) w := by
  refine runs_quiet (hI.and leads_stable) ⟨hw, hlead⟩ rfl fun r t _ ht _ _ => ?_
  cases r with
  | false => exact ht
  | true =>
    refine runs_quiet (hI.and leads_stable) ht rfl fun r u c hu _ hact => ?_
    cases r with
    | error err => exact hu
    | ok recorded =>
      dsimp only
      split
      · exact hu
      · next hnone =>
        have hrec : ∀ m ∈ u.recorded, m.id ≠ id := by
          cases c <;> simp only [act, reduceCtorEq, Option.some.injEq, Prod.mk.injEq,
            Except.ok.injEq, false_and] at hact
          intro m hm he
          exact hnone (List.any_eq_true.mpr ⟨m, hact.1 ▸ hm, decide_eq_true he⟩)
        refine Runs.bind (removeAll_runs (d := .imported id)
          (I := fun w => I w ∧ Leads p w ∧ ∀ m ∈ w.recorded, m.id ≠ id) (by simp)
          (hI.and (recorded_stable fun ms => ∀ m ∈ ms, m.id ≠ id))
          (fun w t h ht => ⟨hT w t h.1 ht, ht.lease.trans h.2.1, ht.recorded.symm ▸ h.2.2⟩)
          (fun w h => h.2) ⟨hu.1, hu.2, hrec⟩) fun r v hv => ?_
        cases r <;> exact ⟨hv.1, hv.2.1⟩

/-! ## Publishing -/

/-- A model's files are where the models are, and nothing of its id is
recorded. -/
def Placed (sum : Bytes → String) (p : Run) (plan : Plan) (m : Model) (w : World) : Prop :=
  Under p [.importing plan] w ∧ Leads p w ∧ (∀ r ∈ w.recorded, r.id ≠ m.id) ∧ Whole sum w m

theorem placed_stable : Stable short p (Placed sum p plan m) := fun w t h hk => by
  obtain ⟨hunder, hlead, hrec, hwhole⟩ := h
  obtain ⟨hlead', hrec', hlook⟩ := hk.lease hlead
  exact ⟨under_stable w t hunder hk, hlead', hrec'.symm ▸ hrec, hwhole.congr (hlook m.id)⟩

theorem moved_spec {f : Folders Dir Name UInt8} (hs : Sane sum short w)
    (hf : Fetched sum short p plan m w) (hlead : Leads p w)
    (hmove : w.folders.move (.staging (plan.staging short)) (.imported m.id) = some f) :
    Touches (fun d => d = .staging (plan.staging short) ∨ d = .imported m.id) w
        { w with folders := f } ∧
      Owns short p w (.imported m.id) ∧ Placed sum p plan m { w with folders := f } := by
  obtain ⟨_, hnone, hnew, _, hother⟩ := Folders.move_looks hmove
  obtain ⟨hid, n, es, hm, hpresent⟩ := hf
  have hrec : ∀ r ∈ w.recorded, r.id ≠ m.id := fun r hr he => by
    obtain ⟨k, es', hlook, _⟩ := hs.whole r hr
    rw [he, hnone] at hlook
    cases hlook
  exact ⟨⟨rfl, rfl, rfl, fun e he => hother e (fun h => he (.inl h)) fun h => he (.inr h)⟩,
    ⟨hlead, hrec⟩, hm.under_self, hlead, hrec, n, es, hnew.trans hm.look, hpresent⟩

theorem publish_runs (hw : Fetched sum short p plan m w) (hlead : Leads p w) :
    Runs sum short p
      (fun r u => (Under p [.importing plan] u ∧ Leads p u) ∧ (r = none → Placed sum p plan m u))
      (publish (plan.staging short) m) w := by
  have hstable : Stable short p fun w => Fetched sum short p plan m w ∧ Leads p w :=
    fetched_stable.and leads_stable
  refine runs_quiet hstable ⟨hw, hlead⟩ rfl fun r t _ ht _ _ => ?_
  cases r with
  | true => exact ⟨⟨ht.1.under, ht.2⟩, fun h => by cases h⟩
  | false =>
    refine runs_own (D := (· = .imports)) hstable ht (fun u hu _ e he => he ▸ hu.2)
      fun u c r v hu _ hact => ?_
    have hmade : Touches (· = .imports) u v ∧ Fetched sum short p plan m v ∧ Leads p v := by
      cases c <;> simp only [act, reduceCtorEq, Option.some.injEq, Prod.mk.injEq] at hact
      · obtain ⟨_, rfl⟩ := hact
        obtain ⟨⟨hid, n, es, hm, hp⟩, hl⟩ := hu
        refine ⟨⟨rfl, rfl, rfl, fun e he => Folders.make_look he⟩,
          ⟨hid, n, es, ⟨hm.under, ?_⟩, hp⟩, hl⟩
        exact (Folders.make_look (by simp)).trans hm.look
      · obtain ⟨_, rfl⟩ := hact
        exact ⟨.refl _ u, hu⟩
    refine ⟨hmade.1, ?_⟩
    cases r with
    | some err => exact ⟨⟨hmade.2.1.under, hmade.2.2⟩, fun h => by cases h⟩
    | none =>
      refine runs_op (k := .done) hstable hmade.2 fun z c r y hz hs _ hact => ?_
      cases c <;> simp only [act, reduceCtorEq, Option.map_eq_some_iff, Option.some.injEq,
        Prod.mk.injEq] at hact
      · obtain ⟨f, hf, rfl, rfl⟩ := hact
        obtain ⟨htouches, howns, hplaced⟩ := moved_spec hs hz.1 hz.2 hf
        obtain ⟨hs', hguar⟩ := htouches.sound hs (by
          rintro _ (rfl | rfl)
          · exact ⟨.importing plan, hz.1.under _ List.mem_cons_self, rfl⟩
          · exact howns)
        exact ⟨hs', hguar, ⟨hplaced.1, hplaced.2.1⟩, fun _ => hplaced⟩
      · obtain ⟨rfl, rfl⟩ := hact
        exact ⟨hs, fun q _ => .refl q _, ⟨hz.1.under, hz.2⟩, fun h => by cases h⟩

theorem saved_spec (hs : Sane sum short w) (h : Placed sum p plan m w) :
    Sane sum short (w.saved m) ∧ Crew.Guar (Keeps short) p w (w.saved m) := by
  obtain ⟨_, hlead, _, hwhole⟩ := h
  refine ⟨⟨hs.apart, fun r hr => ?_⟩, fun q hq => ⟨fun x hx _ => ⟨hx, rfl⟩, fun hq' => ?_⟩⟩
  · obtain rfl | hr := List.mem_cons.mp hr
    · exact hwhole
    · exact hs.whole r (List.mem_of_mem_filter hr)
  · exact absurd (Option.some.inj (hq'.symm.trans hlead)) hq

theorem saveImport_runs (hw : Placed sum p plan m w) :
    Runs sum short p (fun _ u => Under p [.importing plan] u ∧ Leads p u) (saveImport m) w := by
  refine runs_op placed_stable hw fun t c r u ht hs _ hact => ?_
  have hsame : (u = t ∨ u = t.saved m) := by
    cases c <;> simp only [act, reduceCtorEq, Option.some.injEq, Prod.mk.injEq] at hact
    · exact .inr hact.2.symm
    · exact .inl hact.2.symm
    · exact .inr hact.2.symm
  have hafter : Under p [.importing plan] u ∧ Leads p u := by
    obtain rfl | rfl := hsame <;> exact ⟨ht.1, ht.2.1⟩
  have hsound : Sane sum short u ∧ Crew.Guar (Keeps short) p t u := by
    obtain rfl | rfl := hsame
    · exact ⟨hs, fun q _ => .refl q _⟩
    · exact saved_spec hs ht
  refine ⟨hsound.1, hsound.2, ?_⟩
  cases r with
  | some err => exact hafter
  | none =>
    exact runs_quiet (k := .done) (under_stable.and leads_stable) hafter rfl
      fun _ _ _ hv _ _ => hv

theorem publishHeld_runs (hw : Fetched sum short p plan m w) (hlead : Leads p w) :
    Runs sum short p (fun _ u => Under p [.importing plan] u ∧ Leads p u)
      (publishHeld short plan m) w := by
  refine Runs.bind (reclaim_runs (I := Fetched sum short p plan m) fetched_stable
    (fun w t h ht => ?_) hw hlead) fun r t ht => ?_
  · obtain ⟨hid, n, es, hm, hp⟩ := h
    exact ⟨hid, n, es, ⟨ht.under ▸ hm.under, (ht.elsewhere _ (by simp)).trans hm.look⟩, hp⟩
  · cases r with
    | error err => exact ⟨ht.1.under, ht.2⟩
    | ok _ =>
      refine Runs.bind (publish_runs ht.1 ht.2) fun r u hu => ?_
      cases r with
      | some err => exact hu.1
      | none =>
        refine Runs.bind (saveImport_runs (hu.2 rfl)) fun r v hv => ?_
        cases r <;> exact hv

/-! ## The calls -/

theorem prepareImport_runs (hw : Under p [.importing plan] w) :
    Runs sum short p (fun _ u => Under p [.importing plan] u) (prepareImport plan) w := by
  refine runs_quiet under_stable hw rfl fun r t _ ht _ _ => ?_
  cases r with
  | false => exact ht
  | true =>
    exact underLease_runs (I := Under p [.importing plan]) (J := Under p [.importing plan])
      under_stable ht (fun _ h => h) under_stable (fun _ h => h) (fun _ h => h) fun u hu hl =>
      reclaim_runs under_stable (fun _ _ h ht => h.touches ht) hu hl

theorem importModel_runs (hapart : plan.Apart) (hw : Under p [.importing plan] w) :
    Runs sum short p (fun _ u => Under p [.importing plan] u) (importModel sum short plan) w := by
  refine Runs.bind (prepareImport_runs hw) fun r t ht => ?_
  cases r with
  | error err => exact ht
  | ok _ =>
    refine Runs.bind (fetch_runs hapart ht) fun r u hu => ?_
    cases r with
    | error err => exact hu.1
    | ok m =>
      exact underLease_runs (I := Fetched sum short p plan m) (J := Under p [.importing plan])
        fetched_stable (hu.2 m rfl)
        (fun w h => by
          obtain ⟨hid, n, es, hm, hp⟩ := h
          exact ⟨hid, n, es, ⟨hm.under, hm.look⟩, hp⟩)
        under_stable (fun _ h => h.under) (fun _ h => h) fun v hv hl => publishHeld_runs hv hl

theorem runImport_runs : Runs sum short p (fun _ _ => True) (runImport sum short plan) w := by
  refine runs_begins (I := fun _ => True) (fun _ _ _ _ => trivial) trivial fun t _ hapart => ?_
  have hunder : Under p [.importing plan] { t with under := (p, .importing plan) :: t.under } :=
    List.forall_mem_singleton.mpr List.mem_cons_self
  refine Runs.bind (importModel_runs (hapart plan rfl) hunder) fun r u hu => ?_
  cases r with
  | ok _ => exact runs_ends under_stable hu fun _ _ => trivial
  | error err =>
    have hremoved : Runs sum short p (fun _ u => Under p [.importing plan] u)
        (removeStaging (plan.staging short)) u := by
      refine runs_quiet under_stable hu rfl fun r v _ hv _ _ => ?_
      cases r with
      | false => exact hv
      | true =>
        exact Runs.bind (removeAll_runs (d := .staging (plan.staging short)) (by simp) under_stable
          (fun _ _ h ht => h.touches ht)
          (fun _ h => ⟨.importing plan, h _ List.mem_cons_self, rfl⟩) hv) fun _ _ h => h
    exact Runs.bind hremoved fun _ v hv => runs_ends under_stable hv fun _ _ => trivial

theorem deleteHeld_runs (hlead : Leads p w) :
    Runs sum short p (fun _ u => True ∧ Leads p u) (deleteHeld id) w := by
  refine runs_op leads_stable hlead fun t c r u ht hs _ hact => ?_
  have hsame : u = t ∧ r ≠ none ∨
      u = { t with recorded := t.recorded.filter fun m => m.id ≠ id } := by
    cases c <;> simp only [act, reduceCtorEq, Option.some.injEq, Prod.mk.injEq] at hact
    · exact .inr hact.2.symm
    · exact .inl ⟨hact.2.symm, by rw [← hact.1]; simp⟩
    · exact .inr hact.2.symm
  obtain ⟨rfl, hr⟩ | rfl := hsame
  · refine ⟨hs, fun q _ => .refl q _, ?_⟩
    cases r with
    | none => exact absurd rfl hr
    | some err => exact ⟨trivial, ht⟩
  · refine ⟨⟨hs.apart, fun m hm => hs.whole m (List.mem_of_mem_filter hm)⟩,
      fun q hq => ⟨fun x hx _ => ⟨hx, rfl⟩, fun hq' => ?_⟩, ?_⟩
    · exact absurd (Option.some.inj (hq'.symm.trans ht)) hq
    · cases r with
      | some err => exact ⟨trivial, ht⟩
      | none =>
        refine Runs.bind (removeAll_runs (d := .imported id)
          (I := fun w => Leads p w ∧ ∀ m ∈ w.recorded, m.id ≠ id) (by simp)
          (recorded_stable fun ms => ∀ m ∈ ms, m.id ≠ id)
          (fun w t h ht => ⟨ht.lease.trans h.1, ht.recorded.symm ▸ h.2⟩)
          (fun w h => h) ⟨ht, fun m hm => of_decide_eq_true (List.mem_filter.mp hm).2⟩)
          fun r v hv => ?_
        cases r <;> exact ⟨trivial, hv.1⟩

theorem steps_runs (k : Call) :
    Runs sum short p (fun _ _ => True) (k.steps sum short) w := by
  have htrue : Stable short p fun _ => True := fun _ _ _ _ => trivial
  cases k with
  | runImport plan => exact runImport_runs
  | deleteModel id =>
    refine runs_quiet htrue trivial rfl fun r t _ _ _ _ => ?_
    cases r with
    | error err => trivial
    | ok recorded =>
      dsimp only
      split
      · exact underLease_runs htrue trivial (fun _ _ => trivial) htrue (fun _ _ => trivial)
          (fun _ _ => trivial) fun _ _ hl => deleteHeld_runs hl
      · trivial
  | openLibrary =>
    exact Runs.bind (pruneStaging_runs [] fun _ h => by cases h) fun _ _ _ => trivial

theorem without_spec (h : Sane sum short w) (p : Run) :
    Sane sum short (w.without p) ∧ Crew.Guar (Keeps short) p w (w.without p) := by
  refine ⟨⟨h.apart.filter _, h.whole⟩, fun q hq => ⟨fun x hx hxq => ⟨?_, rfl⟩, fun hq' =>
    ⟨?_, rfl, fun _ => rfl⟩⟩⟩
  · exact List.mem_filter.mpr ⟨hx, decide_eq_true (hxq ▸ hq)⟩
  · show w.lease.filter (fun r => r ≠ p) = some q
    rw [hq', Option.filter_some, if_pos (decide_eq_true hq)]

theorem calls_sound : Crew.Sound (calls sum short) (Alone short) (Sane sum short) (Keeps short)
    (fun _ _ _ => True) (fun _ _ _ _ => True) Fresh where
  refl := .refl
  trans _ _ _ _ := .trans
  memory _ _ _ _ _ _ := trivial
  result _ _ _ _ _ _ _ := trivial
  init w h := by
    refine ⟨?_, fun m hm => ?_⟩
    · rw [h.under]
      exact List.Pairwise.nil
    · rw [h.recorded] at hm
      cases hm
  start _ _ _ _ := trivial
  call _ k _ _ _ _ := Runs.bind (steps_runs k) fun _ _ _ => ⟨trivial, trivial⟩
  die p _ hw := without_spec hw p

/-! ## Every run -/

theorem Whole.file {a : Artifact} (h : Whole sum w m) (ha : a ∈ m.artifacts) :
    ∃ bs, w.file (.imported m.id) a.filename = some bs ∧ a.Matches sum bs := by
  obtain ⟨n, es, hlook, hpresent⟩ := h
  obtain ⟨x, hx, hmatches⟩ := hpresent a ha
  refine ⟨x.2, ?_, hmatches⟩
  rw [World.file, Folders.file_eq_look, hlook]
  exact congrArg (Option.map Prod.snd) hx

theorem opened_recorded {x : Name} {trunc : Bool} {i : Nat}
    (h : w.opened d x trunc = some (i, u)) : u.recorded = w.recorded := by
  unfold World.opened at h
  split at h
  · cases h
  · split at h
    · cases h
      rfl
    · cases h
      cases trunc <;> rfl

theorem replaced_recorded {x : Name} {bs : Bytes} (h : w.replaced d x bs = some u) :
    u.recorded = w.recorded := by
  unfold World.replaced at h
  split at h <;> cases h
  rfl

theorem renamed_recorded {x y : Name} (h : w.renamed d x y = some u) :
    u.recorded = w.recorded := by
  obtain ⟨n, _, h⟩ := Option.bind_eq_some_iff.mp h
  obtain ⟨f, _, rfl⟩ := Option.map_eq_some_iff.mp h
  rfl

theorem removed_recorded {x : Name} (h : w.removed d x = some u) : u.recorded = w.recorded := by
  obtain ⟨n, _, rfl⟩ := Option.map_eq_some_iff.mp h
  rfl

/-- An operation that deletes no record changes the records or the files, not
both. -/
theorem act_recorded {o : Op} {c : Choice} {r : Answer o} (ho : o.deletes = false)
    (hact : act p w o c = some (r, u)) : u.recorded = w.recorded ∨ u.folders = w.folders := by
  by_cases hq : o.quiet = true
  · exact .inl (congrArg World.recorded (quiet_spec hq hact))
  · cases o <;> first | exact absurd rfl hq | exact absurd ho (by decide) | skip
    all_goals cases c <;> simp only [act, reduceCtorEq, Option.some.injEq, Prod.mk.injEq,
      Option.map_eq_some_iff, Option.ite_none_right_eq_some] at hact
    all_goals first
      | exact .inl (hact.2 ▸ rfl)
      | exact .inl (hact.2.2 ▸ rfl)
      | exact .inr (hact.2 ▸ rfl)
      | skip
    all_goals obtain ⟨v, hv, hr, rfl⟩ := hact
    all_goals first
      | exact .inl rfl
      | exact .inl (opened_recorded hv)
      | exact .inl (replaced_recorded hv)
      | exact .inl (renamed_recorded hv)
      | exact .inl (removed_recorded hv)

/-- The operations of a call: an import deletes no record. -/
def Call.allows : Call → Op → Prop
  | .runImport _, o => o.deletes = false
  | .deleteModel _, _ | .openLibrary, _ => True

theorem call_only (k : Call) (mem : Unit) :
    ((calls sum short).call k mem).Only k.allows := by
  cases k with
  | runImport plan => exact only_bind runImport_spares fun _ => trivial
  | deleteModel id => exact only_of_forall (fun _ => trivial) _
  | openLibrary => exact only_of_forall (fun _ => trivial) _

/-- In every run in which no two calls work in one staging directory at once, a
recorded model is whole, and what an import does leaves it whole. -/
theorem recorded_whole {m : Scene Answer World Call (Except Err Unit) Unit Run}
    (h : Machine.ReachesUnder ((calls sum short).machine Fresh) (Crew.Guard (Alone short)) m) :
    (∀ r ∈ m.now.recorded, Whole sum m.now r) ∧
      ∀ p c plan left t, m.party p = .busy (.runImport plan) left →
        Crew.Guard (Alone short) m (.act p c : Deed Run Unit Call Choice) →
        ((calls sum short).machine Fresh).step m (.act p c) = some t →
        ∀ r ∈ m.now.recorded, Whole sum t.now r := by
  have hm := (calls_sound.reached h).1
  refine ⟨hm.whole, fun p c plan left t hp hg ht r hr => ?_⟩
  have ht' := (calls_sound.reached (Machine.ReachesUnder.step h hg ht)).1
  obtain ⟨k, o, f, a, s, hbusy, hsem, rfl⟩ := Crew.next_spec ht
  have honly : o.deletes = false := by
    have hk : k = .runImport plan := by
      rw [hp] at hbusy
      cases hbusy
      rfl
    subst hk
    exact (Crew.only_reached call_only h.reachable p _ _ hbusy).1
  obtain hrec | hfolders := act_recorded honly hsem
  · exact ht'.whole r (hrec ▸ hr)
  · have hlook : s.folders.look (.imported r.id) = m.now.folders.look (.imported r.id) := by
      rw [hfolders]
    exact (hm.whole r hr).congr hlook

/-! ### Two imports of one model -/

/-- The digest of the two bytes that are imported below. -/
def digest (bs : Bytes) : String :=
  if bs = [104, 105] then "8f434346648f6b96df89dda901c5176b10a6d83961dd3c1ac88b59b2dc327aa4" else ""

def anywhere (_ : String) : String := "c0ffee"

def weights : PlannedFile :=
  ⟨"hi.gguf", roleWeights, true, 2, digest [104, 105], "authoritative", "", "hi.gguf", ""⟩

def greeting : Plan where
  id := "hi"
  kind := "huggingface"
  display := "org/hi"
  task := "chat"
  files := [weights]
  choices := []
  maxUnknownBytes := 0
  distinct := List.nodup_singleton _

def greetingModel : Model :=
  ⟨"hi", "chat", [], "default",
    [⟨"hi.gguf", roleWeights, true, some 2, some (digest [104, 105]), "authoritative", ""⟩]⟩

abbrev Events : Type := List (Deed Run Unit Call Choice)

def nobody : Scene Answer World Call (Except Err Unit) Unit Run where
  now :=
    { folders := ⟨fun _ => none, ⟨fun _ => none, fun _ => [], 0, fun _ _ h => by cases h⟩, 0,
        (fun _ _ h => by cases h), (fun _ _ _ h => by cases h), (fun _ _ _ h => by cases h),
        fun _ _ _ h => by cases h⟩
      recorded := []
      lease := none
      under := [] }
  party := fun _ => .gone

theorem nobody_fresh : ((calls digest anywhere).machine Fresh).init nobody :=
  ⟨⟨rfl, rfl, rfl⟩, fun _ => rfl⟩

def oks (p : Run) (n : Nat) : Events := List.replicate n (.act p .ok)

/-- An import begins, and has its staging directory. -/
def enters (p : Run) : Events :=
  [.start p (), .call p (.runImport greeting)] ++ oks p 3 ++
    [.act p (.names []), .act p (.space 1000000000000)] ++ oks p 3

/-- The server sends all of the file. -/
def whole : Response := ⟨200, "", "v1", "", [[104], [105]], none⟩

/-- And what comes after the first byte. -/
def remainder : Response := ⟨206, "bytes 1-1/2", "v1", "", [[105]], none⟩

/-- A download of the whole file, to where its first byte is written. -/
def firstByte (p : Run) : Events :=
  enters p ++ oks p 2 ++ [.act p (.text ""), .act p (.serves whole)] ++ oks p 3

/-- One that is taken up after the first byte, to where the partial is open. -/
def takenUp (p : Run) : Events :=
  enters p ++ oks p 2 ++ [.act p (.text "v1"), .act p (.serves remainder)] ++ oks p 1

def plain : FileFacts := ⟨false, "", "", "gguf", "", 0, 0⟩

/-- What was downloaded is checked, published and recorded. -/
def publishes (p : Run) : Events :=
  oks p 4 ++ [.act p (.reads [2])] ++ oks p 2 ++ [.act p (.facts plain)] ++ oks p 1 ++
    [.act p (.facts plain)] ++ oks p 9

def importedAlone : Events :=
  firstByte ⟨1, 0⟩ ++ [.act ⟨1, 0⟩ (.space 1000000000000)] ++ oks ⟨1, 0⟩ 1 ++ publishes ⟨1, 0⟩

/-- A process is killed after the first byte. Two others take the download up,
and have the partial open; the second writes the last byte and publishes, and
then the first writes it too. -/
def importedTwice : Events :=
  firstByte ⟨0, 0⟩ ++ [.die ⟨0, 0⟩] ++ takenUp ⟨1, 0⟩ ++ takenUp ⟨2, 0⟩ ++ oks ⟨2, 0⟩ 1 ++
    [.act ⟨2, 0⟩ (.space 1000000000000)] ++ publishes ⟨2, 0⟩ ++ oks ⟨1, 0⟩ 1

theorem shared_staging_not_whole :
    ∃ m, Machine.ReachesUnder ((calls digest anywhere).machine Fresh) (Crew.Guard OneEach) m ∧
      greetingModel ∈ m.now.recorded ∧
      m.now.file (.imported "hi") "hi.gguf" = some [104, 105, 105] ∧
      ¬Whole digest m.now greetingModel := by
  refine ⟨((calls digest anywhere).machine Fresh).after nobody importedTwice,
    Machine.reaches_under_after nobody_fresh (by decide +kernel) (by decide),
    by decide, by decide, fun h => ?_⟩
  obtain ⟨bs, hbs, hmatches⟩ := h.file List.mem_cons_self
  have hfile : (((calls digest anywhere).machine Fresh).after nobody importedTwice).now.file
      (.imported "hi") "hi.gguf" = some [104, 105, 105] := by decide
  obtain rfl := Option.some.inj (hbs.symm.trans hfile)
  exact absurd (hmatches.1 2 rfl) (by decide)

theorem imported_alone_whole :
    greetingModel ∈
        (((calls digest anywhere).machine Fresh).after nobody importedAlone).now.recorded ∧
      Whole digest (((calls digest anywhere).machine Fresh).after nobody importedAlone).now
        greetingModel := by
  have hreaches : Machine.ReachesUnder ((calls digest anywhere).machine Fresh)
      (Crew.Guard (Alone anywhere))
      (((calls digest anywhere).machine Fresh).after nobody importedAlone) :=
    Machine.reaches_under_after nobody_fresh (by decide +kernel) (by decide)
  have hrecorded : greetingModel ∈
      (((calls digest anywhere).machine Fresh).after nobody importedAlone).now.recorded := by
    decide
  exact ⟨hrecorded, (recorded_whole hreaches).1 _ hrecorded⟩

end LocalBase.Imports
