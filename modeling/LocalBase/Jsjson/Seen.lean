import LocalBase.Jsjson.Value

/-!
# What is seen of a value

An object is seen through `Keys` and `Get`, and two values may be the same to every
caller though their properties were set in another order. What `Keys` lists is the
order in which an object is written, and so the order in which it is read back.
-/

namespace LocalBase.Jsjson

open JsonText
open ModelCatalog (arrayIndex maxParseDepth)
open StructuredOutput (unquote)

variable {β γ F : Type} {k : String} {o : List (String × β)} {e : String × β}

/-- Two values are alike where `Keys` and `Get` answer the same of their objects. -/
inductive Same : Value F → Value F → Prop
  | null : Same .null .null
  | bool {x : Bool} : Same (.bool x) (.bool x)
  | num {f : F} : Same (.num f) (.num f)
  | str {s : String} : Same (.str s) (.str s)
  | arr {xs ys : List (Value F)} : List.Forall₂ Same xs ys → Same (.arr xs) (.arr ys)
  | obj {o o' : List (String × Value F)} : keys (o.map (·.1)) = keys (o'.map (·.1)) →
      (∀ k v v', o.lookup k = some v → o'.lookup k = some v' → Same v v') →
      Same (.obj o) (.obj o')

/-! ## Setting -/

theorem set_fresh (h : k ∉ o.map (·.1)) (v : β) :
    set k v o = o ++ [(k, v)] := by
  induction o with
  | nil => rfl
  | cons e o ih =>
    rw [List.map_cons, List.mem_cons, not_or] at h
    rw [set, if_neg (Ne.symm h.1), ih h.2, List.cons_append]

theorem names_set (k : String) (v : β) (o : List (String × β)) : (set k v o).map (·.1) =
    if k ∈ o.map (·.1) then o.map (·.1) else o.map (·.1) ++ [k] := by
  by_cases h : k ∈ o.map (·.1)
  · rw [if_pos h]
    induction o with
    | nil => cases h
    | cons e o ih =>
      rw [set]
      split
      · next he => rw [List.map_cons, List.map_cons, he]
      · next hne =>
        rw [List.map_cons, List.mem_cons] at h
        rw [List.map_cons, List.map_cons, ih (h.resolve_left (Ne.symm hne))]
  · rw [if_neg h, set_fresh h, List.map_append, List.map_singleton]

theorem nodup_set {v : β} (h : (o.map (·.1)).Nodup) :
    ((set k v o).map (·.1)).Nodup := by
  rw [names_set]
  split
  · exact h
  · next hk =>
    refine List.nodup_append.2 ⟨h, List.nodup_singleton k, fun a ha b hb he => hk ?_⟩
    rw [← List.mem_singleton.1 hb, ← he]
    exact ha

theorem foldl_set_append {es : List (String × β)} (h : ((o ++ es).map (·.1)).Nodup) :
    es.foldl (fun o e => set e.1 e.2 o) o = o ++ es := by
  induction es generalizing o with
  | nil => rw [List.foldl_nil, List.append_nil]
  | cons e es ih =>
    have hfresh : e.1 ∉ o.map (·.1) := by
      intro hmem
      rw [List.map_append, List.map_cons] at h
      exact (List.nodup_append.1 h).2.2 _ hmem _ List.mem_cons_self rfl
    rw [List.foldl_cons, set_fresh hfresh, ih (by rwa [List.append_assoc]), List.append_assoc]
    rfl

theorem nodup_foldl_set {es : List (String × β)} (h : (o.map (·.1)).Nodup) :
    ((es.foldl (fun o e => set e.1 e.2 o) o).map (·.1)).Nodup := by
  induction es generalizing o with
  | nil => exact h
  | cons e es ih => exact ih (nodup_set h)

theorem mem_foldl_set {es : List (String × β)}
    (h : e ∈ es.foldl (fun o e => set e.1 e.2 o) o) : e ∈ o ∨ e ∈ es := by
  have hset : ∀ {k v} {o : List (String × β)}, e ∈ set k v o → e ∈ o ∨ e = (k, v) := by
    intro k v o h
    induction o with
    | nil => exact .inr (List.mem_singleton.1 h)
    | cons e' o ih =>
      rw [set] at h
      split at h
      · rcases List.mem_cons.1 h with rfl | h
        · exact .inr rfl
        · exact .inl (List.mem_cons_of_mem _ h)
      · rcases List.mem_cons.1 h with rfl | h
        · exact .inl List.mem_cons_self
        · exact (ih h).imp (List.mem_cons_of_mem _) id
  induction es generalizing o with
  | nil => exact .inl h
  | cons e' es ih =>
    rcases ih h with h | h
    · rcases hset h with h | rfl
      · exact .inl h
      · exact .inr List.mem_cons_self
    · exact .inr (List.mem_cons_of_mem _ h)

/-! ## Listing -/

instance : Std.Total indexLE := ⟨fun _ _ => Nat.le_total _ _⟩

instance : IsTrans String indexLE := ⟨fun _ _ _ => Nat.le_trans⟩

theorem keys_perm (order : List String) : (keys order).Perm order := by
  have hnone : (order.filter fun k => (arrayIndex k).isNone) =
      order.filter fun k => !(arrayIndex k).isSome := by
    simp only [Option.not_isSome]
  refine ((List.perm_insertionSort _ _).append_right _).trans ?_
  rw [hnone]
  exact List.filter_append_perm _ _

@[simp] theorem keys_keys (order : List String) : keys (keys order) = keys order := by
  have hindex : ∀ k ∈ (order.filter fun k => (arrayIndex k).isSome).insertionSort indexLE,
      (arrayIndex k).isSome = true := fun k hk =>
    (List.mem_filter.1 ((List.mem_insertionSort _).1 hk)).2
  have hrest : ∀ k ∈ order.filter fun k => (arrayIndex k).isNone,
      (arrayIndex k).isNone = true := fun k hk => (List.mem_filter.1 hk).2
  have hsome : ((keys order).filter fun k => (arrayIndex k).isSome) =
      (order.filter fun k => (arrayIndex k).isSome).insertionSort indexLE := by
    have hnil : ((order.filter fun k => (arrayIndex k).isNone).filter
        fun k => (arrayIndex k).isSome) = [] :=
      List.filter_eq_nil_iff.2 fun k hk => by simpa using hrest k hk
    rw [keys, List.filter_append, List.filter_eq_self.2 hindex, hnil, List.append_nil]
  have hnone : ((keys order).filter fun k => (arrayIndex k).isNone) =
      order.filter fun k => (arrayIndex k).isNone := by
    have hnil : (((order.filter fun k => (arrayIndex k).isSome).insertionSort indexLE).filter
        fun k => (arrayIndex k).isNone) = [] :=
      List.filter_eq_nil_iff.2 fun k hk => by
        rw [Option.isNone_eq_false_iff.2 (hindex k hk)]
        exact Bool.false_ne_true
    rw [keys, List.filter_append, List.filter_eq_self.2 hrest, hnil, List.nil_append]
  rw [keys, hsome, hnone, (List.pairwise_insertionSort indexLE _).insertionSort_eq]
  rfl

theorem lookup_of_name (h : k ∈ o.map (·.1)) :
    ∃ v, o.lookup k = some v := by
  refine Option.isSome_iff_exists.1 (List.lookup_isSome_iff.2 ?_)
  obtain ⟨e, he, rfl⟩ := List.mem_map.1 h
  exact ⟨e, he, beq_self_eq_true _⟩

theorem lookup_eq_some (h : (o.map (·.1)).Nodup) {v : β} :
    o.lookup k = some v ↔ (k, v) ∈ o := by
  induction o with
  | nil => simp
  | cons e o ih =>
    obtain ⟨k', v'⟩ := e
    rw [List.map_cons, List.nodup_cons] at h
    rw [List.lookup_cons, List.mem_cons]
    by_cases hk : k = k'
    · subst hk
      have hnot : (k, v) ∉ o := fun hmem => h.1 (List.mem_map.2 ⟨_, hmem, rfl⟩)
      simp [hnot, eq_comm]
    · rw [beq_false_of_ne hk]
      simp [hk, ih h.2]

theorem names_listed (o : List (String × β)) : (listed o).map (·.1) = keys (o.map (·.1)) := by
  have hall : ∀ k ∈ keys (o.map (·.1)), k ∈ o.map (·.1) := fun k hk => (keys_perm _).mem_iff.1 hk
  unfold listed
  generalize keys (o.map (·.1)) = ks at hall
  induction ks with
  | nil => rfl
  | cons k ks ih =>
    obtain ⟨v, hv⟩ := lookup_of_name (hall k List.mem_cons_self)
    rw [List.filterMap_cons, hv, Option.map_some, List.map_cons,
      ih fun k hk => hall k (List.mem_cons_of_mem _ hk)]

theorem nodup_listed (h : (o.map (·.1)).Nodup) :
    ((listed o).map (·.1)).Nodup := by
  rw [names_listed]
  exact (keys_perm _).nodup_iff.2 h

theorem mem_of_listed (h : e ∈ listed o) : e ∈ o := by
  obtain ⟨k, _, hk⟩ := List.mem_filterMap.1 h
  obtain ⟨v, hv, rfl⟩ := Option.map_eq_some_iff.1 hk
  obtain ⟨l₁, l₂, rfl, _⟩ := List.lookup_eq_some_iff.1 hv
  exact List.mem_append_right _ List.mem_cons_self

theorem mem_listed (h : (o.map (·.1)).Nodup) (he : e ∈ o) : e ∈ listed o := by
  refine List.mem_filterMap.2 ⟨e.1, (keys_perm _).mem_iff.2 (List.mem_map_of_mem he), ?_⟩
  rw [(lookup_eq_some h).2 he]
  rfl

theorem lookup_map (f : β → γ) (o : List (String × β)) (k : String) :
    (o.map fun e => (e.1, f e.2)).lookup k = (o.lookup k).map f := by
  induction o with
  | nil => rfl
  | cons e o ih =>
    rw [List.map_cons, List.lookup_cons, List.lookup_cons, ih]
    cases k == e.1 <;> rfl

theorem listed_map (f : β → γ) (o : List (String × β)) :
    listed (o.map fun e => (e.1, f e.2)) = (listed o).map fun e => (e.1, f e.2) := by
  unfold listed
  rw [List.map_map, List.map_filterMap]
  refine List.filterMap_congr fun k _ => ?_
  rw [lookup_map, Option.map_map, Option.map_map]
  rfl

theorem lookup_listed (h : (o.map (·.1)).Nodup) (k : String) :
    (listed o).lookup k = o.lookup k := by
  refine Option.ext fun v => ?_
  rw [lookup_eq_some (nodup_listed h), lookup_eq_some h]
  exact ⟨mem_of_listed, mem_listed h⟩

theorem listed_listed (h : (o.map (·.1)).Nodup) :
    listed (listed o) = listed o := by
  rw [listed, names_listed, keys_keys]
  exact List.filterMap_congr fun k _ => by rw [lookup_listed h]

end LocalBase.Jsjson
