import LocalBase.Otlp.Wire
import LocalBase.Lib.Checked

/-!
# The wire, written and read back

Each write puts one field at the end, or nothing where its value is zero or empty. The reader
takes one field off the front, so that what was written is read back in order.
-/

namespace LocalBase.Otlp

open Crash (Ends ends_ok ends_error ends_ite)

theorem refused_ends {α : Type} {P : α → Prop} {message : String} :
    Ends .crash (.error (.error message) : Result α) P := ends_error Failure.noConfusion

/-! ## Any bytes -/

section
variable {b : Bytes} {lo hi : Int} {n : Nat}

theorem slice_ends (hlo : 0 ≤ lo) (hle : lo ≤ hi) (hhi : hi ≤ b.length) :
    Ends .crash (slice b lo hi) fun r => (r.length : Int) = hi - lo := by
  have hin : slice b lo hi = .ok ((b.drop lo.toNat).take (hi - lo).toNat) :=
    if_pos ⟨hlo, hle, hhi⟩
  have hlen := length_slice hin
  rw [hin]
  exact ends_ok hlen

theorem uintOf_ends (h : n ≤ b.length) : Ends .crash (uintOf n b) fun _ => True :=
  (slice_ends (by omega) (by omega) (by omega)).bind fun _ _ => ends_ok trivial

theorem toInt_eq {l : UInt64} (h : l.toNat < 2 ^ 63) : toInt l = l.toNat := if_pos h

theorem valueOf_ends (hb : b.length < 2 ^ 63) (f : Field) :
    Ends .crash (valueOf b f) fun _ => True := by
  have hle := Varint.uvarint_le b
  refine ends_ite (fun _ => ?_) fun _ => ends_ite (fun _ => ?_) fun _ => ends_ite (fun _ => ?_)
    fun _ => ends_ite (fun _ => ?_) fun _ => refused_ends
  · refine ends_ite (fun _ => refused_ends) fun hn => ?_
    exact (slice_ends (by omega) hle (le_refl _)).bind fun _ _ => ends_ok trivial
  · refine ends_ite (fun _ => refused_ends) fun hlong => ?_
    refine (uintOf_ends (by omega)).bind fun _ _ => ?_
    exact (slice_ends (by omega) (by omega) (le_refl _)).bind fun _ _ => ends_ok trivial
  · refine ends_ite (fun _ => refused_ends) fun hlong => ?_
    refine (uintOf_ends (by omega)).bind fun _ _ => ?_
    exact (slice_ends (by omega) (by omega) (le_refl _)).bind fun _ _ => ends_ok trivial
  · refine ends_ite (fun _ => refused_ends) fun hn => ?_
    rw [not_or] at hn
    have hlen : ((Varint.uvarint b).1.toNat : Int) ≤ b.length - (Varint.uvarint b).2 := by
      omega
    rw [toInt_eq (by omega)]
    refine (slice_ends (by omega) (by omega) (by omega)).bind fun _ _ => ?_
    exact (slice_ends (by omega) (by omega) (by omega)).bind fun _ _ => ends_ok trivial

theorem fieldAt_ends (hb : b.length < 2 ^ 63) : Ends .crash (fieldAt b) fun _ => True := by
  have hle := Varint.uvarint_le b
  refine ends_ite (fun _ => refused_ends) fun hn => ?_
  exact (slice_ends (by omega) hle (le_refl _)).bind fun r hr => valueOf_ends (by omega) _

theorem fieldsFrom_ends (hb : b.length < 2 ^ 63) (out : List Field) :
    Ends .crash (fieldsFrom b out) fun _ => True := by
  induction hk : b.length using Nat.strongRecOn generalizing b out with
  | ind k ih =>
    rw [fieldsFrom]
    refine ends_ite (fun _ => ends_ok trivial) fun _ => ?_
    have hfield := fieldAt_ends hb
    split
    · next e he =>
      rw [he] at hfield
      exact hfield
    · next f rest hok =>
      have hlt := fieldAt_lt hok
      exact ih _ (by omega) (by omega) _ rfl

end

/-! ## One write -/

/-- The number of the field that is written. -/
def Write.num : Write → Nat
  | .uint field _ => field
  | .uintAlways field _ => field
  | .fixed64 field _ => field
  | .fixed32 field _ => field
  | .double field _ => field
  | .bytes field _ => field
  | .str field _ => field
  | .message field _ => field

/-- The field that a write stands for, unless it is omitted. -/
def Write.field : Write → Option Field
  | .uint field v => if v ≠ 0 then some { num := field, wire := 0, value := v } else none
  | .uintAlways field v => some { num := field, wire := 0, value := v }
  | .fixed64 field v => if v ≠ 0 then some { num := field, wire := 1, value := v } else none
  | .fixed32 field v =>
    if v ≠ 0 then some { num := field, wire := 5, value := v.toUInt64 } else none
  | .double field v => some { num := field, wire := 1, value := v }
  | .bytes field v => if v ≠ [] then some { num := field, wire := 2, bytes := v } else none
  | .str field v => if v ≠ [] then some { num := field, wire := 2, bytes := v } else none
  | .message field writes => some { num := field, wire := 2, bytes := written [] writes }

section
variable {b rest : Bytes} {n field wire : Nat} {v : UInt64}

theorem or_high (n : Nat) : UInt8.ofNat n ||| 128 = UInt8.ofNat (n % 128 + 128) := by
  have hhigh : (128 : UInt8).toNat = 2 ^ 7 * 1 := rfl
  have hor : n % 256 ||| 2 ^ 7 * 1 = n % 128 + 128 := by
    by_cases hsmall : n % 256 < 128
    · rw [Nat.or_comm, ← Nat.two_pow_add_eq_or_of_lt hsmall]
      omega
    · obtain ⟨r, hr⟩ := Nat.exists_eq_add_of_le (Nat.le_of_not_lt hsmall)
      have hlow : r < 2 ^ 7 := by omega
      have hbits : 128 + r = 2 ^ 7 * 1 ||| r := Nat.two_pow_add_eq_or_of_lt hlow 1
      rw [hr, hbits, Nat.or_comm, ← Nat.or_assoc, Nat.or_self, ← hbits]
      omega
  rw [← UInt8.toNat_inj, UInt8.toNat_or, hhigh, UInt8.toNat_ofNat', UInt8.toNat_ofNat', hor]
  omega

theorem varint_eq (b : Buf) (v : UInt64) : b.varint v = b ++ Varint.put v := by
  induction hn : v.toNat using Nat.strongRecOn generalizing b v with
  | ind n ih =>
    subst hn
    rw [Buf.varint, Varint.put]
    by_cases hlast : v.toNat < 128
    · rw [if_neg (by omega), if_pos hlast]
    · rw [if_pos (by omega), if_neg hlast, ih _ (by rw [Varint.toNat_shift]; omega) _ _ rfl,
        or_high, List.append_assoc, List.singleton_append]

theorem tag_eq (b : Buf) (field wire : Nat) : b.tag field wire = b ++ Buf.tag [] field wire := by
  rw [Buf.tag, Buf.tag, varint_eq, varint_eq [], List.nil_append]

theorem varint_tag (b : Buf) (field wire : Nat) (v : UInt64) :
    (b.tag field wire).varint v = b ++ (Buf.tag [] field wire ++ Varint.put v) := by
  rw [varint_eq, tag_eq, List.append_assoc]

theorem onto_eq (b : Buf) (w : Write) : w.onto b = b ++ w.onto [] := by
  cases w with
  | uint field v =>
    simp only [Write.onto, Buf.uint, varint_tag, List.nil_append]
    split
    · rfl
    · exact (List.append_nil b).symm
  | uintAlways field v =>
    simp only [Write.onto, Buf.uintAlways, varint_tag, List.nil_append]
  | fixed64 field v =>
    simp only [Write.onto, Buf.fixed64, tag_eq b, List.append_assoc]
    split
    · rfl
    · exact (List.append_nil b).symm
  | fixed32 field v =>
    simp only [Write.onto, Buf.fixed32, tag_eq b, List.append_assoc]
    split
    · rfl
    · exact (List.append_nil b).symm
  | double field v => simp only [Write.onto, Buf.double, tag_eq b, List.append_assoc]
  | bytes field v =>
    simp only [Write.onto, Buf.bytes, varint_tag, List.append_assoc, List.nil_append]
    split
    · rfl
    · exact (List.append_nil b).symm
  | str field v =>
    simp only [Write.onto, Buf.str, varint_tag, List.append_assoc, List.nil_append]
    split
    · rfl
    · exact (List.append_nil b).symm
  | message field writes =>
    simp only [Write.onto, Buf.message, varint_tag, List.append_assoc, List.nil_append]

theorem written_eq (b : Buf) (writes : List Write) :
    written b writes = b ++ written [] writes := by
  induction writes generalizing b with
  | nil => exact (List.append_nil b).symm
  | cons w writes ih =>
    rw [written, written, ih, ih (w.onto []), onto_eq, List.append_assoc]

theorem slice_append (a : Bytes) (rest : Bytes) :
    slice (a ++ rest) a.length (a ++ rest).length = .ok rest := by
  have hin : (a.length : Int) ≤ ((a ++ rest).length : Nat) := by
    rw [List.length_append]
    omega
  rw [slice, if_pos ⟨by omega, hin, le_refl _⟩, Int.toNat_natCast, List.drop_left]
  rw [List.length_append, List.take_of_length_le (by omega)]

theorem slice_between (a m : Bytes) (rest : Bytes) :
    slice (a ++ (m ++ rest)) a.length (a.length + m.length) = .ok m := by
  have hin : (a.length + m.length : Int) ≤ ((a ++ (m ++ rest)).length : Nat) := by
    rw [List.length_append, List.length_append]
    omega
  have hlen : ((a.length : Int) + m.length - a.length).toNat = m.length := by omega
  rw [slice, if_pos ⟨by omega, by omega, hin⟩, Int.toNat_natCast, List.drop_left, hlen,
    List.take_left]

/-! ## One field read -/

theorem length_put_pos (v : UInt64) : ¬((Varint.put v).length : Int) ≤ 0 := by
  have := List.length_pos_iff.2 (Varint.put_ne_nil v)
  omega

theorem fieldAt_tag (hfield : field ≤ 2 ^ 28) (hwire : wire < 8) (rest : Bytes) :
    fieldAt (Buf.tag [] field wire ++ rest) = valueOf rest { num := field, wire := wire } := by
  generalize hk : UInt64.ofNat (field <<< 3 ||| wire) = key
  have hkey : key.toNat = 8 * field + wire := by
    have hor : field <<< 3 ||| wire = 8 * field + wire := by
      rw [Nat.shiftLeft_eq, Nat.mul_comm, ← Nat.two_pow_add_eq_or_of_lt (i := 3) hwire]
    rw [← hk, hor, UInt64.toNat_ofNat', Nat.mod_eq_of_lt (by omega)]
  have hnum : (key >>> 3).toNat = field := by
    rw [UInt64.toNat_shiftRight, Nat.shiftRight_eq_div_pow, hkey]
    have : (3 : UInt64).toNat % 64 = 3 := rfl
    rw [this]
    omega
  have hw : (key &&& 7).toNat = wire := by
    have hmask : (7 : UInt64).toNat = 2 ^ 3 - 1 := rfl
    rw [UInt64.toNat_and, hmask, Nat.and_two_pow_sub_one_eq_mod, hkey]
    omega
  rw [Buf.tag, varint_eq, List.nil_append, hk, fieldAt, Varint.uvarint_put]
  dsimp only
  rw [if_neg (length_put_pos key), slice_append, hnum, hw]
  rfl

theorem valueOf_varint (v : UInt64) (rest : Bytes) :
    valueOf (Varint.put v ++ rest) { num := field, wire := 0 } =
      .ok ({ num := field, wire := 0, value := v }, rest) := by
  rw [valueOf, if_pos rfl, Varint.uvarint_put]
  dsimp only
  rw [if_neg (length_put_pos v), slice_append]
  rfl

theorem uintOf_put {n v : Nat} (hv : v < 256 ^ n) (rest : Bytes) :
    uintOf n (LittleEndian.put n v ++ rest) = .ok (.ofNat v) := by
  have hslice := slice_between [] (LittleEndian.put n v) rest
  rw [LittleEndian.length_put, List.nil_append, List.length_nil, Int.natCast_zero,
    Int.zero_add] at hslice
  rw [uintOf, hslice]
  exact congrArg (fun k => Except.ok (UInt64.ofNat k)) (LittleEndian.number_put hv)

theorem rest_put (n v : Nat) (rest : Bytes) :
    slice (LittleEndian.put n v ++ rest) n (LittleEndian.put n v ++ rest).length = .ok rest := by
  have h := slice_append (LittleEndian.put n v) rest
  rwa [LittleEndian.length_put] at h

theorem valueOf_fixed64 (v : UInt64) (rest : Bytes) :
    valueOf (LittleEndian.put 8 v.toNat ++ rest) { num := field, wire := 1 } =
      .ok ({ num := field, wire := 1, value := v }, rest) := by
  have hlong : ¬(LittleEndian.put 8 v.toNat ++ rest).length < 8 := by
    rw [List.length_append, LittleEndian.length_put]
    omega
  have hrest := rest_put 8 v.toNat rest
  rw [valueOf, if_neg (by decide : ¬1 = 0), if_pos rfl, if_neg hlong, uintOf_put v.toNat_lt,
    UInt64.ofNat_toNat]
  exact Fuel.bind_eq_ok.2 ⟨_, rfl, Fuel.bind_eq_ok.2 ⟨rest, hrest, rfl⟩⟩

theorem valueOf_fixed32 (v : UInt32) (rest : Bytes) :
    valueOf (LittleEndian.put 4 v.toNat ++ rest) { num := field, wire := 5 } =
      .ok ({ num := field, wire := 5, value := v.toUInt64 }, rest) := by
  have hlong : ¬(LittleEndian.put 4 v.toNat ++ rest).length < 4 := by
    rw [List.length_append, LittleEndian.length_put]
    omega
  have hrest := rest_put 4 v.toNat rest
  have hvalue : UInt64.ofNat v.toNat = v.toUInt64 := by
    rw [← UInt64.toNat_inj, UInt32.toNat_toUInt64, UInt64.toNat_ofNat', Nat.mod_eq_of_lt]
    exact v.toNat_lt.trans (by norm_num)
  rw [valueOf, if_neg (by decide : ¬5 = 0), if_neg (by decide : ¬5 = 1), if_pos rfl, if_neg hlong,
    uintOf_put v.toNat_lt, hvalue]
  exact Fuel.bind_eq_ok.2 ⟨_, rfl, Fuel.bind_eq_ok.2 ⟨rest, hrest, rfl⟩⟩

theorem valueOf_bytes {m rest : Bytes} (hlen : (m ++ rest).length < 2 ^ 63) :
    valueOf (Varint.put (.ofNat m.length) ++ (m ++ rest)) { num := field, wire := 2 } =
      .ok ({ num := field, wire := 2, bytes := m }, rest) := by
  rw [List.length_append] at hlen
  generalize hl : UInt64.ofNat m.length = l
  have hlength : l.toNat = m.length := by
    rw [← hl, UInt64.toNat_ofNat', Nat.mod_eq_of_lt (by omega)]
  have hfits : ¬(((Varint.put l).length : Int) ≤ 0 ∨
      (((Varint.put l ++ (m ++ rest)).length : Int) - (Varint.put l).length) % 2 ^ 64 <
        (l.toNat : Int)) := by
    have := length_put_pos l
    rw [List.length_append, List.length_append, hlength]
    omega
  have hbytes := slice_between (Varint.put l) m rest
  have hrest := slice_append (Varint.put l ++ m) rest
  rw [List.append_assoc, @List.length_append _ (Varint.put l) m, Int.natCast_add]
    at hrest
  rw [valueOf, if_neg (by decide : ¬2 = 0), if_neg (by decide : ¬2 = 1),
    if_neg (by decide : ¬2 = 5), if_pos rfl, Varint.uvarint_put]
  dsimp only
  rw [if_neg hfits, toInt_eq (by omega), hlength]
  exact Fuel.bind_eq_ok.2 ⟨_, hbytes, Fuel.bind_eq_ok.2 ⟨_, hrest, rfl⟩⟩

/-! ## One write read -/

theorem fieldAt_written {body : Bytes} {f : Field} (hfield : field ≤ 2 ^ 28) (hwire : wire < 8)
    (h : valueOf (body ++ rest) { num := field, wire := wire } = .ok (f, rest)) :
    fieldAt (Buf.tag [] field wire ++ body ++ rest) = .ok (f, rest) := by
  rw [List.append_assoc, fieldAt_tag hfield hwire, h]

theorem fieldAt_varint (hfield : field ≤ 2 ^ 28) (v : UInt64) (rest : Bytes) :
    fieldAt ((Buf.tag [] field 0).varint v ++ rest) =
      .ok ({ num := field, wire := 0, value := v }, rest) := by
  rw [varint_eq]
  exact fieldAt_written hfield (by decide) (valueOf_varint v rest)

theorem fieldAt_bytes {m : Bytes} (hfield : field ≤ 2 ^ 28)
    (hlen : ((Buf.tag [] field 2).varint (.ofNat m.length) ++ m ++ rest).length < 2 ^ 63) :
    fieldAt ((Buf.tag [] field 2).varint (.ofNat m.length) ++ m ++ rest) =
      .ok ({ num := field, wire := 2, bytes := m }, rest) := by
  rw [varint_eq, List.append_assoc (Buf.tag [] field 2)] at *
  refine fieldAt_written hfield (by decide) ?_
  rw [List.append_assoc]
  refine valueOf_bytes ?_
  rw [List.append_assoc, List.append_assoc, List.length_append, List.length_append] at hlen
  omega

theorem onto_omitted {w : Write} (h : w.field = none) : w.onto [] = [] := by
  cases w with
  | uint field v =>
    rw [Write.field] at h
    split at h
    · cases h
    · next hv => exact if_neg hv
  | fixed64 field v =>
    rw [Write.field] at h
    split at h
    · cases h
    · next hv => exact if_neg hv
  | fixed32 field v =>
    rw [Write.field] at h
    split at h
    · cases h
    · next hv => exact if_neg hv
  | bytes field v =>
    rw [Write.field] at h
    split at h
    · cases h
    · next hv => exact if_neg (by rw [List.length_pos_iff]; exact hv)
  | str field v =>
    rw [Write.field] at h
    split at h
    · cases h
    · next hv => exact if_neg hv
  | uintAlways field v => cases h
  | double field v => cases h
  | message field writes => cases h

theorem fieldAt_onto {w : Write} {f : Field} (h : w.field = some f) (hnum : w.num ≤ 2 ^ 28)
    (hlen : (w.onto [] ++ rest).length < 2 ^ 63) : fieldAt (w.onto [] ++ rest) = .ok (f, rest) := by
  cases w with
  | uint field v =>
    rw [Write.field] at h
    split at h
    · next hv =>
      cases h
      rw [Write.onto, Buf.uint, if_pos hv]
      exact fieldAt_varint hnum v rest
    · cases h
  | uintAlways field v =>
    cases h
    exact fieldAt_varint hnum v rest
  | fixed64 field v =>
    rw [Write.field] at h
    split at h
    · next hv =>
      cases h
      rw [Write.onto, Buf.fixed64, if_pos hv]
      exact fieldAt_written hnum (by decide) (valueOf_fixed64 v rest)
    · cases h
  | fixed32 field v =>
    rw [Write.field] at h
    split at h
    · next hv =>
      cases h
      rw [Write.onto, Buf.fixed32, if_pos hv]
      exact fieldAt_written hnum (by decide) (valueOf_fixed32 v rest)
    · cases h
  | double field v =>
    cases h
    exact fieldAt_written hnum (by decide) (valueOf_fixed64 v rest)
  | bytes field v =>
    rw [Write.field] at h
    split at h
    · next hv =>
      cases h
      rw [Write.onto, Buf.bytes, if_pos (List.length_pos_iff.2 hv)] at *
      exact fieldAt_bytes hnum hlen
    · cases h
  | str field v =>
    rw [Write.field] at h
    split at h
    · next hv =>
      cases h
      rw [Write.onto, Buf.str, if_pos hv] at *
      exact fieldAt_bytes hnum hlen
    · cases h
  | message field writes =>
    cases h
    exact fieldAt_bytes hnum hlen

/-! ## A message read -/

theorem fieldsFrom_written {writes : List Write} (out : List Field)
    (hnum : ∀ w ∈ writes, w.num ≤ 2 ^ 28) (hlen : (written [] writes).length < 2 ^ 63) :
    fieldsFrom (written [] writes) out = .ok (out ++ writes.filterMap Write.field) := by
  induction writes generalizing out with
  | nil =>
    rw [written, fieldsFrom, if_pos rfl, List.filterMap_nil, List.append_nil]
  | cons w writes ih =>
    have hsplit : written [] (w :: writes) = w.onto [] ++ written [] writes := by
      rw [written, written_eq]
    have hrest : (written [] writes).length < 2 ^ 63 := by
      rw [hsplit, List.length_append] at hlen
      omega
    have ih := fun out => ih out (fun w' hw' => hnum w' (List.mem_cons_of_mem _ hw')) hrest
    rw [hsplit] at hlen ⊢
    cases hf : w.field with
    | none =>
      rw [onto_omitted hf, List.nil_append, ih, List.filterMap_cons_none hf]
    | some f =>
      have hread := fieldAt_onto hf (hnum w (List.mem_cons_self ..)) hlen
      have hnil : w.onto [] ++ written [] writes ≠ [] := by
        intro hempty
        rw [hempty] at hread
        exact Nat.not_lt_zero _ (fieldAt_lt hread)
      rw [fieldsFrom, if_neg hnil]
      split
      · next e he => cases hread.symm.trans he
      · next f' rest' hok =>
        cases hread.symm.trans hok
        rw [ih, List.filterMap_cons_some hf, List.append_assoc, List.singleton_append]

end

/-! ## Every level -/

/-- The writes of a message that is nested in others, to any depth. -/
inductive Level : List Write → List Write → Prop
  | top {writes : List Write} : Level writes writes
  | nested {writes inner level : List Write} {field : Nat} (hmem : .message field inner ∈ writes)
      (h : Level inner level) : Level writes level

theorem length_nested {writes inner : List Write} {field : Nat}
    (h : .message field inner ∈ writes) :
    (written [] inner).length ≤ (written [] writes).length := by
  induction writes with
  | nil => cases h
  | cons w writes ih =>
    rw [written, written_eq (w.onto []), List.length_append]
    rcases List.mem_cons.1 h with rfl | hmem
    · rw [Write.onto, Buf.message, List.length_append]
      omega
    · have := ih hmem
      omega

theorem Level.length_le {writes level : List Write} (h : Level writes level) :
    (written [] level).length ≤ (written [] writes).length := by
  induction h with
  | top => exact le_refl _
  | nested hmem _ ih => exact ih.trans (length_nested hmem)

/-- The reader undoes the writer at every level of nesting, and no bytes make it read outside
them. A slice is shorter than `2^63` bytes. -/
theorem fields_safe :
    (∀ writes, (written [] writes).length < 2 ^ 63 →
      (∀ level, Level writes level → ∀ w ∈ level, 1 ≤ w.num ∧ w.num ≤ 2 ^ 28) →
      ∀ level, Level writes level →
        fields (written [] level) = .ok (level.filterMap Write.field)) ∧
      ∀ b : Bytes, b.length < 2 ^ 63 → fields b ≠ .error .crash := by
  refine ⟨fun writes hlen hnum level hlevel => ?_, fun b hb => (fieldsFrom_ends hb []).no_crash⟩
  have hshort := hlevel.length_le.trans_lt hlen
  exact fieldsFrom_written [] (fun w hw => (hnum level hlevel w hw).2) hshort

/-- A message in a message, and a number that is left out. -/
theorem fields_safe_nested :
    fields (written [] [.uint 1 0, .message 2 [.double 3 7]]) =
        .ok [{ num := 2, wire := 2, bytes := written [] [.double 3 7] }] ∧
      fields (written [] [.double 3 7]) = .ok [{ num := 3, wire := 1, value := 7 }] ∧
      fields [0x0a, 0xff] ≠ .error .crash := by
  have hshort : (written [] [.uint 1 0, .message 2 [.double 3 7]]).length < 2 ^ 63 := by
    simp [written, Write.onto, Buf.uint, Buf.message, Buf.double, Buf.tag, varint_eq, Varint.put,
      LittleEndian.put]
  have hnum : ∀ level, Level [.uint 1 0, .message 2 [.double 3 7]] level →
      ∀ w ∈ level, 1 ≤ w.num ∧ w.num ≤ 2 ^ 28 := by
    intro level hlevel
    cases hlevel with
    | top =>
      intro w hw
      obtain rfl | rfl : w = .uint 1 0 ∨ w = .message 2 [.double 3 7] := by simpa using hw
      · exact ⟨by decide, by decide⟩
      · exact ⟨by decide, by decide⟩
    | nested hmem hinner =>
      obtain ⟨rfl, rfl⟩ : _ = 2 ∧ _ = [Write.double 3 7] := by simpa using hmem
      cases hinner with
      | top =>
        intro w hw
        obtain rfl : w = .double 3 7 := by simpa using hw
        exact ⟨by decide, by decide⟩
      | nested hmem _ => simp at hmem
  have hread := fields_safe.1 _ hshort hnum
  exact ⟨hread _ .top, hread _ (.nested (List.mem_cons_of_mem _ (List.mem_cons_self ..)) .top),
    fields_safe.2 _ (by decide)⟩

end LocalBase.Otlp
