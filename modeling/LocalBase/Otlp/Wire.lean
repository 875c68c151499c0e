import LocalBase.Lib.Bytes
import LocalBase.Lib.Fuel

/-!
# The OTLP wire

The messages that are exported are written field by field, and a collector's reply is read
back one level at a time. A slice outside the bytes is a crash.
-/

namespace LocalBase.Otlp

abbrev Bytes := List UInt8

/-! ## Writing -/

/-- `buf`, a message being written. -/
abbrev Buf := Bytes

namespace Buf

variable (b : Buf)

def varint (b : Buf) (v : UInt64) : Buf :=
  if 128 ≤ v.toNat then varint (b ++ [UInt8.ofNat v.toNat ||| 128]) (v >>> 7)
  else b ++ [UInt8.ofNat v.toNat]
termination_by v.toNat
decreasing_by
  rw [Varint.toNat_shift]
  omega

def tag (field wire : Nat) : Buf := varint b (UInt64.ofNat (field <<< 3 ||| wire))

def uint (field : Nat) (v : UInt64) : Buf :=
  if v ≠ 0 then varint (tag b field 0) v else b

def uintAlways (field : Nat) (v : UInt64) : Buf := varint (tag b field 0) v

def fixed64 (field : Nat) (v : UInt64) : Buf :=
  if v ≠ 0 then tag b field 1 ++ LittleEndian.put 8 v.toNat else b

def fixed32 (field : Nat) (v : UInt32) : Buf :=
  if v ≠ 0 then tag b field 5 ++ LittleEndian.put 4 v.toNat else b

def double (field : Nat) (float64bits : UInt64) : Buf :=
  tag b field 1 ++ LittleEndian.put 8 float64bits.toNat

def bytes (field : Nat) (v : Bytes) : Buf :=
  if 0 < v.length then varint (tag b field 2) (UInt64.ofNat v.length) ++ v else b

def str (field : Nat) (v : Bytes) : Buf :=
  if v ≠ [] then varint (tag b field 2) (UInt64.ofNat v.length) ++ v else b

/-- A nested message, even when it is empty. -/
def message (field : Nat) (m : Buf) : Buf :=
  varint (tag b field 2) (UInt64.ofNat m.length) ++ m

end Buf

/-- A call of one of the methods; that of `message` comes with those that wrote the message. -/
inductive Write where
  | uint (field : Nat) (v : UInt64)
  | uintAlways (field : Nat) (v : UInt64)
  | fixed64 (field : Nat) (v : UInt64)
  | fixed32 (field : Nat) (v : UInt32)
  | double (field : Nat) (float64bits : UInt64)
  | bytes (field : Nat) (v : Bytes)
  | str (field : Nat) (v : Bytes)
  | message (field : Nat) (writes : List Write)

mutual

def Write.onto (b : Buf) : Write → Buf
  | .uint field v => b.uint field v
  | .uintAlways field v => b.uintAlways field v
  | .fixed64 field v => b.fixed64 field v
  | .fixed32 field v => b.fixed32 field v
  | .double field v => b.double field v
  | .bytes field v => b.bytes field v
  | .str field v => b.str field v
  | .message field writes => b.message field (written [] writes)

/-- The writes one after another, onto what is there. -/
def written (b : Buf) : List Write → Buf
  | [] => b
  | w :: writes => written (w.onto b) writes

end

/-! ## Reading -/

inductive Failure where
  /-- A slice outside the bytes. -/
  | crash
  | error (message : String)
deriving DecidableEq

abbrev Result (α : Type) := Except Failure α

/-- The bytes `b[lo:hi]`. -/
def slice (b : Bytes) (lo hi : Int) : Result Bytes :=
  if 0 ≤ lo ∧ lo ≤ hi ∧ hi ≤ b.length then .ok ((b.drop lo.toNat).take (hi - lo).toNat)
  else .error .crash

/-- `binary.LittleEndian`, of the first `n` bytes. -/
def uintOf (n : Nat) (b : Bytes) : Result UInt64 := do
  let b ← slice b 0 n
  .ok (.ofNat (LittleEndian.number b))

/-- The conversion of a `uint64` to an `int`. -/
def toInt (l : UInt64) : Int := if l.toNat < 2 ^ 63 then l.toNat else l.toNat - 2 ^ 64

structure Field where
  num : Nat
  wire : Nat
  value : UInt64 := 0
  bytes : Bytes := []
deriving DecidableEq

/-- What follows the tag, and the bytes after it. -/
def valueOf (b : Bytes) (f : Field) : Result (Field × Bytes) :=
  if f.wire = 0 then
    let v := (Varint.uvarint b).1
    let n := (Varint.uvarint b).2
    if n ≤ 0 then .error (.error "bad varint")
    else do
      let rest ← slice b n b.length
      .ok ({ f with value := v }, rest)
  else if f.wire = 1 then
    if b.length < 8 then .error (.error "short fixed64")
    else do
      let v ← uintOf 8 b
      let rest ← slice b 8 b.length
      .ok ({ f with value := v }, rest)
  else if f.wire = 5 then
    if b.length < 4 then .error (.error "short fixed32")
    else do
      let v ← uintOf 4 b
      let rest ← slice b 4 b.length
      .ok ({ f with value := v }, rest)
  else if f.wire = 2 then
    let l := (Varint.uvarint b).1
    let n := (Varint.uvarint b).2
    if n ≤ 0 ∨ (b.length - n) % 2 ^ 64 < (l.toNat : Int) then .error (.error "bad length")
    else do
      let bytes ← slice b n (n + toInt l)
      let rest ← slice b (n + toInt l) b.length
      .ok ({ f with bytes := bytes }, rest)
  else .error (.error "unsupported wire type")

/-- One round of the loop: a field, and the bytes after it. -/
def fieldAt (b : Bytes) : Result (Field × Bytes) :=
  let key := (Varint.uvarint b).1
  let n := (Varint.uvarint b).2
  if n ≤ 0 then .error (.error "bad tag")
  else do
    let b ← slice b n b.length
    valueOf b { num := (key >>> 3).toNat, wire := (key &&& 7).toNat }

theorem slice_eq_ok {b r : Bytes} {lo hi : Int} (h : slice b lo hi = .ok r) :
    0 ≤ lo ∧ lo ≤ hi ∧ hi ≤ b.length ∧ r = (b.drop lo.toNat).take (hi - lo).toNat := by
  rw [slice] at h
  split at h
  · next hin => exact ⟨hin.1, hin.2.1, hin.2.2, (Except.ok.inj h).symm⟩
  · cases h

theorem length_slice {b r : Bytes} {lo hi : Int} (h : slice b lo hi = .ok r) :
    (r.length : Int) = hi - lo := by
  obtain ⟨hlo, hle, hhi, rfl⟩ := slice_eq_ok h
  rw [List.length_take, List.length_drop]
  omega

theorem valueOf_le {b rest : Bytes} {f f' : Field} (h : valueOf b f = .ok (f', rest)) :
    rest.length ≤ b.length := by
  rw [valueOf] at h
  split at h
  · dsimp only at h
    split at h
    · cases h
    · next hn =>
      obtain ⟨r, hr, hok⟩ := Fuel.bind_eq_ok.1 h
      cases hok
      have := length_slice hr
      omega
  split at h
  · split at h
    · cases h
    · obtain ⟨v, -, hok⟩ := Fuel.bind_eq_ok.1 h
      obtain ⟨r, hr, hok⟩ := Fuel.bind_eq_ok.1 hok
      cases hok
      have := length_slice hr
      omega
  split at h
  · split at h
    · cases h
    · obtain ⟨v, -, hok⟩ := Fuel.bind_eq_ok.1 h
      obtain ⟨r, hr, hok⟩ := Fuel.bind_eq_ok.1 hok
      cases hok
      have := length_slice hr
      omega
  split at h
  · dsimp only at h
    split at h
    · cases h
    · obtain ⟨v, hv, hok⟩ := Fuel.bind_eq_ok.1 h
      obtain ⟨r, hr, hok⟩ := Fuel.bind_eq_ok.1 hok
      cases hok
      have := length_slice hr
      have := slice_eq_ok hv
      omega
  · cases h

theorem fieldAt_lt {b rest : Bytes} {f : Field} (h : fieldAt b = .ok (f, rest)) :
    rest.length < b.length := by
  rw [fieldAt] at h
  split at h
  · cases h
  · next hn =>
    obtain ⟨r, hr, hok⟩ := Fuel.bind_eq_ok.1 h
    have := length_slice hr
    have := valueOf_le hok
    omega

/-- The loop, with the fields so far. -/
def fieldsFrom (b : Bytes) (out : List Field) : Result (List Field) :=
  if b = [] then .ok out
  else
    match _h : fieldAt b with
    | .error e => .error e
    | .ok (f, rest) => fieldsFrom rest (out ++ [f])
termination_by b.length
decreasing_by exact fieldAt_lt _h

/-- `Fields`: one message level. -/
def fields (b : Bytes) : Result (List Field) := fieldsFrom b []

end LocalBase.Otlp
