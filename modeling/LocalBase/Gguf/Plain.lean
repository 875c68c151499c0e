import LocalBase.Gguf.Reader
import LocalBase.Lib.Fuel

/-!
# Stepping over is reading

A plain reader of the format keeps everything and has no limits. Where the gateway's
reader comes to an end, so does the plain one, at the same place, and what was kept
is what the plain one has of it: every type is stepped over by exactly the bytes that
it is read by.
-/

namespace LocalBase.Gguf

open Fuel Sim

/-! ## The plain reader -/

abbrev Parse (α : Type) : Type := Plainly Bytes α

inductive Plain where
  | num (f : Double)
  | str (s : Bytes)
  | nums (fs : List Double)
  | strs (ss : List Bytes)
deriving DecidableEq

namespace Plain

def take (n : Nat) : Parse Bytes := fun bs =>
  if bs.length < n then none else some (bs.take n, bs.drop n)

def number (size : Nat) : Parse Nat := littleEndian <$> take size

def text : Parse Bytes := number 8 >>= take

def scalar (t size : Nat) : Parse Double := decode t <$> take size

def elements (et n : Nat) : Parse Plain :=
  match fixedSizes et with
  | none => if et ≠ ggufTypeString then failure else strs <$> timesOf text n
  | some size => nums <$> timesOf (scalar et size) n

def array : Parse Plain := do
  let et ← number 4
  let n ← number 8
  elements et n

def value (t : Nat) : Parse Plain :=
  if t = ggufTypeString then str <$> text
  else if t = ggufTypeArray then array
  else
    match fixedSizes t with
    | none => failure
    | some size => num <$> scalar t size

def entry : Parse (Bytes × Plain) := do
  let key ← text
  let t ← number 4
  let v ← value t
  return (key, v)

def tensor : Parse TensorInfo := do
  let name ← text
  let nd ← number 4
  let dims ← timesOf (number 8) nd
  let type ← number 4
  let _offset ← number 8
  return { name := name, dims := dims, type := type }

/-- All that a header says, in its order. -/
structure File where
  entries : List (Bytes × Plain)
  tensors : List TensorInfo

def keyBlock : Parse (List (Bytes × Plain) × Nat) := do
  let magic ← number 4
  if magic ≠ ggufMagic then failure
  else do
    let v ← number 4
    if v ≠ 2 ∧ v ≠ 3 then failure
    else do
      let tensorCount ← number 8
      let count ← number 8
      let entries ← timesOf entry count
      return (entries, tensorCount)

def file (withTensors : Bool) : Parse File := do
  let block ← keyBlock
  let tensors ← timesOf tensor (if withTensors then block.2 else 0)
  return { entries := block.1, tensors := tensors }

/-- What the reader keeps of a value. -/
def held (kept : Bool) (maxStr : Nat) : Plain → Option Value
  | num f => if kept then some (.num f) else none
  | str s => if kept ∧ s.length ≤ maxStr then some (.str s) else none
  | nums fs => if kept ∧ fs.length ≤ maxKeptArrayElements then some (.nums fs) else none
  | strs _ => none

/-- A value as the reader would return it. -/
def shown : Plain → Option Value
  | num f => some (.num f)
  | str s => some (.str s)
  | nums fs => some (.nums fs)
  | strs _ => none

/-- The value of a key: the last there is. -/
def File.value (f : File) (key : Bytes) : Option Plain :=
  (f.entries.reverse.find? fun e => e.1 = key).map Prod.snd

theorem shown_of_held {kept : Bool} {maxStr : Nat} {w : Plain} {v : Value}
    (h : w.held kept maxStr = some v) : w.shown = some v := by
  have hite : ∀ (p : Prop) [Decidable p] (a : Value), (if p then some a else none) = some v →
      some a = some v := by
    intro p _ a ha
    split at ha
    · exact ha
    · cases ha
  cases w with
  | num f | str s | nums fs => exact hite _ _ h
  | strs ss => cases h

theorem held_of_shown {w w' : Plain} (h : w.shown = w'.shown) (kept : Bool) (maxStr : Nat) :
    w.held kept maxStr = w'.held kept maxStr := by
  cases w with
  | num | str | nums | strs => cases w' <;> simp_all [shown, held]

theorem File.value_eq_some {f : File} {key : Bytes} {w : Plain} :
    f.value key = some w ↔
      ∃ before after, f.entries = before ++ (key, w) :: after ∧ ∀ e ∈ after, e.1 ≠ key := by
  unfold File.value
  rw [Option.map_eq_some_iff]
  constructor
  · rintro ⟨⟨key', w'⟩, hfind, rfl⟩
    obtain ⟨hkey, as, bs, heq, has⟩ := List.find?_eq_some_iff_append.1 hfind
    obtain rfl : key' = key := of_decide_eq_true hkey
    refine ⟨bs.reverse, as.reverse, ?_, fun e he => ?_⟩
    · rw [← List.reverse_reverse f.entries, heq]
      simp
    · simpa using has e (List.mem_reverse.1 he)
  · rintro ⟨before, after, heq, hafter⟩
    refine ⟨(key, w), List.find?_eq_some_iff_append.2 ⟨decide_eq_true rfl, after.reverse,
      before.reverse, ?_, fun e he => ?_⟩, rfl⟩
    · rw [heq]
      simp
    · simpa using hafter e (List.mem_reverse.1 he)

end Plain

/-! ## Each step -/

/-- The reader goes on where the plain one does. -/
abbrev Beside {α β : Type} (x : Read α) (y : Parse β) (R : α → β → Prop) : Prop :=
  Follows Reader.rest x y R

theorem readFull_take (n : Nat) :
    Beside (readFull n) (Plain.take n) fun a b => a = b ∧ a.length = n := by
  intro g a g' hg
  unfold readFull at hg
  unfold Plain.take
  split at hg
  · cases hg
  · next hlen =>
    obtain ⟨rfl, rfl⟩ := Prod.mk.inj (Except.ok.inj hg)
    exact ⟨_, if_neg hlen, rfl, List.length_take_of_le (by omega)⟩

theorem skip_take (n : Nat) : Beside (skip n) (Plain.take n) fun _ b => b.length = n := by
  intro g a g' hg
  unfold skip at hg
  unfold Plain.take
  split at hg
  · cases hg
  · split at hg
    · cases hg
    · next hlen =>
      obtain ⟨-, rfl⟩ := Prod.mk.inj (Except.ok.inj hg)
      exact ⟨_, if_neg hlen, List.length_take_of_le (by omega)⟩

theorem u32_number : Beside u32 (Plain.number 4) Eq :=
  (readFull_take 4).map fun _ _ h => congrArg littleEndian h.1

theorem u64_number : Beside u64 (Plain.number 8) Eq :=
  (readFull_take 8).map fun _ _ h => congrArg littleEndian h.1

theorem saying_beside {α β : Type} {x : Read α} {y : Parse β} {R : α → β → Prop} (e : ReadError)
    (h : Beside x y R) : Beside (saying e x) y R := by
  intro g a g' hg
  refine h g a g' ?_
  unfold saying at hg
  cases hx : x g with
  | error err =>
    rw [hx] at hg
    cases hg
  | ok r =>
    rw [hx] at hg
    exact hg

theorem scalar_plain (t size : Nat) : Beside (scalar t size) (Plain.scalar t size) Eq :=
  (readFull_take size).map fun _ _ h => congrArg (decode t) h.1

theorem keep_rest {n : Nat} (g : Reader) (a : Unit) (g' : Reader) (h : keep n g = .ok (a, g')) :
    g'.rest = g.rest ∧ True := by
  unfold keep at h
  split at h
  · cases h
  · obtain ⟨-, rfl⟩ := Prod.mk.inj (Except.ok.inj h)
    exact ⟨rfl, trivial⟩

theorem spend_rest {n : Nat} (g : Reader) (a : Unit) (g' : Reader) (h : spend n g = .ok (a, g')) :
    g'.rest = g.rest ∧ True := by
  unfold spend at h
  split at h
  · cases h
  · obtain ⟨-, rfl⟩ := Prod.mk.inj (Except.ok.inj h)
    exact ⟨rfl, trivial⟩

theorem refuse_rest {p : Prop} [Decidable p] {e : ReadError} (g : Reader) (a : Unit) (g' : Reader)
    (h : refuse p e g = .ok (a, g')) : g'.rest = g.rest ∧ ¬ p := by
  unfold refuse at h
  split at h
  · cases h
  · next hp =>
    obtain ⟨-, rfl⟩ := Prod.mk.inj (Except.ok.inj h)
    exact ⟨rfl, hp⟩

theorem str_text (kept : Bool) (maxBytes : Nat) : Beside (str kept maxBytes) Plain.text
    fun a s => a = if kept ∧ s.length ≤ maxBytes then some s else none := by
  refine u64_number.bind fun n m hnm => ?_
  subst hnm
  refine Follows.before refuse_rest fun _ _ => ?_
  split
  · next hskip =>
    refine (skip_take n).result fun _ s hs => ?_
    rw [hs, if_neg fun h => hskip.elim (absurd h.1) fun hlt => absurd h.2 (by omega)]
  · next hkeep =>
    refine Follows.before keep_rest fun _ _ => (readFull_take n).result fun a s hs => ?_
    obtain ⟨rfl, hlen⟩ := hs
    rw [not_or, not_not, not_lt] at hkeep
    rw [hlen, if_pos hkeep]

theorem take_times (t size n : Nat) {bs b rest : Bytes}
    (h : Plain.take (n * size) bs = some (b, rest)) :
    ∃ fs, timesOf (Plain.scalar t size) n bs = some (fs, rest) ∧ fs.length = n := by
  induction n generalizing bs b with
  | zero =>
    rw [Nat.zero_mul] at h
    obtain ⟨-, rfl⟩ := Prod.mk.inj (Option.some.inj h)
    exact ⟨[], rfl, rfl⟩
  | succ n ih =>
    unfold Plain.take at h
    split at h
    · cases h
    · next hlen =>
      obtain ⟨-, rfl⟩ := Prod.mk.inj (Option.some.inj h)
      rw [Nat.succ_mul, not_lt] at hlen
      have hfirst : Plain.take size bs = some (bs.take size, bs.drop size) :=
        if_neg (by omega)
      have hrest : Plain.take (n * size) (bs.drop size) =
          some ((bs.drop size).take (n * size), bs.drop ((n + 1) * size)) := by
        unfold Plain.take
        rw [if_neg (by rw [List.length_drop]; omega), List.drop_drop, Nat.succ_mul,
          Nat.add_comm]
      obtain ⟨fs, hfs, hn⟩ := ih hrest
      refine ⟨decode t (bs.take size) :: fs, ?_, congrArg Nat.succ hn⟩
      have hscalar : Plain.scalar t size bs = some (decode t (bs.take size), bs.drop size) := by
        show (Plain.take size bs >>= fun p => some (decode t p.1, p.2)) = _
        rw [hfirst]
        rfl
      exact plainly_bind.2 ⟨_, _, hscalar, plainly_bind.2 ⟨fs, _, hfs, rfl⟩⟩

theorem skip_times (t size n : Nat) :
    Beside (skip (n * size)) (timesOf (Plain.scalar t size) n) fun _ fs => fs.length = n := by
  intro g a g' hg
  obtain ⟨b, hb, -⟩ := skip_take (n * size) g a g' hg
  exact take_times t size n hb

theorem array_plain (kept : Bool) (maxStr : Nat) :
    Beside (array kept) Plain.array fun v w => v = w.held kept maxStr := by
  refine u32_number.bind fun et et' het => ?_
  subst het
  refine Follows.before refuse_rest fun _ _ => u64_number.bind fun n n' hn => ?_
  subst hn
  refine Follows.before spend_rest fun _ _ => ?_
  unfold Plain.elements
  cases fixedSizes et with
  | none =>
    refine Follows.before refuse_rest fun _ htype => ?_
    rw [if_neg htype]
    show Beside _ (Plain.strs <$> timesOf Plain.text n) _
    refine (follows_times (str_text false 0) n).bind fun _ ss _ => follows_pure ?_
    rfl
  | some size =>
    show Beside (ite _ _ _) (Plain.nums <$> timesOf (Plain.scalar et size) n) _
    split
    · next hkept =>
      refine (follows_times (scalar_plain et size) n).bind fun fs fs' hfs => follows_pure ?_
      obtain ⟨hsame, hlen⟩ := hfs
      obtain rfl := List.forall₂_eq_eq_eq ▸ hsame
      show _ = ite _ _ _
      rw [hlen, if_pos hkept]
    · next hkept =>
      refine (skip_times et size n).bind fun _ fs hfs => follows_pure ?_
      show none = ite _ _ _
      rw [hfs, if_neg hkept]

theorem value_plain (t : Nat) (kept : Bool) (maxStr : Nat) :
    Beside (value t kept maxStr) (Plain.value t) fun v w => v = w.held kept maxStr := by
  unfold value Plain.value
  split
  · refine (str_text kept maxStr).map fun v s hv => ?_
    subst hv
    show Option.map _ (ite _ _ _) = ite _ _ _
    split
    · rfl
    · rfl
  · split
    · exact array_plain kept maxStr
    · cases fixedSizes t with
      | none => exact follows_throw
      | some size =>
        refine (scalar_plain t size).bind fun f f' hf => follows_pure ?_
        subst hf
        rfl

/-! ## The header -/

/-- A name as it is read: one that is too long is empty. -/
def readName (maxBytes : Nat) (name : Bytes) : Bytes :=
  if name.length ≤ maxBytes then name else []

theorem strOrEmpty_text (maxBytes : Nat) :
    Beside (strOrEmpty maxBytes) Plain.text fun a s => a = readName maxBytes s := by
  show Beside (str true maxBytes >>= fun a => pure (a.getD [])) _ _
  refine (str_text true maxBytes).result fun a s hs => ?_
  rw [hs]
  unfold readName
  by_cases hlen : s.length ≤ maxBytes
  · rw [if_pos ⟨rfl, hlen⟩, if_pos hlen]
    rfl
  · rw [if_neg fun h => hlen h.2, if_neg hlen]
    rfl

section

variable (keeps : Bytes → Bool) (maxStr : Bytes → Nat)

/-- What one entry of the header does to the kept values. -/
def holdEntry (values : Values) (e : Bytes × Plain) : Values :=
  let key := readName maxKeptStringBytes e.1
  match e.2.held (keeps key) (maxStr key) with
  | some v => setValue values key v
  | none => values

theorem held_false (maxStr : Nat) (w : Plain) : w.held false maxStr = none := by
  cases w with
  | num | str | nums | strs => rfl

theorem readKey_entry (values : Values) :
    Beside (readKey keeps maxStr values) Plain.entry fun values' e =>
      values' = holdEntry keeps maxStr values e := by
  refine Follows.before spend_rest fun _ _ => (strOrEmpty_text _).bind fun key s hs => ?_
  refine u32_number.bind fun t t' ht => ?_
  subst hs ht
  refine (value_plain t _ _).bind fun v w hv => follows_pure ?_
  subst hv
  unfold holdEntry
  generalize readName maxKeptStringBytes s = key
  dsimp only
  cases hkeep : keeps key with
  | false => rw [held_false]
  | true => rfl

theorem readTensor_tensor : Beside readTensor Plain.tensor fun a b =>
    a = { b with name := readName maxTensorName b.name } := by
  refine Follows.before spend_rest fun _ _ => Follows.before keep_rest fun _ _ => ?_
  refine (strOrEmpty_text _).bind fun name s hs => ?_
  refine (saying_beside _ u32_number).bind fun nd nd' hnd => ?_
  subst hs hnd
  refine Follows.before refuse_rest fun _ _ => ?_
  refine (follows_times u64_number nd).bind fun ds ds' hds => ?_
  obtain rfl := List.forall₂_eq_eq_eq ▸ hds.1
  refine u32_number.bind fun type type' htype => u64_number.bind fun _ _ _ => follows_pure ?_
  subst htype
  rfl

theorem readFull_empty {n : Nat} (hn : 0 < n) {g : Reader} (hg : g.rest = [])
    (a : Bytes × Reader) : readFull n g ≠ .ok a := by
  unfold readFull
  rw [hg, if_pos (by simpa using hn)]
  rintro ⟨⟩

theorem u32Any_number {γ δ : Type} {f : Nat → Read γ} {g : Nat → Parse δ} {Q : γ → δ → Prop}
    (hend : ∀ v r, r.rest = [] → ∀ a, f v r ≠ .ok a) (hf : ∀ v, Beside (f v) (g v) Q) :
    Beside (u32Any >>= f) (Plain.number 4 >>= g) Q := by
  intro r c r' hr
  obtain ⟨v, t, hv, hc⟩ := reads_bind.1 hr
  obtain ⟨rfl, rfl⟩ := Prod.mk.inj (Except.ok.inj hv)
  have hlen : ¬ r.rest.length < 4 := fun hlt =>
    hend _ _ (List.drop_eq_nil_of_le (by omega)) _ hc
  obtain ⟨d, hd, hcd⟩ := hf _ _ c r' hc
  refine ⟨d, plainly_bind.2 ⟨_, _, ?_, hd⟩, hcd⟩
  show (Plain.take 4 r.rest >>= fun p => some (littleEndian p.1, p.2)) = _
  have htake : Plain.take 4 r.rest = some (r.rest.take 4, r.rest.drop 4) := if_neg hlen
  rw [htake]
  rfl

theorem parseKeyBlock_keyBlock :
    Beside (parseKeyBlock keeps maxStr) Plain.keyBlock fun a b =>
      a.1 = b.1.foldl (holdEntry keeps maxStr) (fun _ => none) ∧ a.2 = b.2 := by
  refine (saying_beside _ u32_number).bind fun magic magic' hmagic => ?_
  subst hmagic
  refine Follows.before refuse_rest fun _ hno => ?_
  rw [if_neg hno]
  refine u32Any_number (fun v r hr a ha => ?_) fun v => ?_
  · obtain ⟨_, t, ht, ha⟩ := reads_bind.1 ha
    obtain ⟨n, t', hn, -⟩ := reads_bind.1 ha
    change (readFull 8 t >>= fun p => .ok (littleEndian p.1, p.2)) = _ at hn
    obtain ⟨b, hb, -⟩ := bind_eq_ok.1 hn
    exact readFull_empty (by omega) ((refuse_rest r _ t ht).1.trans hr) _ hb
  · refine Follows.before refuse_rest fun _ hno => ?_
    rw [if_neg hno]
    refine u64_number.bind fun tensorCount tensorCount' htensors => ?_
    refine (saying_beside _ u64_number).bind fun count count' hcount => ?_
    subst htensors hcount
    refine Follows.before refuse_rest fun _ _ => ?_
    refine (follows_loop (readKey_entry keeps maxStr) count _).bind fun values entries hvalues => ?_
    exact follows_pure ⟨hvalues, rfl⟩

theorem readHeader_file (withTensors : Bool) :
    Beside (readHeader keeps maxStr withTensors) (Plain.file withTensors) fun a f =>
      a.1 = f.entries.foldl (holdEntry keeps maxStr) (fun _ => none) ∧
        a.2 = f.tensors.map fun t => { t with name := readName maxTensorName t.name } := by
  refine (parseKeyBlock_keyBlock keeps maxStr).bind fun block block' hblock => ?_
  obtain ⟨hvalues, hcount⟩ := hblock
  cases withTensors with
  | false => exact follows_pure ⟨hvalues, rfl⟩
  | true =>
    rw [if_neg (by simp), if_pos rfl, ← hcount]
    refine Follows.before refuse_rest fun _ _ => ?_
    refine (follows_times readTensor_tensor block.2).bind fun ts ts' hts => ?_
    exact follows_pure ⟨hvalues, List.forall₂_eq_eq_eq ▸ List.forall₂_map_right_iff.2 hts.1⟩

end

end LocalBase.Gguf
