import LocalBase.Placement.Splits

/-!
# What a refusal in mode auto leaves open

The search of mode auto walks two edges of the grid of splits: all the layers on
the GPU with more and more layers of experts on the host, then all of those with
fewer and fewer layers on the GPU. A split inside the grid can fit where no edge
does. It keeps some of the experts on the GPU, because the host has no room for
all of them, and leaves out the tensors of no layer, because the GPU has none
for the whole file. That is the only way: a refusal leaves no other split that
fits.
-/

namespace LocalBase.Placement

variable {m : Model} {kv : Int64} {d : Device} {r : Request} {s : Sizes}

theorem firstFit_eq_none {splits : List (Nat × Nat)} (h : firstFit d s m kv splits = none)
    {x : Nat × Nat} (hx : x ∈ splits) : (s.evaluate m kv x.1 x.2).fits d = false := by
  have hnone := List.find?_eq_none.mp (Option.map_eq_none_iff.mp h) x hx
  simpa using hnone

theorem tried_of_refused (hd : d.platform = .discrete)
    (hsized : ∀ t ∈ m.tensors, (tensorBytes t).2 = true)
    (hmode : Mode.ofText r.mode = some .auto) {e : Refusal} (hr : resolve m kv d r = .error e)
    (he : e.code = "placement_does_not_fit") {x : Nat × Nat}
    (hx : x ∈ order (measure m) m d) : ((measure m).evaluate m kv x.1 x.2).fits d = false := by
  refine firstFit_eq_none ?_ hx
  rw [← autoSplit_eq]
  cases hauto : autoSplit d (measure m) m kv with
  | none => rfl
  | some sp =>
    exfalso
    unfold resolve at hr
    rw [hmode] at hr
    dsimp only at hr
    split at hr
    · cases hr
      exact absurd he (by simp [Refusal.code])
    · simp [asked, hd, choose, sized_known hsized, hauto, bind, Except.bind, pure,
        Except.pure] at hr

theorem allGPU_mem_order (hmoe : d.cpuMoE = true) {n : Nat} (hn : n ≤ s.experts.layers.length) :
    (n, m.layers + 1) ∈ order s m d := by
  rcases Nat.eq_zero_or_pos n with rfl | hpos
  · exact List.mem_cons_self
  · refine List.mem_cons_of_mem _ (List.mem_append_left _ ?_)
    simp only [hmoe, if_true]
    exact List.mem_map.mpr ⟨n, List.mem_range'_1.mpr ⟨hpos, by omega⟩, rfl⟩

theorem allExperts_mem_order (hmoe : d.cpuMoE = true) (hlayers : d.gpuLayers = true) {l : Nat}
    (hl : l ≤ m.layers) : (s.experts.layers.length, l) ∈ order s m d := by
  refine List.mem_cons_of_mem _ (List.mem_append_right _ ?_)
  simp only [hmoe, hlayers, if_true]
  exact List.mem_map.mpr ⟨l, List.mem_reverse.mpr (List.mem_range.mpr (by omega)), rfl⟩

theorem fits_without_gpu (n n' : Nat) :
    (s.evaluate m kv n 0).fits d = (s.evaluate m kv n' 0).fits d := rfl

/-- What the GPU is asked for, where 64 bits hold the file, the cache, the
workspace and the reserve. -/
theorem reserved_toInt (hm : m.Sized) (hkv : 0 ≤ kv.toInt) (hfit : m.Holds kv) {n l : Nat}
    (hpos : 0 < l) (hroom : m.artifactBytes.toInt + kv.toInt + workspaceBytes.toInt +
      reserveBytes.toInt < 2 ^ 63) :
    (((measure m).evaluate m kv n l).gpu + reserveBytes).toInt =
      m.weights n l + m.share kv l + workspaceBytes.toInt + reserveBytes.toInt := by
  have hreserve : reserveBytes.toInt = 536870912 := by decide
  have hworkspace : workspaceBytes.toInt = 268435456 := by decide
  have hw0 := hm.weights_nonneg n l
  have hw := hm.weights_le n l
  have hs0 : 0 ≤ m.share kv l := share_nonneg hkv
  have hs : m.share kv l ≤ kv.toInt := share_le hkv
  refine toInt_eq_of_bmod ?_ (by omega) (by omega)
  rw [Int64.toInt_add, (hm.evaluate hkv hfit hpos).1]

/-- The GPU has room for a split, so it has room for the same layers with all
the experts on the host, and what does not fit then is the host. -/
theorem host_short (hm : m.Sized) (hkv : 0 ≤ kv.toInt) (hfit : m.Holds kv) {n n' l : Nat}
    (hn : n ≤ n') (hpos : 0 < l) (hroom : m.artifactBytes.toInt + kv.toInt +
      workspaceBytes.toInt + reserveBytes.toInt < 2 ^ 63)
    (hfits : ((measure m).evaluate m kv n l).fits d = true)
    (hno : ((measure m).evaluate m kv n' l).fits d = false) :
    d.hostAvailable < ((measure m).evaluate m kv n' l).host := by
  have hanti : m.weights n' l ≤ m.weights n l := weights_anti hn
  simp only [Split.fits, Sizes.evaluate_gpuLayers, Bool.and_eq_true, Bool.or_eq_true,
    decide_eq_true_eq] at hfits
  have hvram := Int64.le_iff_toInt_le.mp (hfits.1.resolve_left (Nat.ne_of_gt hpos))
  have hvram' : ((measure m).evaluate m kv n' l).gpu + reserveBytes ≤ d.freeVRAM := by
    rw [reserved_toInt hm hkv hfit hpos hroom] at hvram
    rw [Int64.le_iff_toInt_le, reserved_toInt hm hkv hfit hpos hroom]
    exact le_trans (by gcongr) hvram
  by_contra hhost
  rw [Int64.not_lt] at hhost
  have hyes : ((measure m).evaluate m kv n' l).fits d = true := by
    simp only [Split.fits, Sizes.evaluate_gpuLayers, Bool.and_eq_true, Bool.or_eq_true,
      decide_eq_true_eq]
    exact ⟨.inr hvram', hhost⟩
  cases hno.symm.trans hyes

/-- When mode auto refuses for want of room on a device whose backend has both
flags, a split of custom mode that fits keeps some of the layers on the GPU and
not all of them, and the experts of fewer than all expert layers on the host;
and the host has no room for all the experts beside those layers. -/
theorem refusal_leaves_inside (hd : d.platform = .discrete) (hmoe : d.cpuMoE = true)
    (hlayers : d.gpuLayers = true) (hsized : ∀ t ∈ m.tensors, (tensorBytes t).2 = true)
    (hmode : Mode.ofText r.mode = some .auto) {e : Refusal} (hr : resolve m kv d r = .error e)
    (he : e.code = "placement_does_not_fit") {n l : Nat}
    (hn : n ≤ (experts m.tensors).layers.length) (hl : l ≤ m.layers + 1)
    (hfits : ((measure m).evaluate m kv n l).fits d = true) :
    0 < l ∧ l ≤ m.layers ∧ n < (experts m.tensors).layers.length ∧
      (m.Sized → 0 ≤ kv.toInt → m.Holds kv → m.artifactBytes.toInt + kv.toInt +
          workspaceBytes.toInt + reserveBytes.toInt < 2 ^ 63 →
        d.hostAvailable <
          ((measure m).evaluate m kv (experts m.tensors).layers.length l).host) := by
  rw [← measure_experts] at hn ⊢
  have htried {x : Nat × Nat} (hx : x ∈ order (measure m) m d) :=
    tried_of_refused hd hsized hmode hr he hx
  have hsome : l ≤ m.layers := by
    by_contra hall
    obtain rfl : l = m.layers + 1 := by omega
    exact absurd hfits (by rw [htried (allGPU_mem_order hmoe hn)]; exact Bool.false_ne_true)
  have hno := htried (allExperts_mem_order hmoe hlayers hsome)
  have hpos : 0 < l := by
    rcases Nat.eq_zero_or_pos l with rfl | hpos
    · cases hfits.symm.trans ((fits_without_gpu _ _).trans hno)
    · exact hpos
  have hless : n < (measure m).experts.layers.length := by
    rcases Nat.lt_or_eq_of_le hn with hlt | heq
    · exact hlt
    · subst heq
      cases hfits.symm.trans hno
  exact ⟨hpos, hsome, hless, fun hm hkv hfit hroom =>
    host_short hm hkv hfit hn hpos hroom hfits hno⟩

/-- One layer of 500 MiB, 400 of them experts, and 500 MiB of no layer. -/
def wideModel : Model where
  tensors := [⟨"blk.0.attn_q.weight", [26214400], 0⟩, ⟨"blk.0.ffn_up_exps.weight", [104857600], 0⟩,
    ⟨"token_embd.weight", [131072000], 0⟩]
  artifactBytes := 1000 * 1048576
  layers := 1
  hostExtraBytes := 0

/-- The GPU has room for the layer, and the host for the rest but not for the
experts as well. -/
def narrowDevice : Device where
  capacityBytes := 0
  keptBytes := 0
  platform := .discrete
  freeVRAM := 1268 * 1048576
  hostAvailable := 600 * 1048576
  gpuCount := 1
  cpuMoE := true
  gpuLayers := true

def autoRefusal : Refusal :=
  doesNotFit ((measure wideModel).evaluate wideModel 0 0 2) narrowDevice

theorem wideModel_refused : resolve wideModel 0 narrowDevice autoRequest = .error autoRefusal := by
  decide

theorem wideModel_sized : wideModel.Sized where
  exact t ht := by
    simp only [wideModel, List.mem_cons, List.not_mem_nil, or_false] at ht
    rcases ht with rfl | rfl | rfl <;> exact ⟨⟨(4, 1), rfl, by decide⟩, by decide⟩
  sum_le := by decide

theorem wideModel_leaves_inside :
    0 < 1 ∧ 1 ≤ wideModel.layers ∧ 0 < (experts wideModel.tensors).layers.length ∧
      narrowDevice.hostAvailable < ((measure wideModel).evaluate wideModel 0
        (experts wideModel.tensors).layers.length 1).host := by
  have hfits : ((measure wideModel).evaluate wideModel 0 0 1).fits narrowDevice = true := by
    decide
  obtain ⟨hpos, hsome, hless, hshort⟩ := refusal_leaves_inside rfl rfl rfl (by decide)
    (r := autoRequest) rfl wideModel_refused (by decide) (Nat.zero_le _) (by decide) hfits
  exact ⟨hpos, hsome, hless, hshort wideModel_sized (by decide)
    { gpu := by decide, host := by decide, share := by decide } (by decide)⟩

/-- The layer on the GPU and the rest on the host: custom mode takes it, and
mode auto, which never tried it, says that nothing fits. -/
theorem inside_split_missed :
    ¬ ∀ (m : Model) (kv : Int64) (d : Device) (r : Request), d.platform = .discrete →
      d.cpuMoE = true → d.gpuLayers = true → (∀ t ∈ m.tensors, (tensorBytes t).2 = true) →
      Mode.ofText r.mode = some .auto →
      (∃ e, resolve m kv d r = .error e ∧ e.code = "placement_does_not_fit") →
      ∀ n l : Nat, n ≤ (experts m.tensors).layers.length → l ≤ m.layers + 1 →
        (∃ p, resolve m kv d ⟨"custom", some n, some l⟩ = .ok p) →
        ((measure m).evaluate m kv n l).fits d = false := by
  intro h
  have hcustom : ∃ p, resolve wideModel 0 narrowDevice ⟨"custom", some 0, some 1⟩ = .ok p :=
    ⟨_, rfl⟩
  have hno := h wideModel 0 narrowDevice autoRequest rfl rfl rfl (by decide) rfl
    ⟨_, wideModel_refused, by decide⟩ 0 1 (by decide) (by decide) hcustom
  exact absurd hno (by decide)

end LocalBase.Placement
