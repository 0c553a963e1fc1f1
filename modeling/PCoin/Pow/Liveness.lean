import PCoin.Pow.Lwma

open pcoin.arith_uint256

namespace pcoin.pow

/-- `nBits` that `DeriveTarget` accepts. -/
def Accepted (params : Params) (nBits : UInt32) : Prop :=
  ∃ target, deriveTarget nBits params.powLimit = some target

/-- Chains that start with acceptable `nBits`, of any length and with any
timestamps, and in which every later block is at an LWMA height and carries the
`nBits` that `GetNextWorkRequired` returned for its parent. -/
inductive Follows (params : Params) : CBlockIndex → Prop
  | initial {p : CBlockIndex} (haccepted : ∀ q ∈ p.ancestry, Accepted params q.nBits) :
      Follows params p
  | mined {p : CBlockIndex} {nTime nBits : UInt32} (hparent : Follows params p)
      (hheight : params.lwmaHeight ≤ p.nHeight + 1)
      (hnext : getNextWorkRequired p nTime.toNat params = some nBits) :
      Follows params (.child p nTime nBits)

/-- Whatever the sums are, the clamps leave a target in range. -/
theorem nextTarget_range {powLimit sumTarget bnNew : ArithUint256} {t : Int}
    (hlimit : 0 < powLimit.toNat) (h : nextTarget powLimit sumTarget t = some bnNew) :
    0 < bnNew.toNat ∧ bnNew.toNat ≤ powLimit.toNat := by
  simp only [nextTarget, Option.bind_eq_bind, Option.bind_eq_some_iff, Option.pure_def,
    Option.some.injEq] at h
  obtain ⟨bound, _, hnew⟩ := h
  generalize (if sumTarget.gt bound then powLimit
    else sumTarget.mulUInt32 (UInt32.ofNat t.toNat)) = product at hnew
  have hclamp : (if product.gt powLimit then powLimit else product).toNat ≤ powLimit.toNat := by
    split
    · exact le_refl _
    · rename_i hgt
      rw [ArithUint256.gt_iff] at hgt
      omega
  generalize (if product.gt powLimit then powLimit else product) = clamped at hnew hclamp
  subst hnew
  split
  · rw [ArithUint256.toNat_ofUInt64]
    exact ⟨by decide, hlimit⟩
  · rename_i hzero
    rw [ArithUint256.isZero_iff] at hzero
    exact ⟨Nat.pos_of_ne_zero hzero, hclamp⟩

/-- Every way the rule can return, its result is acceptable if the last block's
`nBits` is: no condition on the parameters, the window or the timestamps. -/
theorem accepted_of_lwma {params : Params} {p : CBlockIndex} (hp : Accepted params p.nBits)
    {nBits : UInt32} (h : lwmaGetNextWorkRequired p params = some nBits) :
    Accepted params nBits := by
  have hlimit : 0 < params.powLimit.toNat := by
    obtain ⟨target, htarget⟩ := hp
    obtain ⟨_, _, hpos, hle⟩ := deriveTarget_eq_some htarget
    omega
  unfold lwmaGetNextWorkRequired at h
  split at h
  · obtain rfl : p.nBits = nBits := by simpa using h
    exact hp
  · simp only [Option.bind_eq_bind, Option.bind_eq_some_iff] at h
    obtain ⟨_, _, h⟩ := h
    split at h
    · exact deriveTarget_getCompact hlimit (le_refl _) h
    · simp only [Option.bind_eq_some_iff] at h
      obtain ⟨_, _, w, _, h⟩ := h
      cases w with
      | nil => cases h
      | cons w0 w =>
        simp only [Option.bind_eq_some_iff] at h
        obtain ⟨⟨t, sumTarget⟩, _, _, _, bnNew, hnew, hbits⟩ := h
        obtain ⟨hpos, hle⟩ := nextTarget_range hlimit hnew
        exact deriveTarget_getCompact hpos hle hbits

/-- At an LWMA height the work rule is the LWMA rule. -/
theorem getNextWorkRequired_of_height {params : Params} {p : CBlockIndex}
    (hheight : params.lwmaHeight ≤ p.nHeight + 1) (blockTime : Int) :
    getNextWorkRequired p blockTime params = lwmaGetNextWorkRequired p params := by
  obtain ⟨limit, hlimit, _⟩ := getCompact_eq params.powLimit
  simp [getNextWorkRequired, hlimit, hheight]

theorem Follows.accepted {params : Params} {p : CBlockIndex} (h : Follows params p) :
    ∀ q ∈ p.ancestry, Accepted params q.nBits := by
  induction h with
  | initial haccepted => exact haccepted
  | mined hparent hheight hnext ih =>
    rename_i p nTime nBits
    intro q hq
    rcases List.mem_cons.mp hq with rfl | hq
    · rw [getNextWorkRequired_of_height hheight] at hnext
      exact accepted_of_lwma (ih p p.self_mem_ancestry) hnext
    · exact ih q hq

/-- Under sane parameters the rule always returns. -/
theorem lwmaGetNextWorkRequired_total {params : Params} {N T ST : Nat}
    (hs : params.LwmaSane N T ST) (p : CBlockIndex) :
    ∃ nBits, lwmaGetNextWorkRequired p params = some nBits := by
  cases hretarget : params.fPowNoRetargeting with
  | true => exact ⟨p.nBits, by simp [lwmaGetNextWorkRequired, hretarget]⟩
  | false =>
    by_cases hshort : p.nHeight < N
    · obtain ⟨nBits, hbits, _⟩ := getCompact_eq params.powLimit
      refine ⟨nBits, ?_⟩
      simp [lwmaGetNextWorkRequired, hretarget, hs.window, hs.spacing, hs.solvetime, guard,
        hs.N_pos, hs.T_pos, hs.le, hshort, hbits]
    · obtain ⟨w0, w, hw, _⟩ := CBlockIndex.window_eq_some (show N ≤ p.nHeight by omega)
      obtain ⟨_, nBits, hnext, _⟩ := lwmaGetNextWorkRequired_eq hs hretarget hw
      exact ⟨nBits, hnext⟩

/-- The chain is never halted by an unmineable `nBits`: on every chain that
follows the rule, whatever its length and timestamps, each block's `nBits` is
accepted, and under sane parameters the rule returns acceptable `nBits` for the
next block too. Short histories, windows of targets below the divisor and limits
at which the overflow guard fires are all covered. -/
theorem chain_never_halts {params : Params} {p : CBlockIndex} (h : Follows params p) :
    (∀ q ∈ p.ancestry, Accepted params q.nBits) ∧
      ∀ N T ST : Nat, params.LwmaSane N T ST → params.lwmaHeight ≤ p.nHeight + 1 →
        ∀ nTime : UInt32, ∃ nBits, getNextWorkRequired p nTime.toNat params = some nBits ∧
          Accepted params nBits := by
  refine ⟨h.accepted, ?_⟩
  intro N T ST hs hheight nTime
  obtain ⟨nBits, hnext⟩ := lwmaGetNextWorkRequired_total hs p
  rw [getNextWorkRequired_of_height hheight]
  exact ⟨nBits, hnext, accepted_of_lwma (h.accepted p p.self_mem_ancestry) hnext⟩

theorem mainParams_sane : mainParams.LwmaSane 60 600 7200 := by
  constructor <;> norm_num [mainParams, lwmaK]

/-- A regtest chain with the rule active from height one, at the easiest target. -/
theorem chain_never_halts_regtest :
    Accepted (regTestParams false true 1) 0x207fffff ∧
      ∃ nBits, getNextWorkRequired (.genesis 0 0x207fffff) (7 : UInt32).toNat
          (regTestParams false true 1) =
        some nBits ∧ Accepted (regTestParams false true 1) nBits := by
  have haccepted : Accepted (regTestParams false true 1) 0x207fffff :=
    ⟨(setCompact 0x207fffff).value, by decide +kernel⟩
  have hgenesis : Follows (regTestParams false true 1) (.genesis 0 0x207fffff) := by
    apply Follows.initial
    intro q hq
    obtain rfl := List.mem_singleton.mp hq
    exact haccepted
  have hs : (regTestParams false true 1).LwmaSane 60 600 7200 := by
    constructor <;> norm_num [regTestParams, lwmaK]
  have hheight : (regTestParams false true 1).lwmaHeight ≤
      (CBlockIndex.genesis 0 0x207fffff).nHeight + 1 := by
    norm_num [regTestParams, CBlockIndex.nHeight]
  exact ⟨haccepted, (chain_never_halts hgenesis).2 60 600 7200 hs hheight 7⟩

end pcoin.pow
