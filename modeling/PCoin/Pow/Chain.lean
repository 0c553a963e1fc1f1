import PCoin.Arith.Compact

open pcoin.arith_uint256

namespace pcoin.pow

/-- A block index entry with its whole ancestry. The height is the number of
ancestors, which is what `AddToBlockIndex` maintains. -/
inductive CBlockIndex
  | genesis (nTime nBits : UInt32)
  | child (pprev : CBlockIndex) (nTime nBits : UInt32)
deriving DecidableEq

namespace CBlockIndex

def pprev : CBlockIndex → Option CBlockIndex
  | genesis _ _ => none
  | child p _ _ => some p

def nTime : CBlockIndex → UInt32
  | genesis t _ => t
  | child _ t _ => t

def nBits : CBlockIndex → UInt32
  | genesis _ b => b
  | child _ _ b => b

def nHeight : CBlockIndex → Nat
  | genesis _ _ => 0
  | child p _ _ => p.nHeight + 1

/-- `GetBlockTime()`: the unsigned header time widened to `int64_t`. -/
def getBlockTime (p : CBlockIndex) : Int := p.nTime.toNat

/-- `GetAncestor(height)`; `none` is the null pointer. -/
def getAncestor (p : CBlockIndex) (height : Int) : Option CBlockIndex :=
  if height > p.nHeight ∨ height < 0 then none
  else if (p.nHeight : Int) = height then some p
  else
    match p with
    | genesis _ _ => none
    | child q _ _ => q.getAncestor height

/-- The `pprev` walk that collects `n + 1` blocks, oldest first; `none` is the
failed `assert(p)` of a walk past genesis. -/
def window (p : CBlockIndex) : Nat → Option (List CBlockIndex)
  | 0 => some [p]
  | n + 1 =>
    match p with
    | genesis _ _ => none
    | child q _ _ => (q.window n).map (· ++ [p])

theorem window_eq_some {p : CBlockIndex} {n : Nat} (h : n ≤ p.nHeight) :
    ∃ w0 rest, p.window n = some (w0 :: rest) ∧ rest.length = n := by
  induction n generalizing p with
  | zero => exact ⟨p, [], by unfold window; rfl, rfl⟩
  | succ n ih =>
    cases p with
    | genesis t b => simp [nHeight] at h
    | child q t b =>
      obtain ⟨w0, rest, hw, hlen⟩ := ih (show n ≤ q.nHeight by simpa [nHeight] using h)
      exact ⟨w0, rest ++ [child q t b], by simp [window, hw], by simp [hlen]⟩

/-- The blocks of an ancestry, tip first. -/
def ancestry : CBlockIndex → List CBlockIndex
  | genesis t b => [genesis t b]
  | child p t b => child p t b :: p.ancestry

theorem self_mem_ancestry (p : CBlockIndex) : p ∈ p.ancestry := by
  cases p <;> simp [ancestry]

end CBlockIndex

/-- The consensus parameters that the work rules read. `powLimit` is held as the
`arith_uint256` that `UintToArith256` re-reads it into. -/
structure Params where
  powLimit : ArithUint256
  fPowAllowMinDifficultyBlocks : Bool
  enforce_BIP94 : Bool
  fPowNoRetargeting : Bool
  nPowTargetSpacing : Int
  nPowTargetTimespan : Int
  lwmaHeight : Int
  nLwmaAveragingWindow : Int
  nLwmaMaxSolvetime : Int

def Params.difficultyAdjustmentInterval (params : Params) : Int :=
  params.nPowTargetTimespan.tdiv params.nPowTargetSpacing

/-- The work parameters of `CMainParams`. -/
def mainParams : Params where
  powLimit :=
    { pn := List.replicate 7 0xffffffff ++ [0x000fffff]
      width := rfl }
  fPowAllowMinDifficultyBlocks := false
  enforce_BIP94 := false
  fPowNoRetargeting := false
  nPowTargetSpacing := 10 * 60
  nPowTargetTimespan := 14 * 24 * 60 * 60
  lwmaHeight := 2800
  nLwmaAveragingWindow := 60
  nLwmaMaxSolvetime := 12 * (10 * 60)

/-- The work parameters of `CRegTestParams` under its options. -/
def regTestParams (enforce_bip94 pow_retargeting : Bool) (lwmaHeight : Int) : Params where
  powLimit :=
    { pn := List.replicate 7 0xffffffff ++ [0x7fffffff]
      width := rfl }
  fPowAllowMinDifficultyBlocks := true
  enforce_BIP94 := enforce_bip94
  fPowNoRetargeting := !pow_retargeting
  nPowTargetSpacing := 10 * 60
  nPowTargetTimespan := 24 * 60 * 60
  lwmaHeight := lwmaHeight
  nLwmaAveragingWindow := 60
  nLwmaMaxSolvetime := 12 * (10 * 60)

/-- `DeriveTarget`: the decoded target of an acceptable `nBits`. -/
def deriveTarget (nBits : UInt32) (pow_limit : ArithUint256) : Option ArithUint256 :=
  let c := setCompact nBits
  if c.fNegative || c.value.isZero || c.fOverflow || c.value.gt pow_limit then none
  else some c.value

/-- An accepted `nBits` decodes to a positive target of at most the limit. -/
theorem deriveTarget_eq_some {nBits : UInt32} {pow_limit target : ArithUint256}
    (h : deriveTarget nBits pow_limit = some target) :
    target = (setCompact nBits).value ∧ target.toNat = lwma_ref.set_compact nBits.toNat ∧
      0 < target.toNat ∧ target.toNat ≤ pow_limit.toNat := by
  unfold deriveTarget at h
  simp only at h
  split at h
  · cases h
  · rename_i hreject
    simp only [Bool.or_eq_true, not_or, ArithUint256.isZero_iff, ArithUint256.gt_iff,
      not_lt] at hreject
    obtain rfl : (setCompact nBits).value = target := by simpa using h
    exact ⟨rfl, toNat_setCompact nBits, Nat.pos_of_ne_zero hreject.1.1.2, hreject.2⟩

/-- The encoding of any target in range is accepted. -/
theorem deriveTarget_getCompact {a pow_limit : ArithUint256} (hpos : 0 < a.toNat)
    (hle : a.toNat ≤ pow_limit.toNat) {nBits : UInt32} (hbits : getCompact a false = some nBits) :
    ∃ target, deriveTarget nBits pow_limit = some target := by
  obtain ⟨r, hr, hval⟩ := getCompact_eq a
  obtain rfl : r = nBits := by simpa [hr] using hbits
  obtain ⟨m, e, j, hc, hm, hmlt, he, hcap, hj, _, _⟩ :=
    lwma_ref.get_compact_spec hpos a.toNat_lt
  obtain ⟨hneg, hover⟩ := setCompact_flags (hval.trans hc) hmlt he hcap
  have hdec : (setCompact r).value.toNat = lwma_ref.set_compact (lwma_ref.get_compact a.toNat) := by
    rw [toNat_setCompact, hval]
  have hupper := lwma_ref.set_compact_get_compact_le hpos a.toNat_lt
  have hlower := lwma_ref.lt_set_compact_get_compact hpos a.toNat_lt
  have hzero : (setCompact r).value.isZero = false := by
    rw [← Bool.not_eq_true, ArithUint256.isZero_iff, hdec]
    omega
  have hgt : (setCompact r).value.gt pow_limit = false := by
    rw [← Bool.not_eq_true, ArithUint256.gt_iff, hdec]
    omega
  exact ⟨(setCompact r).value, by simp [deriveTarget, hneg, hover, hzero, hgt]⟩

end pcoin.pow
