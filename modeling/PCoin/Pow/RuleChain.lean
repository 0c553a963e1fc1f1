import PCoin.Pow.Bracket
import PCoin.Pow.Backdating

open pcoin.arith_uint256

namespace pcoin.pow

/-- Chains that start with a window of `N + 1` blocks of one acceptable `nBits`,
followed by `n` blocks that carry what the rule returned for their parent, all of
them with decoded targets of at least `2 ^ 64`. The timestamps are arbitrary. -/
inductive RuleChain : Nat → CBlockIndex → Prop
  | start {p : CBlockIndex} {w : List CBlockIndex} {nBits : UInt32}
      (hw : p.window 60 = some w) (hequal : ∀ q ∈ w, q.nBits = nBits)
      (haccepted : Accepted mainParams nBits)
      (hsize : 2 ^ 64 ≤ (setCompact nBits).value.toNat) : RuleChain 0 p
  | mined {n : Nat} {p : CBlockIndex} {nTime nBits : UInt32} (hparent : RuleChain n p)
      (hnext : lwmaGetNextWorkRequired p mainParams = some nBits)
      (hsize : 2 ^ 64 ≤ (setCompact nBits).value.toNat) :
      RuleChain (n + 1) (.child p nTime nBits)

theorem CBlockIndex.window_last {p : CBlockIndex} {n : Nat} {w : List CBlockIndex}
    (hw : p.window n = some w) : ∃ front, w = front ++ [p] := by
  cases n with
  | zero =>
    unfold window at hw
    exact ⟨[], by simpa using hw.symm⟩
  | succ n =>
    cases p with
    | genesis t b => simp [window] at hw
    | child q t b =>
      simp only [window, Option.map_eq_some_iff] at hw
      obtain ⟨v, _, rfl⟩ := hw
      exact ⟨v, rfl⟩

theorem CBlockIndex.window_tail {p w0 : CBlockIndex} {n : Nat} {w : List CBlockIndex}
    (hw : p.window (n + 1) = some (w0 :: w)) : p.window n = some w := by
  induction n generalizing p w with
  | zero =>
    cases p with
    | genesis t b => simp [window] at hw
    | child q t b =>
      obtain ⟨_, rfl⟩ : w0 = q ∧ w = [child q t b] := by
        have : [q, child q t b] = w0 :: w := by
          unfold window at hw
          simpa [window] using hw
        simpa [eq_comm] using this
      unfold window
      rfl
  | succ n ih =>
    cases p with
    | genesis t b => simp [window] at hw
    | child q t b =>
      simp only [window, Option.map_eq_some_iff] at hw
      obtain ⟨v, hv, happend⟩ := hw
      cases v with
      | nil =>
        have := (le_nHeight_of_window (show q.window (n + 1) = some [] by simpa [window] using hv)).2
        simp at this
      | cons v0 v =>
        obtain ⟨rfl, rfl⟩ : v0 = w0 ∧ v ++ [child q t b] = w := by simpa using happend
        have := ih (show q.window (n + 1) = some (v0 :: v) by simpa [window] using hv)
        simp [window, this]

/-- What holds at the tip `p` of such a chain. The window is `w0 :: blocks ++ [p]`:
its targets are steady, and either all equal, or `p` was bracketed by the rule
from the window one block back, in which the oldest target was not dominant. -/
structure CapInvariant (n : Nat) (p w0 : CBlockIndex) (blocks : List CBlockIndex) : Prop where
  window : p.window 60 = some (w0 :: (blocks ++ [p]))
  length : blocks.length = 59
  size : ∀ q ∈ w0 :: (blocks ++ [p]), Sizeable q
  steady : Steady ((blocks ++ [p]).map decodedTarget).reverse
  origin : (n = 0 ∧ ∀ q ∈ w0 :: (blocks ++ [p]), decodedTarget q = decodedTarget p) ∨
    0 < n ∧ ∃ v0 t', p.window 61 = some (v0 :: w0 :: (blocks ++ [p])) ∧
      clampedSum v0.getBlockTime ((w0 :: blocks).map CBlockIndex.getBlockTime) = (t' : Nat) ∧
      Bracket ((w0 :: blocks).map decodedTarget).sum t' (decodedTarget p) ∧
      20 * decodedTarget w0 ≤ 11 * ((w0 :: blocks).map decodedTarget).sum

section Step

variable {n : Nat} {p w0 : CBlockIndex} {blocks : List CBlockIndex} {nBits : UInt32}
  (h : CapInvariant n p w0 blocks) (hnext : lwmaGetNextWorkRequired p mainParams = some nBits)

include h hnext

/-- The bracket of the next target, with the bounds on its clamped sum. -/
theorem CapInvariant.bracket : ∃ t : Nat,
    clampedSum w0.getBlockTime ((blocks ++ [p]).map CBlockIndex.getBlockTime) = t ∧
      366000 ≤ t ∧ t ≤ 13176000 ∧
      Bracket ((blocks ++ [p]).map decodedTarget).sum t (setCompact nBits).value.toNat := by
  obtain ⟨t, ht, hlow, hhigh⟩ := clampedSum_bounds w0.getBlockTime
    (show ((blocks ++ [p]).map CBlockIndex.getBlockTime).length = 60 by simp [h.length])
  exact ⟨t, ht, hlow, hhigh, bracket_of_lwma h.window
    (fun q hq => h.size q (List.mem_cons_of_mem _ hq)) hnext ht⟩

/-- The step: the next target against its parent's. -/
theorem CapInvariant.next_bounds :
    (2 ^ 14 - 1) * decodedTarget p ≤ 2 ^ 14 * (3 * (setCompact nBits).value.toNat) ∧
      (0 < n → decodedTarget p ≤ 3 * (setCompact nBits).value.toNat) ∧
      ((n = 0 ∨ ∃ v0 v1 w, p.window 61 = some (v0 :: v1 :: w) ∧
          v0.getBlockTime ≤ v1.getBlockTime + 64800) →
        (setCompact nBits).value.toNat ≤ 12 * decodedTarget p) := by
  obtain ⟨t, ht, hlow, hhigh, hbracket⟩ := h.bracket hnext
  have hsplit : ((blocks ++ [p]).map decodedTarget).sum =
      (blocks.map decodedTarget).sum + decodedTarget p := by simp
  rcases h.origin with ⟨hn, hequal⟩ | ⟨hn, v0, t', hv, ht', hparent, holdest⟩
  · have hsum : ((blocks ++ [p]).map decodedTarget).sum = 60 * decodedTarget p := by
      have hreplicate : (blocks ++ [p]).map decodedTarget =
          List.replicate 60 (decodedTarget p) := by
        rw [List.eq_replicate_iff]
        refine ⟨by simp [h.length], ?_⟩
        intro target htarget
        obtain ⟨q, hq, rfl⟩ := List.mem_map.mp htarget
        exact hequal q (List.mem_cons_of_mem _ hq)
      rw [hreplicate, List.sum_replicate, smul_eq_mul]
    have hsize := (h.size p (by simp)).2
    obtain ⟨hge, hle⟩ := hbracket.of_equal hsum hsize hlow hhigh
    exact ⟨hge, by omega, fun _ => hle⟩
  · have hlen : (blocks.map CBlockIndex.getBlockTime).length = 59 := by simp [h.length]
    have hsum' : ((w0 :: blocks).map decodedTarget).sum =
        decodedTarget w0 + (blocks.map decodedTarget).sum := by simp
    have hge := @clampedSum_shift_ge v0.getBlockTime w0.getBlockTime p.getBlockTime _ hlen
    rw [List.map_cons] at ht'
    rw [List.map_append, List.map_singleton] at ht
    have hthird : decodedTarget p ≤ 3 * (setCompact nBits).value.toNat :=
      hbracket.parent_le hparent (show _ + decodedTarget w0 = _ by omega) holdest (by omega)
    refine ⟨by omega, fun _ => hthird, ?_⟩
    intro hahead
    obtain ⟨s', hs', hlow', hhigh'⟩ := clampedSum_bounds v0.getBlockTime
      (show (w0.getBlockTime :: blocks.map CBlockIndex.getBlockTime).length = 60 by
        simp [h.length])
    rcases hahead with hzero | ⟨u0, u1, w, hu, hstamp⟩
    · omega
    · obtain ⟨rfl, rfl, _⟩ : v0 = u0 ∧ w0 = u1 ∧ blocks ++ [p] = w := by simpa [hv] using hu
      have hle := @clampedSum_shift_le v0.getBlockTime w0.getBlockTime p.getBlockTime _ hlen hstamp
      exact hbracket.le_parent hparent (by omega) (by omega) (by omega) (by omega)

end Step

/-- In a steady full window the oldest target is not dominant. -/
theorem oldest_le_of_steady {u0 : CBlockIndex} {w : List CBlockIndex} (hlen : w.length = 59)
    (hsteady : Steady ((u0 :: w).map decodedTarget).reverse) :
    20 * decodedTarget u0 ≤ 11 * ((u0 :: w).map decodedTarget).sum := by
  cases w with
  | nil => simp at hlen
  | cons u1 w =>
    have hform : ((u0 :: u1 :: w).map decodedTarget).reverse =
        (w.map decodedTarget).reverse ++ [decodedTarget u1, decodedTarget u0] := by simp
    rw [hform] at hsteady
    have hle := hsteady.oldest_le (by simpa using hlen)
    rwa [← hform, List.sum_reverse] at hle

theorem sum_decodedTarget_le {w : List CBlockIndex} (hw : ∀ p ∈ w, Sizeable p) :
    (w.map decodedTarget).sum ≤ w.length * (2 ^ 244 - 1) := by
  have h := List.sum_le_card_nsmul (w.map decodedTarget) (2 ^ 244 - 1) (by
    intro target htarget
    obtain ⟨p, hp, rfl⟩ := List.mem_map.mp htarget
    exact (hw p hp).2)
  rwa [List.length_map, smul_eq_mul] at h

/-- The step keeps the invariant. -/
theorem CapInvariant.step {n : Nat} {p w0 u0 : CBlockIndex} {blocks : List CBlockIndex}
    {nTime nBits : UInt32} (h : CapInvariant n p w0 (u0 :: blocks))
    (hnext : lwmaGetNextWorkRequired p mainParams = some nBits)
    (hsize : 2 ^ 64 ≤ (setCompact nBits).value.toNat) :
    CapInvariant (n + 1) (.child p nTime nBits) u0 (blocks ++ [p]) := by
  obtain ⟨hthird, _, _⟩ := h.next_bounds hnext
  obtain ⟨t, ht, hlow, hhigh, hbracket⟩ := h.bracket hnext
  have hlen : (blocks ++ [p]).length = 59 := by simpa using h.length
  have hsizes (q : CBlockIndex) (hq : q ∈ u0 :: (blocks ++ [p])) : Sizeable q :=
    h.size q (List.mem_cons_of_mem _ hq)
  have htarget : decodedTarget (.child p nTime nBits) = (setCompact nBits).value.toNat := rfl
  refine ⟨?_, hlen, ?_, ?_, ?_⟩
  · have htail := CBlockIndex.window_tail h.window
    simp only [CBlockIndex.window, htail, Option.map_some, List.cons_append]
  · intro q hq
    simp only [List.mem_cons, List.mem_append, List.not_mem_nil, or_false] at hq
    rcases hq with hq | (hq | hq) | rfl
    · exact hsizes q (by simp [hq])
    · exact hsizes q (by simp [hq])
    · exact hsizes q (by simp [hq])
    · exact ⟨hsize, hbracket.le_limit⟩
  · have hform : ((blocks ++ [p] ++ [CBlockIndex.child p nTime nBits]).map decodedTarget).reverse =
        (setCompact nBits).value.toNat :: ((blocks ++ [p]).map decodedTarget).reverse := by
      simp [htarget]
    have holder : ((blocks ++ [p]).map decodedTarget).reverse =
        ((u0 :: blocks ++ [p]).map decodedTarget).reverse.dropLast := by
      rw [List.cons_append, List.map_cons, List.reverse_cons, List.dropLast_concat]
    have hsum := hbracket.sum_le (by simpa [hlen] using sum_decodedTarget_le hsizes) hlow
    rw [hform]
    refine ⟨?_, ?_, ?_⟩
    · rw [List.sum_reverse]
      simp only [List.cons_append, List.map_cons, List.sum_cons] at hsum
      omega
    · intro parent hparent
      obtain rfl : decodedTarget p = parent := by simpa using hparent
      omega
    · rw [holder]
      exact h.steady.dropLast
  · refine .inr ⟨n.succ_pos, w0, t, ?_, by simpa using ht, by simpa [htarget] using hbracket, ?_⟩
    · simp only [CBlockIndex.window, h.window, Option.map_some, List.cons_append]
    · exact oldest_le_of_steady hlen (by simpa using h.steady)

/-- The start of a chain meets the invariant. -/
theorem capInvariant_start {p : CBlockIndex} {w : List CBlockIndex} {nBits : UInt32}
    (hw : p.window 60 = some w) (hequal : ∀ q ∈ w, q.nBits = nBits)
    (haccepted : Accepted mainParams nBits)
    (hsize : 2 ^ 64 ≤ (setCompact nBits).value.toNat) :
    ∃ w0 u0 blocks, CapInvariant 0 p w0 (u0 :: blocks) := by
  obtain ⟨front, rfl⟩ := CBlockIndex.window_last hw
  have hlen := (CBlockIndex.le_nHeight_of_window hw).2
  rw [List.length_append, List.length_singleton] at hlen
  obtain ⟨w0, u0, blocks, rfl⟩ : ∃ w0 u0 blocks, front = w0 :: u0 :: blocks := by
    match front, hlen with
    | w0 :: u0 :: blocks, _ => exact ⟨w0, u0, blocks, rfl⟩
  have hlimit : (setCompact nBits).value.toNat ≤ 2 ^ 244 - 1 := by
    obtain ⟨target, htarget⟩ := haccepted
    obtain ⟨rfl, _, _, hle⟩ := deriveTarget_eq_some htarget
    rwa [toNat_mainLimit] at hle
  have htarget (q : CBlockIndex) (hq : q ∈ w0 :: u0 :: blocks ++ [p]) :
      decodedTarget q = (setCompact nBits).value.toNat := by
    rw [decodedTarget, hequal q hq]
  refine ⟨w0, u0, blocks, hw, by simpa using hlen, ?_, ?_, .inl ⟨rfl, ?_⟩⟩
  · intro q hq
    rw [Sizeable, htarget q hq]
    exact ⟨hsize, hlimit⟩
  · have hreplicate : ((u0 :: blocks ++ [p]).map decodedTarget).reverse =
        List.replicate 60 (setCompact nBits).value.toNat := by
      rw [List.eq_replicate_iff]
      refine ⟨by simpa using hlen, ?_⟩
      intro target hmem
      obtain ⟨q, hq, rfl⟩ := List.mem_map.mp (List.mem_reverse.mp hmem)
      exact htarget q (List.mem_cons_of_mem _ hq)
    rw [hreplicate]
    exact steady_replicate (by norm_num)
  · intro q hq
    rw [htarget q hq, htarget p (by simp)]

/-- The run: every chain meets the invariant at its tip. -/
theorem RuleChain.invariant {n : Nat} {p : CBlockIndex} (h : RuleChain n p) :
    ∃ w0 u0 blocks, CapInvariant n p w0 (u0 :: blocks) := by
  induction h with
  | start hw hequal haccepted hsize => exact capInvariant_start hw hequal haccepted hsize
  | mined hparent hnext hsize ih =>
    obtain ⟨w0, u0, blocks, hinv⟩ := ih
    cases blocks with
    | nil =>
      have := hinv.length
      simp at this
    | cons u1 blocks => exact ⟨u0, u1, blocks ++ [_], hinv.step hnext hsize⟩

/-- The per-block cap on a rule-following chain with mainnet parameters. For any
timestamps the next target is at least a third of its parent's, exactly so from
the second rule block on and up to the rounding `1 - 2 ^ -14` for the first. It
is at most twelve times its parent's if the block that leaves the window was
stamped at most `9 * ST` after the block that now opens it. -/
theorem per_block_cap {n : Nat} {p : CBlockIndex} (h : RuleChain n p) {nBits : UInt32}
    (hnext : lwmaGetNextWorkRequired p mainParams = some nBits) :
    (2 ^ 14 - 1) * decodedTarget p ≤ 2 ^ 14 * (3 * (setCompact nBits).value.toNat) ∧
      (0 < n → decodedTarget p ≤ 3 * (setCompact nBits).value.toNat) ∧
      ((n = 0 ∨ ∃ v0 v1 w, p.window 61 = some (v0 :: v1 :: w) ∧
          v0.getBlockTime ≤ v1.getBlockTime + 9 * 7200) →
        (setCompact nBits).value.toNat ≤ 12 * decodedTarget p) := by
  obtain ⟨w0, u0, blocks, hinv⟩ := h.invariant
  exact hinv.next_bounds hnext

/-- The rule read off the stamps and the `nBits` of a window. -/
theorem lwma_of_window {p w0 : CBlockIndex} {w : List CBlockIndex}
    (hw : p.window 60 = some (w0 :: w)) {bits : List UInt32} (hbits : w.map CBlockIndex.nBits = bits)
    {t : Nat}
    (ht : clampedSum w0.getBlockTime (w.map CBlockIndex.getBlockTime) = t) {nBits : UInt32}
    (hnext : lwma_ref.get_compact (max 1 (min (2 ^ 244 - 1)
      ((bits.map fun b => lwma_ref.set_compact b.toNat / 65880000).sum * t))) = nBits.toNat) :
    lwmaGetNextWorkRequired p mainParams = some nBits := by
  subst hbits
  obtain ⟨bnNew, r, hr, hcompact, hval⟩ := lwmaGetNextWorkRequired_eq mainParams_sane rfl hw
  obtain ⟨s, hs, hround⟩ := getCompact_eq bnNew
  obtain rfl : s = r := by simpa [hs] using hcompact
  have hclamp : lwmaTarget (2 ^ 244 - 1) 60 600 7200 w0 w = max 1 (min (2 ^ 244 - 1)
      (((w.map CBlockIndex.nBits).map fun b => lwma_ref.set_compact b.toNat / 65880000).sum * t)) := by
    have hmax : max (weightedSum (7200 : Nat) 1 w0.getBlockTime
        (w.map CBlockIndex.getBlockTime)) ((lwmaK 60 600 / 3 : Nat) : Int) = t := by
      rw [← ht, clampedSum, mainK]
      norm_num
    rw [lwmaTarget, hmax, mainK, Int.toNat_natCast, targetSum, List.map_map]
    rfl
  rw [toNat_mainLimit, hclamp] at hval
  rw [hval, hnext] at hround
  rw [hr, UInt32.toNat_inj.mp hround]

/-- A chain start whose first block is stamped far ahead of the others. -/
def aheadStart : CBlockIndex :=
  extend 0x1d00ffff (.genesis 4000000000 0x1d00ffff)
    ((List.range' 1 60).map fun i => UInt32.ofNat (1000000000 + 7200 * i))

theorem aheadStart_window : ∃ u0 w,
    aheadStart.window 60 = some (.genesis 4000000000 0x1d00ffff :: u0 :: w) ∧
      (u0 :: w).map CBlockIndex.nTime =
        (List.range' 1 60).map (fun i => UInt32.ofNat (1000000000 + 7200 * i)) ∧
      (u0 :: w).map CBlockIndex.nBits = List.replicate 60 0x1d00ffff := by
  obtain ⟨w, hw, htimes, hbits⟩ := window_extend 0x1d00ffff (.genesis 4000000000 0x1d00ffff)
    ((List.range' 1 60).map fun i => UInt32.ofNat (1000000000 + 7200 * i))
  have hlen : w.length = 60 := by simpa using congrArg List.length htimes
  cases w with
  | nil => simp at hlen
  | cons u0 w =>
    refine ⟨u0, w, by simpa [aheadStart] using hw, htimes, ?_⟩
    rw [List.eq_replicate_iff]
    refine ⟨by simpa using hlen, ?_⟩
    intro b hb
    obtain ⟨q, hq, rfl⟩ := List.mem_map.mp hb
    exact hbits q hq

theorem map_getBlockTime (w : List CBlockIndex) : w.map CBlockIndex.getBlockTime =
    (w.map CBlockIndex.nTime).map fun stamp => (stamp.toNat : Int) := by
  simp [CBlockIndex.getBlockTime]

/-- The two targets that follow. -/
theorem aheadStart_compact :
    lwma_ref.get_compact (max 1 (min (2 ^ 244 - 1)
      (((List.replicate 60 (0x1d00ffff : UInt32)).map fun b : UInt32 =>
        lwma_ref.set_compact b.toNat / 65880000).sum * 366000))) = UInt32.toNat 0x1c5554ff ∧
    lwma_ref.get_compact (max 1 (min (2 ^ 244 - 1)
      (((List.replicate 59 (0x1d00ffff : UInt32) ++ [0x1c5554ff]).map fun b : UInt32 =>
        lwma_ref.set_compact b.toNat / 65880000).sum * 13176000))) = UInt32.toNat 0x1d0bddd1 := by
  decide +kernel

/-- All but the first block are stamped behind it, so the first rule block gets a
third of the target. -/
theorem aheadStart_next :
    RuleChain 0 aheadStart ∧ lwmaGetNextWorkRequired aheadStart mainParams = some 0x1c5554ff := by
  obtain ⟨u0, w, hw, htimes, hbits⟩ := aheadStart_window
  constructor
  · refine @RuleChain.start _ _ 0x1d00ffff hw ?_
      ⟨(setCompact 0x1d00ffff).value, by rfl⟩ (by decide)
    intro q hq
    rcases List.mem_cons.mp hq with rfl | hq
    · rfl
    · have := List.mem_map_of_mem (f := CBlockIndex.nBits) hq
      rw [hbits] at this
      exact List.eq_of_mem_replicate this
  · refine lwma_of_window hw hbits (t := 366000) ?_ ?_
    · rw [map_getBlockTime, htimes]
      rfl
    · exact aheadStart_compact.1

/-- The block stamped ahead has left the window: every solvetime counts in full
and the second rule block gets almost twelve times the original target. -/
theorem aheadStart_next_next :
    RuleChain 1 (.child aheadStart 1000439200 0x1c5554ff) ∧
      lwmaGetNextWorkRequired (.child aheadStart 1000439200 0x1c5554ff) mainParams =
        some 0x1d0bddd1 := by
  obtain ⟨hstart, hnext⟩ := aheadStart_next
  obtain ⟨u0, w, hw, htimes, hbits⟩ := aheadStart_window
  refine ⟨.mined hstart hnext (by decide), ?_⟩
  have htail : (CBlockIndex.child aheadStart 1000439200 0x1c5554ff).window 60 =
      some (u0 :: (w ++ [CBlockIndex.child aheadStart 1000439200 0x1c5554ff])) := by
    simp only [CBlockIndex.window, CBlockIndex.window_tail hw, Option.map_some, List.cons_append]
  rw [List.range'_succ, List.map_cons, List.map_cons, List.cons.injEq] at htimes
  obtain ⟨hfirst, hrest⟩ := htimes
  have hrestBits : w.map CBlockIndex.nBits = List.replicate 59 0x1d00ffff := by
    rw [List.replicate_succ, List.map_cons, List.cons.injEq] at hbits
    exact hbits.2
  have hbits' : (w ++ [CBlockIndex.child aheadStart 1000439200 0x1c5554ff]).map CBlockIndex.nBits =
      List.replicate 59 0x1d00ffff ++ [0x1c5554ff] := by
    rw [List.map_append, hrestBits]
    rfl
  refine lwma_of_window htail hbits' (t := 13176000) ?_ ?_
  · have hstamps : (w ++ [CBlockIndex.child aheadStart 1000439200 0x1c5554ff]).map
        CBlockIndex.nTime = (List.range' 2 60).map fun i => UInt32.ofNat (1000000000 + 7200 * i) := by
      rw [List.map_append, hrest]
      rfl
    have hbase : u0.getBlockTime = 1000007200 := by
      rw [CBlockIndex.getBlockTime, hfirst]
      rfl
    rw [map_getBlockTime, hstamps, hbase]
    rfl
  · exact aheadStart_compact.2

/-- Both documented caps are broken on that chain: the first rule block falls
below a third of its parent by rounding, and the second is 35 times its parent. -/
theorem caps_exceeded :
    RuleChain 1 (.child aheadStart 1000439200 0x1c5554ff) ∧
      lwmaGetNextWorkRequired (.child aheadStart 1000439200 0x1c5554ff) mainParams =
        some 0x1d0bddd1 ∧
      3 * (setCompact 0x1c5554ff).value.toNat < decodedTarget aheadStart ∧
      12 * (setCompact 0x1c5554ff).value.toNat < (setCompact 0x1d0bddd1).value.toNat := by
  obtain ⟨hchain, hnext⟩ := aheadStart_next_next
  refine ⟨hchain, hnext, ?_, by decide +kernel⟩
  have hbits : aheadStart.nBits = 0x1d00ffff := rfl
  rw [decodedTarget, hbits]
  decide +kernel

/-- The bounds that do hold at those two blocks. -/
theorem per_block_cap_ahead :
    ((2 ^ 14 - 1) * decodedTarget aheadStart ≤
        2 ^ 14 * (3 * (setCompact 0x1c5554ff).value.toNat) ∧
      (setCompact 0x1c5554ff).value.toNat ≤ 12 * decodedTarget aheadStart) ∧
      decodedTarget (.child aheadStart 1000439200 0x1c5554ff) ≤
        3 * (setCompact 0x1d0bddd1).value.toNat := by
  obtain ⟨hstart, hnext⟩ := aheadStart_next
  obtain ⟨hchain, hnext'⟩ := aheadStart_next_next
  obtain ⟨hge, _, hle⟩ := per_block_cap hstart hnext
  obtain ⟨_, hthird, _⟩ := per_block_cap hchain hnext'
  exact ⟨⟨hge, hle (.inl rfl)⟩, hthird (by norm_num)⟩

end pcoin.pow
