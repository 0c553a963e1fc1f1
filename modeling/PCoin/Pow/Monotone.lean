import PCoin.Pow.Liveness

/-! Longer solvetimes and easier targets never make the next target harder. -/

open pcoin.arith_uint256

namespace pcoin.pow

/-- The target that `nBits` decodes to. -/
def decoded (nBits : UInt32) : Nat := (setCompact nBits).value.toNat

/-- The timestamps of a window with `delta` added to those from index `j` on: a
solvetime of block `j` that is longer by `delta`. -/
def delayed (j : Nat) (delta : Int) (times : List Int) : List Int :=
  times.take j ++ (times.drop j).map (· + delta)

/-- A window in which only the solvetime of block `j` is longer. -/
structure Delayed (j : Nat) (delta : Int) (w w' : List CBlockIndex) : Prop where
  times : w'.map CBlockIndex.getBlockTime = delayed j delta (w.map CBlockIndex.getBlockTime)
  nBits : w'.map CBlockIndex.nBits = w.map CBlockIndex.nBits

/-- A window with the same timestamps and no harder target. -/
structure Eased (w w' : List CBlockIndex) : Prop where
  times : w'.map CBlockIndex.getBlockTime = w.map CBlockIndex.getBlockTime
  targets : List.Forall₂ (fun p q => decoded p.nBits ≤ decoded q.nBits) w w'

/-- Solvetimes depend on the differences of the timestamps only. -/
theorem weightedSum_add (ST : Int) (i : Nat) (prev delta : Int) (xs : List Int) :
    weightedSum ST i (prev + delta) (xs.map (· + delta)) = weightedSum ST i prev xs := by
  induction xs generalizing i prev with
  | nil => rfl
  | cons x xs ih =>
    have hmax : max (x + delta) (prev + delta) = max x prev + delta := max_add_add_right x prev delta
    simp only [weightedSum, List.map_cons, hmax, ih, add_sub_add_right_eq_sub]

/-- An earlier running maximum only lengthens the solvetimes. -/
theorem weightedSum_anti (ST : Int) (i : Nat) {prev prev' : Int} (h : prev' ≤ prev)
    (xs : List Int) : weightedSum ST i prev xs ≤ weightedSum ST i prev' xs := by
  induction xs generalizing i prev prev' with
  | nil => exact le_refl _
  | cons x xs ih =>
    have hsolve : min ST (max x prev - prev) ≤ min ST (max x prev' - prev') := by omega
    have hmax : max x prev' ≤ max x prev := max_le_max_left x h
    exact add_le_add (mul_le_mul_of_nonneg_right hsolve (Int.natCast_nonneg i)) (ih _ hmax)

/-- A longer solvetime never lowers the weighted sum: the later solvetimes are
measured against a maximum that moved by no more than their own timestamps. -/
theorem weightedSum_delayed (ST : Int) (i j : Nat) (prev : Int) {delta : Int} (h : 0 ≤ delta)
    (xs : List Int) : weightedSum ST i prev xs ≤ weightedSum ST i prev (delayed j delta xs) := by
  induction xs generalizing i j prev with
  | nil => simp [delayed]
  | cons x xs ih =>
    cases j with
    | zero =>
      have hshift := weightedSum_add ST i (prev - delta) delta (x :: xs)
      rw [Int.sub_add_cancel] at hshift
      simp only [delayed, List.take_zero, List.drop_zero, List.nil_append, hshift]
      exact weightedSum_anti ST i (by omega) (x :: xs)
    | succ j => exact Int.add_le_add_left (ih (i + 1) j (max x prev)) _

/-- The same with the timestamp that the first solvetime is measured from. -/
theorem weightedSum_of_delayed (ST : Int) {j : Nat} {delta : Int} (h : 0 ≤ delta)
    {w0 w0' : CBlockIndex} {w w' : List CBlockIndex} (hw : Delayed j delta (w0 :: w) (w0' :: w')) :
    weightedSum ST 1 w0.getBlockTime (w.map CBlockIndex.getBlockTime) ≤
      weightedSum ST 1 w0'.getBlockTime (w'.map CBlockIndex.getBlockTime) := by
  have htimes := hw.times
  cases j with
  | zero =>
    simp only [delayed, List.take_zero, List.drop_zero, List.nil_append, List.map_cons,
      List.cons.injEq] at htimes
    obtain ⟨hfirst, hrest⟩ := htimes
    rw [hfirst, hrest, weightedSum_add]
  | succ j =>
    obtain ⟨hfirst, hrest⟩ := List.cons.inj htimes
    rw [hfirst, hrest]
    exact weightedSum_delayed ST 1 j w0.getBlockTime h _

theorem targetSum_eased (denom : Nat) {w w' : List CBlockIndex}
    (h : List.Forall₂ (fun p q => decoded p.nBits ≤ decoded q.nBits) w w') :
    targetSum denom w ≤ targetSum denom w' := by
  induction h with
  | nil => exact le_refl _
  | cons hpq _ ih =>
    simp only [decoded, toNat_setCompact] at hpq
    exact Nat.add_le_add (Nat.div_le_div_right hpq) ih

theorem targetSum_congr (denom : Nat) {w w' : List CBlockIndex}
    (h : w'.map CBlockIndex.nBits = w.map CBlockIndex.nBits) :
    targetSum denom w' = targetSum denom w := by
  have hsum := congrArg (fun bits => (bits.map fun b : UInt32 =>
    lwma_ref.set_compact b.toNat / denom).sum) h
  simpa [targetSum, Function.comp_def] using hsum

/-- The clamps keep the order of the product they clamp. -/
theorem lwmaTarget_mono (limit N T ST : Nat) {w0 w0' : CBlockIndex} {w w' : List CBlockIndex}
    (htime : weightedSum ST 1 w0.getBlockTime (w.map CBlockIndex.getBlockTime) ≤
      weightedSum ST 1 w0'.getBlockTime (w'.map CBlockIndex.getBlockTime))
    (htarget : targetSum (lwmaK N T * N) w ≤ targetSum (lwmaK N T * N) w') :
    lwmaTarget limit N T ST w0 w ≤ lwmaTarget limit N T ST w0' w' := by
  have hclamped := Int.toNat_le_toNat (max_le_max_right ((lwmaK N T / 3 : Nat) : Int) htime)
  exact max_le_max_left 1 (min_le_min_left limit (Nat.mul_le_mul htarget hclamped))

/-- The last block of a window is the one it was collected from. -/
theorem CBlockIndex.getLast?_window {p : CBlockIndex} {n : Nat} {w : List CBlockIndex}
    (hw : p.window n = some w) : w.getLast? = some p := by
  cases n with
  | zero =>
    obtain rfl : [p] = w := by
      unfold window at hw
      simpa using hw
    rfl
  | succ n =>
    cases p with
    | genesis t b => simp [window] at hw
    | child q t b =>
      simp only [window, Option.map_eq_some_iff] at hw
      obtain ⟨v, _, rfl⟩ := hw
      exact List.getLast?_concat

/-- Whenever the rule returns on a full window, it returns the encoding of the
target over the integers. -/
theorem toNat_lwmaGetNextWorkRequired {params : Params} {N : Nat}
    (hN : params.nLwmaAveragingWindow = N) (hretarget : params.fPowNoRetargeting = false)
    {p w0 : CBlockIndex} {w : List CBlockIndex} (hw : p.window N = some (w0 :: w))
    {nBits : UInt32} (h : lwmaGetNextWorkRequired p params = some nBits) :
    ∃ T ST : Nat, params.nPowTargetSpacing = T ∧ params.nLwmaMaxSolvetime = ST ∧
      nBits.toNat =
        lwma_ref.get_compact (lwmaTarget params.powLimit.toNat N T ST w0 w) := by
  obtain ⟨hheight, hlen⟩ := CBlockIndex.le_nHeight_of_window hw
  have hwlen : w.length = N := by simpa using hlen
  simp only [lwmaGetNextWorkRequired, hretarget, hN, Bool.false_eq_true, if_false,
    Option.bind_eq_bind, Option.bind_eq_some_iff, Option.guard_eq_some', Int.toNat_natCast, hw,
    if_neg (show ¬ (p.nHeight : Int) < N by omega), Option.some.injEq, exists_eq_left'] at h
  obtain ⟨_, ⟨hNpos, hTpos, hSTle⟩, _, hdenom, ⟨t, sumTarget⟩, hacc, _, hrange, bnNew, hnew, hbits⟩ := h
  obtain ⟨T, hT⟩ := Int.eq_ofNat_of_zero_le hTpos.le
  obtain ⟨ST, hST⟩ := Int.eq_ofNat_of_zero_le (hTpos.le.trans hSTle)
  have hk : (N : Int) * (N + 1) * T / 2 = lwmaK N T := by
    rw [lwmaK]
    push_cast
    rfl
  rw [hT, hk] at hdenom hacc hrange hnew
  have hdenomNat : ((lwmaK N T : Int) * N).toNat = lwmaK N T * N := by
    rw [← Nat.cast_mul, Int.toNat_natCast]
  have hkpos : 0 < lwmaK N T := by
    have := pos_of_mul_pos_left hdenom.1 (Int.natCast_nonneg N)
    omega
  have hdenomLe : lwmaK N T * N ≤ 2 ^ 32 - 1 := by
    have := hdenom.2
    rw [← Nat.cast_mul] at this
    unfold uint32Max at this
    omega
  rw [hdenomNat, hST] at hacc
  obtain ⟨sum, hsum, hval⟩ :=
    accumulate_window ST hkpos (by omega) hdenomLe w0 hwlen
  obtain ⟨rfl, rfl⟩ := Prod.mk.inj (Option.some.inj (hsum.symm.trans hacc))
  have hmax : (if weightedSum ST 1 w0.getBlockTime (w.map CBlockIndex.getBlockTime) <
      (lwmaK N T : Int) / 3 then (lwmaK N T : Int) / 3
      else weightedSum ST 1 w0.getBlockTime (w.map CBlockIndex.getBlockTime)) =
      max (weightedSum ST 1 w0.getBlockTime (w.map CBlockIndex.getBlockTime))
        (lwmaK N T / 3 : Nat) := by
    push_cast
    split <;> omega
  simp only [hmax] at hrange hnew
  obtain ⟨t, ht⟩ := Int.eq_ofNat_of_zero_le hrange.1.le
  rw [ht] at hrange hnew
  obtain ⟨b, hb, hbval⟩ := nextTarget_eq params.powLimit sum
    (show 0 < t by omega) (by unfold uint32Max at hrange; omega)
  obtain rfl : b = bnNew := Option.some.inj (hb.symm.trans hnew)
  obtain ⟨r, hr, hrval⟩ := getCompact_eq b
  obtain rfl : r = nBits := Option.some.inj (hr.symm.trans hbits)
  refine ⟨T, ST, hT, hST, ?_⟩
  rw [hrval, hbval, hval, lwmaTarget, ht, Int.toNat_natCast]

theorem lwmaTarget_pos (limit N T ST : Nat) (w0 : CBlockIndex) (w : List CBlockIndex) :
    0 < lwmaTarget limit N T ST w0 w := Nat.lt_of_lt_of_le Nat.one_pos (le_max_left _ _)

theorem lwmaTarget_lt {limit : Nat} (hlimit : limit < 2 ^ 256) (N T ST : Nat) (w0 : CBlockIndex)
    (w : List CBlockIndex) : lwmaTarget limit N T ST w0 w < 2 ^ 256 :=
  max_lt (by norm_num) ((min_le_left _ _).trans_lt hlimit)

/-- The encoding keeps the order of the targets over the integers. -/
theorem decoded_mono {limit N T ST : Nat} (hlimit : limit < 2 ^ 256) {w0 w0' : CBlockIndex}
    {w w' : List CBlockIndex} {nBits nBits' : UInt32}
    (h : nBits.toNat = lwma_ref.get_compact (lwmaTarget limit N T ST w0 w))
    (h' : nBits'.toNat = lwma_ref.get_compact (lwmaTarget limit N T ST w0' w'))
    (hle : lwmaTarget limit N T ST w0 w ≤ lwmaTarget limit N T ST w0' w') :
    decoded nBits ≤ decoded nBits' := by
  rw [decoded, decoded, toNat_setCompact, toNat_setCompact, h, h']
  exact lwma_ref.set_compact_get_compact_mono (lwmaTarget_pos _ _ _ _ _ _) hle
    (lwmaTarget_lt hlimit _ _ _ _ _)

/-- The `nBits` of the block a window was collected from. -/
theorem nBits_of_window {p p' : CBlockIndex} {n : Nat} {w w' : List CBlockIndex}
    (hw : p.window n = some w) (hw' : p'.window n = some w')
    (h : (∃ j delta, 0 ≤ delta ∧ Delayed j delta w w') ∨ Eased w w') :
    decoded p.nBits ≤ decoded p'.nBits := by
  have hlast := CBlockIndex.getLast?_window hw
  have hlast' := CBlockIndex.getLast?_window hw'
  rcases h with ⟨j, delta, _, hdelayed⟩ | heased
  · have hbits := congrArg List.getLast? hdelayed.nBits
    rw [List.getLast?_map, List.getLast?_map, hlast, hlast'] at hbits
    exact (congrArg decoded (Option.some.inj hbits)).ge
  · have hrev := List.rel_reverse heased.targets
    rw [← List.head?_reverse] at hlast hlast'
    generalize w.reverse = v at hrev hlast
    generalize w'.reverse = v' at hrev hlast'
    cases hrev with
    | nil => cases hlast
    | cons hab _ =>
      obtain rfl := Option.some.inj hlast
      obtain rfl := Option.some.inj hlast'
      exact hab

/-- Adding to one raw solvetime of a window, or easing targets of it, never lowers
the target that the rule's result decodes to. No bound on the limit is needed, and
under sane parameters the rule returns on both windows. -/
theorem longer_solvetimes_never_harder {params : Params} {N : Nat}
    (hN : params.nLwmaAveragingWindow = N) {p p' : CBlockIndex} {w w' : List CBlockIndex}
    (hw : p.window N = some w) (hw' : p'.window N = some w')
    (h : (∃ j delta, 0 ≤ delta ∧ Delayed j delta w w') ∨ Eased w w') :
    (∀ nBits nBits', lwmaGetNextWorkRequired p params = some nBits →
      lwmaGetNextWorkRequired p' params = some nBits' → decoded nBits ≤ decoded nBits') ∧
    ∀ T ST, params.LwmaSane N T ST → ∃ nBits nBits',
      lwmaGetNextWorkRequired p params = some nBits ∧
        lwmaGetNextWorkRequired p' params = some nBits' := by
  constructor
  · intro nBits nBits' hnext hnext'
    cases hretarget : params.fPowNoRetargeting with
    | true =>
      rw [lwmaGetNextWorkRequired, if_pos hretarget] at hnext hnext'
      obtain rfl := Option.some.inj hnext
      obtain rfl := Option.some.inj hnext'
      exact nBits_of_window hw hw' h
    | false =>
      obtain ⟨w0, rest, rfl⟩ : ∃ w0 rest, w = w0 :: rest :=
        List.exists_cons_of_length_eq_add_one (CBlockIndex.le_nHeight_of_window hw).2
      obtain ⟨w0', rest', rfl⟩ : ∃ w0 rest, w' = w0 :: rest :=
        List.exists_cons_of_length_eq_add_one (CBlockIndex.le_nHeight_of_window hw').2
      obtain ⟨T, ST, hT, hST, hbits⟩ := toNat_lwmaGetNextWorkRequired hN hretarget hw hnext
      obtain ⟨T', ST', hT', hST', hbits'⟩ := toNat_lwmaGetNextWorkRequired hN hretarget hw' hnext'
      obtain rfl : T = T' := Int.ofNat.inj (hT.symm.trans hT')
      obtain rfl : ST = ST' := Int.ofNat.inj (hST.symm.trans hST')
      refine decoded_mono params.powLimit.toNat_lt hbits hbits' ?_
      rcases h with ⟨j, delta, hdelta, hdelayed⟩ | heased
      · refine lwmaTarget_mono _ _ _ _ (weightedSum_of_delayed ST hdelta hdelayed) ?_
        exact (targetSum_congr _ (List.cons.inj hdelayed.nBits).2).ge
      · obtain ⟨hfirst, hrest⟩ := List.cons.inj heased.times
        refine lwmaTarget_mono _ _ _ _ (by rw [hfirst, hrest]) ?_
        cases heased.targets with
        | cons _ htargets => exact targetSum_eased _ htargets
  · intro T ST hs
    obtain ⟨nBits, hnext⟩ := lwmaGetNextWorkRequired_total hs p
    obtain ⟨nBits', hnext'⟩ := lwmaGetNextWorkRequired_total hs p'
    exact ⟨nBits, nBits', hnext, hnext'⟩

/-- A window of one block whose solvetime grows from one second to two. -/
theorem longer_solvetime_one_block :
    ∃ nBits nBits',
      lwmaGetNextWorkRequired (.child (.genesis 5 0x1f0fffff) 6 0x1f0fffff)
          { mainParams with
            nPowTargetSpacing := 3, nLwmaAveragingWindow := 1, nLwmaMaxSolvetime := 3 } =
        some nBits ∧
      lwmaGetNextWorkRequired (.child (.genesis 5 0x1f0fffff) 7 0x1f0fffff)
          { mainParams with
            nPowTargetSpacing := 3, nLwmaAveragingWindow := 1, nLwmaMaxSolvetime := 3 } =
        some nBits' ∧ decoded nBits ≤ decoded nBits' := by
  have hs : Params.LwmaSane { mainParams with
      nPowTargetSpacing := 3, nLwmaAveragingWindow := 1, nLwmaMaxSolvetime := 3 } 1 3 3 := by
    constructor <;> decide
  have hdelayed : Delayed 1 1 [.genesis 5 0x1f0fffff, .child (.genesis 5 0x1f0fffff) 6 0x1f0fffff]
      [.genesis 5 0x1f0fffff, .child (.genesis 5 0x1f0fffff) 7 0x1f0fffff] := ⟨rfl, rfl⟩
  obtain ⟨hle, hreturns⟩ := longer_solvetimes_never_harder hs.window
    (show (CBlockIndex.child (.genesis 5 0x1f0fffff) 6 0x1f0fffff).window 1 = some _ from rfl)
    (show (CBlockIndex.child (.genesis 5 0x1f0fffff) 7 0x1f0fffff).window 1 = some _ from rfl)
    (.inl ⟨1, 1, by decide, hdelayed⟩)
  obtain ⟨nBits, nBits', hnext, hnext'⟩ := hreturns 3 3 hs
  exact ⟨nBits, nBits', hnext, hnext', hle nBits nBits' hnext hnext'⟩

end pcoin.pow
