import PCoin.Store.PayoutSpec
import Mathlib.Tactic.Ring

namespace pcoin.store

/-- What the floors lose is less than a unit for every entry. -/
theorem lt_sum_share_add {pot total : Int} (htotal : 0 < total) {entries : List Entry}
    (hne : entries ≠ []) :
    pot * totalWeight entries <
      total * (((entries.map (share pot total)).map Amount.amount).sum + entries.length) := by
  have hfloor : ∀ e : Entry, pot * e.weight < total * ((share pot total e).amount + 1) :=
    fun e => Int.lt_mul_ediv_self_add htotal |>.trans_eq (by rw [share]; ring)
  induction entries with
  | nil => exact absurd rfl hne
  | cons e entries ih =>
    have hhead := hfloor e
    by_cases hrest : entries = []
    · subst hrest
      simpa [totalWeight] using hhead
    · have htail := ih hrest
      simp only [totalWeight, List.map_cons, List.sum_cons, List.length_cons, Nat.cast_add,
        Nat.cast_one, mul_add] at hhead htail ⊢
      linarith

theorem feeOf_eq {value basisPoints : Int} (hvalue : 0 < value) (hlow : 0 ≤ basisPoints)
    (hhigh : basisPoints ≤ 10000) :
    feeOf value basisPoints = .ok (value * basisPoints / 10000) := by
  have hrange : ¬(basisPoints < 0 ∨ basisPoints > 10000) := by omega
  rw [feeOf, if_neg hrange, Int.tdiv_eq_ediv_of_nonneg (mul_nonneg hvalue.le hlow)]
  rfl

theorem feeOf_nonneg {value basisPoints fee : Int} (hvalue : 0 < value)
    (h : feeOf value basisPoints = .ok fee) : 0 ≤ fee := by
  unfold feeOf at h
  split at h
  case isTrue => cases h
  case isFalse hrange =>
    obtain rfl : (value * basisPoints).tdiv 10000 = fee := by simpa [pure, Except.pure] using h
    exact Int.tdiv_nonneg (mul_nonneg hvalue.le (by omega)) (by decide)

theorem totalWeight_perm {entries entries' : List Entry} (h : entries'.Perm entries) :
    totalWeight entries' = totalWeight entries :=
  (h.map Entry.weight).sum_eq

theorem aboveDust_perm {pot dustLimit : Int} {live live' : List Entry} (h : live'.Perm live) :
    (aboveDust pot dustLimit live').Perm (aboveDust pot dustLimit live) := by
  rw [aboveDust, aboveDust, totalWeight_perm h]
  exact h.filter _

theorem positive_of_mem_aboveDust {pot dustLimit : Int} {entries : List Entry} {e : Entry}
    (h : e ∈ aboveDust pot dustLimit (entries.filter (·.weight > 0))) : 0 < e.weight := by
  simpa using (List.mem_filter.mp (mem_aboveDust.mp h).1).2

/-- Entries of weight zero carry no weight. -/
theorem totalWeight_positive {entries : List Entry} (hnonneg : ∀ e ∈ entries, 0 ≤ e.weight) :
    totalWeight (entries.filter (·.weight > 0)) = totalWeight entries := by
  induction entries with
  | nil => rfl
  | cons e entries ih =>
    have hrest := ih fun f hf => hnonneg f (List.mem_cons_of_mem _ hf)
    have hhead := hnonneg e (by simp)
    rw [List.filter_cons]
    simp only [totalWeight, List.map_cons, List.sum_cons] at hrest ⊢
    split
    case isTrue => rw [List.map_cons, List.sum_cons, hrest]
    case isFalse hzero =>
      rw [hrest]
      simp only [gt_iff_lt, decide_eq_true_eq] at hzero
      omega

/-- The amounts by address. -/
def byMiner (amounts : List Amount) : List Amount := amounts.mergeSort fun a b => a.miner ≤ b.miner

theorem byMiner_perm (amounts : List Amount) : (byMiner amounts).Perm amounts :=
  List.mergeSort_perm _ _

theorem byMiner_sorted (amounts : List Amount) :
    (byMiner amounts).Pairwise fun a b => a.miner ≤ b.miner := by
  have h := @List.pairwise_mergeSort Amount (fun a b => decide (a.miner ≤ b.miner))
    (fun a b c hab hbc => by
      rw [decide_eq_true_eq] at hab hbc ⊢
      exact String.le_trans hab hbc)
    (fun a b => by simpa using String.le_total a.miner b.miner) amounts
  exact h.imp fun hab => by simpa using hab

/-- One order for each set of amounts, as no two are for one miner. -/
theorem byMiner_congr {amounts amounts' : List Amount} (h : amounts'.Perm amounts)
    (hdistinct : (amounts.map Amount.miner).Nodup) : byMiner amounts' = byMiner amounts := by
  refine List.Perm.eq_of_pairwise (fun a b ha hb hab hba => ?_) (byMiner_sorted _) (byMiner_sorted _)
    ((byMiner_perm amounts').trans (h.trans (byMiner_perm amounts).symm))
  have ha' : a ∈ amounts := h.mem_iff.mp ((byMiner_perm amounts').mem_iff.mp ha)
  have hb' : b ∈ amounts := (byMiner_perm amounts).mem_iff.mp hb
  exact List.inj_on_of_nodup_map hdistinct ha' hb' (String.le_antisymm hab hba)

theorem minerOutputs_forall₂ {scriptOf : String → Except String Bytes} {amounts : List Amount}
    {outputs : List Output} (h : minerOutputs scriptOf amounts = .ok outputs) :
    List.Forall₂ (fun a o => scriptOf a.miner = .ok o.script ∧
      o = ⟨some a.miner, o.script, a.amount, some a.weight⟩) amounts outputs := by
  induction amounts generalizing outputs with
  | nil =>
    obtain rfl : [] = outputs := by simpa [minerOutputs, pure, Except.pure] using h
    exact .nil
  | cons a amounts ih =>
    simp only [minerOutputs, bind, Except.bind] at h
    cases hscript : scriptOf a.miner with
    | error e => simp [hscript] at h
    | ok script =>
      cases hrest : minerOutputs scriptOf amounts with
      | error e => simp [hscript, hrest] at h
      | ok rest =>
        obtain rfl := by simpa [hscript, hrest, pure, Except.pure] using h
        exact .cons ⟨hscript, rfl⟩ (ih hrest)

theorem minerOutputs_error {scriptOf : String → Except String Bytes} {amounts : List Amount}
    {text : String} (h : minerOutputs scriptOf amounts = .error text) :
    ∃ a ∈ amounts, scriptOf a.miner = .error text := by
  induction amounts with
  | nil => simp [minerOutputs, pure, Except.pure] at h
  | cons a amounts ih =>
    simp only [minerOutputs, bind, Except.bind] at h
    cases hscript : scriptOf a.miner with
    | error e =>
      obtain rfl : e = text := by simpa [hscript] using h
      exact ⟨a, List.mem_cons_self, hscript⟩
    | ok script =>
      cases hrest : minerOutputs scriptOf amounts with
      | error e =>
        obtain rfl : e = text := by simpa [hscript, hrest] using h
        obtain ⟨b, hb, herror⟩ := ih hrest
        exact ⟨b, List.mem_cons_of_mem _ hb, herror⟩
      | ok rest => simp [hscript, hrest, pure, Except.pure] at h

section

variable {value fee dustLimit : Int} {entries : List Entry}
  {scriptOf : String → Except String Bytes} {poolScript : Bytes}

/-- The miners' amounts, in the order of the outputs. -/
def paidAmounts (pot dustLimit : Int) (entries : List Entry) : List Amount :=
  let paid := aboveDust pot dustLimit (entries.filter (·.weight > 0))
  byMiner (paid.map (share pot (totalWeight paid)))

variable (hdistinct : (entries.map Entry.miner).Nodup)

include hdistinct

theorem distinct_shares (pot total dustLimit : Int) :
    (((aboveDust pot dustLimit (entries.filter (·.weight > 0))).map (share pot total)).map
      Amount.miner).Nodup := by
  rw [List.map_map, show Amount.miner ∘ share pot total = Entry.miner from rfl]
  exact hdistinct.sublist ((List.filter_sublist.trans List.filter_sublist).map _)

theorem paidAmounts_perm (pot dustLimit : Int) {entries' : List Entry} (h : entries'.Perm entries) :
    paidAmounts pot dustLimit entries' = paidAmounts pot dustLimit entries := by
  have hkept := @aboveDust_perm pot dustLimit _ _ (h.filter fun e => decide (e.weight > 0))
  dsimp only [paidAmounts]
  rw [totalWeight_perm hkept]
  exact byMiner_congr (hkept.map _) (distinct_shares hdistinct _ _ _)

omit hdistinct in
theorem paid_le {pot : Int} (hpot : 0 ≤ pot) :
    ((paidAmounts pot dustLimit entries).map Amount.amount).sum ≤ pot := by
  rw [paidAmounts, ((byMiner_perm _).map Amount.amount).sum_eq]
  generalize hpaid : aboveDust pot dustLimit (entries.filter (·.weight > 0)) = paid
  by_cases hne : paid = []
  · rw [hne]
    exact hpot
  · have hweights : ∀ e ∈ paid, 0 < e.weight := fun e he =>
      positive_of_mem_aboveDust (hpaid ▸ he)
    have htotal := totalWeight_pos hweights hne
    have hsum : totalWeight paid * _ ≤ pot * _ := sum_share_le hweights htotal
    rw [mul_comm pot] at hsum
    exact le_of_mul_le_mul_left hsum htotal

/-- What is built, but for the scripts of the addresses. -/
theorem buildPayoutOutputs_eq {basisPoints : Int} (hvalue : 0 < value)
    (hfee : feeOf value basisPoints = .ok fee) :
    ∃ dropped, buildPayoutOutputs value basisPoints entries scriptOf poolScript dustLimit =
      (minerOutputs scriptOf (paidAmounts (value - fee) dustLimit entries)).map fun outputs =>
        let paid := ((paidAmounts (value - fee) dustLimit entries).map Amount.amount).sum
        ⟨outputs ++ [⟨none, poolScript, value - paid, none⟩], fee, dropped, paid,
          totalWeight (aboveDust (value - fee) dustLimit (entries.filter (·.weight > 0)))⟩ := by
  have hpot := feeOf_ok hvalue hfee
  have hfee0 := feeOf_nonneg hvalue hfee
  have hweights : ∀ e ∈ entries.filter (·.weight > 0), 0 < e.weight := by
    intro e he
    simpa using (List.mem_filter.mp he).2
  obtain ⟨dropped, hpasses⟩ : ∃ dropped, dustPasses (value - fee) dustLimit 64
      (entries.filter (·.weight > 0)) [] = .ok (aboveDust (value - fee) dustLimit
        (entries.filter (·.weight > 0)), dropped, _) :=
    ⟨_, dustPasses_eq hpot hweights (hdistinct.sublist (List.filter_sublist.map _)) 62 []⟩
  have hpaid := @paid_le dustLimit entries _ hpot
  refine ⟨dropped, ?_⟩
  rw [buildPayoutOutputs, if_neg (not_le.mpr hvalue), hfee]
  simp only [bind, Except.bind, pure, Except.pure, hpasses]
  rw [← byMiner, ← paidAmounts]
  cases hminers : minerOutputs scriptOf (paidAmounts (value - fee) dustLimit entries) with
  | error e => rfl
  | ok outputs =>
    obtain ⟨hvalues, -⟩ := minerOutputs_spec hminers
    have hpool : ¬value - ((paidAmounts (value - fee) dustLimit entries).map Amount.amount).sum < 0 := by
      omega
    dsimp only
    rw [if_neg hpool]
    rw [if_neg (by simp [hvalues])]
    rfl

end

/-- The miners that are paid, by address. -/
def paidEntries (pot dustLimit : Int) (entries : List Entry) : List Entry :=
  (aboveDust pot dustLimit (entries.filter (·.weight > 0))).mergeSort fun e f => e.miner ≤ f.miner

section

variable {value fee dustLimit : Int} {entries : List Entry}
  {scriptOf : String → Except String Bytes} {poolScript : Bytes}

theorem paidEntries_perm (pot dustLimit : Int) (entries : List Entry) :
    (paidEntries pot dustLimit entries).Perm
      (aboveDust pot dustLimit (entries.filter (·.weight > 0))) :=
  List.mergeSort_perm _ _

theorem paidAmounts_eq (pot dustLimit : Int) (entries : List Entry) :
    paidAmounts pot dustLimit entries =
      (paidEntries pot dustLimit entries).map
        (share pot (totalWeight (paidEntries pot dustLimit entries))) := by
  rw [totalWeight_perm (paidEntries_perm pot dustLimit entries), paidEntries, paidAmounts, byMiner]
  refine Eq.symm (List.map_mergeSort fun e _ f _ => ?_)
  rfl

theorem mem_paidEntries {pot : Int} (hdust : 0 < dustLimit) (hnonneg : ∀ e ∈ entries, 0 ≤ e.weight)
    {e : Entry} : e ∈ paidEntries pot dustLimit entries ↔
      e ∈ entries ∧ dustLimit ≤ pot * e.weight / totalWeight entries := by
  rw [(paidEntries_perm pot dustLimit entries).mem_iff, mem_aboveDust, totalWeight_positive hnonneg,
    List.mem_filter, share, decide_eq_true_eq]
  constructor
  · rintro ⟨⟨he, -⟩, hover⟩
    exact ⟨he, hover⟩
  rintro ⟨he, hover⟩
  -- a slice of nothing is under every limit
  refine ⟨⟨he, lt_of_le_of_ne (hnonneg e he) fun hzero => ?_⟩, hover⟩
  rw [← hzero, mul_zero, Int.zero_ediv] at hover
  omega

/-- The floors leave the pool less than a unit for every miner. -/
theorem remainder_lt {pot : Int} (hpot : 0 ≤ pot) (hne : paidEntries pot dustLimit entries ≠ []) :
    0 ≤ pot - ((paidAmounts pot dustLimit entries).map Amount.amount).sum ∧
      pot - ((paidAmounts pot dustLimit entries).map Amount.amount).sum <
        (paidEntries pot dustLimit entries).length := by
  refine ⟨by have := @paid_le dustLimit entries _ hpot; omega, ?_⟩
  have hweights : ∀ e ∈ paidEntries pot dustLimit entries, 0 < e.weight := fun e he =>
    positive_of_mem_aboveDust ((paidEntries_perm pot dustLimit entries).mem_iff.mp he)
  have htotal := totalWeight_pos hweights hne
  have hlt : pot * _ < totalWeight _ * _ := lt_sum_share_add htotal hne
  rw [← paidAmounts_eq, mul_comm pot] at hlt
  have := lt_of_mul_lt_mul_left hlt htotal.le
  omega

/-- A payout of `value` to the miners `paid`, in this order, and to the pool. -/
structure Exact (value fee dustLimit : Int) (entries : List Entry)
    (scriptOf : String → Except String Bytes) (poolScript : Bytes) (paid : List Entry)
    (p : Payout) : Prop where
  /-- The miners left out are those whose slice of the whole window is under the limit. -/
  mem_paid : ∀ e, e ∈ paid ↔
    e ∈ entries ∧ dustLimit ≤ (value - fee) * e.weight / totalWeight entries
  distinct : (paid.map Entry.miner).Nodup
  outputs : ∃ outputs pool, p.outputs = outputs ++ [⟨none, poolScript, pool, none⟩] ∧
    List.Forall₂ (fun e o => scriptOf e.miner = .ok o.script ∧ dustLimit ≤ o.value ∧
      o = ⟨some e.miner, o.script, (value - fee) * e.weight / totalWeight paid, some e.weight⟩)
      paid outputs ∧
    (paid ≠ [] → ∃ remainder, pool = fee + remainder ∧ 0 ≤ remainder ∧ remainder < paid.length)
  sum : (p.outputs.map Output.value).sum = value

theorem exact_of_ok {basisPoints : Int} {p : Payout} (hvalue : 0 < value) (hdust : 0 < dustLimit)
    (hdistinct : (entries.map Entry.miner).Nodup) (hnonneg : ∀ e ∈ entries, 0 ≤ e.weight)
    (hfee : feeOf value basisPoints = .ok fee)
    (h : buildPayoutOutputs value basisPoints entries scriptOf poolScript dustLimit = .ok p) :
    Exact value fee dustLimit entries scriptOf poolScript
      (paidEntries (value - fee) dustLimit entries) p := by
  have hpot := feeOf_ok hvalue hfee
  have hperm := paidEntries_perm (value - fee) dustLimit entries
  have hsum := (buildPayoutOutputs_spec hdistinct hdust h).1
  obtain ⟨dropped, heq⟩ := @buildPayoutOutputs_eq value fee dustLimit entries scriptOf poolScript
    hdistinct basisPoints hvalue hfee
  rw [heq] at h
  cases hminers : minerOutputs scriptOf (paidAmounts (value - fee) dustLimit entries) with
  | error e =>
    rw [hminers] at h
    cases h
  | ok outputs =>
    rw [hminers] at h
    cases h
    refine ⟨fun e => mem_paidEntries hdust hnonneg, ?_, ⟨outputs, _, rfl, ?_, fun hne => ?_⟩, hsum⟩
    · exact (hperm.map Entry.miner).nodup_iff.mpr
        (hdistinct.sublist ((List.filter_sublist.trans List.filter_sublist).map _))
    · have hall := minerOutputs_forall₂ hminers
      rw [paidAmounts_eq, List.forall₂_map_left_iff] at hall
      have hover : ∀ e ∈ paidEntries (value - fee) dustLimit entries, dustLimit ≤
          (share (value - fee) (totalWeight (paidEntries (value - fee) dustLimit entries)) e).amount := by
        intro e he
        rw [totalWeight_perm hperm]
        exact dustLimit_le_of_mem_aboveDust hpot (fun f hf => by simpa using (List.mem_filter.mp hf).2)
          (hperm.mem_iff.mp he)
      refine ((List.forall₂_and_left _ _).mpr ⟨hover, hall⟩).imp fun e o ⟨he, hscript, ho⟩ =>
        ⟨hscript, ?_, ho⟩
      rw [ho]
      exact he
    · obtain ⟨hlow, hhigh⟩ := remainder_lt hpot hne
      exact ⟨_, by ring, hlow, hhigh⟩

end

/-- The payout of a block: two splits settle it, whatever the bound; it is exact; and it does not
depend on the order of the window. -/
theorem buildPayoutOutputs_exact {value basisPoints dustLimit : Int} {entries : List Entry}
    (hvalue : 0 < value) (hlow : 0 ≤ basisPoints) (hhigh : basisPoints ≤ 10000) (hdust : 0 < dustLimit)
    (hdistinct : (entries.map Entry.miner).Nodup) (hnonneg : ∀ e ∈ entries, 0 ≤ e.weight)
    (scriptOf : String → Except String Bytes) (poolScript : Bytes) :
    ∃ fee, feeOf value basisPoints = .ok fee ∧
      (∃ r, ∀ passes, dustPasses (value - fee) dustLimit (passes + 2)
        (entries.filter (·.weight > 0)) [] = .ok r) ∧
      ((∃ p paid, buildPayoutOutputs value basisPoints entries scriptOf poolScript dustLimit = .ok p ∧
          Exact value fee dustLimit entries scriptOf poolScript paid p) ∨
        ∃ e ∈ entries, ∃ text, scriptOf e.miner = .error text ∧
          buildPayoutOutputs value basisPoints entries scriptOf poolScript dustLimit = .error text) ∧
      ∀ entries', entries'.Perm entries →
        (buildPayoutOutputs value basisPoints entries' scriptOf poolScript dustLimit).map Payout.outputs =
          (buildPayoutOutputs value basisPoints entries scriptOf poolScript dustLimit).map
            Payout.outputs := by
  have hfee := feeOf_eq hvalue hlow hhigh
  have hpot := feeOf_ok hvalue hfee
  have hweights : ∀ e ∈ entries.filter (·.weight > 0), 0 < e.weight := by
    intro e he
    simpa using (List.mem_filter.mp he).2
  obtain ⟨dropped, heq⟩ := @buildPayoutOutputs_eq value _ dustLimit entries scriptOf poolScript
    hdistinct basisPoints hvalue hfee
  refine ⟨_, hfee, ⟨_, fun passes => dustPasses_eq hpot hweights
    (hdistinct.sublist (List.filter_sublist.map _)) passes []⟩, ?_, fun entries' hperm => ?_⟩
  · cases hbuild : buildPayoutOutputs value basisPoints entries scriptOf poolScript dustLimit with
    | ok p => exact .inl ⟨p, _, rfl, exact_of_ok hvalue hdust hdistinct hnonneg hfee hbuild⟩
    | error text =>
      rw [hbuild] at heq
      cases hminers : minerOutputs scriptOf
          (paidAmounts (value - value * basisPoints / 10000) dustLimit entries) with
      | ok outputs =>
        rw [hminers] at heq
        cases heq
      | error e =>
        rw [hminers] at heq
        cases heq
        obtain ⟨a, ha, hscript⟩ := minerOutputs_error hminers
        rw [paidAmounts_eq] at ha
        obtain ⟨e, he, rfl⟩ := List.mem_map.mp ha
        exact .inr ⟨e, ((mem_paidEntries hdust hnonneg).mp he).1, text, hscript, rfl⟩
  · obtain ⟨dropped', heq'⟩ := @buildPayoutOutputs_eq value _ dustLimit entries' scriptOf poolScript
      ((hperm.map Entry.miner).nodup_iff.mpr hdistinct) basisPoints hvalue hfee
    rw [heq, heq', paidAmounts_perm hdistinct _ _ hperm]
    cases minerOutputs scriptOf
      (paidAmounts (value - value * basisPoints / 10000) dustLimit entries) <;> rfl

theorem buildPayoutOutputs_exact_three :
    ∃ p paid, buildPayoutOutputs 5000000 100 [⟨"pc1b", 3, 3⟩, ⟨"pc1a", 1, 1⟩, ⟨"pc1c", 0, 0⟩]
        (fun _ => .ok [0x51]) [0x52] 294 = .ok p ∧
      Exact 5000000 50000 294 [⟨"pc1b", 3, 3⟩, ⟨"pc1a", 1, 1⟩, ⟨"pc1c", 0, 0⟩] (fun _ => .ok [0x51]) [0x52]
        paid p := by
  obtain ⟨fee, hfee, -, hbuild, -⟩ := @buildPayoutOutputs_exact 5000000 100 294
    [⟨"pc1b", 3, 3⟩, ⟨"pc1a", 1, 1⟩, ⟨"pc1c", 0, 0⟩] (by decide) (by decide) (by decide) (by decide)
    (by decide) (by decide) (fun _ => .ok [0x51]) [0x52]
  obtain rfl : 50000 = fee := Except.ok.inj hfee
  rcases hbuild with hok | ⟨_, _, _, hscript, _⟩
  · exact hok
  · cases hscript

end pcoin.store
