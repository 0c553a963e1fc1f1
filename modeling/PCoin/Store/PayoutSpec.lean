import PCoin.Store.Payout

namespace pcoin.store

theorem feeOf_ok {value basisPoints fee : Int} (hvalue : 0 < value)
    (h : feeOf value basisPoints = .ok fee) : 0 ≤ value - fee := by
  unfold feeOf at h
  split at h
  · cases h
  · rename_i hrange
    obtain ⟨hlow, hhigh⟩ := not_or.mp hrange
    obtain rfl : (value * basisPoints).tdiv 10000 = fee := by simpa [pure, Except.pure] using h
    have hnonneg : 0 ≤ value * basisPoints := mul_nonneg hvalue.le (by omega)
    have hle : value * basisPoints ≤ value * 10000 :=
      mul_le_mul_of_nonneg_left (by omega) hvalue.le
    rw [Int.tdiv_eq_ediv_of_nonneg hnonneg]
    omega

/-- What an entry is owed out of `pot` when the weights add up to `total`. -/
def share (pot total : Int) (e : Entry) : Amount := ⟨e.miner, e.weight, pot * e.weight / total⟩

section Split

variable {pot : Int} {entries : List Entry}
  (hweights : ∀ e ∈ entries, 0 < e.weight)

include hweights

theorem totalWeight_pos (hne : entries ≠ []) : 0 < totalWeight entries := by
  cases entries with
  | nil => exact absurd rfl hne
  | cons e entries =>
    have hhead := hweights e (by simp)
    have hrest : 0 ≤ totalWeight entries := by
      apply List.sum_nonneg
      intro w hw
      obtain ⟨f, hf, rfl⟩ := List.mem_map.mp hw
      exact (hweights f (List.mem_cons_of_mem _ hf)).le
    simp only [totalWeight, List.map_cons, List.sum_cons] at hrest ⊢
    omega

theorem splitLoop_eq (hpot : 0 ≤ pot) {total : Int} :
    splitLoop pot total entries = .ok (entries.map (share pot total)) := by
  induction entries with
  | nil => rfl
  | cons e entries ih =>
    have hweight := hweights e (by simp)
    have hprod : 0 ≤ pot * e.weight := mul_nonneg hpot hweight.le
    have hrest := ih fun f hf => hweights f (List.mem_cons_of_mem _ hf)
    simp only [splitLoop, hrest, bind, Except.bind, pure, Except.pure,
      if_neg (not_lt.mpr hweight.le), List.map_cons, share, Int.tdiv_eq_ediv_of_nonneg hprod]

/-- The floors never pay out more than the pot. -/
theorem sum_share_le {total : Int} (htotal : 0 < total) :
    total * ((entries.map (share pot total)).map Amount.amount).sum ≤ pot * totalWeight entries := by
  induction entries with
  | nil => simp [totalWeight]
  | cons e entries ih =>
    have hrest := ih fun f hf => hweights f (List.mem_cons_of_mem _ hf)
    have hfloor := Int.mul_ediv_self_le (x := pot * e.weight) htotal.ne'
    simp only [totalWeight, List.map_cons, List.sum_cons, share, mul_add] at hrest ⊢
    linarith

theorem splitPot_eq (hpot : 0 ≤ pot) (hne : entries ≠ []) :
    ∃ dust, splitPot pot entries =
      .ok (entries.map (share pot (totalWeight entries)), dust, totalWeight entries) := by
  have htotal := totalWeight_pos hweights hne
  have hsum : totalWeight entries * _ ≤ pot * _ := sum_share_le hweights htotal
  have hdust : ((entries.map (share pot (totalWeight entries))).map Amount.amount).sum ≤ pot := by
    rw [mul_comm pot] at hsum
    exact le_of_mul_le_mul_left hsum htotal
  refine ⟨pot - ((entries.map (share pot (totalWeight entries))).map Amount.amount).sum, ?_⟩
  simp only [splitPot, splitLoop_eq hweights hpot, bind, Except.bind, pure, Except.pure,
    if_neg (not_lt.mpr hpot), if_neg (not_le.mpr htotal)]
  rw [if_neg (by omega), if_neg (by simp)]

end Split

/-- Leaving entries out only ever makes the others' shares larger. -/
theorem share_mono {pot total total' : Int} (hpot : 0 ≤ pot) (htotal' : 0 < total')
    (hle : total' ≤ total) {e : Entry} (hweight : 0 < e.weight) :
    (share pot total e).amount ≤ (share pot total' e).amount := by
  have hprod : 0 ≤ pot * e.weight := mul_nonneg hpot hweight.le
  have hnonneg : 0 ≤ pot * e.weight / total := Int.ediv_nonneg hprod (by omega)
  simp only [share]
  rw [Int.le_ediv_iff_mul_le htotal']
  calc pot * e.weight / total * total' ≤ pot * e.weight / total * total :=
        mul_le_mul_of_nonneg_left hle hnonneg
    _ ≤ pot * e.weight := Int.ediv_mul_le _ (by omega)

theorem totalWeight_filter_le {entries : List Entry} (hweights : ∀ e ∈ entries, 0 < e.weight)
    (p : Entry → Bool) : totalWeight (entries.filter p) ≤ totalWeight entries := by
  induction entries with
  | nil => exact le_refl _
  | cons e entries ih =>
    have hrest := ih fun f hf => hweights f (List.mem_cons_of_mem _ hf)
    have hhead := hweights e (by simp)
    simp only [totalWeight, List.filter_cons, List.map_cons, List.sum_cons] at hrest ⊢
    split
    · simp only [List.map_cons, List.sum_cons]
      omega
    · omega

/-- The miners that a block pays: those whose share of the whole window reaches the dust limit. -/
def aboveDust (pot dustLimit : Int) (live : List Entry) : List Entry :=
  live.filter fun e => dustLimit ≤ (share pot (totalWeight live) e).amount

theorem mem_aboveDust {pot dustLimit : Int} {live : List Entry} {e : Entry} :
    e ∈ aboveDust pot dustLimit live ↔
      e ∈ live ∧ dustLimit ≤ (share pot (totalWeight live) e).amount := by
  simp [aboveDust]

section Dust

variable {pot dustLimit : Int} (hpot : 0 ≤ pot) {live : List Entry}
  (hweights : ∀ e ∈ live, 0 < e.weight) (hdistinct : (live.map Entry.miner).Nodup)

include hpot hweights

/-- Dropping the others takes nobody below the dust limit. -/
theorem dustLimit_le_of_mem_aboveDust {e : Entry} (he : e ∈ aboveDust pot dustLimit live) :
    dustLimit ≤ (share pot (totalWeight (aboveDust pot dustLimit live)) e).amount := by
  have hweights' : ∀ f ∈ aboveDust pot dustLimit live, 0 < f.weight :=
    fun f hf => hweights f (mem_aboveDust.mp hf).1
  exact (mem_aboveDust.mp he).2.trans (share_mono hpot
    (totalWeight_pos hweights' (List.ne_nil_of_mem he)) (totalWeight_filter_le hweights _)
    (hweights' e he))

/-- A pass over miners who are all owed the dust limit is the last one. -/
theorem dustPasses_last (hne : live ≠ [])
    (hover : ∀ e ∈ live, dustLimit ≤ (share pot (totalWeight live) e).amount) (passes : Nat)
    (dropped : List Dropped) :
    dustPasses pot dustLimit (passes + 1) live dropped =
      .ok (live, dropped, live.map (share pot (totalWeight live))) := by
  obtain ⟨dust, hsplit⟩ := splitPot_eq hweights hpot hne
  have hunder : (live.map (share pot (totalWeight live))).filter (·.amount < dustLimit) = [] := by
    rw [List.filter_eq_nil_iff]
    intro a ha
    obtain ⟨e, he, rfl⟩ := List.mem_map.mp ha
    have := hover e he
    simpa using this
  simp only [dustPasses, if_neg hne, hsplit, bind, Except.bind, pure, Except.pure, hunder, if_true]

omit hpot hweights in
include hdistinct in
/-- The miners a pass leaves are those that were owed the dust limit in it. -/
theorem filter_drop_eq :
    (live.filter fun e => e.miner ∉ ((live.map (share pot (totalWeight live))).filter
        (·.amount < dustLimit)).map Amount.miner) =
      live.filter fun e => dustLimit ≤ (share pot (totalWeight live) e).amount := by
  apply List.filter_congr
  intro e he
  rw [decide_eq_decide, List.mem_map, not_exists]
  constructor
  · intro h
    by_contra hlt
    refine h (share pot (totalWeight live) e) ⟨?_, rfl⟩
    rw [List.mem_filter]
    exact ⟨List.mem_map_of_mem he, by simpa using hlt⟩
  · rintro h a ⟨ha, hminer⟩
    rw [List.mem_filter] at ha
    obtain ⟨f, hf, rfl⟩ := List.mem_map.mp ha.1
    obtain rfl : f = e := List.inj_on_of_nodup_map hdistinct hf he hminer
    have := ha.2
    simp only [decide_eq_true_eq] at this
    omega

include hdistinct

/-- Two passes are enough: the first drops every miner below the dust limit, and
that only raises the others. -/
theorem dustPasses_eq (passes : Nat) (dropped : List Dropped) :
    dustPasses pot dustLimit (passes + 2) live dropped =
      .ok (aboveDust pot dustLimit live, dropped ++ ((live.map (share pot (totalWeight live))).filter
          (·.amount < dustLimit)).map fun u => ⟨u.miner, u.amount⟩,
        (aboveDust pot dustLimit live).map (share pot (totalWeight (aboveDust pot dustLimit live)))) := by
  by_cases hne : live = []
  · subst hne
    simp [dustPasses, aboveDust, pure, Except.pure]
  obtain ⟨dust, hsplit⟩ := splitPot_eq hweights hpot hne
  by_cases hunder : (live.map (share pot (totalWeight live))).filter (·.amount < dustLimit) = []
  · have hover : ∀ e ∈ live, dustLimit ≤ (share pot (totalWeight live) e).amount := by
      intro e he
      have := List.filter_eq_nil_iff.mp hunder _ (List.mem_map_of_mem he)
      simpa using this
    have hkept : aboveDust pot dustLimit live = live :=
      List.filter_eq_self.mpr fun e he => decide_eq_true (hover e he)
    rw [dustPasses_last hpot hweights hne hover (passes + 1) dropped, hkept, hunder, List.map_nil,
      List.append_nil]
  · have hpass : dustPasses pot dustLimit (passes + 2) live dropped =
        dustPasses pot dustLimit (passes + 1) (aboveDust pot dustLimit live)
          (dropped ++ ((live.map (share pot (totalWeight live))).filter
            (·.amount < dustLimit)).map fun u => ⟨u.miner, u.amount⟩) := by
      rw [aboveDust, ← filter_drop_eq hdistinct]
      rw [dustPasses]
      simp only [if_neg hne, hsplit, bind, Except.bind, pure, Except.pure, if_neg hunder]
    rw [hpass]
    by_cases hkept : aboveDust pot dustLimit live = []
    · rw [hkept]
      rfl
    · have hweights' : ∀ e ∈ aboveDust pot dustLimit live, 0 < e.weight :=
        fun e he => hweights e (mem_aboveDust.mp he).1
      rw [dustPasses_last hpot hweights' hkept
        (fun e he => dustLimit_le_of_mem_aboveDust hpot hweights he) passes]

/-- A pass leaves nobody below the dust limit, and somebody when the window owed somebody as much. -/
theorem dustPasses_spec (passes : Nat) (dropped : List Dropped) :
    ∃ live' dropped' amounts,
      dustPasses pot dustLimit (passes + 2) live dropped = .ok (live', dropped', amounts) ∧
      (∀ a ∈ amounts, dustLimit ≤ a.amount) ∧
      (amounts ≠ [] ↔ ∃ e ∈ live, dustLimit ≤ (share pot (totalWeight live) e).amount) := by
  refine ⟨_, _, _, dustPasses_eq hpot hweights hdistinct passes dropped, ?_, ?_⟩
  · intro a ha
    obtain ⟨e, he, rfl⟩ := List.mem_map.mp ha
    exact dustLimit_le_of_mem_aboveDust hpot hweights he
  · rw [ne_eq, List.map_eq_nil_iff]
    constructor
    · intro hne
      obtain ⟨e, he⟩ := List.exists_mem_of_ne_nil _ hne
      exact ⟨e, mem_aboveDust.mp he⟩
    · rintro ⟨e, he⟩
      exact List.ne_nil_of_mem (mem_aboveDust.mpr he)

end Dust

theorem minerOutputs_spec {scriptOf : String → Except String Bytes} {amounts : List Amount}
    {outputs : List Output} (h : minerOutputs scriptOf amounts = .ok outputs) :
    outputs.map Output.value = amounts.map Amount.amount ∧
      ∀ o ∈ outputs, o.miner.isSome := by
  induction amounts generalizing outputs with
  | nil =>
    obtain rfl : [] = outputs := by simpa [minerOutputs, pure, Except.pure] using h
    simp
  | cons a amounts ih =>
    simp only [minerOutputs, bind, Except.bind] at h
    cases hscript : scriptOf a.miner with
    | error e => simp [hscript] at h
    | ok script =>
      cases hrest : minerOutputs scriptOf amounts with
      | error e => simp [hscript, hrest] at h
      | ok rest =>
        obtain rfl := by simpa [hscript, hrest, pure, Except.pure] using h
        obtain ⟨hvalues, hminers⟩ := ih hrest
        refine ⟨by simp [hvalues], ?_⟩
        intro o ho
        rcases List.mem_cons.mp ho with rfl | ho
        · rfl
        · exact hminers o ho

theorem minerOutputs_miners {scriptOf : String → Except String Bytes} {amounts : List Amount}
    {outputs : List Output} (h : minerOutputs scriptOf amounts = .ok outputs) :
    outputs.filterMap Output.miner = amounts.map Amount.miner := by
  induction amounts generalizing outputs with
  | nil =>
    obtain rfl : [] = outputs := by simpa [minerOutputs, pure, Except.pure] using h
    rfl
  | cons a amounts ih =>
    simp only [minerOutputs, bind, Except.bind] at h
    cases hscript : scriptOf a.miner with
    | error e => simp [hscript] at h
    | ok script =>
      cases hrest : minerOutputs scriptOf amounts with
      | error e => simp [hscript, hrest] at h
      | ok rest =>
        obtain rfl := by simpa [hscript, hrest, pure, Except.pure] using h
        rw [List.filterMap_cons, ih hrest, List.map_cons]

theorem splitLoop_miners {pot total : Int} {entries : List Entry} {amounts : List Amount}
    (h : splitLoop pot total entries = .ok amounts) :
    amounts.map Amount.miner = entries.map Entry.miner := by
  induction entries generalizing amounts with
  | nil =>
    obtain rfl : [] = amounts := by simpa [splitLoop, pure, Except.pure] using h
    rfl
  | cons e entries ih =>
    simp only [splitLoop, bind, Except.bind, pure, Except.pure] at h
    split at h
    · cases h
    · cases hrest : splitLoop pot total entries with
      | error e => simp [hrest] at h
      | ok rest =>
        obtain rfl := by simpa [hrest] using h
        rw [List.map_cons, ih hrest, List.map_cons]

theorem splitPot_miners {pot dust total : Int} {entries : List Entry} {amounts : List Amount}
    (h : splitPot pot entries = .ok (amounts, dust, total)) :
    amounts.map Amount.miner = entries.map Entry.miner := by
  simp only [splitPot, bind, Except.bind, pure, Except.pure] at h
  split at h
  · cases h
  split at h
  · cases h
  cases hloop : splitLoop pot (totalWeight entries) entries with
  | error e => simp [hloop] at h
  | ok shares =>
    simp only [hloop] at h
    split at h
    · cases h
    split at h
    · cases h
    obtain ⟨rfl, -⟩ : shares = amounts ∧ _ := by simpa using h
    exact splitLoop_miners hloop

/-- Somebody is owed the dust limit when a share of the window reaches it. -/
theorem owed_iff {value feeBasisPoints dustLimit fee : Int} {entries : List Entry}
    (hfee : feeOf value feeBasisPoints = .ok fee) (hpot : 0 ≤ value - fee)
    (hweights : ∀ e ∈ entries.filter (·.weight > 0), 0 < e.weight) :
    Owed value feeBasisPoints dustLimit entries ↔
      ∃ e ∈ entries.filter (·.weight > 0), dustLimit ≤
        (share (value - fee) (totalWeight (entries.filter (·.weight > 0))) e).amount := by
  unfold Owed
  generalize entries.filter (·.weight > 0) = live at hweights ⊢
  by_cases hne : live = []
  · subst hne
    have hsplit : ∀ r, splitPot (value - fee) [] ≠ .ok r := by
      intro r
      simp [splitPot, totalWeight, not_lt.mpr hpot, bind, Except.bind, throw, throwThe,
        MonadExceptOf.throw]
    constructor
    · rintro ⟨fee', amounts, dust, total, hfee', hok, _⟩
      obtain rfl : fee = fee' := by simpa [hfee] using hfee'
      exact absurd hok (hsplit _)
    · rintro ⟨e, he, _⟩
      simp at he
  · obtain ⟨dust, hsplit⟩ := splitPot_eq hweights hpot hne
    constructor
    · rintro ⟨fee', amounts, dust', total, hfee', hok, a, ha, hle⟩
      obtain rfl : fee = fee' := by simpa [hfee] using hfee'
      obtain ⟨rfl, _⟩ : _ = amounts ∧ _ := by simpa [hsplit] using hok
      obtain ⟨e, he, rfl⟩ := List.mem_map.mp ha
      exact ⟨e, he, hle⟩
    · rintro ⟨e, he, hle⟩
      exact ⟨fee, _, dust, _, hfee, hsplit, _, List.mem_map_of_mem he, hle⟩

/-- The spec of a payout set that was built: its outputs are not negative and sum
to the value exactly, and some of them pays a miner precisely when the window owed
somebody the dust limit. -/
theorem buildPayoutOutputs_spec {value feeBasisPoints dustLimit : Int} {entries : List Entry}
    {scriptOf : String → Except String Bytes} {poolScript : Bytes} {p : Payout}
    (hdistinct : (entries.map Entry.miner).Nodup) (hdust : 0 < dustLimit)
    (h : buildPayoutOutputs value feeBasisPoints entries scriptOf poolScript dustLimit = .ok p) :
    (p.outputs.map Output.value).sum = value ∧ (∀ o ∈ p.outputs, 0 ≤ o.value) ∧
      p.outputs ≠ [] ∧
      ((∃ o ∈ p.outputs, 0 < o.value ∧ o.miner.isSome) ↔
        Owed value feeBasisPoints dustLimit entries) := by
  unfold buildPayoutOutputs at h
  simp only [bind, Except.bind, pure, Except.pure, throw, throwThe, MonadExceptOf.throw] at h
  split at h
  · cases h
  rename_i hvalue
  cases hfee : feeOf value feeBasisPoints with
  | error e => simp [hfee] at h
  | ok fee =>
    have hpot := feeOf_ok (not_le.mp hvalue) hfee
    have hweights : ∀ e ∈ entries.filter (·.weight > 0), 0 < e.weight := by
      intro e he
      simpa using (List.mem_filter.mp he).2
    have hdistinct' : ((entries.filter (·.weight > 0)).map Entry.miner).Nodup :=
      hdistinct.sublist (List.filter_sublist.map _)
    obtain ⟨live, dropped, amounts, hpasses, hover, howed⟩ :=
      @dustPasses_spec (value - fee) dustLimit hpot _ hweights hdistinct' 62 []
    rw [owed_iff hfee hpot hweights, ← howed]
    have hperm : (amounts.mergeSort fun a b => a.miner ≤ b.miner).Perm amounts :=
      List.mergeSort_perm _ _
    simp only [hfee, hpasses] at h
    cases hminers : minerOutputs scriptOf (amounts.mergeSort fun a b => a.miner ≤ b.miner) with
    | error e => simp [hminers] at h
    | ok outputs =>
      obtain ⟨hvalues, hsome⟩ := minerOutputs_spec hminers
      simp only [hminers] at h
      split at h
      · cases h
      rename_i hpool
      split at h
      · cases h
      rename_i htotal
      obtain rfl := Except.ok.inj h
      have hvalue_le (o : Output) (ho : o ∈ outputs) : dustLimit ≤ o.value := by
        have hmem : o.value ∈ outputs.map Output.value := List.mem_map_of_mem ho
        rw [hvalues] at hmem
        obtain ⟨a, ha, hamount⟩ := List.mem_map.mp hmem
        rw [← hamount]
        exact hover a (hperm.mem_iff.mp ha)
      refine ⟨not_not.mp htotal, ?_, by simp, ?_⟩
      · intro o ho
        rcases List.mem_append.mp ho with ho | ho
        · exact hdust.le.trans (hvalue_le o ho)
        · rw [List.mem_singleton.mp ho]
          exact not_lt.mp hpool
      · have hlength : outputs = [] ↔ amounts = [] := by
          have hlen := congrArg List.length hvalues
          rw [List.length_map, List.length_map, hperm.length_eq] at hlen
          rw [← List.length_eq_zero_iff, ← List.length_eq_zero_iff, hlen]
        rw [ne_eq, ← hlength]
        constructor
        · rintro ⟨o, ho, _, hminer⟩ hempty
          simp only [hempty, List.nil_append, List.mem_singleton] at ho
          simp [ho] at hminer
        · intro hne
          obtain ⟨o, ho⟩ := List.exists_mem_of_ne_nil outputs hne
          exact ⟨o, List.mem_append_left _ ho, hdust.trans_le (hvalue_le o ho), hsome o ho⟩

/-- The amounts of a dust pass are for different miners. -/
theorem dustPasses_distinct {pot dustLimit : Int} (passes : Nat) {live live' : List Entry}
    {dropped dropped' : List Dropped} {amounts : List Amount}
    (hdistinct : (live.map Entry.miner).Nodup)
    (h : dustPasses pot dustLimit passes live dropped = .ok (live', dropped', amounts)) :
    (amounts.map Amount.miner).Nodup := by
  induction passes generalizing live dropped with
  | zero =>
    simp only [dustPasses, pure, Except.pure, Except.ok.injEq, Prod.mk.injEq] at h
    rw [← h.2.2]
    exact List.nodup_nil
  | succ passes ih =>
    simp only [dustPasses, bind, Except.bind, pure, Except.pure] at h
    split at h
    · obtain ⟨-, -, rfl⟩ : live = live' ∧ dropped = dropped' ∧ [] = amounts := by simpa using h
      exact List.nodup_nil
    · cases hsplit : splitPot pot live with
      | error e => simp [hsplit] at h
      | ok split =>
        obtain ⟨shares, dust, total⟩ := split
        simp only [hsplit] at h
        split at h
        · obtain ⟨-, -, rfl⟩ : live = live' ∧ dropped = dropped' ∧ shares = amounts := by simpa using h
          rw [splitPot_miners hsplit]
          exact hdistinct
        · exact ih (hdistinct.sublist (List.filter_sublist.map _)) h

/-- Every miner has at most one output of a payout set. -/
theorem buildPayoutOutputs_distinct {value feeBasisPoints dustLimit : Int} {entries : List Entry}
    {scriptOf : String → Except String Bytes} {poolScript : Bytes} {p : Payout}
    (hdistinct : (entries.map Entry.miner).Nodup)
    (h : buildPayoutOutputs value feeBasisPoints entries scriptOf poolScript dustLimit = .ok p) :
    (p.outputs.filterMap Output.miner).Nodup := by
  unfold buildPayoutOutputs at h
  simp only [bind, Except.bind, pure, Except.pure, throw, throwThe, MonadExceptOf.throw] at h
  split at h
  · cases h
  cases hfee : feeOf value feeBasisPoints with
  | error e => simp [hfee] at h
  | ok fee =>
    simp only [hfee] at h
    cases hpasses : dustPasses (value - fee) dustLimit 64 (entries.filter (·.weight > 0)) [] with
    | error e => simp [hpasses] at h
    | ok passes =>
      obtain ⟨live, dropped, amounts⟩ := passes
      have hamounts := dustPasses_distinct 64
        (hdistinct.sublist (List.filter_sublist.map (f := Entry.miner))) hpasses
      have hperm : (amounts.mergeSort fun a b => a.miner ≤ b.miner).Perm amounts :=
        List.mergeSort_perm _ _
      simp only [hpasses] at h
      cases hminers : minerOutputs scriptOf (amounts.mergeSort fun a b => a.miner ≤ b.miner) with
      | error e => simp [hminers] at h
      | ok outputs =>
        simp only [hminers] at h
        split at h
        · cases h
        split at h
        · cases h
        obtain rfl := Except.ok.inj h
        rw [List.filterMap_append, List.filterMap_cons_none rfl, List.filterMap_nil, List.append_nil,
          minerOutputs_miners hminers]
        exact (hperm.map Amount.miner).nodup_iff.mpr hamounts

end pcoin.store
