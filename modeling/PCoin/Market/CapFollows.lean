import PCoin.Market.CapPolicy
import Mathlib.Data.List.GetD

/-! What the ask follows. A minority of the samples does not move it, and while the runs are answered it
comes down to where the pool and the public rate want it. -/

open run

namespace pcoin.capPolicy

section Median

variable {win : List ℚ} {b : ℚ}

theorem lt_countP (hsorted : win.Pairwise (· ≤ ·)) {j : Nat} (hj : j < win.length)
    (h : win.getD j 0 < b) : j < win.countP (· < b) := by
  rw [List.getD_eq_getElem _ _ hj] at h
  have hbelow : ∀ p ∈ win.take (j + 1), decide (p < b) = true := by
    intro p hp
    obtain ⟨i, hi, rfl⟩ := List.getElem_of_mem hp
    rw [List.length_take] at hi
    rw [List.getElem_take, decide_eq_true_iff]
    obtain hij | rfl : i < j ∨ i = j := by omega
    · exact (List.pairwise_iff_getElem.mp hsorted i j _ hj hij).trans_lt h
    · exact h
  have hcount := List.countP_eq_length.mpr hbelow
  rw [List.length_take, min_eq_left hj] at hcount
  have hle : (win.take (j + 1)).countP (· < b) ≤ win.countP (· < b) :=
    (List.take_sublist (j + 1) win).countP_le
  omega

/-- A median is below a price only if at least half of what it is taken over is. -/
theorem half_of_median_lt (hsorted : win.Pairwise (· ≤ ·)) (hne : 0 < win.length) (h : median win < b) :
    win.length ≤ 2 * win.countP (· < b) := by
  unfold median at h
  split at h
  · have := lt_countP hsorted (by omega) h
    omega
  · have hlt : win.length / 2 - 1 < win.length / 2 := by omega
    have hlower : win.getD (win.length / 2 - 1) 0 ≤ win.getD (win.length / 2) 0 := by
      rw [List.getD_eq_getElem _ _ (by omega), List.getD_eq_getElem _ _ (by omega)]
      exact List.pairwise_iff_getElem.mp hsorted _ _ _ _ hlt
    have := lt_countP hsorted (j := win.length / 2 - 1) (b := b) (by omega) (by linarith)
    omega

theorem median_pos (h : ∀ p ∈ win, 0 < p) (hne : 0 < win.length) : 0 < median win := by
  have hget : ∀ j, j < win.length → 0 < win.getD j 0 := by
    intro j hj
    rw [List.getD_eq_getElem _ _ hj]
    exact h _ (List.getElem_mem hj)
  unfold median
  split
  · exact hget _ (by omega)
  · have hlower := hget (win.length / 2 - 1) (by omega)
    have hupper := hget (win.length / 2) (by omega)
    linarith

theorem poolMedian_ok {samples : List Sample} {m : ℚ} (h : poolMedian (some samples) = .ok m) :
    ∃ newest, ((usable samples).map Sample.t).max? = some newest ∧ 0 < (window samples newest).length ∧
      m = median (window samples newest) := by
  obtain ⟨_, hsamples, h⟩ := bind_ok h
  obtain rfl := Except.ok.inj hsamples
  obtain ⟨newest, hnewest, h⟩ := bind_ok h
  dsimp only at h
  split at h
  · cases h
  next hlong =>
    have hmax : ((usable samples).map Sample.t).max? = some newest := by
      cases hmax : ((usable samples).map Sample.t).max? with
      | none =>
        rw [hmax] at hnewest
        cases hnewest
      | some n =>
        rw [hmax] at hnewest
        exact congrArg some (Except.ok.inj hnewest)
    refine ⟨newest, hmax, ?_, (Except.ok.inj h).symm⟩
    unfold MIN_SAMPLES at hlong
    omega

theorem worstRate_ok {rates : List ℚ} {r : ℚ} (h : worstRate rates = .ok r) :
    0 < r ∧ ∀ rate ∈ rates, 0 < rate → rate ≤ r := by
  unfold worstRate at h
  cases hmax : (rates.filter fun r => 0 < r).max? with
  | none =>
    rw [hmax] at h
    cases h
  | some highest =>
    rw [hmax] at h
    obtain rfl := Except.ok.inj h
    obtain ⟨hmem, hle⟩ := le_of_max? hmax
    refine ⟨of_decide_eq_true (List.mem_filter.mp hmem).2, fun rate hrate hpos => ?_⟩
    exact hle rate (List.mem_filter.mpr ⟨hrate, decide_eq_true hpos⟩)

theorem wanted_pos {samples : Option (List Sample)} {rates : List ℚ} {m rate : ℚ} (floor : ℚ)
    (hm : poolMedian samples = .ok m) (hrate : worstRate rates = .ok rate) : 0 < wanted m rate floor := by
  have hpos := (worstRate_ok hrate).1
  have hmedian : 0 < m := by
    cases samples with
    | none => cases hm
    | some samples =>
      obtain ⟨newest, -, hlong, rfl⟩ := poolMedian_ok hm
      refine median_pos (fun p hp => ?_) hlong
      obtain ⟨s, hs, rfl⟩ := List.mem_map.mp ((List.perm_insertionSort _ _).mem_iff.mp hp)
      exact of_decide_eq_true (List.mem_filter.mp (List.mem_filter.mp hs).1).2
  apply lt_max_of_lt_left
  rw [PREMIUM_PCT, MAX_DIVERGENCE_PCT]
  exact lt_min (by linarith) (by linarith)

end Median

section Resists

/-- At least half of the samples that count lie below `b`. -/
def depressed (b : ℚ) (samples : List Sample) : Bool :=
  ((usable samples).map Sample.t).max?.any fun newest =>
    (window samples newest).length ≤ 2 * (window samples newest).countP (· < b)

/-- Fewer than half of the samples are below `b`, and one public rate is near it or above. -/
def Supported (b : ℚ) : Event → Prop
  | .decides r => (∀ samples ∈ r.samples, depressed b samples = false) ∧
    ∃ rate ∈ r.rates, b ≤ rate * (1 + MAX_DIVERGENCE_PCT / 100)
  | .tick _ | .moves _ _ | .edits _ | .writes _ | .dies => True

instance (b : ℚ) : DecidablePred (Supported b)
  | .decides r => inferInstanceAs (Decidable ((∀ samples ∈ r.samples, depressed b samples = false) ∧
    ∃ rate ∈ r.rates, b ≤ rate * (1 + MAX_DIVERGENCE_PCT / 100)))
  | .tick _ | .moves _ _ | .edits _ | .writes _ | .dies => instDecidableTrue

variable {b : ℚ} {s t : State}

theorem le_poolMedian {samples : List Sample} (hsupport : depressed b samples = false) {m : ℚ}
    (h : poolMedian (some samples) = .ok m) : b ≤ m := by
  obtain ⟨newest, hnewest, hlong, rfl⟩ := poolMedian_ok h
  by_contra hlt
  have hhalf := half_of_median_lt (List.pairwise_insertionSort _ _) hlong (not_le.mp hlt)
  rw [depressed, hnewest] at hsupport
  exact absurd (decide_eq_true hhalf) (Bool.eq_false_iff.mp hsupport)

theorem Decided.supported (hb : 0 < b) {r : Reads} {newK want : ℚ} (h : Decided s r newK want)
    (hsupport : Supported b (.decides r)) : b ≤ want := by
  obtain ⟨m, rate, hmedian, hrate, hle⟩ := h.wanted_le
  obtain ⟨hsamples, near, hnear, hbound⟩ := hsupport
  have hm : b ≤ m := by
    cases hr : r.samples with
    | none =>
      rw [hr] at hmedian
      cases hmedian
    | some samples =>
      rw [hr] at hmedian
      exact le_poolMedian (hsamples samples hr) hmedian
  have hpos : 0 < near := by
    rw [MAX_DIVERGENCE_PCT] at hbound
    linarith
  have hworst := (worstRate_ok hrate).2 near hnear hpos
  apply le_trans _ hle
  apply le_max_of_le_left
  rw [PREMIUM_PCT, MAX_DIVERGENCE_PCT] at *
  exact le_min (by linarith) (by linarith)

/-- While fewer than half of the samples are below `b` and the public rate supports it, no run takes the
ask below `b`, forced or not, whatever becomes of the history. -/
theorem resists (hb : 0 < b) (hidle : s.proc = none) (hk : 0 < s.settings.ammK) (hX : 0 < s.X)
    (hcharged : b ≤ s.charged) (hrun : Steps step (fun s e => Sells s e ∧ Supported b e) s t) :
    b ≤ t.charged := by
  have hpreserve (u : State) (e : Event) (v : State) (h : Priced (fun _ p => b ≤ p) (fun _ p => b ≤ p) u)
      (hok : Sells u e ∧ Supported b e) (hstep : step u e = some v) :
      Priced (fun _ p => b ≤ p) (fun _ p => b ≤ p) v := by
    refine h.step hok.1 (fun _ _ _ => le_trans) ?_ (fun _ _ _ _ _ h _ hle => h.trans hle) hstep
    intro r newK want he hdecided
    exact hdecided.supported hb (he ▸ hok.2)
  have hpriced := hrun.invariant hpreserve (.idle hidle hk hX hcharged)
  exact hpriced.charged

namespace sample

/-- Nearly half of the samples at a thousandth, and a run that is forced. -/
def flash : Reads :=
  ⟨some (List.replicate 124 ⟨0, 1 / 1000⟩ ++ List.replicate 126 ⟨0, 95 / 100⟩), [1], true, false, true⟩

def forced : List Event := [.decides flash, .moves 900 50, .writes false]

def followed : State := ⟨⟨950000, 0, 1 / 100⟩, 900, 50, [], 0, none⟩

theorem exec_forced : exec step start forced = some followed := by decide +kernel

end sample

theorem resists_forced : 95 / 100 ≤ sample.followed.charged := by
  have hrun : Steps step (fun s e => Sells s e ∧ Supported (95 / 100) e) sample.start sample.followed :=
    steps_of_exec sample.forced sample.exec_forced (by decide +kernel)
  exact resists (by norm_num) rfl (by decide +kernel) (by decide +kernel) (by decide +kernel) hrun

end Resists

section Converges

/-- Stock is only added, and nobody edits the settings. -/
def Eases (s : State) : Event → Prop
  | .moves stock _ => s.stock ≤ stock
  | .edits _ => False
  | .tick _ | .decides _ | .writes _ | .dies => True

instance (s : State) : DecidablePred (Eases s)
  | .moves stock _ => inferInstanceAs (Decidable (s.stock ≤ stock))
  | .edits _ => instDecidableFalse
  | .tick _ | .decides _ | .writes _ | .dies => instDecidableTrue

/-- The rest of a run of the tool: it decides, and writes what it has decided on. -/
def attempt (s : State) (r : Reads) (recorded : Bool) : Option State := do
  let t ← step s (.decides r)
  if t.proc = none then return t else step t (.writes recorded)

/-- A run that is answered, and asks for `b` at most. -/
structure Sees (b : ℚ) (s : State) (r : Reads) : Prop where
  virt_nonneg : 0 ≤ s.settings.ammVirtualPcn
  stock_pos : 0 < s.stock
  /-- `S.set` stores nothing above. -/
  k_le : s.settings.ammK ≤ maxK
  reachable : r.reachable = true
  wants : ∃ median rate, poolMedian r.samples = .ok median ∧ worstRate r.rates = .ok rate ∧
    wanted median rate s.settings.ladderMinPriceUsd ≤ b

/-- A run between its decision and its write, that does not charge more than `p` for what it writes. -/
structure Below (t₀ : Int) (p X : ℚ) (history : List Entry) (newK want : ℚ) : Prop where
  want_pos : 0 < want
  want_le : want ≤ p
  newK_pos : 0 < newK
  newK_le : newK ≤ want * X * X
  recent : ∀ e ∈ history, t₀ < e.t → e.price ≤ p

/-- Not more than `p` is charged, or was applied after `t₀`. -/
structure Under (t₀ : Int) (p : ℚ) (s : State) : Prop where
  k_pos : 0 < s.settings.ammK
  stocked : 0 < s.X
  charged : s.charged ≤ p
  recent : ∀ e ∈ s.history, t₀ < e.t → e.price ≤ p
  pending : ∀ q ∈ s.proc, Below t₀ p s.X q.1 q.2.1 q.2.2

/-- Nothing is recorded for a time to come. -/
structure Past (s : State) : Prop where
  history : ∀ e ∈ s.history, e.t ≤ s.now
  pending : ∀ q ∈ s.proc, ∀ e ∈ q.1, e.t ≤ s.now

variable {t₀ : Int} {p b c : ℚ} {s t : State}

theorem mem_inputs_history {r : Reads} {e : Entry} (h : e ∈ (s.inputs r).history) : e ∈ s.history := by
  simp only [State.inputs] at h
  split at h
  · exact h
  · cases h

theorem of_mem_recordedAt {now : Int} {want : ℚ} {history : List Entry} {e : Entry}
    (h : e ∈ recordedAt now want history) : e ∈ history ∨ e = ⟨now, want⟩ := by
  have happend := (List.mem_filter.mp h).1
  rwa [List.mem_append, List.mem_singleton] at happend

theorem Past.step (h : Past s) {e : Event} (hstep : step s e = some t) : Past t := by
  cases e with
  | tick ms =>
    have hle := now_le hstep
    obtain rfl := Option.some.inj hstep
    exact ⟨fun e he => (h.history e he).trans hle, fun q hq e he => (h.pending q hq e he).trans hle⟩
  | moves | edits =>
    obtain rfl := Option.some.inj hstep
    exact ⟨h.history, h.pending⟩
  | decides r =>
    obtain ⟨-, rfl⟩ | ⟨newK, want, -, rfl⟩ := decides_cases hstep
    · exact h
    · refine ⟨h.history, fun q hq e he => ?_⟩
      obtain rfl := Option.some.inj hq
      exact h.history e (mem_inputs_history he)
  | writes recorded =>
    obtain ⟨history, newK, want, hproc, rfl⟩ := writes_cases hstep
    refine ⟨fun e he => ?_, fun q hq => (Option.not_mem_none q hq).elim⟩
    dsimp only at he
    split at he
    · obtain hold | rfl := of_mem_recordedAt he
      · exact h.pending _ hproc e hold
      · exact le_refl s.now
    · exact h.history e he
  | dies =>
    obtain rfl := Option.some.inj hstep
    exact ⟨h.history, fun q hq => (Option.not_mem_none q hq).elim⟩

theorem Under.moves (h : Under t₀ p s) {stock : ℚ} (hle : s.stock ≤ stock) (reserved : ℚ) :
    Under t₀ p { s with stock := stock, reserved := reserved } := by
  have hX : s.X ≤ stock + s.settings.ammVirtualPcn := by
    unfold State.X
    linarith
  have hpos := h.stocked.trans_le hX
  refine ⟨h.k_pos, hpos, (product.price_le h.k_pos h.stocked hX).trans h.charged, h.recent, fun q hq => ?_⟩
  obtain ⟨hwant, hle, hnewK, hnewK_le, happlied⟩ := h.pending q hq
  have hone := mul_le_mul_of_nonneg_left hX hwant.le
  have htwo := mul_le_mul hone hX h.stocked.le (mul_pos hwant hpos).le
  exact ⟨hwant, hle, hnewK, hnewK_le.trans htwo, happlied⟩

theorem Under.decides (h : Under t₀ p s) {r : Reads} {newK want : ℚ} (hdecided : Decided s r newK want) :
    Below t₀ p s.X (s.inputs r).history newK want := by
  refine ⟨hdecided.want_pos, hdecided.down.le.trans h.charged, ?_, hdecided.newK_eq.le, ?_⟩
  · rw [hdecided.newK_eq]
    exact mul_pos (mul_pos hdecided.want_pos h.stocked) h.stocked
  · exact fun e he => h.recent e (mem_inputs_history he)

theorem price_le_of_newK_le {X newK want floor : ℚ} (hX : 0 < X) (hnewK : newK ≤ want * X * X) (hwant : want ≤ c)
    (hfloor : floor ≤ c) : product.price X newK floor ≤ c := by
  refine max_le (le_trans ?_ hwant) hfloor
  rw [div_div, div_le_iff₀ (mul_pos hX hX)]
  linarith

theorem Under.writes (h : Under t₀ p s) {recorded : Bool} {history : List Entry} {newK want : ℚ}
    (hbelow : Below t₀ p s.X history newK want) :
    Under t₀ p { s with
      settings := { s.settings with ammK := newK }
      history := if recorded then recordedAt s.now want history else s.history
      proc := none } := by
  have hfloor : s.settings.ladderMinPriceUsd ≤ p := (le_max_right _ _).trans h.charged
  refine ⟨hbelow.newK_pos, h.stocked, price_le_of_newK_le h.stocked hbelow.newK_le hbelow.want_le hfloor,
    fun e he ht => ?_, fun q hq => (Option.not_mem_none q hq).elim⟩
  dsimp only at he
  split at he
  · obtain hold | rfl := of_mem_recordedAt he
    · exact hbelow.recent e hold ht
    · exact hbelow.want_le
  · exact h.recent e he ht

theorem Under.step (h : Under t₀ p s) {e : Event} (hok : Eases s e) (hstep : step s e = some t) :
    Under t₀ p t := by
  cases e with
  | tick ms =>
    obtain rfl := Option.some.inj hstep
    exact ⟨h.k_pos, h.stocked, h.charged, h.recent, h.pending⟩
  | moves stock reserved =>
    obtain rfl := Option.some.inj hstep
    exact h.moves hok reserved
  | edits settings => exact hok.elim
  | decides r =>
    obtain ⟨-, rfl⟩ | ⟨newK, want, hdecided, rfl⟩ := decides_cases hstep
    · exact h
    · refine ⟨h.k_pos, h.stocked, h.charged, h.recent, fun q hq => ?_⟩
      obtain rfl := Option.some.inj hq
      exact h.decides hdecided
  | writes recorded =>
    obtain ⟨history, newK, want, hproc, rfl⟩ := writes_cases hstep
    exact h.writes (h.pending _ hproc)
  | dies =>
    obtain rfl := Option.some.inj hstep
    exact ⟨h.k_pos, h.stocked, h.charged, h.recent, fun q hq => (Option.not_mem_none q hq).elim⟩

/-- A run that is answered and writes nothing has found a price that the clamps leave almost where it is. -/
theorem charged_of_error {r : Reads} {stop : Stop} (h : curve (s.inputs r) = .error stop)
    (hk : 0 < s.settings.ammK) (hsees : Sees b s r) (hbc : b ≤ c)
    (hrun : s.charged * (1 - MAX_DROP_PCT / 100) ≤ c)
    (hday : ∀ p ∈ applied (s.inputs r).history s.now, p * (1 - MAX_DROP_24H_PCT / 100) ≤ c) :
    s.charged * (1 - 5 / 10000) ≤ c := by
  obtain ⟨median, rate, hmedian, hrate, hwants⟩ := hsees.wants
  have hX : 0 < s.X := add_pos_of_pos_of_nonneg hsees.stock_pos hsees.virt_nonneg
  have hcurve : 0 < s.settings.ammK / s.X / s.X := div_pos (div_pos hk hX) hX
  have hcharged : 0 < s.charged := lt_max_of_lt_left hcurve
  have hrem : s.live.ladderRemainingPcn + s.live.reservedPcn = s.stock := sub_add_cancel _ _
  have hfloor : s.settings.ladderMinPriceUsd ≤ c := (le_max_right _ _).trans (hwants.trans hbc)
  -- a price that is not the curve's is the floor
  have hdiffers : Differs (s.settings.ammK / s.X / s.X) s.charged → s.charged * (1 - 5 / 10000) ≤ c := by
    intro hdiffers
    obtain heq | heq := max_choice (s.settings.ammK / s.X / s.X) s.settings.ladderMinPriceUsd
    · have hsame : s.charged = s.settings.ammK / s.X / s.X := heq
      rw [Differs, hsame, sub_self, abs_zero, zero_div] at hdiffers
      norm_num at hdiffers
    · have hsame : s.charged = s.settings.ladderMinPriceUsd := heq
      linarith
  have hlive : (s.inputs r).live = some s.live := if_pos hsees.reachable
  obtain herr | ⟨_, hok, h⟩ := bind_error h
  · cases hmedian.symm.trans herr
  obtain rfl := Except.ok.inj (hmedian.symm.trans hok)
  obtain herr | ⟨_, hok, h⟩ := bind_error h
  · cases hrate.symm.trans herr
  obtain rfl := Except.ok.inj (hrate.symm.trans hok)
  rw [hlive] at h
  obtain herr | ⟨_, hok, h⟩ := bind_error h
  · cases herr
  obtain rfl := Except.ok.inj hok
  obtain herr | ⟨_, -, h⟩ := bind_error h
  · exact absurd hk (need_error herr)
  obtain herr | ⟨_, -, h⟩ := bind_error h
  · exact absurd hsees.virt_nonneg (need_error herr)
  obtain herr | ⟨_, -, h⟩ := bind_error h
  · exact absurd (hrem ▸ hsees.stock_pos) (need_error herr)
  obtain herr | ⟨_, -, h⟩ := bind_error h
  · exact absurd hcharged (need_error herr)
  dsimp only at h
  rw [hrem] at h
  -- the price is at the floor, or the model check fails
  obtain herr | ⟨_, -, h⟩ := bind_error h
  · exact hdiffers (not_not.mp (need_error herr)).1
  obtain herr | ⟨_, -, h⟩ := bind_error h
  · exact hdiffers (not_not.mp (need_error herr))
  obtain herr | ⟨_, -, h⟩ := bind_error h
  · have hmove := not_le.mp (mt (movePct_le hcharged).mpr (need_error herr))
    exact hmove.le.trans (hwants.trans hbc)
  obtain herr | ⟨_, hmove, h⟩ := bind_error h
  · have hmove := not_le.mp (mt (movePct_le hcharged).mpr (need_error herr))
    exact hmove.le.trans (descend_le (hwants.trans hbc) hrun hday)
  obtain herr | ⟨_, -, h⟩ := bind_error h
  · have hmove := (movePct_le hcharged).mp (need_ok hmove)
    have hdown := lt_of_le_of_lt hmove (by linarith : s.charged * (1 - 5 / 10000) < s.charged)
    have hle := (le_descend hdown).1
    have hpos := (wanted_pos s.settings.ladderMinPriceUsd hmedian hrate).trans_le hle
    have hlower := newK_le hX hdown ((le_max_right _ _).trans hle)
    exact absurd ⟨mul_pos (mul_pos hpos hX) hX, hlower.trans hsees.k_le⟩ (need_error herr)
  · cases h

theorem attempt_cases {r : Reads} {recorded : Bool} (h : attempt s r recorded = some t) :
    s.proc = none ∧ (((∃ stop, curve (s.inputs r) = .error stop) ∧ t = s) ∨
      ∃ newK want, Decided s r newK want ∧ t = { s with
        settings := { s.settings with ammK := newK }
        history := if recorded then recordedAt s.now want (s.inputs r).history else s.history
        proc := none }) := by
  obtain ⟨u, hdecides, hwrites⟩ := Option.bind_eq_some_iff.mp h
  obtain ⟨_, hidle, -⟩ := Option.bind_eq_some_iff.mp hdecides
  have hidle : s.proc = none := by simpa using hidle
  refine ⟨hidle, ?_⟩
  obtain ⟨hstop, rfl⟩ | ⟨newK, want, hdecided, rfl⟩ := decides_cases hdecides
  · rw [if_pos hidle] at hwrites
    exact .inl ⟨hstop, (Option.some.inj hwrites).symm⟩
  · rw [if_neg (by simp)] at hwrites
    obtain ⟨_, _, _, hproc, rfl⟩ := writes_cases hwrites
    obtain ⟨rfl, rfl, rfl⟩ : _ ∧ _ ∧ _ := by simpa using hproc
    exact .inr ⟨_, _, hdecided, rfl⟩

/-- A run more than 24 hours after `t₀` takes the ask down by a run's clamp, or to `b`. -/
theorem Under.attempt (h : Under t₀ p s) (htime : t₀ + 24 * HOUR < s.now) {r : Reads} (hsees : Sees b s r)
    {recorded : Bool} (hattempt : attempt s r recorded = some t) :
    t.charged * (1 - 5 / 10000) ≤ max b (p * (1 - MAX_DROP_PCT / 100)) := by
  have hcharged : 0 < s.charged := lt_max_of_lt_left (div_pos (div_pos h.k_pos h.stocked) h.stocked)
  have hp := h.charged
  have hrun : s.charged * (1 - MAX_DROP_PCT / 100) ≤ max b (p * (1 - MAX_DROP_PCT / 100)) := by
    apply le_max_of_le_right
    rw [MAX_DROP_PCT]
    linarith
  have hday : ∀ q ∈ applied (s.inputs r).history s.now,
      q * (1 - MAX_DROP_24H_PCT / 100) ≤ max b (p * (1 - MAX_DROP_PCT / 100)) := by
    intro q hq
    -- whatever was applied in the last 24 hours was applied after `t₀`
    obtain ⟨e, he, rfl⟩ := List.mem_map.mp hq
    obtain ⟨he, hrecent⟩ := List.mem_filter.mp he
    rw [decide_eq_true_iff] at hrecent
    have hprice := h.recent e (mem_inputs_history he) (by omega)
    apply le_max_of_le_right
    rw [MAX_DROP_24H_PCT, MAX_DROP_PCT]
    linarith
  obtain ⟨-, ⟨⟨stop, hstop⟩, rfl⟩ | ⟨newK, want, hdecided, rfl⟩⟩ := attempt_cases hattempt
  · exact charged_of_error hstop h.k_pos hsees (le_max_left _ _) hrun hday
  · obtain ⟨median, rate, hmedian, hrate, hwants⟩ := hsees.wants
    obtain ⟨_, _, hmedian', hrate', heq⟩ := hdecided.want_eq
    obtain rfl := Except.ok.inj (hmedian.symm.trans hmedian')
    obtain rfl := Except.ok.inj (hrate.symm.trans hrate')
    have hb := le_max_left b (p * (1 - MAX_DROP_PCT / 100))
    have hwant : want ≤ max b (p * (1 - MAX_DROP_PCT / 100)) := heq ▸ descend_le (hwants.trans hb) hrun hday
    have hfloor : s.settings.ladderMinPriceUsd ≤ max b (p * (1 - MAX_DROP_PCT / 100)) :=
      (le_max_right _ _).trans (hwants.trans hb)
    have hprice := price_le_of_newK_le h.stocked hdecided.newK_eq.le hwant hfloor
    have hwritten : 0 < product.price s.X newK s.settings.ladderMinPriceUsd := by
      have hnewK := (h.decides hdecided).newK_pos
      exact lt_max_of_lt_left (div_pos (div_pos hnewK h.stocked) h.stocked)
    change product.price s.X newK s.settings.ladderMinPriceUsd * _ ≤ _
    linarith

theorem attempt_steps {r : Reads} {recorded : Bool} (h : attempt s r recorded = some t) :
    Steps step Eases s t := by
  obtain ⟨u, hdecides, hwrites⟩ := Option.bind_eq_some_iff.mp h
  have hdecides_ok : Eases s (.decides r) := trivial
  have hwrites_ok : Eases u (.writes recorded) := trivial
  have hdecided : Steps step Eases s u := .tail (.refl s) hdecides_ok hdecides
  split at hwrites
  · exact Option.some.inj hwrites ▸ hdecided
  · exact hdecided.tail hwrites_ok hwrites

/-- `n` days in a row, each more than 24 hours long and ended by a run that is answered. What other runs
there are in them does not matter. -/
inductive Days (b : ℚ) : Nat → State → State → Prop
  | refl (s : State) : Days b 0 s s
  | tail {n : Nat} {s t u v : State} {r : Reads} {recorded : Bool} (hdays : Days b n s t)
    (hrun : Steps step Eases t u) (htime : t.now + 24 * HOUR < u.now) (hsees : Sees b u r)
    (hattempt : attempt u r recorded = some v) : Days b (n + 1) s v

/-- Between two runs. -/
structure Rested (s : State) : Prop where
  idle : s.proc = none
  past : Past s
  k_pos : 0 < s.settings.ammK
  stocked : 0 < s.X

theorem Rested.under (h : Rested s) : Under s.now s.charged s := by
  refine ⟨h.k_pos, h.stocked, le_refl _, fun e he ht => ?_, fun q hq => ?_⟩
  · exact absurd (h.past.history e he) (not_le.mpr ht)
  · rw [h.idle] at hq
    cases hq

theorem Rested.day {u v : State} {r : Reads} {recorded : Bool} (h : Rested t) (hrun : Steps step Eases t u)
    (hattempt : attempt u r recorded = some v) : Under t.now t.charged u ∧ Rested v := by
  have hunder : Under t.now t.charged u :=
    hrun.invariant (fun _ _ _ h hok hstep => h.step hok hstep) h.under
  have hpast : Past u := hrun.invariant (fun _ _ _ h _ hstep => h.step hstep) h.past
  have hsteps := attempt_steps hattempt
  have hafter : Under t.now t.charged v :=
    hsteps.invariant (fun _ _ _ h hok hstep => h.step hok hstep) hunder
  have hpast' : Past v := hsteps.invariant (fun _ _ _ h _ hstep => h.step hstep) hpast
  refine ⟨hunder, ?_, hpast', hafter.k_pos, hafter.stocked⟩
  obtain ⟨hidle, ⟨-, rfl⟩ | ⟨_, _, -, rfl⟩⟩ := attempt_cases hattempt
  · exact hidle
  · rfl

theorem Sees.pos {r : Reads} (h : Sees b s r) : 0 < b := by
  obtain ⟨median, rate, hmedian, hrate, hwants⟩ := h.wants
  exact (wanted_pos _ hmedian hrate).trans_le hwants

/-- While runs are answered, the ask comes down by a run's clamp a day until it is where the pool and the
public rate want it. -/
theorem converges {n : Nat} (hrested : Rested s) (h : Days b n s t) :
    Rested t ∧ t.charged ≤ max (b / (1 - 5 / 10000))
      (s.charged * ((1 - MAX_DROP_PCT / 100) / (1 - 5 / 10000)) ^ n) := by
  induction h with
  | refl s => exact ⟨hrested, by simp⟩
  | @tail n s t u v r recorded hdays hrun htime hsees hattempt ih =>
    obtain ⟨hrested, hbefore⟩ := ih hrested
    obtain ⟨hunder, hafter⟩ := hrested.day hrun hattempt
    refine ⟨hafter, ?_⟩
    have hfall := hunder.attempt htime hsees hattempt
    have hb := hsees.pos
    rw [MAX_DROP_PCT] at *
    obtain hlow | hrun := le_max_iff.mp hfall
    · apply le_max_of_le_left
      rwa [le_div_iff₀ (by norm_num)]
    obtain hlow | hpow := le_max_iff.mp hbefore
    · apply le_max_of_le_left
      rw [le_div_iff₀ (by norm_num)] at hlow ⊢
      linarith
    · apply le_max_of_le_right
      rw [pow_succ]
      linarith

namespace sample

def morning : State := { start with now := 86400001 }

def dayAfter : State :=
  ⟨⟨920000, 0, 1 / 100⟩, 1000, 0, [⟨86400001, 92 / 100⟩], 86400001, none⟩

theorem sees_dumped : Sees (1 / 10) morning dumped := by
  refine ⟨by decide +kernel, by decide +kernel, by decide +kernel, rfl, 1 / 10, 1 / 10, ?_, ?_, ?_⟩
  · decide +kernel
  · decide +kernel
  · decide +kernel

end sample

theorem converges_dumped : Rested sample.dayAfter ∧ sample.dayAfter.charged ≤ max (1 / 10 / (1 - 5 / 10000))
    (sample.start.charged * ((1 - MAX_DROP_PCT / 100) / (1 - 5 / 10000)) ^ 1) := by
  have hrun : Steps step Eases sample.start sample.morning :=
    steps_of_exec [.tick 86400001] rfl (by decide +kernel)
  have hattempt : attempt sample.morning sample.dumped true = some sample.dayAfter := by decide +kernel
  have hrested : Rested sample.start := by
    refine ⟨rfl, ⟨fun e he => ?_, fun q hq => ?_⟩, by decide +kernel, by decide +kernel⟩
    · cases he
    · cases hq
  exact converges hrested (.tail (.refl sample.start) hrun (by decide) sample.sees_dumped hattempt)

end Converges

end pcoin.capPolicy
