import PCoin.Amm.Product
import PCoin.Run.Basic
import Mathlib.Data.List.Sort
import Mathlib.Algebra.Order.Field.Rat
import Mathlib.Tactic.NormNum

/-! `cap-policy.mjs --curve --apply`: the ask follows the pool down, by a new `ammK`. Prices are exact
rationals, and the ladder is on its curve with the settings that were last written. -/

open run

namespace pcoin.capPolicy

section Model

def PREMIUM_PCT : ℚ := 0

def MAX_DIVERGENCE_PCT : ℚ := 10

def WINDOW_H : Int := 6

def MIN_SAMPLES : Nat := 250

def MAX_DROP_PCT : ℚ := 8

def MAX_DROP_24H_PCT : ℚ := 12

def HOUR : Int := 3600000

/-- One of `poolSamples`. -/
structure Sample where
  t : Int
  p : ℚ

/-- One entry of `curve-history.json`. -/
structure Entry where
  t : Int
  price : ℚ
  deriving DecidableEq

/-- What the live service says of the ladder. -/
structure Live where
  reservedPcn : ℚ
  ladderRemainingPcn : ℚ
  marginalPrice : ℚ

structure Settings where
  ammK : ℚ
  ammVirtualPcn : ℚ
  ladderMinPriceUsd : ℚ
  deriving DecidableEq

/-- `S.defs.ammK`. -/
def maxK : ℚ := 10 ^ 15

/-- Why a run writes nothing: a refusal, or an exit with nothing to do. -/
inductive Stop
  | unreadable
  | noSamples
  | shortWindow
  | noRate
  | unreachable
  | curveOff
  | noVirtual
  | noInventory
  | noPrice
  | mismatch
  | bounds
  | atFloor
  | noDrop
  | spent
  deriving DecidableEq

structure Inputs where
  samples : Option (List Sample)
  rates : List ℚ
  settings : Settings
  live : Option Live
  history : List Entry
  now : Int
  forceDrop : Bool

def median (win : List ℚ) : ℚ :=
  if win.length % 2 = 1 then win.getD ((win.length - 1) / 2) 0
  else (win.getD (win.length / 2 - 1) 0 + win.getD (win.length / 2) 0) / 2

def usable (samples : List Sample) : List Sample := samples.filter fun s => 0 < s.p

/-- The prices of the last `WINDOW_H` hours before the newest sample, sorted. -/
def window (samples : List Sample) (newest : Int) : List ℚ :=
  (((usable samples).filter fun s => newest - WINDOW_H * HOUR ≤ s.t).map Sample.p).insertionSort (· ≤ ·)

def poolMedian (poolSamples : Option (List Sample)) : Except Stop ℚ := do
  let samples ← poolSamples.elim (.error .unreadable) .ok
  let newest ← ((usable samples).map Sample.t).max?.elim (.error .noSamples) .ok
  let win := window samples newest
  if win.length < MIN_SAMPLES then .error .shortWindow else .ok (median win)

def worstRate (rates : List ℚ) : Except Stop ℚ :=
  (rates.filter fun r => 0 < r).max?.elim (.error .noRate) .ok

/-- The price that the pool and the public rate ask for, not under the floor. -/
def wanted (median rate floor : ℚ) : ℚ :=
  max (min (median * (1 + PREMIUM_PCT / 100)) (rate * (1 + MAX_DIVERGENCE_PCT / 100))) floor

/-- The clamp of a run. -/
def clampRun (nowP want : ℚ) : ℚ :=
  let perRunFloor := nowP * (1 - MAX_DROP_PCT / 100)
  if want < perRunFloor then perRunFloor else want

/-- The clamp of a day, against the highest price applied in it. -/
def clampDay (recent : List ℚ) (want : ℚ) : ℚ :=
  recent.max?.elim want fun ref =>
    let dayFloor := ref * (1 - MAX_DROP_24H_PCT / 100)
    if want < dayFloor then dayFloor else want

def clamped (forceDrop : Bool) (nowP : ℚ) (recent : List ℚ) (want : ℚ) : ℚ :=
  if forceDrop then want else clampDay recent (clampRun nowP want)

/-- What the clamps leave of the move, never above what is charged now. -/
def descend (forceDrop : Bool) (nowP : ℚ) (recent : List ℚ) (want : ℚ) : ℚ :=
  if nowP < clamped forceDrop nowP recent want then nowP else clamped forceDrop nowP recent want

/-- The prices applied in the last 24 hours. -/
def applied (history : List Entry) (now : Int) : List ℚ :=
  (history.filter fun h => now - 24 * HOUR ≤ h.t).map Entry.price

/-- Goes on under a condition. -/
def need (c : Prop) [Decidable c] (stop : Stop) : Except Stop Unit := if c then .ok () else .error stop

def movePct (want nowP : ℚ) : ℚ := (want - nowP) / nowP * 100

/-- The price is not the one that the curve makes. -/
def Differs (modelled nowP : ℚ) : Prop := 1 / 10 ^ 6 < |modelled - nowP| / nowP

instance (modelled nowP : ℚ) : Decidable (Differs modelled nowP) := inferInstanceAs (Decidable (_ < _))

/-- The new `ammK`, and the price it makes. -/
def curve (i : Inputs) : Except Stop (ℚ × ℚ) := do
  let median ← poolMedian i.samples
  let rate ← worstRate i.rates
  let floor := i.settings.ladderMinPriceUsd
  let live ← i.live.elim (.error .unreachable) .ok
  let k := i.settings.ammK
  let virt := i.settings.ammVirtualPcn
  -- an unpaid order never moves the published price
  let rem := live.ladderRemainingPcn + live.reservedPcn
  let nowP := live.marginalPrice
  need (0 < k) .curveOff
  need (0 ≤ virt) .noVirtual
  need (0 < rem) .noInventory
  need (0 < nowP) .noPrice
  let X := rem + virt
  let modelled := k / X / X
  need (¬(Differs modelled nowP ∧ 0 < floor ∧ |nowP - floor| / floor < 1 / 10 ^ 9 ∧ modelled ≤ floor)) .atFloor
  need (¬Differs modelled nowP) .mismatch
  let want := wanted median rate floor
  need (movePct want nowP ≤ -5 / 100) .noDrop
  let want := descend i.forceDrop nowP (applied i.history i.now) want
  need (movePct want nowP ≤ -5 / 100) .spent
  let newK := want * X * X
  need (0 < newK ∧ newK ≤ maxK) .bounds
  return (newK, want)

/-- The market as the tool and the ladder see it. -/
structure State where
  settings : Settings
  /-- What is neither sold nor retired. -/
  stock : ℚ
  reserved : ℚ
  history : List Entry
  now : Int
  /-- A run between its decision and its write, one at a time: the history it has read, `newK` and
  `want`. -/
  proc : Option (List Entry × ℚ × ℚ)
  deriving DecidableEq

def State.X (s : State) : ℚ := s.stock + s.settings.ammVirtualPcn

/-- `marginalPrice` of the ladder, on the curve. -/
def State.charged (s : State) : ℚ := product.price s.X s.settings.ammK s.settings.ladderMinPriceUsd

def State.live (s : State) : Live := ⟨s.reserved, s.stock - s.reserved, s.charged⟩

/-- What a run finds: `none` where the oracle's state cannot be read. -/
structure Reads where
  samples : Option (List Sample)
  rates : List ℚ
  reachable : Bool
  readable : Bool
  forceDrop : Bool

inductive Event
  | tick (ms : Nat)
  /-- Sales, orders, retirement and restocking. -/
  | moves (stock reserved : ℚ)
  | edits (settings : Settings)
  | decides (r : Reads)
  /-- `S.set`, and the entry in the history if its file can be written. -/
  | writes (recorded : Bool)
  | dies

def State.inputs (s : State) (r : Reads) : Inputs :=
  { samples := r.samples, rates := r.rates, settings := s.settings,
    live := if r.reachable then some s.live else none,
    history := if r.readable then s.history else [], now := s.now, forceDrop := r.forceDrop }

/-- The history file after a write. -/
def recordedAt (now : Int) (want : ℚ) (history : List Entry) : List Entry :=
  (history ++ [Entry.mk now want]).filter fun h => now - 7 * 24 * HOUR ≤ h.t

def step (s : State) : Event → Option State
  | .tick ms => some { s with now := s.now + ms }
  | .moves stock reserved => some { s with stock := stock, reserved := reserved }
  | .edits settings => some { s with settings := settings }
  | .decides r => do
    guard (s.proc = none)
    match curve (s.inputs r) with
    | .error _ => return s
    | .ok (newK, want) => return { s with proc := some ((s.inputs r).history, newK, want) }
  | .writes recorded => do
    let (history, newK, want) ← s.proc
    return { s with
      settings := { s.settings with ammK := newK }
      history := if recorded then recordedAt s.now want history else s.history
      proc := none }
  | .dies => some { s with proc := none }

end Model

section Run

/-! ### The clamps -/

theorem le_of_max? {l : List ℚ} {m : ℚ} (h : l.max? = some m) : m ∈ l ∧ ∀ x ∈ l, x ≤ m :=
  List.max?_eq_some_iff.mp h

theorem clampRun_eq (nowP want : ℚ) : clampRun nowP want = max want (nowP * (1 - MAX_DROP_PCT / 100)) := by
  unfold clampRun
  dsimp only
  split
  case isTrue h => exact (max_eq_right h.le).symm
  case isFalse h => exact (max_eq_left (not_lt.mp h)).symm

theorem le_clampDay (recent : List ℚ) (want : ℚ) :
    want ≤ clampDay recent want ∧ ∀ p ∈ recent, p * (1 - MAX_DROP_24H_PCT / 100) ≤ clampDay recent want := by
  unfold clampDay
  cases hmax : recent.max? with
  | none =>
    refine ⟨le_refl want, fun p hp => ?_⟩
    rw [List.max?_eq_none_iff.mp hmax] at hp
    cases hp
  | some ref =>
    have hdrop : (0 : ℚ) ≤ 1 - MAX_DROP_24H_PCT / 100 := by norm_num [MAX_DROP_24H_PCT]
    have hbelow : ∀ p ∈ recent, p * (1 - MAX_DROP_24H_PCT / 100) ≤ ref * (1 - MAX_DROP_24H_PCT / 100) :=
      fun p hp => mul_le_mul_of_nonneg_right ((le_of_max? hmax).2 p hp) hdrop
    change want ≤ (if want < ref * (1 - MAX_DROP_24H_PCT / 100) then _ else _) ∧ ∀ p ∈ recent, _ ≤ (ite _ _ _)
    split
    case isTrue h => exact ⟨h.le, hbelow⟩
    case isFalse h => exact ⟨le_refl want, fun p hp => (hbelow p hp).trans (not_lt.mp h)⟩

/-- A move that is left is not below what any clamp allows. -/
theorem le_descend {forceDrop : Bool} {nowP want : ℚ} {recent : List ℚ}
    (h : descend forceDrop nowP recent want < nowP) :
    want ≤ descend forceDrop nowP recent want ∧ (forceDrop = false →
      nowP * (1 - MAX_DROP_PCT / 100) ≤ descend forceDrop nowP recent want ∧
      ∀ p ∈ recent, p * (1 - MAX_DROP_24H_PCT / 100) ≤ descend forceDrop nowP recent want) := by
  have heq : descend forceDrop nowP recent want = clamped forceDrop nowP recent want := by
    unfold descend at h ⊢
    by_cases hlt : nowP < clamped forceDrop nowP recent want
    · rw [if_pos hlt] at h
      exact absurd h (lt_irrefl nowP)
    · exact if_neg hlt
  rw [heq]
  cases forceDrop with
  | true => exact ⟨le_refl want, fun hfalse => absurd hfalse (by decide)⟩
  | false =>
    change want ≤ clampDay recent (clampRun nowP want) ∧ (_ → _ ≤ clampDay recent (clampRun nowP want) ∧
      ∀ p ∈ recent, _ ≤ clampDay recent (clampRun nowP want))
    obtain ⟨hle, hday⟩ := le_clampDay recent (clampRun nowP want)
    have hrun := clampRun_eq nowP want
    refine ⟨?_, fun _ => ⟨?_, hday⟩⟩
    · exact (hrun ▸ le_max_left want _).trans hle
    · exact (hrun ▸ le_max_right want _).trans hle

theorem descend_le {forceDrop : Bool} {nowP want b : ℚ} {recent : List ℚ} (hwant : want ≤ b)
    (hrun : nowP * (1 - MAX_DROP_PCT / 100) ≤ b)
    (hday : ∀ p ∈ recent, p * (1 - MAX_DROP_24H_PCT / 100) ≤ b) : descend forceDrop nowP recent want ≤ b := by
  have hclamped : clamped forceDrop nowP recent want ≤ b := by
    cases forceDrop with
    | true => exact hwant
    | false =>
      have hran : clampRun nowP want ≤ b := clampRun_eq nowP want ▸ max_le hwant hrun
      change clampDay recent (clampRun nowP want) ≤ b
      unfold clampDay
      cases hmax : recent.max? with
      | none => exact hran
      | some ref =>
        change (if clampRun nowP want < _ then _ else _) ≤ b
        split
        · exact hday ref (le_of_max? hmax).1
        · exact hran
  unfold descend
  split
  case isTrue hlt => exact hlt.le.trans hclamped
  case isFalse => exact hclamped

/-! ### One run -/

theorem need_ok {c : Prop} [Decidable c] {stop : Stop} {u : Unit} (h : need c stop = .ok u) : c := by
  unfold need at h
  split at h
  · assumption
  · cases h

theorem bind_ok {α β : Type} {x : Except Stop α} {f : α → Except Stop β} {b : β} (h : x >>= f = .ok b) :
    ∃ a, x = .ok a ∧ f a = .ok b := by
  cases x with
  | error e => cases h
  | ok a => exact ⟨a, rfl, h⟩

theorem need_error {c : Prop} [Decidable c] {stop stop' : Stop} (h : need c stop = .error stop') : ¬c := by
  unfold need at h
  split at h
  · cases h
  · assumption

theorem bind_error {α β : Type} {x : Except Stop α} {f : α → Except Stop β} {stop : Stop}
    (h : x >>= f = .error stop) : x = .error stop ∨ ∃ a, x = .ok a ∧ f a = .error stop := by
  cases x with
  | error e =>
    cases h
    exact .inl rfl
  | ok a => exact .inr ⟨a, rfl, h⟩

theorem movePct_le {want nowP : ℚ} (hpos : 0 < nowP) :
    movePct want nowP ≤ -5 / 100 ↔ want ≤ nowP * (1 - 5 / 10000) := by
  rw [movePct, ← le_div_iff₀ (by norm_num), div_le_iff₀ hpos]
  constructor <;> intro h <;> linarith

/-- What a run that has something to write has found, and what it writes. -/
structure Moves (i : Inputs) (live : Live) (newK want : ℚ) : Prop where
  k_pos : 0 < i.settings.ammK
  inventory_pos : 0 < live.ladderRemainingPcn + live.reservedPcn + i.settings.ammVirtualPcn
  newK_pos : 0 < newK
  newK_eq : newK = want * (live.ladderRemainingPcn + live.reservedPcn + i.settings.ammVirtualPcn) *
    (live.ladderRemainingPcn + live.reservedPcn + i.settings.ammVirtualPcn)
  down : want < live.marginalPrice
  want_eq : ∃ median rate, poolMedian i.samples = .ok median ∧ worstRate i.rates = .ok rate ∧
    want = descend i.forceDrop live.marginalPrice (applied i.history i.now)
      (wanted median rate i.settings.ladderMinPriceUsd)

theorem curve_ok {i : Inputs} {newK want : ℚ} (h : curve i = .ok (newK, want)) :
    ∃ live, i.live = some live ∧ Moves i live newK want := by
  obtain ⟨median, hmedian, h⟩ := bind_ok h
  obtain ⟨rate, hrate, h⟩ := bind_ok h
  obtain ⟨live, hlive, h⟩ := bind_ok h
  obtain ⟨_, hk, h⟩ := bind_ok h
  obtain ⟨_, hvirt, h⟩ := bind_ok h
  obtain ⟨_, hrem, h⟩ := bind_ok h
  obtain ⟨_, hprice, h⟩ := bind_ok h
  obtain ⟨_, _, h⟩ := bind_ok h
  obtain ⟨_, _, h⟩ := bind_ok h
  obtain ⟨_, _, h⟩ := bind_ok h
  obtain ⟨_, hmove, h⟩ := bind_ok h
  obtain ⟨_, hbounds, h⟩ := bind_ok h
  obtain ⟨hnewK, hwanted⟩ := Prod.ext_iff.mp (Except.ok.inj h)
  dsimp only at hnewK hwanted hmove hbounds
  rw [hwanted] at hnewK hmove hbounds
  have hprice := need_ok hprice
  have hvirt := need_ok hvirt
  have hrem := need_ok hrem
  have hmove := (movePct_le hprice).mp (need_ok hmove)
  have hdown : want < live.marginalPrice := by linarith
  refine ⟨live, ?_, need_ok hk, by linarith, hnewK ▸ (need_ok hbounds).1, hnewK.symm, hdown,
    ⟨median, rate, hmedian, hrate, hwanted.symm⟩⟩
  cases hi : i.live with
  | none =>
    rw [hi] at hlive
    cases hlive
  | some found =>
    rw [hi] at hlive
    exact congrArg some (Except.ok.inj hlive)

/-- What a run in `s` has found when it has something to write. -/
structure Decided (s : State) (r : Reads) (newK want : ℚ) : Prop where
  stocked : 0 < s.X
  k_pos : 0 < s.settings.ammK
  want_pos : 0 < want
  newK_eq : newK = want * s.X * s.X
  lower : newK ≤ s.settings.ammK
  down : want < s.charged
  want_eq : ∃ median rate, poolMedian r.samples = .ok median ∧ worstRate r.rates = .ok rate ∧
    want = descend r.forceDrop s.charged (applied (s.inputs r).history s.now)
      (wanted median rate s.settings.ladderMinPriceUsd)

/-- A price that can fall is the curve's, not the floor, so that `ammK` falls with it. -/
theorem newK_le {s : State} {want : ℚ} (hX : 0 < s.X) (hdown : want < s.charged)
    (hfloor : s.settings.ladderMinPriceUsd ≤ want) : want * s.X * s.X ≤ s.settings.ammK := by
  have hcurve : want < s.settings.ammK / s.X / s.X :=
    (lt_max_iff.mp hdown).resolve_right (not_lt.mpr hfloor)
  rw [div_div, lt_div_iff₀ (mul_pos hX hX)] at hcurve
  linarith

theorem decided {s : State} {r : Reads} {newK want : ℚ} (h : curve (s.inputs r) = .ok (newK, want)) :
    Decided s r newK want := by
  obtain ⟨live, hlive, hmoves⟩ := curve_ok h
  obtain rfl : s.live = live := by
    simp only [State.inputs] at hlive
    split at hlive
    · exact Option.some.inj hlive
    · cases hlive
  have hX : s.live.ladderRemainingPcn + s.live.reservedPcn + (s.inputs r).settings.ammVirtualPcn = s.X := by
    change s.stock - s.reserved + s.reserved + s.settings.ammVirtualPcn = s.X
    rw [sub_add_cancel, State.X]
  have hpos := hmoves.inventory_pos
  have hnewK := hmoves.newK_eq
  rw [hX] at hpos hnewK
  have hwant : 0 < want := by
    by_contra hneg
    have := mul_nonpos_of_nonpos_of_nonneg (not_lt.mp hneg) (mul_pos hpos hpos).le
    have := hmoves.newK_pos
    linarith
  obtain ⟨median, rate, hmedian, hrate, heq⟩ := hmoves.want_eq
  obtain ⟨hle, -⟩ := le_descend (heq ▸ hmoves.down)
  have hlower := newK_le hpos hmoves.down (heq ▸ (le_max_right _ _).trans hle)
  exact ⟨hpos, hmoves.k_pos, hwant, hnewK, hnewK ▸ hlower, hmoves.down, hmoves.want_eq⟩

theorem Decided.wanted_le {s : State} {r : Reads} {newK want : ℚ} (h : Decided s r newK want) :
    ∃ median rate, poolMedian r.samples = .ok median ∧ worstRate r.rates = .ok rate ∧
      wanted median rate s.settings.ladderMinPriceUsd ≤ want := by
  obtain ⟨median, rate, hmedian, hrate, heq⟩ := h.want_eq
  exact ⟨median, rate, hmedian, hrate, heq ▸ (le_descend (heq ▸ h.down)).1⟩

theorem Decided.clamps {s : State} {r : Reads} {newK want : ℚ} (h : Decided s r newK want)
    (hforce : r.forceDrop = false) : s.charged * (1 - MAX_DROP_PCT / 100) ≤ want ∧
      ∀ p ∈ applied (s.inputs r).history s.now, p * (1 - MAX_DROP_24H_PCT / 100) ≤ want := by
  obtain ⟨median, rate, -, -, heq⟩ := h.want_eq
  exact heq ▸ (le_descend (heq ▸ h.down)).2 hforce

theorem decides_cases {s t : State} {r : Reads} (h : step s (.decides r) = some t) :
    ((∃ stop, curve (s.inputs r) = .error stop) ∧ t = s) ∨ ∃ newK want, Decided s r newK want ∧
      t = { s with proc := some ((s.inputs r).history, newK, want) } := by
  obtain ⟨_, -, h⟩ := Option.bind_eq_some_iff.mp h
  split at h
  next stop hcurve => exact .inl ⟨⟨stop, hcurve⟩, (Option.some.inj h).symm⟩
  next newK want hcurve => exact .inr ⟨newK, want, decided hcurve, (Option.some.inj h).symm⟩

theorem writes_cases {s t : State} {recorded : Bool} (h : step s (.writes recorded) = some t) :
    ∃ history newK want, s.proc = some (history, newK, want) ∧
      t = { s with
        settings := { s.settings with ammK := newK }
        history := if recorded then recordedAt s.now want history else s.history
        proc := none } := by
  obtain ⟨⟨history, newK, want⟩, hproc, h⟩ := Option.bind_eq_some_iff.mp h
  exact ⟨history, newK, want, hproc, (Option.some.inj h).symm⟩

theorem now_le {s t : State} {e : Event} (h : step s e = some t) : s.now ≤ t.now := by
  cases e with
  | tick ms =>
    obtain rfl := Option.some.inj h
    exact Int.le_add_of_nonneg_right (Int.natCast_nonneg ms)
  | decides r =>
    obtain ⟨-, rfl⟩ | ⟨_, _, _, rfl⟩ := decides_cases h
    · exact le_refl _
    · exact le_refl _
  | writes recorded =>
    obtain ⟨_, _, _, _, rfl⟩ := writes_cases h
    exact le_refl _
  | moves | edits | dies =>
    obtain rfl := Option.some.inj h
    exact le_refl _

end Run

namespace sample

/-- A pool at a tenth of the ask. -/
def dumped : Reads := ⟨some (List.replicate 250 ⟨0, 1 / 10⟩), [1 / 10], true, true, false⟩

def start : State := ⟨⟨10 ^ 6, 0, 1 / 100⟩, 1000, 0, [], 0, none⟩

/-- Three runs an hour apart. -/
def hourly : List Event :=
  [.decides dumped, .writes true, .tick 3600000, .decides dumped, .writes true, .tick 3600000,
    .decides dumped, .writes true]

def clampedDown : State :=
  ⟨⟨809600, 0, 1 / 100⟩, 1000, 0, [⟨0, 92 / 100⟩, ⟨3600000, 8464 / 10000⟩, ⟨7200000, 8096 / 10000⟩],
    7200000, none⟩

theorem exec_hourly : exec step start hourly = some clampedDown := by decide +kernel

end sample

section Down

/-- No edits of the settings by anyone else. -/
def Unedited (_ : State) : Event → Prop
  | .edits _ => False
  | _ => True

instance (s : State) : DecidablePred (Unedited s) := fun e => by
  cases e <;> unfold Unedited <;> infer_instance

/-- What the tool has written and may still write is not above `k`. -/
structure Lower (k : ℚ) (s : State) : Prop where
  ammK : s.settings.ammK ≤ k
  pending : ∀ q ∈ s.proc, q.2.1 ≤ s.settings.ammK

theorem Lower.step {k : ℚ} {s t : State} {e : Event} (h : Lower k s) (hok : Unedited s e)
    (hstep : step s e = some t) : Lower k t := by
  cases e with
  | edits settings => exact hok.elim
  | tick | moves =>
    obtain rfl := Option.some.inj hstep
    exact ⟨h.ammK, h.pending⟩
  | dies =>
    obtain rfl := Option.some.inj hstep
    exact ⟨h.ammK, fun q hq => (Option.not_mem_none q hq).elim⟩
  | decides r =>
    obtain ⟨-, rfl⟩ | ⟨newK, want, hdecided, rfl⟩ := decides_cases hstep
    · exact h
    · refine ⟨h.ammK, fun q hq => ?_⟩
      obtain rfl := Option.some.inj hq
      exact hdecided.lower
  | writes recorded =>
    obtain ⟨history, newK, want, hproc, rfl⟩ := writes_cases hstep
    exact ⟨(h.pending _ hproc).trans h.ammK, fun q hq => (Option.not_mem_none q hq).elim⟩

/-- The tool only ever moves the curve down, whatever the pool, the public rate and the stock do. -/
theorem down_only {s t : State} (hidle : s.proc = none) (hrun : Steps step Unedited s t) :
    t.settings.ammK ≤ s.settings.ammK := by
  have hlower : Lower s.settings.ammK t := by
    apply hrun.invariant (fun _ _ _ h hok hstep => h.step hok hstep)
    exact ⟨le_refl _, fun q hq => by rw [hidle] at hq; cases hq⟩
  exact hlower.ammK

theorem down_only_hourly : sample.clampedDown.settings.ammK ≤ sample.start.settings.ammK :=
  down_only rfl (steps_of_exec sample.hourly sample.exec_hourly (by decide +kernel))

end Down

section Priced

/-- Stock that only sells or is retired, and no edits of the settings. -/
def Sells (s : State) : Event → Prop
  | .moves stock _ => stock ≤ s.stock ∧ 0 < stock + s.settings.ammVirtualPcn
  | .edits _ => False
  | .tick _ | .decides _ | .writes _ | .dies => True

instance (s : State) : DecidablePred (Sells s) := fun e => by
  cases e <;> unfold Sells <;> infer_instance

/-- A run between its decision and its write: with a reserve of `X` its `newK` makes at least `want`. -/
structure Pending (W : List Entry → ℚ → Prop) (X : ℚ) (history : List Entry) (newK want : ℚ) : Prop where
  want_pos : 0 < want
  want_le : want * X * X ≤ newK
  held : W history want

/-- The price charged meets `C`, and what a run is about to write meets `W`. -/
structure Priced (C W : List Entry → ℚ → Prop) (s : State) : Prop where
  k_pos : 0 < s.settings.ammK
  stocked : 0 < s.X
  charged : C s.history s.charged
  pending : ∀ q ∈ s.proc, Pending W s.X q.1 q.2.1 q.2.2

variable {C W : List Entry → ℚ → Prop} {s t : State}

theorem Priced.idle (hidle : s.proc = none) (hk : 0 < s.settings.ammK) (hX : 0 < s.X)
    (hcharged : C s.history s.charged) : Priced C W s := by
  refine ⟨hk, hX, hcharged, fun q hq => ?_⟩
  rw [hidle] at hq
  cases hq

theorem Priced.moves (h : Priced C W s) (hmono : ∀ history p p', C history p → p ≤ p' → C history p')
    {stock : ℚ} (hle : stock ≤ s.stock) (hpos : 0 < stock + s.settings.ammVirtualPcn) (reserved : ℚ) :
    Priced C W { s with stock := stock, reserved := reserved } := by
  have hX : stock + s.settings.ammVirtualPcn ≤ s.X := by
    unfold State.X
    linarith
  -- the price rises as the reserve shrinks
  refine ⟨h.k_pos, hpos, hmono _ _ _ h.charged (product.price_le h.k_pos hpos hX), fun q hq => ?_⟩
  obtain ⟨hwant, hle, hheld⟩ := h.pending q hq
  have hone := mul_le_mul_of_nonneg_left hX hwant.le
  have htwo := mul_le_mul hone hX hpos.le (mul_pos hwant h.stocked).le
  exact ⟨hwant, htwo.trans hle, hheld⟩

theorem Priced.decides (h : Priced C W s) {r : Reads} {newK want : ℚ} (hdecided : Decided s r newK want)
    (hheld : W (s.inputs r).history want) :
    Priced C W { s with proc := some ((s.inputs r).history, newK, want) } := by
  refine ⟨h.k_pos, h.stocked, h.charged, fun q hq => ?_⟩
  obtain rfl := Option.some.inj hq
  exact ⟨hdecided.want_pos, hdecided.newK_eq.ge, hheld⟩

theorem Priced.writes (h : Priced C W s) {history history' : List Entry} {newK want : ℚ}
    (hproc : s.proc = some (history, newK, want))
    (hwrites : 0 < want → W history want → ∀ p, want ≤ p → C history' p) :
    Priced C W { s with
      settings := { s.settings with ammK := newK }
      history := history'
      proc := none } := by
  obtain ⟨hwant, hle, hheld⟩ := h.pending _ hproc
  dsimp only at hwant hle hheld
  have hXX := mul_pos h.stocked h.stocked
  have hnewK : 0 < newK := by
    have := mul_pos hwant hXX
    linarith
  refine ⟨hnewK, h.stocked, hwrites hwant hheld _ ?_, fun q hq => (Option.not_mem_none q hq).elim⟩
  apply le_max_of_le_left
  change want ≤ newK / s.X / s.X
  rw [div_div, le_div_iff₀ hXX]
  linarith

/-- One step, for prices that may always rise. -/
theorem Priced.step {e : Event} (h : Priced C W s) (hok : Sells s e)
    (hmono : ∀ history p p', C history p → p ≤ p' → C history p')
    (hdecides : ∀ r newK want, e = .decides r → Decided s r newK want → W (s.inputs r).history want)
    (hwrites : ∀ recorded history want, e = .writes recorded → 0 < want → W history want →
      ∀ p, want ≤ p → C (if recorded then recordedAt s.now want history else s.history) p)
    (hstep : step s e = some t) : Priced C W t := by
  cases e with
  | tick ms =>
    obtain rfl := Option.some.inj hstep
    exact ⟨h.k_pos, h.stocked, h.charged, h.pending⟩
  | moves stock reserved =>
    obtain rfl := Option.some.inj hstep
    exact h.moves hmono hok.1 hok.2 reserved
  | edits settings => exact hok.elim
  | decides r =>
    obtain ⟨-, rfl⟩ | ⟨newK, want, hdecided, rfl⟩ := decides_cases hstep
    · exact h
    · exact h.decides hdecided (hdecides r newK want rfl hdecided)
  | writes recorded =>
    obtain ⟨history, newK, want, hproc, rfl⟩ := writes_cases hstep
    exact h.writes hproc (hwrites recorded history want rfl)
  | dies =>
    obtain rfl := Option.some.inj hstep
    exact ⟨h.k_pos, h.stocked, h.charged, fun q hq => (Option.not_mem_none q hq).elim⟩

end Priced

section Day

/-- No `--force-drop`, and a history that can be read and written. -/
def Recorded : Event → Prop
  | .decides r => r.forceDrop = false ∧ r.readable = true
  | .writes recorded => recorded = true
  | .tick _ | .moves _ _ | .edits _ | .dies => True

instance : DecidablePred Recorded := fun e => by
  cases e <;> unfold Recorded <;> infer_instance

def Kept (s : State) (e : Event) : Prop := Sells s e ∧ Recorded e

instance (s : State) : DecidablePred (Kept s) := fun e => inferInstanceAs (Decidable (Sells s e ∧ Recorded e))

/-- A price that a day's clamp leaves of one recorded since `t₀`, which a run's clamp left of `p₀`. -/
def Held (t₀ : Int) (p₀ : ℚ) (history : List Entry) (p : ℚ) : Prop :=
  ∃ e ∈ history, t₀ ≤ e.t ∧ p₀ * (1 - MAX_DROP_PCT / 100) ≤ e.price ∧
    e.price * (1 - MAX_DROP_24H_PCT / 100) ≤ p

/-- What holds in the 24 hours after `t₀`, at which `p₀` was charged. -/
structure Since (t₀ : Int) (p₀ : ℚ) (s : State) : Prop where
  clock : t₀ ≤ s.now
  priced : Priced (fun history p => p₀ ≤ p ∨ Held t₀ p₀ history p)
    (fun history want => p₀ * (1 - MAX_DROP_PCT / 100) ≤ want ∨ Held t₀ p₀ history want) s

variable {t₀ : Int} {p₀ : ℚ} {s t : State}

theorem Held.mono {history : List Entry} {p p' : ℚ} (h : Held t₀ p₀ history p) (hle : p ≤ p') :
    Held t₀ p₀ history p' := by
  obtain ⟨e, he, ht, hprice, hday⟩ := h
  exact ⟨e, he, ht, hprice, hday.trans hle⟩

/-- What a run in the 24 hours after `t₀` decides on. -/
theorem Since.decides (h : Since t₀ p₀ s) (htime : s.now ≤ t₀ + 24 * HOUR) {r : Reads} {newK want : ℚ}
    (hok : Recorded (.decides r)) (hdecided : Decided s r newK want) :
    p₀ * (1 - MAX_DROP_PCT / 100) ≤ want ∨ Held t₀ p₀ (s.inputs r).history want := by
  have hhistory : (s.inputs r).history = s.history := if_pos hok.2
  obtain ⟨hrun, hday⟩ := hdecided.clamps hok.1
  rw [hhistory] at hday ⊢
  obtain hcharged | ⟨e, he, hte, hprice, -⟩ := h.priced.charged
  · have hdrop : (0 : ℚ) ≤ 1 - MAX_DROP_PCT / 100 := by norm_num [MAX_DROP_PCT]
    exact .inl ((mul_le_mul_of_nonneg_right hcharged hdrop).trans hrun)
  · refine .inr ⟨e, he, hte, hprice, hday e.price (List.mem_map_of_mem (List.mem_filter.mpr ⟨he, ?_⟩))⟩
    rw [decide_eq_true_iff]
    omega

theorem mem_recordedAt {now : Int} {want : ℚ} {history : List Entry} {e : Entry}
    (he : e ∈ history ++ [Entry.mk now want]) (ht : t₀ ≤ e.t) (htime : now ≤ t₀ + 24 * HOUR) :
    e ∈ recordedAt now want history := by
  refine List.mem_filter.mpr ⟨he, ?_⟩
  rw [decide_eq_true_iff]
  unfold HOUR at *
  omega

theorem Since.writes (h : Since t₀ p₀ s) (htime : s.now ≤ t₀ + 24 * HOUR) {history : List Entry}
    {want p : ℚ} (hpos : 0 < want) (hle : want ≤ p)
    (hheld : p₀ * (1 - MAX_DROP_PCT / 100) ≤ want ∨ Held t₀ p₀ history want) :
    Held t₀ p₀ (recordedAt s.now want history) p := by
  obtain hfirst | ⟨e, he, hte, hprice, hday⟩ := hheld
  · have hself : want * (1 - MAX_DROP_24H_PCT / 100) ≤ want := by
      rw [MAX_DROP_24H_PCT]
      linarith
    exact ⟨⟨s.now, want⟩, mem_recordedAt (by simp) h.clock htime, h.clock, hfirst, hself.trans hle⟩
  · exact ⟨e, mem_recordedAt (List.mem_append_left _ he) hte htime, hte, hprice, hday.trans hle⟩

theorem Since.step (h : Since t₀ p₀ s) (htime : s.now ≤ t₀ + 24 * HOUR) {e : Event} (hok : Kept s e)
    (hstep : step s e = some t) : Since t₀ p₀ t := by
  refine ⟨h.clock.trans (now_le hstep), h.priced.step hok.1 ?_ ?_ ?_ hstep⟩
  · exact fun history p p' hp hle => hp.imp hle.trans' (Held.mono · hle)
  · intro r newK want he hdecided
    exact h.decides htime (he ▸ hok.2) hdecided
  · intro recorded history want he hpos hheld p hle
    have hrecorded : recorded = true := (he ▸ hok.2 : Recorded (.writes recorded))
    rw [if_pos hrecorded]
    exact .inr (h.writes htime hpos hle hheld)

/-- In 24 hours the ask falls at most by one run's clamp and then a day's, however many runs it takes. The
first run of a day has no applied price to be held to, so that a day is not bounded by its clamp alone. -/
theorem day_bound (hidle : s.proc = none) (hk : 0 < s.settings.ammK) (hX : 0 < s.X)
    (hrun : Steps step Kept s t) (htime : t.now ≤ s.now + 24 * HOUR) :
    s.charged * (1 - MAX_DROP_PCT / 100) * (1 - MAX_DROP_24H_PCT / 100) ≤ t.charged := by
  have hstart : s.now ≤ s.now + 24 * HOUR → Since s.now s.charged s :=
    fun _ => ⟨le_refl _, .idle hidle hk hX (.inl (le_refl _))⟩
  have hpreserve (u : State) (e : Event) (v : State)
      (h : u.now ≤ s.now + 24 * HOUR → Since s.now s.charged u) (hok : Kept u e)
      (hstep : capPolicy.step u e = some v) (hv : v.now ≤ s.now + 24 * HOUR) :
      Since s.now s.charged v := by
    have hu := (now_le hstep).trans hv
    exact (h hu).step hu hok hstep
  have hsince := hrun.invariant hpreserve hstart htime
  have hdrop : (0 : ℚ) ≤ 1 - MAX_DROP_24H_PCT / 100 := by norm_num [MAX_DROP_24H_PCT]
  obtain hcharged | ⟨e, -, -, hprice, hday⟩ := hsince.priced.charged
  · have hpos : 0 < s.charged := lt_max_of_lt_left (div_pos (div_pos hk hX) hX)
    rw [MAX_DROP_PCT, MAX_DROP_24H_PCT]
    linarith
  · exact (mul_le_mul_of_nonneg_right hprice hdrop).trans hday

/-- Three runs within two hours take all of it. -/
theorem day_bound_hourly :
    sample.start.charged * (1 - MAX_DROP_PCT / 100) * (1 - MAX_DROP_24H_PCT / 100) ≤
      sample.clampedDown.charged ∧
    sample.clampedDown.charged = sample.start.charged * (8096 / 10000) := by
  refine ⟨day_bound rfl (by decide +kernel) (by decide +kernel) ?_ (by decide +kernel), by decide +kernel⟩
  exact steps_of_exec sample.hourly sample.exec_hourly (by decide +kernel)

end Day

end pcoin.capPolicy
