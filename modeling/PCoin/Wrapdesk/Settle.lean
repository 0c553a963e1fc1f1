import PCoin.Wrapdesk.Allowance
import Mathlib.Data.List.Sort

/-! The page of a deposit address, beside what the timer has an operator send. -/

namespace pcoin.wrapdesk.status

open watch

/-- An entry of the explorer's history of an address, in the mempool or in a block. -/
structure Deposit where
  txid : String
  pcn : ℚ
  pending : Bool
  confirmations : Nat
deriving DecidableEq

inductive Outcome
  | paid (amount : Option ℚ)
  | refunded (amount : Option ℚ)
deriving DecidableEq

/-- `Number(x) || null`. -/
def orNull (x : Option ℚ) : Option ℚ := x.filter (· ≠ 0)

/-- `wrap:<txid>:<address>`. -/
def txidOf (key : String) : String := String.ofList (key.toList.takeWhile (· ≠ ':'))

/-- What a record says of the deposit that it is kept under. -/
def outcomeOf (addr : String) (v : Seen) : Option (String × Outcome) :=
  if endsWith ("wrap:" ++ v.key) (":" ++ addr) = false then none
  else if v.released then some (txidOf v.key, .paid (orNull v.send_wpcn))
  else if v.refunded then some (txidOf v.key, .refunded (orNull (v.refund_pcn.bind Amount.finite)))
  else none

/-- `outcomesAt(addr)`: the last record of a deposit is the one that stays. The file cannot be parsed
if an amount of it is no number. -/
def outcomesAt (addr : String) (seen : List Seen) : Option (String → Option Outcome) :=
  if seen.any fun v => v.refund_pcn.any fun back => back.finite.isNone then none
  else some fun txid => ((seen.filterMap (outcomeOf addr)).filter (·.1 = txid)).getLast?.map Prod.snd

/-- `outcomesAt(addr) || {}`. -/
def outcomesOf (addr : String) (seen : List Seen) : String → Option Outcome :=
  (outcomesAt addr seen).getD fun _ => none

/-- `deposits`: what the page reads of the answer of the explorer. -/
def deposits (mempool : List (String × ℚ)) (history : List Item) : List Deposit :=
  ((mempool.filter fun p => 0 < p.2).map fun p => ⟨p.1, p.2, true, 0⟩) ++
    (history.filter fun it => 0 < it.received_pcn).map fun it =>
      ⟨it.txid, it.received_pcn, false, it.confirmations⟩

/-- The order of the page: what is pending comes last, and the oldest deposit first. -/
def earlier (a b : Deposit) : Bool :=
  (!a.pending && b.pending) || (a.pending = b.pending && b.confirmations ≤ a.confirmations)

/-- `slice().sort(..)`, which is stable. -/
def ordered (items : List Deposit) : List Deposit := items.insertionSort (earlier · ·)

structure Card where
  outcome : Option Outcome
  eligiblePcn : ℚ
  refundPcn : ℚ
  wpcn : ℚ
deriving DecidableEq

variable (PER_PERSON FEE_PCT : ℚ)

/-- What a refund uses of the allowance. -/
def refundUse (amount : Option ℚ) : ℚ := (amount.map (min · PER_PERSON)).getD PER_PERSON

/-- One deposit, where `used` is gone, with what is gone after it. -/
def settleOne (used : ℚ) (it : Deposit) (o : Option Outcome) : Card × ℚ :=
  match o with
  | some (.refunded amount) =>
    (⟨o, 0, it.pcn, 0⟩, used + refundUse PER_PERSON amount)
  | _ =>
    let room := max 0 (PER_PERSON - used)
    let eligible := min it.pcn room
    (⟨o, eligible, it.pcn - eligible, eligible * (1 - FEE_PCT / 100)⟩, used + eligible)

def settleFrom (outcomes : String → Option Outcome) (used : ℚ) : List Deposit → List Card × ℚ
  | [] => ([], used)
  | it :: items =>
    let (card, used) := settleOne PER_PERSON FEE_PCT used it (outcomes it.txid)
    let (cards, used) := settleFrom outcomes used items
    (card :: cards, used)

/-- `settleAt`: the cards in the order of the page, with `used`. -/
def settleAt (items : List Deposit) (outcomes : String → Option Outcome) : List Card × ℚ :=
  let (cards, used) := settleFrom PER_PERSON FEE_PCT outcomes 0 (ordered items)
  (cards, min used PER_PERSON)

/-- The card of a deposit. -/
def cardOf (items : List Deposit) (outcomes : String → Option Outcome) (txid : String) : Option Card :=
  (((ordered items).zip (settleAt PER_PERSON FEE_PCT items outcomes).1).find? (·.1.txid = txid)).map
    Prod.snd

/-! ### What the deposits of an address take -/

def isRefunded : Option Outcome → Bool
  | some (.refunded _) => true
  | _ => false

/-- What a deposit takes of the allowance of its address, where there is enough of it. -/
def weight (outcomes : String → Option Outcome) (it : Deposit) : ℚ :=
  match outcomes it.txid with
  | some (.refunded amount) => refundUse PER_PERSON amount
  | _ => min it.pcn PER_PERSON

/-- What the deposits before one on the page take. -/
def spent (outcomes : String → Option Outcome) (page : List Deposit) (txid : String) : ℚ :=
  (((ordered page).takeWhile (·.txid ≠ txid)).map (weight PER_PERSON outcomes)).sum

/-- A deposit that is not marked refunded, and that the deposits before it leave something to. -/
def left (outcomes : String → Option Outcome) (page : List Deposit) (txid : String) : Bool :=
  !isRefunded (outcomes txid) && spent PER_PERSON outcomes page txid < PER_PERSON

/-! ### What the page makes of them -/

/-- What is gone after a deposit of the page. -/
def takes (outcomes : String → Option Outcome) (used : ℚ) (it : Deposit) : ℚ :=
  match outcomes it.txid with
  | some (.refunded amount) => used + refundUse PER_PERSON amount
  | _ => used + min it.pcn (max 0 (PER_PERSON - used))

/-- What is gone after some deposits of the page. -/
def taken (outcomes : String → Option Outcome) (used : ℚ) (items : List Deposit) : ℚ :=
  items.foldl (takes PER_PERSON outcomes) used

variable {PER_PERSON FEE_PCT} {outcomes : String → Option Outcome}

theorem settleOne_used (outcomes : String → Option Outcome) (used : ℚ) (it : Deposit) :
    (settleOne PER_PERSON FEE_PCT used it (outcomes it.txid)).2 = takes PER_PERSON outcomes used it := by
  unfold settleOne takes
  split <;> rfl

theorem settleOne_wpcn (used : ℚ) (it : Deposit) (o : Option Outcome) :
    (settleOne PER_PERSON FEE_PCT used it o).1.wpcn =
      if isRefunded o then 0
      else min it.pcn (max 0 (PER_PERSON - used)) * (1 - FEE_PCT / 100) := by
  unfold settleOne isRefunded
  split <;> rfl

/-- The card of a deposit is made from what the deposits before it have used. -/
theorem find_settleFrom {before after : List Deposit} {d : Deposit} (used : ℚ)
    (hne : ∀ x ∈ before, x.txid ≠ d.txid) :
    (((before ++ d :: after).zip (settleFrom PER_PERSON FEE_PCT outcomes used (before ++ d :: after)).1).find?
      (·.1.txid = d.txid)).map Prod.snd =
      some (settleOne PER_PERSON FEE_PCT (taken PER_PERSON outcomes used before) d
        (outcomes d.txid)).1 := by
  induction before generalizing used with
  | nil =>
    rw [List.nil_append, settleFrom, List.zip_cons_cons, List.find?_cons_of_pos (by simp)]
    rfl
  | cons it before ih =>
    have hit : it.txid ≠ d.txid := hne it List.mem_cons_self
    rw [List.cons_append, settleFrom, List.zip_cons_cons, List.find?_cons_of_neg (by simpa using hit),
      ih _ fun x hx => hne x (List.mem_cons_of_mem _ hx), settleOne_used]
    rfl

theorem le_takes {used : ℚ} {it : Deposit} (hpcn : 0 ≤ it.pcn)
    (hweight : 0 ≤ weight PER_PERSON outcomes it) : used ≤ takes PER_PERSON outcomes used it := by
  unfold weight at hweight
  unfold takes
  split at hweight
  · linarith
  · have hnonneg : 0 ≤ min it.pcn (max 0 (PER_PERSON - used)) := le_min hpcn (le_max_left _ _)
    linarith

theorem le_taken {used : ℚ} {items : List Deposit} (hpcn : ∀ it ∈ items, 0 ≤ it.pcn)
    (hweight : ∀ it ∈ items, 0 ≤ weight PER_PERSON outcomes it) :
    used ≤ taken PER_PERSON outcomes used items := by
  induction items generalizing used with
  | nil => exact le_refl _
  | cons it items ih =>
    refine (le_takes (hpcn it List.mem_cons_self) (hweight it List.mem_cons_self)).trans (ih ?_ ?_)
    · exact fun x hx => hpcn x (List.mem_cons_of_mem _ hx)
    · exact fun x hx => hweight x (List.mem_cons_of_mem _ hx)

/-- Where there is enough for all, a deposit takes its weight. -/
theorem takes_eq {used : ℚ} {it : Deposit} (hused : 0 ≤ used) (hpcn : 0 ≤ it.pcn)
    (hroom : used + weight PER_PERSON outcomes it < PER_PERSON) :
    takes PER_PERSON outcomes used it = used + weight PER_PERSON outcomes it := by
  unfold weight at hroom ⊢
  unfold takes
  split
  · rfl
  · rename_i hpaid
    split at hroom
    · rename_i amount hrefunded
      exact absurd hrefunded (hpaid amount)
    · congr 1
      rw [max_eq_right (by grind)]
      grind

theorem sum_weight_nonneg {items : List Deposit}
    (hweight : ∀ it ∈ items, 0 ≤ weight PER_PERSON outcomes it) :
    0 ≤ (items.map (weight PER_PERSON outcomes)).sum := by
  refine List.sum_nonneg fun x hx => ?_
  obtain ⟨it, hit, rfl⟩ := List.mem_map.mp hx
  exact hweight it hit

/-- What is gone after some deposits is the sum of what they take, where that is below the limit, and
at least the limit, where it is not. -/
theorem taken_spec {used : ℚ} {items : List Deposit} (hused : 0 ≤ used)
    (hpcn : ∀ it ∈ items, 0 ≤ it.pcn) (hweight : ∀ it ∈ items, 0 ≤ weight PER_PERSON outcomes it) :
    (used + (items.map (weight PER_PERSON outcomes)).sum < PER_PERSON →
      taken PER_PERSON outcomes used items = used + (items.map (weight PER_PERSON outcomes)).sum) ∧
    (PER_PERSON ≤ used + (items.map (weight PER_PERSON outcomes)).sum →
      PER_PERSON ≤ taken PER_PERSON outcomes used items) := by
  induction items generalizing used with
  | nil => simp [taken]
  | cons it items ih =>
    have hrest : ∀ x ∈ items, 0 ≤ weight PER_PERSON outcomes x := fun x hx =>
      hweight x (List.mem_cons_of_mem _ hx)
    have hpcns : ∀ x ∈ items, 0 ≤ x.pcn := fun x hx => hpcn x (List.mem_cons_of_mem _ hx)
    have hsum := sum_weight_nonneg hrest
    have hit := hweight it List.mem_cons_self
    rw [List.map_cons, List.sum_cons, taken, List.foldl_cons, ← taken, ← add_assoc]
    by_cases hroom : used + weight PER_PERSON outcomes it < PER_PERSON
    · rw [takes_eq hused (hpcn it List.mem_cons_self) hroom]
      exact ih (by linarith) hpcns hrest
    · refine ⟨fun h => by linarith, fun _ => ?_⟩
      -- the limit is reached by this deposit, and nothing is given back
      have hreached : PER_PERSON ≤ takes PER_PERSON outcomes used it := by
        unfold weight at hroom
        unfold takes
        split at hroom
        · linarith
        · grind
      exact hreached.trans (le_taken hpcns hrest)

end pcoin.wrapdesk.status

namespace pcoin.wrapdesk.watch

open status (Deposit Card deposits cardOf outcomesOf ordered spent left taken)

/-- A deposit that the ledger has not closed. -/
def Item.isOpen (seen : List Seen) (address : String) (it : Item) : Bool :=
  0 < it.received_pcn && !closed seen (it.txid ++ ":" ++ address)

/-- It was made while the desk was open. -/
def Item.inTime (cfg : Config) (it : Item) : Bool :=
  it.height.any fun h =>
    cfg.OPENED_AT_HEIGHT < h && !(0 < cfg.CLOSED_AT_HEIGHT && cfg.CLOSED_AT_HEIGHT < h)

/-- An open deposit of the desk's time that is deep enough. -/
def Item.counts (cfg : Config) (seen : List Seen) (address : String) (it : Item) : Bool :=
  it.isOpen seen address && it.inTime cfg && cfg.CONFIRMATIONS ≤ it.confirmations

/-- An open deposit in a block that does not just wait for its depth. -/
def Item.judged (cfg : Config) (seen : List Seen) (address : String) (it : Item) : Bool :=
  it.isOpen seen address && it.height.isSome && (!it.inTime cfg || cfg.CONFIRMATIONS ≤ it.confirmations)

/-- No limit is passed by what a run has instructed with one more instruction. -/
def Tally.admits (cfg : Config) (seen : List Seen) (t : Tally) (net : ℚ) : Bool :=
  t.prior + net ≤ cfg.whole + 1 / 10 ^ 9 &&
    released_wpcn cfg seen + t.pledged + net ≤ cfg.TOTAL_ALLOC + 1 / 10 ^ 9 &&
    net ≤ cfg.MAX_SEND + 1 / 10 ^ 9

/-- The timer lets a deposit through. -/
def lets (cfg : Config) (seen : List Seen) (w : Watched) (t : Tally) (it : Item) : Bool :=
  it.counts cfg seen w.address && t.admits cfg seen (cfg.net it.received_pcn)

variable {cfg : Config} {seen : List Seen} {w : Watched}

/-- The entry of a deposit that is let through. -/
def instruction (cfg : Config) (w : Watched) (it : Item) : Outstanding :=
  { key := it.txid ++ ":" ++ w.address, pcn := it.received_pcn, send_wpcn := cfg.net it.received_pcn,
    dest := w.requester, address := w.address }

theorem instruction_key (it : Item) : (instruction cfg w it).key = it.txid ++ ":" ++ w.address := rfl

/-- What a run makes of a confirmed entry. -/
theorem rebuildItem_eq (t : Tally) (it : Item) :
    rebuildItem cfg seen w t it =
      if it.counts cfg seen w.address then
        { prior := t.prior + cfg.net it.received_pcn
          pledged := t.pledged + if lets cfg seen w t it then cfg.net it.received_pcn else 0
          outstanding :=
            if lets cfg seen w t it then
              table.upsert Outstanding.key (it.txid ++ ":" ++ w.address) (fun _ => instruction cfg w it)
                (instruction cfg w it) t.outstanding
            else t.outstanding }
      else t := by
  cases hcounts : it.counts cfg seen w.address with
  | false =>
    unfold Item.counts Item.isOpen Item.inTime at hcounts
    unfold rebuildItem
    cases hheight : it.height with
    | none => rfl
    | some h =>
      rw [hheight, Option.any_some] at hcounts
      dsimp only
      split_ifs
      all_goals first | rfl | grind
  | true =>
    rw [lets, hcounts, Bool.true_and, if_pos rfl]
    unfold Item.counts Item.isOpen Item.inTime at hcounts
    unfold rebuildItem
    cases hheight : it.height with
    | none =>
      rw [hheight] at hcounts
      simp at hcounts
    | some h =>
      rw [hheight, Option.any_some] at hcounts
      dsimp only
      rw [if_neg (by grind), if_neg (by grind), if_neg (by grind)]
      have hadmits : (cfg.PER_PERSON * (1 - cfg.FEE_PCT / 100) + 1 / 10 ^ 9 <
            t.prior + cfg.net it.received_pcn ∨
          cfg.TOTAL_ALLOC + 1 / 10 ^ 9 < released_wpcn cfg seen + t.pledged + cfg.net it.received_pcn ∨
          cfg.MAX_SEND + 1 / 10 ^ 9 < cfg.net it.received_pcn) ↔
          ¬t.admits cfg seen (cfg.net it.received_pcn) = true := by
        unfold Tally.admits Config.whole
        grind
      by_cases hbreach : t.admits cfg seen (cfg.net it.received_pcn) = true
      · rw [if_neg (mt hadmits.mp (not_not.mpr hbreach)), if_pos hbreach, if_pos hbreach]
        rfl
      · rw [if_pos (hadmits.mpr hbreach), if_neg hbreach, if_neg hbreach, add_zero]

theorem lets_counts {t : Tally} {it : Item} (h : lets cfg seen w t it = true) :
    it.counts cfg seen w.address = true := by
  exact (Bool.and_eq_true_iff.mp h).1

theorem rebuildItem_outstanding (t : Tally) (it : Item) :
    (rebuildItem cfg seen w t it).outstanding =
      if lets cfg seen w t it then
        table.upsert Outstanding.key (it.txid ++ ":" ++ w.address) (fun _ => instruction cfg w it)
          (instruction cfg w it) t.outstanding
      else t.outstanding := by
  rw [rebuildItem_eq]
  split
  · rfl
  · rename_i hcounts
    rw [if_neg fun h => hcounts (lets_counts h)]

theorem rebuildItem_pledged (t : Tally) (it : Item) :
    (rebuildItem cfg seen w t it).pledged =
      t.pledged + if lets cfg seen w t it then cfg.net it.received_pcn else 0 := by
  rw [rebuildItem_eq]
  split
  · rfl
  · rename_i hcounts
    rw [if_neg fun h => hcounts (lets_counts h), add_zero]

theorem rebuildItem_prior (t : Tally) (it : Item) :
    (rebuildItem cfg seen w t it).prior =
      t.prior + if it.counts cfg seen w.address then cfg.net it.received_pcn else 0 := by
  rw [rebuildItem_eq]
  split
  · rfl
  · rw [add_zero]

def Watched.keys (w : Watched) : List String :=
  (w.items.getD []).map fun it => it.txid ++ ":" ++ w.address

/-- The sums of a run when it comes to an entry of an address. -/
def tallyAt (cfg : Config) (seen : List Seen) (watched : List Watched) (w : Watched)
    (before : List Item) : Tally :=
  before.foldl (rebuildItem cfg seen w) { watched.foldl (rebuildAddress cfg seen) {} with prior := 0 }

theorem find_rebuildItem_of_ne {key : String} {t : Tally} {it : Item}
    (hne : key ≠ it.txid ++ ":" ++ w.address) :
    table.find Outstanding.key key (rebuildItem cfg seen w t it).outstanding =
      table.find Outstanding.key key t.outstanding := by
  rw [rebuildItem_outstanding]
  split
  · exact table.find_upsert_of_ne hne (instruction_key it) _
  · rfl

theorem find_foldl_rebuildItem {key : String} {items : List Item} {t : Tally}
    (hne : ∀ it ∈ items, key ≠ it.txid ++ ":" ++ w.address) :
    table.find Outstanding.key key (items.foldl (rebuildItem cfg seen w) t).outstanding =
      table.find Outstanding.key key t.outstanding := by
  induction items generalizing t with
  | nil => rfl
  | cons it items ih =>
    rw [List.foldl_cons, ih fun x hx => hne x (List.mem_cons_of_mem _ hx)]
    exact find_rebuildItem_of_ne (hne it List.mem_cons_self)

theorem find_foldl_rebuildAddress {key : String} {watched : List Watched} {t : Tally}
    (hne : ∀ w ∈ watched, key ∉ w.keys) :
    table.find Outstanding.key key (watched.foldl (rebuildAddress cfg seen) t).outstanding =
      table.find Outstanding.key key t.outstanding := by
  induction watched generalizing t with
  | nil => rfl
  | cons w watched ih =>
    rw [List.foldl_cons, ih fun x hx => hne x (List.mem_cons_of_mem _ hx), rebuildAddress]
    refine find_foldl_rebuildItem fun it hit heq => hne w List.mem_cons_self ?_
    exact List.mem_map.mpr ⟨it, hit, heq.symm⟩

/-- A run leaves an instruction for a deposit just when it lets the deposit through. -/
theorem find_rebuild {before after : List Watched} {pre post : List Item} {it : Item}
    (hitems : w.items = some (pre ++ it :: post))
    (hkeys : ((before ++ w :: after).flatMap Watched.keys).Nodup) :
    table.find Outstanding.key (it.txid ++ ":" ++ w.address) (rebuild cfg seen (before ++ w :: after)) =
      if lets cfg seen w (tallyAt cfg seen before w pre) it then some (instruction cfg w it) else none := by
  have hown : w.keys = pre.map (fun x => x.txid ++ ":" ++ w.address) ++
      (it.txid ++ ":" ++ w.address) :: post.map fun x => x.txid ++ ":" ++ w.address := by
    simp [Watched.keys, hitems]
  rw [List.flatMap_append, List.flatMap_cons, hown, List.nodup_append] at hkeys
  obtain ⟨-, hrest, hbefore⟩ := hkeys
  rw [List.nodup_append] at hrest
  obtain ⟨hown, -, hafter⟩ := hrest
  rw [List.nodup_append, List.nodup_cons] at hown
  obtain ⟨-, ⟨hpost, -⟩, hpre⟩ := hown
  have hnone : table.find Outstanding.key (it.txid ++ ":" ++ w.address)
      (tallyAt cfg seen before w pre).outstanding = none := by
    rw [tallyAt, find_foldl_rebuildItem fun x hx heq => hpre _ (List.mem_map.mpr ⟨x, hx, rfl⟩) _
      List.mem_cons_self heq.symm]
    refine (find_foldl_rebuildAddress fun x hx hmem => ?_).trans rfl
    exact hbefore _ (List.mem_flatMap.mpr ⟨x, hx, hmem⟩) _
      (List.mem_append_left _ (List.mem_append_right _ List.mem_cons_self)) rfl
  rw [rebuild, List.foldl_append, List.foldl_cons, find_foldl_rebuildAddress fun x hx hmem =>
    hafter _ (List.mem_append_right _ List.mem_cons_self) _ (List.mem_flatMap.mpr ⟨x, hx, hmem⟩) rfl,
    rebuildAddress, hitems, Option.getD_some, List.foldl_append, List.foldl_cons,
    find_foldl_rebuildItem fun x hx heq => hpost (List.mem_map.mpr ⟨x, hx, heq.symm⟩)]
  rw [rebuildItem_outstanding]
  rw [← tallyAt]
  split
  · exact table.find_upsert (instruction_key it) _
  · exact hnone

/-- What an operator is told to send for a deposit. -/
def instructed (outstanding : List Outstanding) (key : String) : ℚ :=
  ((table.find Outstanding.key key outstanding).map Outstanding.send_wpcn).getD 0

theorem net_eq (amt : ℚ) : cfg.net amt = min amt cfg.PER_PERSON * (1 - cfg.FEE_PCT / 100) := by
  have hmin : (if cfg.PER_PERSON < amt then cfg.PER_PERSON else amt) = min amt cfg.PER_PERSON := by
    rw [min_def]
    grind
  simp only [Config.net, hmin]
  ring

/-! ### The page beside the timer -/

/-- What is sent for some deposits in all. -/
def netOf (cfg : Config) (items : List Item) : ℚ := (items.map fun it => cfg.net it.received_pcn).sum

/-- The page leaves something to an entry of the history. -/
def Item.left (cfg : Config) (seen : List Seen) (address : String) (page : List Deposit) (it : Item) : Bool :=
  status.left cfg.PER_PERSON (outcomesOf address seen) page it.txid

/-- A deposit is the timer's to send for, and within its limits: with the open deposits that it reads
before it at the address, with what the desk has released, has pledged at the addresses before and
leaves to the deposits read before, and by itself. -/
def Item.Within (cfg : Config) (seen : List Seen) (address : String) (page : List Deposit) (pledged : ℚ)
    (pre : List Item) (it : Item) : Prop :=
  it.counts cfg seen address = true ∧
    netOf cfg (pre.filter (Item.counts cfg seen address)) + cfg.net it.received_pcn ≤
      cfg.whole + 1 / 10 ^ 9 ∧
    released_wpcn cfg seen +
      (pledged + netOf cfg (pre.filter fun x => x.counts cfg seen address && x.left cfg seen address page)) +
        cfg.net it.received_pcn ≤ cfg.TOTAL_ALLOC + 1 / 10 ^ 9 ∧
    cfg.net it.received_pcn ≤ cfg.MAX_SEND + 1 / 10 ^ 9

/-- Where the deposits before one on the page leave something to it, they leave it the whole, and it is
within the limits of the timer; where they leave it nothing, it is not. -/
def Item.Fair (cfg : Config) (seen : List Seen) (address : String) (page : List Deposit) (pledged : ℚ)
    (pre : List Item) (it : Item) : Prop :=
  if it.left cfg seen address page then
    spent cfg.PER_PERSON (outcomesOf address seen) page it.txid + min it.received_pcn cfg.PER_PERSON ≤
      cfg.PER_PERSON ∧ it.Within cfg seen address page pledged pre
  else ¬it.Within cfg seen address page pledged pre

instance (cfg : Config) (seen : List Seen) (address : String) (page : List Deposit) (pledged : ℚ)
    (pre : List Item) (it : Item) : Decidable (it.Within cfg seen address page pledged pre) :=
  inferInstanceAs (Decidable (_ ∧ _ ∧ _ ∧ _))

instance (cfg : Config) (seen : List Seen) (address : String) (page : List Deposit) (pledged : ℚ)
    (pre : List Item) (it : Item) : Decidable (it.Fair cfg seen address page pledged pre) :=
  inferInstanceAs (Decidable (if it.left cfg seen address page then
    spent cfg.PER_PERSON (outcomesOf address seen) page it.txid + min it.received_pcn cfg.PER_PERSON ≤
      cfg.PER_PERSON ∧ it.Within cfg seen address page pledged pre
    else ¬it.Within cfg seen address page pledged pre))

/-- What the addresses before one are instructed in all. -/
def pledgedBefore (cfg : Config) (seen : List Seen) (before : List Watched) : ℚ :=
  (before.foldl (rebuildAddress cfg seen) {}).pledged

/-- What the page of an address promises for a deposit. -/
def promised (cfg : Config) (seen : List Seen) (address : String) (page : List Deposit) (txid : String) :
    Option ℚ :=
  (cardOf cfg.PER_PERSON cfg.FEE_PCT page (outcomesOf address seen) txid).map Card.wpcn

/-- The page of an address promises what a run of the timer instructs, for every open deposit that does
not just wait for its depth. -/
def Promises (cfg : Config) (seen : List Seen) (watched : List Watched) (address : String)
    (page : List Deposit) (items : List Item) : Prop :=
  ∀ it ∈ items, it.judged cfg seen address = true →
    promised cfg seen address page it.txid =
      some (instructed (rebuild cfg seen watched) (it.txid ++ ":" ++ address))

/-- No refund at an address is recorded with less than nothing. -/
def RefundsNonneg (seen : List Seen) (address : String) : Prop :=
  ∀ v ∈ seen, endsWith ("wrap:" ++ v.key) (":" ++ address) = true →
    ∀ back ∈ v.refund_pcn.bind Amount.finite, 0 ≤ back

section

variable {address : String} {page : List Deposit} {before : List Watched} {pre : List Item} {it : Item}

theorem netOf_append (xs ys : List Item) : netOf cfg (xs ++ ys) = netOf cfg xs + netOf cfg ys := by
  simp [netOf]

theorem netOf_filter_concat (keep : Item → Bool) (xs : List Item) (it : Item) :
    netOf cfg ((xs ++ [it]).filter keep) =
      netOf cfg (xs.filter keep) + if keep it then cfg.net it.received_pcn else 0 := by
  rw [List.filter_append, netOf_append, List.filter_singleton]
  congr 1
  split <;> simp [netOf, *]

theorem tallyAt_concat (pre : List Item) (it : Item) :
    tallyAt cfg seen before w (pre ++ [it]) =
      rebuildItem cfg seen w (tallyAt cfg seen before w pre) it := by
  rw [tallyAt, List.foldl_append]
  rfl

/-- The timer sums what it counts of an address. -/
theorem tallyAt_prior (pre : List Item) :
    (tallyAt cfg seen before w pre).prior = netOf cfg (pre.filter (Item.counts cfg seen w.address)) := by
  induction pre using List.reverseRecOn with
  | nil => rfl
  | append_singleton pre it ih =>
    rw [tallyAt_concat, rebuildItem_prior, ih, netOf_filter_concat]

/-- What is pledged is what the page leaves something to, if the two agree on what came before. -/
theorem tallyAt_pledged (h : ∀ p x q, pre = p ++ x :: q →
      lets cfg seen w (tallyAt cfg seen before w p) x =
        (x.counts cfg seen w.address && x.left cfg seen w.address page)) :
    (tallyAt cfg seen before w pre).pledged = pledgedBefore cfg seen before +
      netOf cfg (pre.filter fun x => x.counts cfg seen w.address && x.left cfg seen w.address page) := by
  induction pre using List.reverseRecOn with
  | nil => exact (add_zero _).symm
  | append_singleton pre it ih =>
    have hpre := ih fun p x q heq => h p x (q ++ [it]) (by rw [heq, List.append_assoc, List.cons_append])
    rw [tallyAt_concat, rebuildItem_pledged, hpre, netOf_filter_concat, h pre it [] rfl, add_assoc]

/-- A deposit is let through just when it is within the limits. -/
theorem lets_iff (h : ∀ p x q, pre = p ++ x :: q →
      lets cfg seen w (tallyAt cfg seen before w p) x =
        (x.counts cfg seen w.address && x.left cfg seen w.address page)) :
    lets cfg seen w (tallyAt cfg seen before w pre) it = true ↔
      it.Within cfg seen w.address page (pledgedBefore cfg seen before) pre := by
  unfold lets Tally.admits Item.Within
  rw [tallyAt_prior, tallyAt_pledged h]
  simp only [Bool.and_eq_true, decide_eq_true_eq, and_assoc]

theorem outcomesOf_nonneg (h : RefundsNonneg seen address) {txid : String} {amount : Option ℚ}
    (hrefunded : outcomesOf address seen txid = some (.refunded amount)) : ∀ back ∈ amount, 0 ≤ back := by
  unfold outcomesOf status.outcomesAt at hrefunded
  split at hrefunded
  · cases hrefunded
  · obtain ⟨r, hr, heq⟩ := Option.map_eq_some_iff.mp hrefunded
    have hmem := List.mem_of_mem_filter (List.mem_of_getLast? hr)
    obtain ⟨v, hv, hof⟩ := List.mem_filterMap.mp hmem
    unfold status.outcomeOf at hof
    split at hof
    · cases hof
    · rename_i hends
      split at hof
      · cases hof
        cases heq
      · split at hof
        · cases hof
          cases heq
          intro back hback
          have hfinite := Option.mem_filter_iff.mp hback
          exact h v hv (by simpa using hends) back hfinite.1
        · cases hof

theorem weight_nonneg (h : RefundsNonneg seen address) (hlimit : 0 < cfg.PER_PERSON) {d : Deposit}
    (hpcn : 0 ≤ d.pcn) : 0 ≤ status.weight cfg.PER_PERSON (outcomesOf address seen) d := by
  unfold status.weight
  split
  · rename_i amount hrefunded
    unfold status.refundUse
    cases amount with
    | none => exact hlimit.le
    | some back => exact le_min (outcomesOf_nonneg h hrefunded back rfl) hlimit.le
  · exact le_min hpcn hlimit.le

theorem deposits_pos {mempool : List (String × ℚ)} {items : List Item} {d : Deposit}
    (h : d ∈ deposits mempool items) : 0 < d.pcn := by
  obtain h | h := List.mem_append.mp h
  · obtain ⟨p, hp, rfl⟩ := List.mem_map.mp h
    exact of_decide_eq_true (List.mem_filter.mp hp).2
  · obtain ⟨x, hx, rfl⟩ := List.mem_map.mp h
    exact of_decide_eq_true (List.mem_filter.mp hx).2

theorem ordered_perm (page : List Deposit) : (ordered page).Perm page := List.perm_insertionSort _ page

/-- The deposits before one, and its card. -/
theorem promised_eq {mempool : List (String × ℚ)} {items : List Item}
    (hnodup : ((deposits mempool items).map Deposit.txid).Nodup) (hit : it ∈ items)
    (hpcn : 0 < it.received_pcn) :
    ∃ ds : List Deposit, (∀ d ∈ ds, 0 < d.pcn) ∧
      spent cfg.PER_PERSON (outcomesOf address seen) (deposits mempool items) it.txid =
        (ds.map (status.weight cfg.PER_PERSON (outcomesOf address seen))).sum ∧
      promised cfg seen address (deposits mempool items) it.txid =
        some (if status.isRefunded (outcomesOf address seen it.txid) then 0
          else min it.received_pcn (max 0 (cfg.PER_PERSON -
            taken cfg.PER_PERSON (outcomesOf address seen) 0 ds)) * (1 - cfg.FEE_PCT / 100)) := by
  have hmem : (⟨it.txid, it.received_pcn, false, it.confirmations⟩ : Deposit) ∈
      ordered (deposits mempool items) :=
    (ordered_perm _).mem_iff.mpr (List.mem_append_right _ (List.mem_map.mpr
      ⟨it, List.mem_filter.mpr ⟨hit, decide_eq_true hpcn⟩, rfl⟩))
  obtain ⟨ds, ds', hsplit⟩ := List.append_of_mem hmem
  have hdistinct : ((ordered (deposits mempool items)).map Deposit.txid).Nodup :=
    ((ordered_perm _).map _).nodup_iff.mpr hnodup
  rw [hsplit, List.map_append, List.map_cons, List.nodup_append] at hdistinct
  have hne : ∀ x ∈ ds, x.txid ≠ it.txid := fun x hx heq =>
    hdistinct.2.2 _ (List.mem_map.mpr ⟨x, hx, heq⟩) _ List.mem_cons_self rfl
  refine ⟨ds, fun d hd => ?_, ?_, ?_⟩
  · exact deposits_pos ((ordered_perm _).mem_iff.mp (hsplit ▸ List.mem_append_left _ hd))
  · rw [spent, hsplit, List.takeWhile_append_of_pos fun x hx => decide_eq_true (hne x hx),
      List.takeWhile_cons_of_neg (by simp), List.append_nil]
  · rw [promised, cardOf, status.settleAt, hsplit]
    refine (congrArg (Option.map Card.wpcn) (status.find_settleFrom
      (d := ⟨it.txid, it.received_pcn, false, it.confirmations⟩) 0 hne)).trans ?_
    rw [Option.map_some, status.settleOne_wpcn]

/-- What the page promises for a deposit is what is sent for it, or is nothing, as the sums of what
comes before it say. -/
theorem promised_iff {mempool : List (String × ℚ)} {items : List Item} {through : Bool}
    (hfee : cfg.FEE_PCT < 100) (hlimit : 0 < cfg.PER_PERSON) (hrefunds : RefundsNonneg seen address)
    (hnodup : ((deposits mempool items).map Deposit.txid).Nodup) (hit : it ∈ items)
    (hpcn : 0 < it.received_pcn) :
    promised cfg seen address (deposits mempool items) it.txid =
        some (if through then cfg.net it.received_pcn else 0) ↔
      if it.left cfg seen address (deposits mempool items) then
        spent cfg.PER_PERSON (outcomesOf address seen) (deposits mempool items) it.txid +
          min it.received_pcn cfg.PER_PERSON ≤ cfg.PER_PERSON ∧ through = true
      else through = false := by
  obtain ⟨ds, hpos, hspent, hcard⟩ := @promised_eq cfg seen address it mempool items hnodup hit hpcn
  have hweights : ∀ d ∈ ds, 0 ≤ status.weight cfg.PER_PERSON (outcomesOf address seen) d := fun d hd =>
    weight_nonneg hrefunds hlimit (hpos d hd).le
  have hsum := status.sum_weight_nonneg hweights
  obtain ⟨hbelow, habove⟩ := status.taken_spec (le_refl 0) (fun d hd => (hpos d hd).le) hweights
  have hrate : 0 < 1 - cfg.FEE_PCT / 100 := by linarith
  have hnet : 0 < min it.received_pcn cfg.PER_PERSON * (1 - cfg.FEE_PCT / 100) :=
    mul_pos (lt_min hpcn hlimit) hrate
  rw [hcard, Option.some_inj, net_eq, Item.left, status.left, hspent]
  rw [zero_add] at hbelow habove
  generalize (ds.map (status.weight cfg.PER_PERSON (outcomesOf address seen))).sum = W at *
  generalize taken cfg.PER_PERSON (outcomesOf address seen) 0 ds = used at *
  cases status.isRefunded (outcomesOf address seen it.txid) with
  | true => cases through <;> simp [hnet.ne]
  | false =>
    by_cases hroom : W < cfg.PER_PERSON
    · -- the deposits before have used their sum, and something is left
      obtain rfl := hbelow hroom
      have hleft : 0 < min it.received_pcn (cfg.PER_PERSON - used) := lt_min hpcn (by linarith)
      rw [max_eq_right (by linarith)]
      cases through with
      | true =>
        simp only [Bool.false_eq_true, if_false, if_true, Bool.not_false, Bool.true_and, hroom,
          decide_true, and_true]
        rw [mul_left_inj' hrate.ne']
        grind
      | false => simp [hroom, hleft.ne', hrate.ne']
    · have hgone := habove (not_lt.mp hroom)
      rw [max_eq_left (by linarith), min_eq_right hpcn.le]
      cases through <;> simp [hroom, hnet.ne]

theorem judged_of_counts (h : it.counts cfg seen address = true) :
    it.judged cfg seen address = true := by
  unfold Item.counts at h
  unfold Item.judged
  have hheight : it.inTime cfg = true → it.height.isSome = true := fun htime => by
    unfold Item.inTime at htime
    cases hh : it.height with
    | none =>
      rw [hh] at htime
      cases htime
    | some h => rfl
  grind

variable {after : List Watched} {items : List Item} {mempool : List (String × ℚ)}

/-- Where the two agree, a deposit is let through just when the page leaves something to it. -/
theorem lets_of_agrees {t : Tally} (hfee : cfg.FEE_PCT < 100) (hlimit : 0 < cfg.PER_PERSON)
    (hrefunds : RefundsNonneg seen w.address)
    (hnodup : ((deposits mempool items).map Deposit.txid).Nodup) (hit : it ∈ items)
    (h : it.judged cfg seen w.address = true →
      promised cfg seen w.address (deposits mempool items) it.txid =
        some (if lets cfg seen w t it then cfg.net it.received_pcn else 0)) :
    lets cfg seen w t it =
      (it.counts cfg seen w.address && it.left cfg seen w.address (deposits mempool items)) := by
  cases hcounts : it.counts cfg seen w.address with
  | false => rw [lets, hcounts, Bool.false_and, Bool.false_and]
  | true =>
    have hpcn : 0 < it.received_pcn := by
      unfold Item.counts Item.isOpen at hcounts
      grind
    have hagrees := (promised_iff hfee hlimit hrefunds hnodup hit hpcn).mp (h (judged_of_counts hcounts))
    rw [Bool.true_and]
    split at hagrees
    · rename_i hleft
      rw [hagrees.2, hleft]
    · rename_i hleft
      rw [hagrees, Bool.eq_false_iff.mpr hleft]

/-- The two agree on a deposit just when they leave the same room to it, if they agree on those that the
timer reads before it. -/
theorem agrees_iff_fair (hfee : cfg.FEE_PCT < 100) (hlimit : 0 < cfg.PER_PERSON)
    (hrefunds : RefundsNonneg seen w.address)
    (hnodup : ((deposits mempool items).map Deposit.txid).Nodup) (hit : it ∈ items)
    (hjudged : it.judged cfg seen w.address = true)
    (h : ∀ p x q, pre = p ++ x :: q → lets cfg seen w (tallyAt cfg seen before w p) x =
      (x.counts cfg seen w.address && x.left cfg seen w.address (deposits mempool items))) :
    promised cfg seen w.address (deposits mempool items) it.txid =
        some (if lets cfg seen w (tallyAt cfg seen before w pre) it then cfg.net it.received_pcn else 0) ↔
      it.Fair cfg seen w.address (deposits mempool items) (pledgedBefore cfg seen before) pre := by
  have hpcn : 0 < it.received_pcn := by
    unfold Item.judged Item.isOpen at hjudged
    grind
  rw [promised_iff hfee hlimit hrefunds hnodup hit hpcn, Item.Fair]
  split
  · exact and_congr_right fun _ => lets_iff h
  · rw [← lets_iff h, Bool.not_eq_true]

theorem promises_iff (hfee : cfg.FEE_PCT < 100) (hlimit : 0 < cfg.PER_PERSON)
    (hitems : w.items = some items) (hkeys : ((before ++ w :: after).flatMap Watched.keys).Nodup)
    (hnodup : ((deposits mempool items).map Deposit.txid).Nodup) (hrefunds : RefundsNonneg seen w.address) :
    Promises cfg seen (before ++ w :: after) w.address (deposits mempool items) items ↔
      ∀ pre it post, items = pre ++ it :: post → it.judged cfg seen w.address = true →
        it.Fair cfg seen w.address (deposits mempool items) (pledgedBefore cfg seen before) pre := by
  have hinstructed : ∀ pre it post, items = pre ++ it :: post →
      instructed (rebuild cfg seen (before ++ w :: after)) (it.txid ++ ":" ++ w.address) =
        if lets cfg seen w (tallyAt cfg seen before w pre) it then cfg.net it.received_pcn else 0 := by
    intro pre it post hsplit
    rw [instructed, find_rebuild (hsplit ▸ hitems) hkeys]
    split <;> rfl
  have hmem : ∀ pre (it : Item) post, items = pre ++ it :: post → it ∈ items := fun pre it post hsplit =>
    hsplit ▸ List.mem_append_right _ List.mem_cons_self
  constructor
  · intro h pre it post hsplit hjudged
    have hagrees : ∀ p x q, items = p ++ x :: q → x.judged cfg seen w.address = true →
        promised cfg seen w.address (deposits mempool items) x.txid =
          some (if lets cfg seen w (tallyAt cfg seen before w p) x then cfg.net x.received_pcn else 0) :=
      fun p x q hx hxjudged => hinstructed p x q hx ▸ h x (hmem p x q hx) hxjudged
    refine (agrees_iff_fair hfee hlimit hrefunds hnodup (hmem pre it post hsplit) hjudged ?_).mp
      (hagrees pre it post hsplit hjudged)
    rintro p x q rfl
    have hx : items = p ++ x :: (q ++ it :: post) := by rw [hsplit, List.append_assoc, List.cons_append]
    exact lets_of_agrees hfee hlimit hrefunds hnodup (hmem _ _ _ hx) (hagrees _ _ _ hx)
  · intro h
    -- the deposits are taken in the order of the timer
    have hall : ∀ n, ∀ pre it post, pre.length = n → items = pre ++ it :: post →
        it.judged cfg seen w.address = true →
        promised cfg seen w.address (deposits mempool items) it.txid =
          some (if lets cfg seen w (tallyAt cfg seen before w pre) it then cfg.net it.received_pcn
            else 0) := by
      intro n
      induction n using Nat.strong_induction_on with
      | _ n ih =>
        intro pre it post hlength hsplit hjudged
        refine (agrees_iff_fair hfee hlimit hrefunds hnodup (hmem pre it post hsplit) hjudged ?_).mpr
          (h pre it post hsplit hjudged)
        rintro p x q rfl
        have hx : items = p ++ x :: (q ++ it :: post) := by
          rw [hsplit, List.append_assoc, List.cons_append]
        have hshorter : p.length < n := by
          rw [← hlength, List.length_append, List.length_cons]
          omega
        exact lets_of_agrees hfee hlimit hrefunds hnodup (hmem _ _ _ hx) (ih _ hshorter _ _ _ rfl hx)
    intro it hit hjudged
    obtain ⟨pre, post, hsplit⟩ := List.append_of_mem hit
    rw [hinstructed pre it post hsplit]
    exact hall _ pre it post rfl hsplit hjudged

end

instance (b : Books) (p : Proc) (day : String) : Decidable (Plain cfg b p day) :=
  decidable_of_iff
    ((∀ v ∈ b.state.seen, at_ (b.state.addressOf p.key) v = true → v.released = true →
        v.send_wpcn.isSome = true ∧ v.refunded = false) ∧
      (∀ v ∈ b.state.seen, at_ (b.state.addressOf p.key) v = true → ∀ back ∈ v.refund_pcn, back.Nonneg) ∧
      (∀ x ∈ b.paid, x.address = b.state.addressOf p.key → isReleased b.state.seen x.key = true) ∧
      (∀ used ∈ (allowanceUsed cfg b.state.seen (b.state.addressOf p.key)).finite,
        used + p.amount ≤ cfg.PER_ADDRESS_CEILING + 1 / 10 ^ 9 →
        used + p.amount ≤ cfg.PER_ADDRESS_CEILING) ∧
      (sent_today b.state.sends day + p.amount ≤ cfg.SEND_DAILY_CAP + 1 / 10 ^ 9 →
        sent_today b.state.sends day + p.amount ≤ cfg.SEND_DAILY_CAP) ∧ p.moved ≤ p.amount)
    ⟨fun ⟨h1, h2, h3, h4, h5, h6⟩ => ⟨h1, h2, h3, h4, h5, h6⟩,
      fun ⟨h1, h2, h3, h4, h5, h6⟩ => ⟨h1, h2, h3, h4, h5, h6⟩⟩

instance (b : Books) : (o : Op) → Decidable (Orderly cfg b o)
  | .tool (.send arg day) _ =>
    inferInstanceAs (Decidable (∀ p ∈ (send cfg b.state (bare arg) day).toOption, Plain cfg b p day))
  | .tool (.sends _ _ true) day => inferInstanceAs (Decidable (day = b.day))
  | .tool (.sends _ _ false) _ => .isTrue trivial
  | .tool (.remembers day) _ => inferInstanceAs (Decidable (day = b.day))
  | .tool .dies _ =>
    match hproc : b.state.proc with
    | none => .isTrue fun p hp => by rw [hproc] at hp; cases hp
    | some p => match hpoint : p.point with
      | .remember tx => .isFalse fun h => h p hproc tx hpoint
      | .connect | .nonce | .send _ | .wait _ | .verify _ =>
        .isTrue fun q hq tx htx => by
          rw [hproc] at hq
          cases hq
          rw [hpoint] at htx
          cases htx
  | .tool (.accepts tx) _ => inferInstanceAs (Decidable (∀ x ∈ b.lost, x.tx ≠ tx))
  | .tool (.timer _) _ | .tool (.connects _) _ | .tool (.takesNonce _ _) _ | .tool (.waits _) _
  | .tool (.verifies _) _ | .tool (.released _ _ _) _ | .tool (.refunded _ _) _ | .tool (.drops _) _
  | .tool (.mines _ _ _) _ | .tool (.others _ _) _ | .tool (.minesForeign _) _ | .forced _ _ =>
    .isTrue trivial

namespace sample

/-- Two deposits at one address, of 200 PCN and then of 100. The explorer lists the newest first. -/
def twice : List Item := [⟨"t2", 150, 100, some 6⟩, ⟨"t1", 200, 200, some 5⟩]

/-- A deposit of 60 PCN that is returned, one of 100, one of 40, and one in the mempool. -/
def shared : List Item := [⟨"t3", 120, 40, some 8⟩, ⟨"t2", 150, 100, some 6⟩, ⟨"t1", 200, 60, some 5⟩]

def returned : List Seen := [{ key := "t1:pc1a", refunded := true, refund_pcn := some (.num 60) }]

def watchedAt (items : List Item) : Watched := ⟨"pc1a", some requester, some items⟩

end sample

end pcoin.wrapdesk.watch
