import PCoin.Select.Basic
import PCoin.Wrapdesk.Settle
import Mathlib.Data.List.Sort

/-! What a run of the timer reports of the deposits, and the page of the history it reads. -/

namespace pcoin.wrapdesk.watch

/-- A row of `address_txs` for an address, in satoshis. -/
structure AddressTx where
  txid : String
  height : Nat
  block_index : Nat
  received : Nat
  sent : Nat := 0
deriving DecidableEq

/-- `a` comes before `b` in a history. -/
def Newer (a b : AddressTx) : Prop :=
  b.height < a.height ∨ b.height = a.height ∧ b.block_index < a.block_index

instance : DecidableRel Newer := fun a b =>
  inferInstanceAs (Decidable (b.height < a.height ∨ b.height = a.height ∧ b.block_index < a.block_index))

/-- What the explorer answers for `history`. -/
structure Page where
  items : List Item
  total : Nat
  limit : Nat
  has_more : Bool

/-- `_history_page`, from the newest transaction. -/
def historyPage (tip limit : Nat) (txs : List AddressTx) : Page :=
  let rows := (txs.insertionSort fun a b => ¬ Newer b a).take (limit + 1)
  { items := (rows.take limit).map fun r =>
      { txid := r.txid, confirmations := tip - r.height + 1, received_pcn := r.received / 10 ^ 8,
        height := some r.height }
    total := txs.length, limit := limit, has_more := limit < rows.length }

/-- `history` of a request that does not give it. -/
def history_limit : Nat := 10

/-- A watched address, with what the chain and the mempool hold of it, and whether an explorer
answers for it. -/
structure Site where
  address : String
  requester : Option String
  tip : Nat
  txs : List AddressTx
  mempool : List (String × ℚ) := []
  readable : Bool := true

def Site.watched (site : Site) : Watched where
  address := site.address
  requester := site.requester
  items := if site.readable then some (historyPage site.tip history_limit site.txs).items else none

inductive Breach
  | depositor
  | allocation
  | instruction
deriving DecidableEq

/-- What a task is about, with the amounts that it shows. -/
inductive Kind
  | unreadable
  | pending (amt : ℚ)
  | confirming (amt : ℚ) (confs : Nat)
  | send (amt net : ℚ) (dest : Option String)
  | refund (amt : ℚ) (dest : Option String)
  | withheld (amt net : ℚ) (dest : Option String) (breach : Breach)
deriving DecidableEq

structure Task where
  key : String
  kind : Kind
deriving DecidableEq

/-- The confirmed deposit that a task is about is of this amount. -/
def Kind.deposit : Kind → Option ℚ
  | .confirming amt _ | .send amt _ _ | .refund amt _ | .withheld amt _ _ _ => some amt
  | .unreadable | .pending _ => none

def wrapKey (txid address : String) : String := txid ++ ":" ++ address

/-- The task of a confirmed entry. -/
def itemTask (cfg : Config) (seen : List Seen) (w : Watched) (t : Tally) (it : Item) : Option Task :=
  let key := wrapKey it.txid w.address
  let amt := it.received_pcn
  match it.height with
  | none => none
  | some h =>
    if amt ≤ 0 ∨ h ≤ cfg.OPENED_AT_HEIGHT ∨ closed seen key then none
    else if 0 < cfg.CLOSED_AT_HEIGHT ∧ cfg.CLOSED_AT_HEIGHT < h then
      some ⟨"wrap:" ++ key, .refund amt w.requester⟩
    else if it.confirmations < cfg.CONFIRMATIONS then
      some ⟨"wrap:" ++ key, .confirming amt it.confirmations⟩
    else
      let net := cfg.net amt
      if cfg.PER_PERSON * (1 - cfg.FEE_PCT / 100) + 1 / 10 ^ 9 < t.prior + net then
        some ⟨"wrap:" ++ key, .withheld amt net w.requester .depositor⟩
      else if cfg.TOTAL_ALLOC + 1 / 10 ^ 9 < released_wpcn cfg seen + t.pledged + net then
        some ⟨"wrap:" ++ key, .withheld amt net w.requester .allocation⟩
      else if cfg.MAX_SEND + 1 / 10 ^ 9 < net then
        some ⟨"wrap:" ++ key, .withheld amt net w.requester .instruction⟩
      else some ⟨"wrap:" ++ key, .send amt net w.requester⟩

def visitItem (cfg : Config) (seen : List Seen) (w : Watched) (s : Tally × List Task) (it : Item) :
    Tally × List Task :=
  (rebuildItem cfg seen w s.1 it, s.2 ++ (itemTask cfg seen w s.1 it).toList)

def visit (cfg : Config) (seen : List Seen) (s : Tally × List Task) (site : Site) : Tally × List Task :=
  let t := { s.1 with prior := 0 }
  match site.watched.items with
  | none => (t, s.2 ++ [⟨"unreadable:" ++ site.address, .unreadable⟩])
  | some items =>
    let pending := site.mempool.map fun (txid, amt) => ⟨"pending:" ++ txid, .pending amt⟩
    items.foldl (visitItem cfg seen site.watched) (t, s.2 ++ pending)

/-- The tasks of a run that are about addresses. -/
def tasks (cfg : Config) (seen : List Seen) (sites : List Site) : List Task :=
  (sites.foldl (visit cfg seen) ({}, [])).2

/-! ### What the tasks are about, whatever the sums of the run -/

/-- A deposit that the ledger has not closed, of the time since the desk has been open. -/
def Item.due (cfg : Config) (seen : List Seen) (address : String) (it : Item) : Bool :=
  0 < it.received_pcn && it.height.any (cfg.OPENED_AT_HEIGHT < ·) &&
    !closed seen (wrapKey it.txid address)

/-- What a task says whatever the sums of the run are. -/
def Task.about (t : Task) : String × Option ℚ := (t.key, t.kind.deposit)

def Item.about (address : String) (it : Item) : String × Option ℚ :=
  ("wrap:" ++ wrapKey it.txid address, some it.received_pcn)

variable {cfg : Config} {seen : List Seen}

theorem about_itemTask (w : Watched) (t : Tally) (it : Item) :
    (itemTask cfg seen w t it).map Task.about =
      if it.due cfg seen w.address then some (it.about w.address) else none := by
  unfold itemTask Item.due
  cases it.height with
  | none => simp
  | some h =>
    dsimp only
    have hdue : (0 < it.received_pcn && (some h).any (cfg.OPENED_AT_HEIGHT < ·) &&
          !closed seen (wrapKey it.txid w.address)) = true ↔
        ¬ (it.received_pcn ≤ 0 ∨ h ≤ cfg.OPENED_AT_HEIGHT ∨
          closed seen (wrapKey it.txid w.address) = true) := by
      simp
      grind
    by_cases hskip : it.received_pcn ≤ 0 ∨ h ≤ cfg.OPENED_AT_HEIGHT ∨
        closed seen (wrapKey it.txid w.address) = true
    · rw [if_pos hskip, if_neg fun htrue => hdue.mp htrue hskip]
      rfl
    · rw [if_neg hskip, if_pos (hdue.mpr hskip)]
      split_ifs <;> rfl

theorem about_visitItems (w : Watched) (items : List Item) (s : Tally × List Task) :
    (items.foldl (visitItem cfg seen w) s).2.map Task.about =
      s.2.map Task.about ++
        (items.filter (Item.due cfg seen w.address)).map (Item.about w.address) := by
  induction items generalizing s with
  | nil => simp
  | cons it items ih =>
    have htask : ((itemTask cfg seen w s.1 it).toList).map Task.about =
        if it.due cfg seen w.address then [it.about w.address] else [] := by
      rw [← Option.toList_map, about_itemTask]
      split <;> rfl
    rw [List.foldl_cons, ih, visitItem, List.map_append, htask, List.append_assoc]
    congr 1
    rw [List.filter_cons]
    split <;> rfl

/-- What the tasks of a site are about. -/
def Site.about (cfg : Config) (seen : List Seen) (site : Site) : List (String × Option ℚ) :=
  match site.watched.items with
  | none => [("unreadable:" ++ site.address, none)]
  | some items =>
    site.mempool.map (fun p => ("pending:" ++ p.1, none)) ++
      (items.filter (Item.due cfg seen site.address)).map (Item.about site.address)

theorem about_visit (s : Tally × List Task) (site : Site) :
    (visit cfg seen s site).2.map Task.about = s.2.map Task.about ++ site.about cfg seen := by
  unfold visit Site.about
  cases site.watched.items with
  | none => simp [Task.about, Kind.deposit]
  | some items =>
    dsimp only
    rw [about_visitItems, List.map_append, List.append_assoc, List.map_map]
    rfl

theorem about_tasks (sites : List Site) :
    (tasks cfg seen sites).map Task.about = sites.flatMap (Site.about cfg seen) := by
  have hfold : ∀ s : Tally × List Task, (sites.foldl (visit cfg seen) s).2.map Task.about =
      s.2.map Task.about ++ sites.flatMap (Site.about cfg seen) := by
    induction sites with
    | nil => simp
    | cons site sites ih =>
      intro s
      rw [List.foldl_cons, ih, about_visit, List.flatMap_cons, List.append_assoc]
  exact hfold ({}, [])

/-- The run that reports rebuilds what is outstanding. -/
theorem outstanding_tasks (sites : List Site) :
    (sites.foldl (visit cfg seen) ({}, [])).1.outstanding =
      rebuild cfg seen (sites.map Site.watched) := by
  have hitems : ∀ (w : Watched) (items : List Item) (s : Tally × List Task),
      (items.foldl (visitItem cfg seen w) s).1 = items.foldl (rebuildItem cfg seen w) s.1 := by
    intro w items
    induction items with
    | nil => exact fun s => rfl
    | cons it items ih => exact fun s => ih _
  have hsites : ∀ s : Tally × List Task, (sites.foldl (visit cfg seen) s).1 =
      (sites.map Site.watched).foldl (rebuildAddress cfg seen) s.1 := by
    induction sites with
    | nil => exact fun s => rfl
    | cons site sites ih =>
      intro s
      rw [List.foldl_cons, ih, List.map_cons, List.foldl_cons]
      congr 1
      unfold visit rebuildAddress
      cases site.watched.items with
      | none => rfl
      | some items => exact hitems _ _ _
  rw [hsites, rebuild]

/-! ### The page -/

variable {txs : List AddressTx}

theorem newer_asymm : ∀ a b : AddressTx, Newer a b → ¬ Newer b a := by
  unfold Newer
  omega

/-- Every transaction has a place of its own in the chain. -/
def Placed (txs : List AddressTx) : Prop := txs.Pairwise fun a b => Newer a b ∨ Newer b a

/-- The rows in the order of the query. -/
def sorted (txs : List AddressTx) : List AddressTx := txs.insertionSort fun a b => ¬ Newer b a

theorem sorted_perm (txs : List AddressTx) : (sorted txs).Perm txs := List.perm_insertionSort _ txs

theorem sorted_pairwise (h : Placed txs) : (sorted txs).Pairwise Newer := by
  have htotal : Std.Total fun a b : AddressTx => ¬ Newer b a :=
    ⟨fun a b => by unfold Newer; omega⟩
  have htrans : IsTrans AddressTx fun a b => ¬ Newer b a :=
    ⟨fun a b c hab hbc => by unfold Newer at *; omega⟩
  have hplaced : (sorted txs).Pairwise fun a b => Newer a b ∨ Newer b a :=
    ((sorted_perm txs).pairwise_iff Or.symm).mpr h
  have hsorted : (sorted txs).Pairwise fun a b => ¬ Newer b a := List.pairwise_insertionSort _ txs
  exact (hplaced.and hsorted).imp fun h => h.1.resolve_right h.2

/-- How many transactions of the address came after this one. -/
def newerCount (txs : List AddressTx) (tx : AddressTx) : Nat := (txs.filter (Newer · tx)).length

def AddressTx.item (tip : Nat) (r : AddressTx) : Item where
  txid := r.txid
  confirmations := tip - r.height + 1
  received_pcn := r.received / 10 ^ 8
  height := some r.height

theorem items_historyPage (tip limit : Nat) (txs : List AddressTx) :
    (historyPage tip limit txs).items = ((sorted txs).take limit).map (AddressTx.item tip) := by
  dsimp only [historyPage]
  rw [← sorted, List.take_take, min_eq_left (Nat.le_succ limit)]
  rfl

theorem mem_sorted_take (h : Placed txs) {tx : AddressTx} (htx : tx ∈ txs) (limit : Nat) :
    tx ∈ (sorted txs).take limit ↔ newerCount txs tx < limit := by
  have hcount : ((sorted txs).filter (Newer · tx)).length = newerCount txs tx :=
    ((sorted_perm txs).filter _).length_eq
  rw [← hcount]
  exact select.mem_take_iff newer_asymm (sorted_pairwise h) ((sorted_perm txs).mem_iff.mpr htx) limit

/-! ### What is missed -/

/-- What the chain and the desk give: a transaction is in the history of an address once, and in one
place of the chain. -/
structure Truthful (sites : List Site) : Prop where
  addresses : (sites.map Site.address).Nodup
  txids : ∀ site ∈ sites, (site.txs.map AddressTx.txid).Nodup
  plain : ∀ site ∈ sites, ∀ tx ∈ site.txs, ':' ∉ tx.txid.toList
  placed : ∀ site ∈ sites, Placed site.txs

/-- A confirmed deposit above `OPENED_AT_HEIGHT` that the ledger has neither released nor refunded. -/
structure Owed (cfg : Config) (seen : List Seen) (site : Site) (tx : AddressTx) : Prop where
  received : 0 < tx.received
  opened : cfg.OPENED_AT_HEIGHT < tx.height
  unsettled : closed seen (wrapKey tx.txid site.address) = false

/-- A task of the run is about the deposit, with its amount. -/
def Reported (cfg : Config) (seen : List Seen) (sites : List Site) (site : Site) (tx : AddressTx) : Prop :=
  ∃ t ∈ tasks cfg seen sites, t.key = "wrap:" ++ wrapKey tx.txid site.address ∧
    t.kind.deposit = some (tx.received / 10 ^ 8 : ℚ)

/-- What is before the first of a separator, and what is after it. -/
theorem append_cons_inj {α : Type*} {a : α} {xs ys zs ws : List α} (hxs : a ∉ xs) (hys : a ∉ ys)
    (h : xs ++ a :: zs = ys ++ a :: ws) : xs = ys ∧ zs = ws := by
  induction xs generalizing ys with
  | nil =>
    cases ys with
    | nil => exact ⟨rfl, (List.cons.inj h).2⟩
    | cons y ys => exact absurd ((List.cons.inj h).1 ▸ List.mem_cons_self) hys
  | cons x xs ih =>
    cases ys with
    | nil => exact absurd ((List.cons.inj h).1 ▸ List.mem_cons_self) hxs
    | cons y ys =>
      rw [List.mem_cons, not_or] at hxs hys
      obtain ⟨rfl, hrest⟩ := List.cons.inj h
      obtain ⟨rfl, hzs⟩ := ih hxs.2 hys.2 hrest
      exact ⟨rfl, hzs⟩

theorem wrapKey_inj {txid txid' address address' : String} (h : ':' ∉ txid.toList)
    (h' : ':' ∉ txid'.toList) (heq : wrapKey txid address = wrapKey txid' address') :
    txid = txid' ∧ address = address' := by
  have htext := congrArg String.toList heq
  simp only [wrapKey, String.toList_append, List.append_assoc] at htext
  obtain ⟨htxid, haddress⟩ := append_cons_inj h h' htext
  exact ⟨String.toList_injective htxid, String.toList_injective haddress⟩

theorem reported_iff_about {sites : List Site} {site : Site} {tx : AddressTx} :
    Reported cfg seen sites site tx ↔ ∃ site' ∈ sites,
      ("wrap:" ++ wrapKey tx.txid site.address, some (tx.received / 10 ^ 8 : ℚ)) ∈
        site'.about cfg seen := by
  rw [← List.mem_flatMap, ← about_tasks, List.mem_map]
  refine exists_congr fun t => and_congr_right fun _ => ?_
  rw [Task.about, Prod.mk.injEq]

theorem due_item {site : Site} {tx : AddressTx} (howed : Owed cfg seen site tx) (tip : Nat) :
    (tx.item tip).due cfg seen site.address = true := by
  have hreceived : (0 : ℚ) < tx.received / 10 ^ 8 := by
    have := howed.received
    positivity
  simp [Item.due, AddressTx.item, hreceived, howed.opened, howed.unsettled]

/-- A run that reads an address reports a deposit when few enough transactions came after it. -/
theorem reported_iff {sites : List Site} (h : Truthful sites) {site : Site} (hsite : site ∈ sites)
    (hread : site.readable = true) {tx : AddressTx} (htx : tx ∈ site.txs)
    (howed : Owed cfg seen site tx) :
    Reported cfg seen sites site tx ↔ newerCount site.txs tx < history_limit := by
  rw [← mem_sorted_take (h.placed site hsite) htx, reported_iff_about]
  have hitems : ∀ s : Site, s.readable = true → s.watched.items =
      some (((sorted s.txs).take history_limit).map (AddressTx.item s.tip)) := fun s hs => by
    rw [Site.watched, hs, if_pos rfl, items_historyPage]
  constructor
  · rintro ⟨site', hsite', hmem⟩
    unfold Site.about at hmem
    cases hread' : site'.readable with
    | false =>
      simp [Site.watched, hread'] at hmem
    | true =>
      rw [hitems site' hread'] at hmem
      dsimp only at hmem
      obtain hpending | hdue := List.mem_append.mp hmem
      · obtain ⟨_, -, heq⟩ := List.mem_map.mp hpending
        cases (Prod.mk.inj heq).2
      · obtain ⟨it, hit, heq⟩ := List.mem_map.mp hdue
        obtain ⟨tx', htx', rfl⟩ := List.mem_map.mp (List.mem_of_mem_filter hit)
        have hin : tx' ∈ site'.txs := (sorted_perm _).mem_iff.mp (List.mem_of_mem_take htx')
        have hkey := (Prod.mk.inj heq).1
        rw [String.append_right_inj] at hkey
        obtain ⟨htxid, haddress⟩ := wrapKey_inj (h.plain site' hsite' tx' hin) (h.plain site hsite tx htx) hkey
        obtain rfl := List.inj_on_of_nodup_map h.addresses hsite' hsite haddress
        obtain rfl := List.inj_on_of_nodup_map (h.txids site' hsite') hin htx htxid
        exact htx'
  · intro htake
    refine ⟨site, hsite, ?_⟩
    unfold Site.about
    rw [hitems site hread]
    apply List.mem_append_right
    apply List.mem_map.mpr
    refine ⟨tx.item site.tip, List.mem_filter.mpr ⟨List.mem_map.mpr ⟨tx, htake, rfl⟩, ?_⟩, rfl⟩
    exact due_item howed site.tip

/-- A run misses no deposit of the addresses that it reads. -/
def MissesNone (cfg : Config) (seen : List Seen) (sites : List Site) : Prop :=
  ∀ site ∈ sites, site.readable = true → ∀ tx ∈ site.txs, Owed cfg seen site tx →
    Reported cfg seen sites site tx

/-- A run misses none just when every deposit that is owed is among the ten newest transactions of
its address. -/
theorem missesNone_iff {sites : List Site} (h : Truthful sites) :
    MissesNone cfg seen sites ↔
      ∀ site ∈ sites, site.readable = true → ∀ tx ∈ site.txs, Owed cfg seen site tx →
        newerCount site.txs tx < 10 :=
  forall₂_congr fun _ hsite => forall_congr' fun hread => forall₂_congr fun _ htx =>
    forall_congr' fun howed => reported_iff h hsite hread htx howed

namespace sample

def opened : Config where
  TOKEN := "0xc4"
  PER_PERSON := 250
  TOTAL_ALLOC := 1500
  MAX_SEND := 250
  FEE_PCT := 5
  SEND_DAILY_CAP := 1000
  CONFIRMATIONS := 100
  OPENED_AT_HEIGHT := 50
  CLOSED_AT_HEIGHT := 0

/-- A deposit of 250 PCN, and so many transactions of a hundredth of a PCN after it. -/
def busy (after : Nat) : Site where
  address := "pc1a"
  requester := some "0xa1"
  tip := 200
  txs := ⟨"t", 60, 0, 25000000000, 0⟩ ::
    (List.range after).map fun i => ⟨toString i, 70 + i, 0, 1000000, 0⟩

end sample

open sample

/-- The deposit is the last of the ten that a run reads. -/
theorem missesNone_nine_after : MissesNone opened [] [busy 9] := by
  have htruthful : Truthful [busy 9] :=
    ⟨by decide +kernel, by decide +kernel, by decide +kernel, by unfold Placed; decide +kernel⟩
  apply (missesNone_iff htruthful).mpr
  have hfew : ∀ tx ∈ (busy 9).txs, newerCount (busy 9).txs tx < 10 := by decide +kernel
  intro site hsite _ tx htx _
  obtain rfl := List.mem_singleton.mp hsite
  exact hfew tx htx

/-- A paid deposit with ten transactions after it is not reported. -/
theorem deposit_missed_ten_after :
    ¬∀ (cfg : Config) (seen : List Seen) (sites : List Site),
      Truthful sites → MissesNone cfg seen sites := by
  intro hall
  have hnone := hall opened [] [busy 10] ⟨by decide +kernel, by decide +kernel, by decide +kernel,
    by unfold Placed; decide +kernel⟩
  obtain ⟨t, ht, hkey, -⟩ := hnone _ List.mem_cons_self rfl ⟨"t", 60, 0, 25000000000, 0⟩
    List.mem_cons_self ⟨by decide, by decide, rfl⟩
  have hnot : ∀ t ∈ tasks opened [] [busy 10], t.key ≠ "wrap:" ++ wrapKey "t" "pc1a" := by
    decide +kernel
  exact hnot t ht hkey

end pcoin.wrapdesk.watch
