import PCoin.Wrapdesk.Watch
import Mathlib.Algebra.Order.Ring.Rat
import Mathlib.Data.List.Nodup
import Mathlib.Data.Rat.Defs
import Mathlib.Data.List.Sort

/-! The Redeem events of the chain, and the scan of the redemption watcher, chunk by chunk. -/

namespace pcoin.redeem

/-- A Redeem event. -/
structure Redeem where
  block : Nat
  transactionHash : String
  logIndex : Nat
  sender : String
  value : Nat
  pcoinAddress : String
deriving DecidableEq

def Redeem.key (ev : Redeem) : String := ev.transactionHash ++ ":" ++ toString ev.logIndex

/-- `ev['args']['value'] / 1e8`. -/
def Redeem.amt (ev : Redeem) : ℚ := ev.value / 10 ^ 8

/-- The Redeem events of the finalized blocks. A log has one transaction hash and log index. -/
structure Chain where
  finalized : Nat := 0
  events : List Redeem := []
  nodup : (events.map Redeem.key).Nodup := by exact List.nodup_nil
  blocks : ∀ ev ∈ events, ev.block ≤ finalized := by exact List.forall_mem_nil _
deriving DecidableEq

namespace Chain

variable (c : Chain)

/-- More blocks are finalized. -/
def finalizes (n : Nat) (new : List Redeem) : Option Chain :=
  if h : c.finalized ≤ n ∧ (∀ ev ∈ new, c.finalized < ev.block ∧ ev.block ≤ n) ∧
      ((c.events ++ new).map Redeem.key).Nodup then
    some
      { finalized := n
        events := c.events ++ new
        nodup := h.2.2
        blocks := fun ev hev => (List.mem_append.mp hev).elim
          (fun hev => Nat.le_trans (c.blocks ev hev) h.1) (fun hev => (h.2.1 ev hev).2) }
  else none

/-- `get_logs`. -/
def get_logs (from_block to_block : Int) : List Redeem :=
  c.events.filter fun ev => from_block ≤ ev.block ∧ ev.block ≤ to_block

/-- A key names one event. -/
theorem eq_of_key {c : Chain} {ev ev' : Redeem} (hev : ev ∈ c.events) (hev' : ev' ∈ c.events)
    (hkey : ev.key = ev'.key) : ev = ev' :=
  List.inj_on_of_nodup_map c.nodup hev hev' hkey

theorem finalizes_spec {c c' : Chain} {n : Nat} {new : List Redeem} (h : c.finalizes n new = some c') :
    c.finalized ≤ c'.finalized ∧ c'.events = c.events ++ new ∧ ∀ ev ∈ new, c.finalized < ev.block := by
  unfold finalizes at h
  split at h
  · rename_i hnew
    cases h
    exact ⟨hnew.1, rfl, fun ev hev => (hnew.2.1 ev hev).1⟩
  · cases h

theorem mem_get_logs {c : Chain} {lo hi : Int} {ev : Redeem} :
    ev ∈ c.get_logs lo hi ↔ ev ∈ c.events ∧ lo ≤ ev.block ∧ ev.block ≤ hi := by
  simp [get_logs]

end Chain

/-- What an endpoint does with the two calls of an attempt. -/
inductive Answer
  | refuses
  /-- The Redeem events are served, and the transfers are not. -/
  | redeems
  | serves
deriving DecidableEq

/-- The attempts on a chunk. The endpoints take turns. -/
def attempts (answers : Nat → Answer) (logs : List Redeem) :
    Nat → Nat → Option (List Redeem) → Option (List Redeem) × Nat
  | 0, turn, got => (got, turn)
  | n + 1, turn, got =>
    match answers turn with
    | .refuses => attempts answers logs n (turn + 1) got
    | .redeems => attempts answers logs n (turn + 1) (some logs)
    | .serves => (some logs, turn + 1)

/-- What was scanned, up to which block, and whether an endpoint was missing for the rest. -/
structure Scan where
  events : List Redeem
  final : Int
  gap : Bool := false

/-- The size of a chunk. -/
structure Chunk where
  CHUNK : Int
  pos : 0 < CHUNK

variable (size : Chunk) (c : Chain) (answers : Nat → Answer)

/-- The loop over the chunks. -/
def scan (lo final : Int) (turn : Nat) : Scan :=
  if lo ≤ final then
    let hi := min (lo + size.CHUNK - 1) final
    match attempts answers (c.get_logs lo hi) 6 turn none with
    | (none, _) => { events := [], final := lo - 1, gap := true }
    | (some got, turn) =>
      let rest := scan (hi + 1) final turn
      { rest with events := got ++ rest.events }
  else { events := [], final := final }
termination_by (final + 1 - lo).toNat
decreasing_by
  have := size.pos
  omega

/-- The chunks from a block up to the one that holds another. -/
def Chunk.upTo (lo block : Int) : Nat := ((block - lo) / size.CHUNK).toNat + 1

/-- The endpoints answer for so many chunks, each within its attempts. -/
def answered : (chunks turn : Nat) → Bool
  | 0, _ => true
  | chunks + 1, turn =>
    match attempts answers [] 6 turn none with
    | (none, _) => false
    | (some _, turn) => answered chunks turn

variable {size c answers}

/-- What is got is what was asked for. -/
theorem attempts_some {logs logs' : List Redeem} {n turn turn' : Nat} {got : Option (List Redeem)}
    (hgot : ∀ l ∈ got, l = logs) (h : attempts answers logs n turn got = (some logs', turn')) :
    logs' = logs := by
  induction n generalizing turn got with
  | zero =>
    obtain ⟨hgot', -⟩ := Prod.mk.inj h
    exact hgot logs' hgot'
  | succ n ih =>
    unfold attempts at h
    split at h
    · exact ih hgot h
    · exact ih (fun l hl => (Option.some.inj hl).symm) h
    · exact (Option.some.inj (Prod.mk.inj h).1).symm

/-- Whether a chunk is got, and at which attempt, is up to the endpoints. -/
theorem attempts_congr (answers : Nat → Answer) (logs logs' : List Redeem) (n turn : Nat)
    {got got' : Option (List Redeem)} (hgot : got.isSome = got'.isSome) :
    (attempts answers logs n turn got).1.isSome = (attempts answers logs' n turn got').1.isSome ∧
      (attempts answers logs n turn got).2 = (attempts answers logs' n turn got').2 := by
  induction n generalizing turn got got' with
  | zero => exact ⟨hgot, rfl⟩
  | succ n ih =>
    unfold attempts
    cases answers turn with
    | refuses => exact ih _ hgot
    | redeems => exact ih _ rfl
    | serves => exact ⟨rfl, rfl⟩

theorem not_answered {logs : List Redeem} {chunks turn turn' : Nat}
    (h : attempts answers logs 6 turn none = (none, turn')) :
    answered answers (chunks + 1) turn = false := by
  obtain ⟨hgot, -⟩ := attempts_congr answers [] logs 6 turn (rfl : none.isSome = none.isSome)
  rw [h] at hgot
  unfold answered
  split
  · rfl
  · rename_i heq
    rw [heq] at hgot
    cases hgot

theorem answered_tail {logs got : List Redeem} {chunks turn turn' : Nat}
    (hgot : attempts answers logs 6 turn none = (some got, turn'))
    (h : answered answers (chunks + 1) turn = true) : answered answers chunks turn' = true := by
  obtain ⟨-, hturn⟩ := attempts_congr answers [] logs 6 turn (rfl : none.isSome = none.isSome)
  unfold answered at h
  split at h
  · cases h
  · rename_i heq
    rw [heq, hgot] at hturn
    obtain rfl : _ = turn' := hturn
    exact h

/-- What the scan leaves behind: the events up to where it has come, and no others. -/
structure Scan.Covers (c : Chain) (lo final : Int) (r : Scan) : Prop where
  le : r.final ≤ final
  ge : min (lo - 1) final ≤ r.final
  mem : ∀ ev, ev ∈ r.events ↔ ev ∈ c.events ∧ lo ≤ ev.block ∧ ev.block ≤ r.final

theorem scan_covers (lo final : Int) (turn : Nat) :
    (scan size c answers lo final turn).Covers c lo final := by
  fun_induction scan size c answers lo final turn with
  | case1 lo turn hle hi _ _ =>
    refine ⟨by simp only; omega, min_le_left _ _, fun ev => ⟨fun hev => (by cases hev), ?_⟩⟩
    rintro ⟨-, hlo, hhi⟩
    simp only at hhi
    omega
  | case2 lo turn hle hi got turn' hgot rest ih =>
    obtain rfl := attempts_some (fun _ hl => (by cases hl)) hgot
    have hlo : lo ≤ hi := by have := size.pos; omega
    have hhi : hi ≤ final := min_le_right _ _
    obtain ⟨hle', hge, hmem⟩ : rest.Covers c (hi + 1) final := ih
    have hrest : hi ≤ rest.final := by omega
    refine ⟨hle', by simp only; omega, fun ev => ?_⟩
    simp only [List.mem_append, Chain.mem_get_logs, hmem ev]
    -- the chunk and the rest meet at its end
    constructor
    · rintro (⟨hev, hge, hle⟩ | ⟨hev, hge, hle⟩)
      · exact ⟨hev, hge, by omega⟩
      · exact ⟨hev, by omega, hle⟩
    · rintro ⟨hev, hge, hle⟩
      by_cases hchunk : (ev.block : Int) ≤ hi
      · exact .inl ⟨hev, hge, hchunk⟩
      · exact .inr ⟨hev, by omega, hle⟩
  | case3 lo turn hle =>
    refine ⟨le_refl _, min_le_right _ _, fun ev => ⟨fun hev => (by cases hev), ?_⟩⟩
    rintro ⟨-, hlo, hhi⟩
    simp only at hhi
    omega

/-- The scan comes to a block, if the endpoints answer for the chunks up to it. -/
theorem scan_reaches {lo final block : Int} {turn : Nat} (hlo : lo ≤ block) (hfinal : block ≤ final)
    (h : answered answers (size.upTo lo block) turn = true) :
    block ≤ (scan size c answers lo final turn).final := by
  fun_induction scan size c answers lo final turn with
  | case1 lo turn hle hi _ hnone =>
    rw [Chunk.upTo, not_answered hnone] at h
    cases h
  | case2 lo turn hle hi got turn' hgot rest ih =>
    have hhi : hi = min (lo + size.CHUNK - 1) final := rfl
    by_cases hchunk : block ≤ hi
    · have hge : min (hi + 1 - 1) final ≤ rest.final := (scan_covers _ _ _).ge
      simp only
      omega
    · have hnext : hi + 1 = lo + size.CHUNK := by omega
      -- one chunk less
      have hupTo : size.upTo (hi + 1) block + 1 = size.upTo lo block := by
        have hdiv : (block - lo) / size.CHUNK = (block - (lo + size.CHUNK)) / size.CHUNK + 1 := by
          rw [← Int.add_mul_ediv_right _ _ (ne_of_gt size.pos)]
          congr 1
          omega
        have hpos : 0 ≤ (block - (lo + size.CHUNK)) / size.CHUNK :=
          Int.ediv_nonneg (by omega) (le_of_lt size.pos)
        simp only [Chunk.upTo, hnext, hdiv]
        omega
      exact ih (by omega) (answered_tail hgot (hupTo ▸ h))
  | case3 lo turn hle => omega

end pcoin.redeem

/-! Return claims, and how the redemption watcher judges them. -/

namespace pcoin.redeem

open keeper (lower)
open wrapdesk.watch (last40)

def TRANSFER_TOPIC : String := "0xddf252ad1be2c89b69c2b068fc378daa952ba7f163c4a11628f55a4df523b3ef"

def lowerCase (s : String) : String := String.ofList (lower s)

/-- `'0x' + t[-40:].lower()`. -/
def addrFromTopic (topic : String) : String := String.ofList ('0' :: 'x' :: last40 topic)

/-- A log of a receipt. The topics are in hex. -/
structure Log where
  logIndex : Nat
  address : String
  topics : List String
  data : Nat
deriving DecidableEq

structure Receipt where
  transactionHash : String
  status : Nat
  blockNumber : Nat
  logs : List Log
deriving DecidableEq

/-- The answer of the node for a hash. -/
inductive Lookup
  | raises
  | missing
  | found (rc : Receipt)

/-- What `float` makes of the amount of a claim. -/
inductive Amount
  | nan
  | infinite
  | num (q : ℚ)
deriving DecidableEq

/-- `abs(value - amt) > 1e-8`. Nothing is greater than a tolerance if it is not a number. -/
def Amount.off (amt : Amount) (value : ℚ) : Bool :=
  match amt with
  | .nan => false
  | .infinite => true
  | .num q => 1 / 10 ^ 8 < |value - q|

/-- A claim of the file, as `str`, `float` and `int` read its fields. -/
structure Claim where
  txhash : String
  pcoinAddress : String
  sender : String
  /-- `float` may raise. -/
  wpcn : Option Amount
  logIndex : Option Int
  signature : String
  time : ℚ
deriving DecidableEq

/-- A value of the file: an empty one, one that is no object, or a claim. -/
inductive Entry
  | empty
  | other
  | claim (c : Claim)
deriving DecidableEq

/-- What is read of the returns file. -/
inductive ReturnsFile
  | missing
  | unreadable
  /-- `claims` is not an object. -/
  | malformed
  | claims (entries : List (String × Entry)) (nodup : (entries.map Prod.fst).Nodup)

/-- The check of an address. -/
inductive Verdict
  | ok
  | bad
  | unknown
deriving DecidableEq

inductive Urgency
  | action
  | warn
deriving DecidableEq

/-- What is to be sent where, and the log that it is for. -/
structure Send where
  amt : Amount
  dest : String
  log : String × Nat
deriving DecidableEq

structure Task where
  key : String
  urgency : Urgency
  send : Option Send := none
deriving DecidableEq

structure Config extends Chunk where
  TOKEN : String
  INVENTORY : String
  FROM_BLOCK : Int
  /-- `recover_signer`. -/
  recover : String → String → Option String

variable (cfg : Config)

def return_message (txhash pcoin : String) : String :=
  "PCoin wrap desk: return wPCN for PCN\n" ++
  "BSC transaction: " ++ txhash ++ "\n" ++
  "Send the PCN to: " ++ pcoin ++ "\n" ++
  "I sent the wPCN in that transaction to " ++ cfg.INVENTORY ++ " from the wallet signing this."

structure Transfer where
  sender : String
  dest : String
  value : ℚ

/-- A transfer of the token. -/
def Log.transfer (lg : Log) : Option Transfer :=
  if lower lg.address ≠ lower cfg.TOKEN then none
  else match lg.topics with
    | [topic, sender, dest] =>
      if lower topic = TRANSFER_TOPIC.toList then
        some ⟨addrFromTopic sender, addrFromTopic dest, lg.data / 10 ^ 8⟩
      else none
    | _ => none

/-- The first log of an index. -/
def Receipt.log (rc : Receipt) (index : Option Int) : Option Log :=
  rc.logs.find? fun lg => some (lg.logIndex : Int) = index

/-- What is made of a claim. -/
inductive Judged
  | rejected
  | held
  | badDestination
  | owed (send : Send)

def Judged.task (key : String) : Judged → Task
  | .rejected | .badDestination => { key := key, urgency := .action }
  | .held => { key := key, urgency := .warn }
  | .owed send => { key := key, urgency := .action, send := some send }

/-- A claim of an amount. -/
def Claim.judge (final_head : Int) (receipt : String → Lookup) (check : String → Verdict) (c : Claim)
    (amt : Amount) : Judged :=
  let txhash := lowerCase c.txhash
  let who := lowerCase c.sender
  if cfg.recover (return_message cfg txhash c.pcoinAddress) c.signature ≠ some who then .rejected
  else match receipt txhash with
    | .raises => .held
    | .missing => .rejected
    | .found rc =>
      if rc.status ≠ 1 then .rejected
      else match rc.log c.logIndex with
        | none => .rejected
        | some lg => match lg.transfer cfg with
          | none => .rejected
          | some t =>
            if t.dest ≠ cfg.INVENTORY || t.sender ≠ who || amt.off t.value then .rejected
            else if final_head < rc.blockNumber then .held
            else if check c.pcoinAddress = .bad then .badDestination
            else .owed ⟨amt, c.pcoinAddress, rc.transactionHash, lg.logIndex⟩

/-- The task of an entry, if it has one, unless the run dies of it: `float` may raise. -/
def Entry.task (final_head : Int) (receipt : String → Lookup) (check : String → Verdict)
    (paid : List String) (key : String) : Entry → Option (List Task)
  | .empty => some []
  | .other => none
  | .claim c =>
    if key ∈ paid then some []
    else c.wpcn.map fun amt => [(c.judge cfg final_head receipt check amt).task key]

def Entry.time : Entry → ℚ
  | .claim c => c.time
  | _ => 0

/-- The tasks of the return claims, unless the run dies of them. -/
def returns (final_head : Int) (receipt : String → Lookup) (check : String → Verdict)
    (paid : List String) : ReturnsFile → Option (List Task)
  | .missing => some []
  | .unreadable => some [{ key := "returns_unreadable", urgency := .warn }]
  | .malformed => none
  | .claims entries _ =>
    let sorted := entries.insertionSort fun (a b : String × Entry) => a.2.time ≤ b.2.time
    (sorted.mapM fun e : String × Entry => e.2.task cfg final_head receipt check paid e.1).map List.flatten

end pcoin.redeem
