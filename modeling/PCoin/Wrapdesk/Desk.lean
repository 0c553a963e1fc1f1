import PCoin.Keeper.Chain
import PCoin.Table.Evolves
import Mathlib.Algebra.BigOperators.Group.List.Basic
import Mathlib.Algebra.Order.Ring.Rat
import Mathlib.Data.List.Sort
import Mathlib.Data.Rat.Defs

/-! The wrap desk: its requests file, and `POST /request`. -/

namespace pcoin.wrapdesk.desk

/-- The pool of deposit addresses, each derived for its own index. -/
structure Pool where
  slots : List (Nat × String)
  nodup : (slots.map Prod.snd).Nodup

structure Config where
  pool : Pool
  PER_PERSON : ℚ
  FEE_PCT : ℚ
  TOTAL_ALLOC : ℚ
  ACCOUNT_MONTHLY_PCN : ℚ
  ACCOUNT_DAILY_PCN : ℚ
  IP_DAILY_PCN : ℚ
  REQUIRE_ACCOUNT : Bool
  fee : FEE_PCT < 100

def FIRST_INDEX : Nat := 1

/-- A request of the file, with its key. -/
structure Req where
  key : String
  bsc : String
  index : Nat
  address : String
  amount : ℚ
  created : Int
  account : Option String
  ip : Option String
  refunded : Bool := false
deriving DecidableEq

/-- `requests.json`. -/
structure File where
  requests : List Req := []
  nextIndex : Nat := FIRST_INDEX
deriving DecidableEq

/-- `st.requests[key]`. -/
def File.request (st : File) (key : String) : Option Req := table.find Req.key key st.requests

/-- What a call reads besides the file: the clock, the block list and the captcha, the watcher's
figures, and whether the connection has asked too often. -/
structure World where
  now : Int
  blocked : Bool := false
  per_address : List (String × ℚ) := []
  refundedAddrs : List String := []
  deposited : ℚ := 0
  tooMany : Bool := false
deriving DecidableEq

/-- What is asked for. -/
structure Ask where
  account : Option String
  ip : Option String
  bsc : String
  amount : ℚ
deriving DecidableEq

def hexDigits : List Char := "0123456789abcdefABCDEF".toList

def isBsc (s : String) : Bool :=
  match s.toList with
  | '0' :: 'x' :: digits => digits.length = 40 && digits.all (· ∈ hexDigits)
  | _ => false

def lowerCase (s : String) : String := String.ofList (keeper.lower s)

section

variable (cfg : Config)

/-- `wpcnFor`. -/
def wpcnFor (amount : ℚ) : ℚ := min amount cfg.PER_PERSON * (1 - cfg.FEE_PCT / 100)

/-- `accountUsedWpcn`. -/
def accountUsedWpcn (w : World) (st : File) (email : String) : ℚ :=
  ((st.requests.filter fun r => r.account = some email && w.now - 30 * 86400000 ≤ r.created).map fun r =>
    let dep := (w.per_address.lookup r.address).getD 0
    if 0 < dep then dep else wpcnFor cfg r.amount).sum

/-- `askedSince`. -/
def askedSince (st : File) (keep : Req → Bool) (since : Int) : ℚ :=
  ((st.requests.filter fun r => keep r && since ≤ r.created).map fun r =>
    min r.amount cfg.PER_PERSON).sum

/-- What an account may still ask for in 30 days. -/
def leftPcn (w : World) (st : File) (email : String) : ℚ :=
  let capW := cfg.ACCOUNT_MONTHLY_PCN * (1 - cfg.FEE_PCT / 100)
  max 0 ((capW - accountUsedWpcn cfg w st email) / (1 - cfg.FEE_PCT / 100))

/-- The checks before the file is loaded to be changed. -/
def gates (w : World) (a : Ask) (st : File) : Bool :=
  isBsc a.bsc && 0 < a.amount && !w.blocked && (!cfg.REQUIRE_ACCOUNT || a.account.isSome) &&
    (a.account.all fun email => a.amount ≤ leftPcn cfg w st email + 1 / 10 ^ 8) &&
    a.amount ≤ cfg.PER_PERSON

/-- The account's own requests for the address, the newest first. -/
def mineHere (a : Ask) (email : String) (st : File) : List Req :=
  let bscKey := lowerCase a.bsc
  (st.requests.filter fun r => (r.key = bscKey || (bscKey ++ "#").toList.isPrefixOf r.key.toList) &&
    r.account = some email).insertionSort fun a b => b.created ≤ a.created

/-- The key of a fresh request of an account: of the numbered keys, one more than there are
requests, the first that is not in use. -/
def freshKey (a : Ask) (st : File) : String :=
  let bscKey := lowerCase a.bsc
  if (st.request bscKey).isNone then bscKey
  else
    let keys := (List.range (st.requests.length + 1)).map fun n => bscKey ++ "#" ++ toString (n + 2)
    (keys.find? fun key => (st.request key).isNone).getD bscKey

/-- What the other requests take of the allocation. -/
def requested (w : World) (st : File) (key : String) : ℚ :=
  ((st.requests.filter fun r => r.key ≠ key && !r.refunded && !(r.address ∈ w.refundedAddrs)).map fun r =>
    wpcnFor cfg r.amount).sum

/-- The end of a call. -/
inductive Outcome
  | refused
  /-- The address of a record is shown to its owner. -/
  | shows (r : Req)
  /-- The file is written, and the address of a record of it is shown. -/
  | saves (st : File) (r : Req)

/-- The daily limits of a new request. -/
def daily (w : World) (a : Ask) (st : File) : Bool :=
  let want := min a.amount cfg.PER_PERSON
  let dayAgo := w.now - 86400000
  (a.account.all fun email =>
    askedSince cfg st (·.account = some email) dayAgo + want ≤ cfg.ACCOUNT_DAILY_PCN + 1 / 10 ^ 8) &&
  (a.ip.all fun ip =>
    askedSince cfg st (·.ip = some ip) dayAgo + want ≤ cfg.IP_DAILY_PCN + 1 / 10 ^ 8) &&
  !w.tooMany

/-- The call from the total allocation on; `holds` says that it brings the claim of the key. -/
def answer (w : World) (holds : Bool) (a : Ask) (st : File) (key : String) : Outcome :=
  let headroom := cfg.TOTAL_ALLOC - max (requested cfg w st key) w.deposited
  if headroom + 1 / 10 ^ 8 < wpcnFor cfg a.amount then .refused
  else match st.request key with
    | none =>
      if !daily cfg w a st then .refused
      else if cfg.pool.slots.length ≤ st.nextIndex then .refused
      else match cfg.pool.slots.find? (·.1 = st.nextIndex) with
        -- the handler throws
        | none => .refused
        | some slot =>
          let r : Req :=
            { key := key, bsc := a.bsc, index := slot.1, address := slot.2, amount := a.amount,
              created := w.now, account := a.account, ip := a.ip }
          .saves { requests := st.requests ++ [r], nextIndex := slot.1 + 1 } r
    | some r =>
      if !(holds || (a.account.isSome && r.account = a.account)) then .refused
      else if r.amount ≠ a.amount then
        let restate (r : Req) : Req := { r with amount := a.amount }
        .saves { st with requests := table.update Req.key key restate st.requests } (restate r)
      else .shows r

/-- What a read of the deposits of the first of the account's requests leads to: the request of the
key, or the other ones. -/
def search (a : Ask) (st : File) (mine : List Req) (got : Option Nat) : String ⊕ List Req :=
  match mine with
  | [] => .inl (freshKey a st)
  | x :: rest =>
    if got = some 0 then .inl x.key else if rest = [] then .inl (freshKey a st) else .inr rest

end

end pcoin.wrapdesk.desk
