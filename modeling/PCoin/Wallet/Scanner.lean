import PCoin.Run.Basic
import PCoin.Search.Basic
import PCoin.Send.TxBuilder

/-! `WalletScanner.swift` and the calls of `ExplorerAPI.swift` it makes: the scan of the two chains of a
wallet's addresses. -/

open pcoin.send

namespace pcoin.scanner

structure IndexStatus where
  stale : Bool
  staleReasons : Option (List String)
  nodeReachable : Option Bool
  blocksBehind : Option Int
  blocksBehindNow : Option Int
  deriving DecidableEq

def IndexStatus.isTrustworthy (s : IndexStatus) : Bool :=
  !s.stale && s.nodeReachable.getD false && (s.blocksBehindNow.or s.blocksBehind).getD 1 == 0

def IndexStatus.untrustworthyReason (s : IndexStatus) : Option String :=
  if s.isTrustworthy then none
  else if s.nodeReachable = some false then some "the explorer cannot reach its node"
  else if s.stale then
    let why := ", ".intercalate (s.staleReasons.getD [])
    some (if why.isEmpty then "the index is stale" else "the index is stale: " ++ why)
  else
    let behind := (s.blocksBehindNow.or s.blocksBehind).getD 0
    if 0 < behind then some ("the index is " ++ toString behind ++ " block(s) behind the node")
    else some "the index did not say it was current"

/-- What a call may throw: `derivation` is what `keys.address` throws, and `explorer` what a call of the
explorer throws by itself. -/
inductive Failure where
  | malformedAnswer (detail : String)
  | indexNotCurrent (reason : String)
  | derivation
  | explorer (detail : String)
  deriving DecidableEq

structure AddressReport where
  address : String
  used : Bool
  spendableSat : Int
  immatureSat : Int
  receivingSat : Int
  txCount : Option Int
  deriving DecidableEq

structure UtxoRow where
  txid : List Char
  vout : UInt32
  confirmations : Int
  isCoinbase : Bool
  mature : Bool
  spentInMempool : Bool
  spendable : Bool
  scriptHex : List Char
  valueSat : Int
  deriving DecidableEq

structure UtxosResponse where
  index : IndexStatus
  utxos : List UtxoRow
  hasMore : Bool

/-- The explorer, as its two calls answer. -/
structure ExplorerClient where
  addresses : List String → Except Failure (IndexStatus × List AddressReport)
  utxos (addr : String) (limit offset : Nat) : Except Failure UtxosResponse

/-- The loop of `allUtxos`. -/
def allUtxosLoop (client : ExplorerClient) (addr : String) (cap : Nat) (rows : List UtxoRow) (offset : Nat)
    (lastIndex : Option IndexStatus) : Except Failure (List UtxoRow × Option IndexStatus) :=
  if rows.length < cap then do
    let page ← client.utxos addr 200 offset
    if !page.hasMore then return (rows ++ page.utxos, some page.index)
    else if page.utxos.length = 0 then return (rows ++ page.utxos, some page.index)
    else allUtxosLoop client addr cap (rows ++ page.utxos) (offset + page.utxos.length) (some page.index)
  else return (rows, lastIndex)
termination_by cap - rows.length
decreasing_by simp only [List.length_append]; omega

def allUtxos (client : ExplorerClient) (addr : String) (cap : Nat := 1000) :
    Except Failure (List UtxoRow × Bool × IndexStatus) := do
  let (rows, lastIndex) ← allUtxosLoop client addr cap [] 0 none
  match lastIndex with
  | none => throw (.malformedAnswer "no index block in the utxo response")
  | some idx => return (rows, decide (rows.length < cap), idx)

structure DerivedAddress where
  chain : Nat
  index : Nat
  address : String
  used : Bool
  spendableSat : Int
  immatureSat : Int
  pendingIncomingSat : Int
  lifetimeTxCount : Int
  deriving DecidableEq

structure WalletSnapshot where
  index : IndexStatus
  receiveAddress : String
  nextChangeAddress : String
  addresses : List DerivedAddress
  utxos : List SpendableUtxo
  spendableSat : Int
  immatureSat : Int
  pendingIncomingSat : Int
  scanComplete : Bool

structure WatchOnlyKeys where
  address (chain index : Nat) : Except Failure String

def chainExternal : Nat := 0

def chainInternal : Nat := 1

def gapLimit : Nat := 20

def scanFloor : Nat := 40

def window : Nat := 40

/-- What the scan has found so far. -/
structure Found where
  derived : List DerivedAddress := []
  lastIndex : Option IndexStatus := none
  complete : Bool := true

def derivedOf (chain index : Nat) (addr : String) (r : AddressReport) : DerivedAddress where
  chain := chain
  index := index
  address := addr
  used := r.used
  spendableSat := r.spendableSat
  immatureSat := r.immatureSat
  pendingIncomingSat := r.receivingSat
  lifetimeTxCount := r.txCount.getD 0

def deriveAt (keys : WatchOnlyKeys) (chain idx : Nat) : Except Failure (Nat × String) := do
  let addr ← keys.address chain idx
  return (idx, addr)

/-- The report that `byAddress` has for an address, the last one of the answer. -/
def takeReport (reports : List AddressReport) (chain : Nat) (coord : Nat × String) :
    Except Failure DerivedAddress :=
  match reports.reverse.find? (·.address = coord.2) with
  | none => throw (.malformedAnswer "the batch answer left out an address that was asked about")
  | some r => return derivedOf chain coord.1 coord.2 r

def countUnused (unusedRun : Nat) (d : DerivedAddress) : Nat := if d.used then 0 else unusedRun + 1

def checkIndex (requireCurrentIndex : Bool) (index : IndexStatus) : Except Failure Unit :=
  if requireCurrentIndex && !index.isTrustworthy then
    throw (.indexNotCurrent (index.untrustworthyReason.getD "unknown"))
  else return ()

/-- The windows of a chain, from `next` on. -/
def scanChain (client : ExplorerClient) (keys : WatchOnlyKeys) (maxAddressesPerChain : Nat)
    (requireCurrentIndex : Bool) (chain next unusedRun : Nat) (s : Found) : Except Failure Found := do
  let batch ← (List.range' next (min window (maxAddressesPerChain - next))).mapM (deriveAt keys chain)
  if batch.length = 0 then return { s with complete := false }
  else
    let (index, reports) ← client.addresses (batch.map Prod.snd)
    checkIndex requireCurrentIndex index
    let new ← batch.mapM (takeReport reports chain)
    let unusedRun := new.foldl countUnused unusedRun
    let s' := { s with derived := s.derived ++ new, lastIndex := some index }
    if maxAddressesPerChain ≤ next + batch.length then
      return { s' with complete := s.complete && decide (gapLimit ≤ unusedRun) }
    else if gapLimit ≤ unusedRun ∧ scanFloor ≤ next + batch.length then return s'
    else scanChain client keys maxAddressesPerChain requireCurrentIndex chain (next + batch.length) unusedRun s'
termination_by maxAddressesPerChain - next
decreasing_by omega

def utxoOf (d : DerivedAddress) (r : UtxoRow) : Option SpendableUtxo :=
  (ofHex r.scriptHex).map fun script =>
    { outpoint := ⟨r.txid, r.vout⟩
      valueSat := r.valueSat
      scriptPubKey := script
      chain := UInt32.ofNat d.chain
      index := UInt32.ofNat d.index
      confirmations := r.confirmations
      isCoinbase := r.isCoinbase
      spendableAccordingToIndex := r.spendable && r.mature && !r.spentInMempool }

/-- The address holds something. -/
def DerivedAddress.holds (d : DerivedAddress) : Bool := 0 < d.spendableSat || 0 < d.immatureSat

/-- The UTXOs of an address, only if it holds something. -/
def collect (client : ExplorerClient) (s : List SpendableUtxo × Bool) (d : DerivedAddress) :
    Except Failure (List SpendableUtxo × Bool) :=
  if d.holds then do
    let (rows, rowsComplete, _) ← allUtxos client d.address
    return (s.1 ++ rows.filterMap (utxoOf d), s.2 && rowsComplete)
  else return s

/-- The first internal address with no history, or the next one behind those that were scanned. -/
def changeAddressOf (keys : WatchOnlyKeys) (internalAddrs : List DerivedAddress) : Except Failure String :=
  match internalAddrs.find? fun d => !d.used && d.spendableSat == 0 with
  | some c => return c.address
  | none => keys.address chainInternal internalAddrs.length

def scan (client : ExplorerClient) (keys : WatchOnlyKeys) (maxAddressesPerChain : Nat := 200)
    (requireCurrentIndex : Bool := true) : Except Failure WalletSnapshot := do
  let s ← scanChain client keys maxAddressesPerChain requireCurrentIndex chainExternal 0 0 {}
  let s ← scanChain client keys maxAddressesPerChain requireCurrentIndex chainInternal 0 0 s
  match s.lastIndex with
  | none => throw (.malformedAnswer "no index block in any answer")
  | some index =>
    let (utxos, complete) ← s.derived.foldlM (collect client) ([], s.complete)
    let receive ← keys.address chainExternal 0
    let internalAddrs := s.derived.filter (·.chain = chainInternal)
    let changeAddress ← changeAddressOf keys internalAddrs
    return {
      index := index
      receiveAddress := receive
      nextChangeAddress := changeAddress
      addresses := s.derived
      utxos := utxos
      spendableSat := (s.derived.map (·.spendableSat)).sum
      immatureSat := (s.derived.map (·.immatureSat)).sum
      pendingIncomingSat := (s.derived.map (·.pendingIncomingSat)).sum
      scanComplete := complete }

section Explorer

/-- What an explorer knows of the addresses while it is asked. -/
structure Ledger where
  report : String → AddressReport
  rows : String → List UtxoRow
  address : ∀ a, (report a).address = a
  unseen : ∀ a, (report a).used = false →
    (report a).spendableSat = 0 ∧ (report a).immatureSat = 0 ∧ (report a).receivingSat = 0

/-- The client answers from the ledger, and a page of outputs is the piece of them that was asked for. -/
structure ExplorerClient.Serves (client : ExplorerClient) (L : Ledger) : Prop where
  addresses : ∀ l index reports, client.addresses l = .ok (index, reports) →
    ∀ r ∈ reports, r = L.report r.address
  utxos : ∀ a limit offset page, client.utxos a limit offset = .ok page →
    page.utxos = ((L.rows a).drop offset).take limit ∧
      page.hasMore = decide (offset + page.utxos.length < (L.rows a).length)

end Explorer

section Utxos

variable {client : ExplorerClient} {L : Ledger} {addr : String} {cap : Nat}

/-- The pages so far are the first rows, and the loop ends behind the last row or at the cap. -/
theorem allUtxosLoop_spec (hserves : client.Serves L) {rows rest : List UtxoRow} {offset : Nat}
    {lastIndex : Option IndexStatus} {out : List UtxoRow × Option IndexStatus}
    (hrows : L.rows addr = rows ++ rest) (hoffset : rows.length = offset)
    (h : allUtxosLoop client addr cap rows offset lastIndex = .ok out) :
    out.1 = L.rows addr ∨ cap ≤ out.1.length := by
  rw [allUtxosLoop] at h
  split at h
  · obtain ⟨page, hpage, h⟩ := run.bind_eq_ok.mp h
    obtain ⟨hutxos, hmore⟩ := hserves.utxos _ _ _ _ hpage
    rw [hrows, ← hoffset, List.drop_left] at hutxos
    have hnext : L.rows addr = (rows ++ page.utxos) ++ rest.drop 200 := by
      rw [hrows, hutxos, List.append_assoc, List.take_append_drop]
    have hlen := congrArg List.length hnext
    simp only [List.length_append] at hlen
    split at h
    · rename_i hlast
      obtain rfl := Except.ok.inj h
      have hall : (rest.drop 200).length = 0 := by
        simp only [hmore, Bool.not_eq_true', decide_eq_false_iff_not] at hlast
        omega
      rw [hnext, List.length_eq_zero_iff.mp hall, List.append_nil]
      exact .inl rfl
    · split at h
      · rename_i hempty
        obtain rfl := Except.ok.inj h
        have hrest : rest = [] := by
          rw [hutxos, List.length_eq_zero_iff, List.take_eq_nil_iff] at hempty
          exact hempty.resolve_left (by decide)
        rw [hnext, hrest, List.drop_nil, List.append_nil]
        exact .inl rfl
      · exact allUtxosLoop_spec hserves hnext (by rw [List.length_append, hoffset]) h
  · rename_i hcap
    obtain rfl := Except.ok.inj h
    exact .inr (Nat.not_lt.mp hcap)
termination_by cap - rows.length
decreasing_by simp only [List.length_append]; omega

theorem allUtxos_spec (hserves : client.Serves L) {rows : List UtxoRow} {index : IndexStatus}
    (h : allUtxos client addr cap = .ok (rows, true, index)) : rows = L.rows addr := by
  unfold allUtxos at h
  obtain ⟨⟨out, lastIndex⟩, hloop, h⟩ := run.bind_eq_ok.mp h
  cases lastIndex with
  | none => cases h
  | some idx =>
    obtain ⟨rfl, hshort, rfl⟩ : out = rows ∧ decide (out.length < cap) = true ∧ idx = index := by
      simpa [pure, Except.pure] using h
    have hlt := of_decide_eq_true hshort
    obtain hall | hcap := allUtxosLoop_spec hserves (List.nil_append _).symm rfl hloop
    · exact hall
    · exact absurd hlt (Nat.not_lt.mpr hcap)

/-- What a complete round over the addresses has collected. -/
theorem foldlM_collect (hserves : client.Serves L) {ds : List DerivedAddress}
    {s t : List SpendableUtxo × Bool} (h : ds.foldlM (collect client) s = .ok t) (ht : t.2 = true) :
    s.2 = true ∧ t.1 = s.1 ++ (ds.filter (·.holds)).flatMap fun d =>
      (L.rows d.address).filterMap (utxoOf d) := by
  induction ds generalizing s with
  | nil =>
    obtain rfl := Except.ok.inj h
    exact ⟨ht, by simp⟩
  | cons d ds ih =>
    rw [List.foldlM_cons] at h
    obtain ⟨u, hu, h⟩ := run.bind_eq_ok.mp h
    obtain ⟨hcomplete, hutxos⟩ := ih h
    unfold collect at hu
    split at hu
    · rename_i hholds
      obtain ⟨⟨rows, rowsComplete, index⟩, hrows, hu⟩ := run.bind_eq_ok.mp hu
      obtain rfl := Except.ok.inj hu
      obtain ⟨hs, rfl⟩ := Bool.and_eq_true_iff.mp hcomplete
      obtain rfl := allUtxos_spec hserves hrows
      exact ⟨hs, by rw [hutxos, List.filter_cons_of_pos hholds, List.flatMap_cons, List.append_assoc]⟩
    · rename_i hholds
      obtain rfl := Except.ok.inj hu
      exact ⟨hcomplete, by rw [hutxos, List.filter_cons_of_neg hholds]⟩

end Utxos

section Chain

variable {client : ExplorerClient} {keys : WatchOnlyKeys} {L : Ledger} {max chain : Nat} {require : Bool}

/-- The address of an index has been seen. -/
def usedAt (keys : WatchOnlyKeys) (L : Ledger) (chain idx : Nat) : Bool :=
  match keys.address chain idx with
  | .ok a => (L.report a).used
  | .error _ => false

/-- What the explorer knows of the address of an index. -/
def Tells (keys : WatchOnlyKeys) (L : Ledger) (chain idx : Nat) (d : DerivedAddress) : Prop :=
  ∃ a, keys.address chain idx = .ok a ∧ d = derivedOf chain idx a (L.report a)

theorem Tells.used {idx : Nat} {d : DerivedAddress} (h : Tells keys L chain idx d) :
    d.used = usedAt keys L chain idx := by
  obtain ⟨a, ha, rfl⟩ := h
  unfold usedAt
  rw [ha]
  rfl

theorem Tells.unique {idx : Nat} {d d' : DerivedAddress} (h : Tells keys L chain idx d)
    (h' : Tells keys L chain idx d') : d = d' := by
  obtain ⟨a, ha, rfl⟩ := h
  obtain ⟨a', ha', rfl⟩ := h'
  obtain rfl := Except.ok.inj (ha.symm.trans ha')
  rfl

theorem takeReport_spec {reports : List AddressReport} (hreports : ∀ r ∈ reports, r = L.report r.address)
    {coord : Nat × String} {d : DerivedAddress} (h : takeReport reports chain coord = .ok d) :
    d = derivedOf chain coord.1 coord.2 (L.report coord.2) := by
  unfold takeReport at h
  split at h
  · cases h
  · rename_i r hfind
    obtain rfl := Except.ok.inj h
    have haddr : r.address = coord.2 := by simpa using List.find?_some hfind
    rw [← haddr, ← hreports r (List.mem_reverse.mp (List.mem_of_find?_eq_some hfind))]

theorem length_of_mapM {α β : Type} {f : α → Except Failure β} {l : List α} {out : List β}
    (h : l.mapM f = .ok out) : out.length = l.length := by
  induction l generalizing out with
  | nil =>
    obtain rfl := Except.ok.inj h
    rfl
  | cons x l ih =>
    rw [List.mapM_cons] at h
    obtain ⟨y, -, h⟩ := run.bind_eq_ok.mp h
    obtain ⟨ys, hys, h⟩ := run.bind_eq_ok.mp h
    obtain rfl := Except.ok.inj h
    rw [List.length_cons, List.length_cons, ih hys]

/-- A window's addresses are told of in the order of the indices. -/
theorem mapM_takeReport {reports : List AddressReport} (hreports : ∀ r ∈ reports, r = L.report r.address)
    {idxs : List Nat} {batch : List (Nat × String)} {new : List DerivedAddress}
    (hbatch : idxs.mapM (deriveAt keys chain) = .ok batch)
    (hnew : batch.mapM (takeReport reports chain) = .ok new) :
    List.Forall₂ (Tells keys L chain) idxs new := by
  induction idxs generalizing batch new with
  | nil =>
    obtain rfl := Except.ok.inj hbatch
    obtain rfl := Except.ok.inj hnew
    exact .nil
  | cons idx idxs ih =>
    rw [List.mapM_cons] at hbatch
    obtain ⟨coord, hcoord, hbatch⟩ := run.bind_eq_ok.mp hbatch
    obtain ⟨coords, hcoords, hbatch⟩ := run.bind_eq_ok.mp hbatch
    obtain rfl := Except.ok.inj hbatch
    rw [List.mapM_cons] at hnew
    obtain ⟨d, hd, hnew⟩ := run.bind_eq_ok.mp hnew
    obtain ⟨ds, hds, hnew⟩ := run.bind_eq_ok.mp hnew
    obtain rfl := Except.ok.inj hnew
    obtain ⟨a, ha, hcoord⟩ := run.bind_eq_ok.mp hcoord
    obtain rfl := Except.ok.inj hcoord
    exact .cons ⟨a, ha, takeReport_spec hreports hd⟩ (ih hcoords hds)

/-- The counter of the loop is the run of unused addresses. -/
theorem foldl_countUnused {next n : Nat} {new : List DerivedAddress}
    (h : List.Forall₂ (Tells keys L chain) (List.range' next n) new) :
    new.foldl countUnused (gap.run (usedAt keys L chain) next) =
      gap.run (usedAt keys L chain) (next + n) := by
  induction n generalizing next new with
  | zero =>
    obtain rfl : new = [] := by simpa using h
    rfl
  | succ n ih =>
    rw [List.range'_succ, List.forall₂_cons_left_iff] at h
    obtain ⟨d, ds, hd, hds, rfl⟩ := h
    rw [List.foldl_cons, countUnused, hd.used, ← gap.run_succ, ih hds, Nat.add_right_comm, Nat.add_assoc]

/-- The scan of a chain tells of the addresses up to some index; a complete one ends behind as many unused
ones as the gap limit asks for. -/
theorem scanChain_spec (hserves : client.Serves L) {next : Nat} {s t : Found}
    (h : scanChain client keys max require chain next (gap.run (usedAt keys L chain) next) s = .ok t) :
    ∃ n new, t.derived = s.derived ++ new ∧ List.Forall₂ (Tells keys L chain) (List.range' next n) new ∧
      (t.complete = true → s.complete = true ∧ gapLimit ≤ gap.run (usedAt keys L chain) (next + n)) := by
  rw [scanChain] at h
  obtain ⟨batch, hbatch, h⟩ := run.bind_eq_ok.mp h
  have hlen : batch.length = min window (max - next) := by
    rw [length_of_mapM hbatch, List.length_range']
  split at h
  · obtain rfl := Except.ok.inj h
    exact ⟨0, [], (List.append_nil _).symm, .nil, fun hcomplete => (by cases hcomplete)⟩
  · obtain ⟨⟨index, reports⟩, hreports, h⟩ := run.bind_eq_ok.mp h
    obtain ⟨_, -, h⟩ := run.bind_eq_ok.mp h
    obtain ⟨new, hnew, h⟩ := run.bind_eq_ok.mp h
    have htells := mapM_takeReport (hserves.addresses _ _ _ hreports) hbatch hnew
    dsimp only at h
    rw [hlen, foldl_countUnused htells] at h
    split at h
    · obtain rfl := Except.ok.inj h
      refine ⟨_, new, rfl, htells, fun hcomplete => ?_⟩
      simpa using hcomplete
    · split at h
      · rename_i hdone
        obtain rfl := Except.ok.inj h
        exact ⟨_, new, rfl, htells, fun hcomplete => ⟨hcomplete, hdone.1⟩⟩
      · obtain ⟨n, rest, hderived, hrest, hcomplete⟩ := scanChain_spec hserves h
        refine ⟨min window (max - next) + n, new ++ rest, ?_, ?_, ?_⟩
        · rw [hderived, List.append_assoc]
        · rw [← List.range'_append_1]
          exact List.rel_append htells hrest
        · rw [← Nat.add_assoc]
          exact hcomplete
termination_by max - next
decreasing_by omega

end Chain

section Scan

variable {client : ExplorerClient} {keys : WatchOnlyKeys} {L : Ledger} {max chain : Nat} {require : Bool}
  {s : WalletSnapshot}

/-- What a scan has read of both chains. -/
structure Scanned (keys : WatchOnlyKeys) (L : Ledger) (s : WalletSnapshot) (n m : Nat)
    (external internal : List DerivedAddress) : Prop where
  addresses : s.addresses = external ++ internal
  tellsExternal : List.Forall₂ (Tells keys L chainExternal) (List.range' 0 n) external
  tellsInternal : List.Forall₂ (Tells keys L chainInternal) (List.range' 0 m) internal
  spendable : s.spendableSat = (s.addresses.map (·.spendableSat)).sum
  immature : s.immatureSat = (s.addresses.map (·.immatureSat)).sum
  pending : s.pendingIncomingSat = (s.addresses.map (·.pendingIncomingSat)).sum
  change : (∃ idx, keys.address chainInternal idx = .ok s.nextChangeAddress ∧
      usedAt keys L chainInternal idx = false) ∨
    keys.address chainInternal m = .ok s.nextChangeAddress
  utxos : s.utxos = (s.addresses.filter (·.holds)).flatMap fun d =>
    (L.rows d.address).filterMap (utxoOf d)
  endExternal : gapLimit ≤ gap.run (usedAt keys L chainExternal) n
  endInternal : gapLimit ≤ gap.run (usedAt keys L chainInternal) m

theorem Tells.chain_eq {idx : Nat} {d : DerivedAddress} (h : Tells keys L chain idx d) : d.chain = chain := by
  obtain ⟨a, -, rfl⟩ := h
  rfl

theorem chain_of_tells {idxs : List Nat} {ds : List DerivedAddress}
    (h : List.Forall₂ (Tells keys L chain) idxs ds) : ∀ d ∈ ds, d.chain = chain := by
  induction h with
  | nil => exact fun d hd => (by cases hd)
  | cons hd _ ih => exact List.forall_mem_cons.mpr ⟨hd.chain_eq, ih⟩

theorem mem_of_tells {idxs : List Nat} {ds : List DerivedAddress}
    (h : List.Forall₂ (Tells keys L chain) idxs ds) {d : DerivedAddress} (hd : d ∈ ds) :
    ∃ idx ∈ idxs, Tells keys L chain idx d := by
  induction h with
  | nil => cases hd
  | @cons idx e idxs ds he _ ih =>
    obtain rfl | hd := List.mem_cons.mp hd
    · exact ⟨idx, List.mem_cons_self, he⟩
    · obtain ⟨idx', hidx, htells⟩ := ih hd
      exact ⟨idx', List.mem_cons_of_mem _ hidx, htells⟩

theorem exists_of_tells {idxs : List Nat} {ds : List DerivedAddress}
    (h : List.Forall₂ (Tells keys L chain) idxs ds) {idx : Nat} (hidx : idx ∈ idxs) :
    ∃ d ∈ ds, Tells keys L chain idx d := by
  induction h with
  | nil => cases hidx
  | @cons idx' e idxs ds he _ ih =>
    obtain rfl | hidx := List.mem_cons.mp hidx
    · exact ⟨e, List.mem_cons_self, he⟩
    · obtain ⟨d, hd, htells⟩ := ih hidx
      exact ⟨d, List.mem_cons_of_mem _ hd, htells⟩

theorem filter_internal {external internal : List DerivedAddress}
    (hexternal : ∀ d ∈ external, d.chain = chainExternal)
    (hinternal : ∀ d ∈ internal, d.chain = chainInternal) :
    (external ++ internal).filter (·.chain = chainInternal) = internal := by
  have hnone : external.filter (·.chain = chainInternal) = [] := by
    rw [List.filter_eq_nil_iff]
    intro d hd
    rw [decide_eq_true_iff, hexternal d hd]
    exact Nat.zero_ne_one
  have hall : internal.filter (·.chain = chainInternal) = internal := by
    rw [List.filter_eq_self]
    intro d hd
    exact decide_eq_true (hinternal d hd)
  rw [List.filter_append, hnone, hall, List.nil_append]

theorem scan_spec (hserves : client.Serves L) (h : scan client keys max require = .ok s)
    (hcomplete : s.scanComplete = true) :
    ∃ n m external internal, Scanned keys L s n m external internal := by
  unfold scan at h
  obtain ⟨t, ht, h⟩ := run.bind_eq_ok.mp h
  obtain ⟨u, hu, h⟩ := run.bind_eq_ok.mp h
  obtain ⟨n, external, hexternal, htells, hendExternal⟩ := scanChain_spec hserves ht
  obtain ⟨m, internal, hinternal, htells', hendInternal⟩ := scanChain_spec hserves hu
  have hderived : u.derived = external ++ internal := by
    rw [hinternal, hexternal, List.nil_append]
  split at h
  · cases h
  · obtain ⟨⟨utxos, complete⟩, hcollect, h⟩ := run.bind_eq_ok.mp h
    obtain ⟨receive, -, h⟩ := run.bind_eq_ok.mp h
    obtain ⟨changeAddress, hchange, h⟩ := run.bind_eq_ok.mp h
    obtain rfl := Except.ok.inj h
    obtain ⟨hcompleted, hutxos⟩ := foldlM_collect hserves hcollect hcomplete
    obtain ⟨hfirst, hend'⟩ := hendInternal hcompleted
    have hend := (hendExternal hfirst).2
    rw [Nat.zero_add] at hend hend'
    rw [hderived, filter_internal (chain_of_tells htells) (chain_of_tells htells')] at hchange
    refine ⟨n, m, external, internal, hderived, htells, htells', rfl, rfl, rfl, ?_, ?_, hend, hend'⟩
    · unfold changeAddressOf at hchange
      split at hchange
      · rename_i d hfind
        obtain rfl := Except.ok.inj hchange
        have hfresh := List.find?_some hfind
        obtain ⟨idx, -, a, ha, rfl⟩ := mem_of_tells htells' (List.mem_of_find?_eq_some hfind)
        refine .inl ⟨idx, ha, ?_⟩
        unfold usedAt
        rw [ha]
        rw [Bool.and_eq_true, Bool.not_eq_true'] at hfresh
        exact hfresh.1
      · rw [← htells'.length_eq, List.length_range'] at hchange
        exact .inr hchange
    · exact hutxos

/-- The worth of what the explorer knows of the first addresses of both chains. -/
def valueAt (keys : WatchOnlyKeys) (L : Ledger) (f : AddressReport → Int) (chain idx : Nat) : Int :=
  match keys.address chain idx with
  | .ok a => f (L.report a)
  | .error _ => 0

def totalOf (keys : WatchOnlyKeys) (L : Ledger) (f : AddressReport → Int) (n : Nat) : Int :=
  ((List.range n).map (valueAt keys L f chainExternal)).sum +
    ((List.range n).map (valueAt keys L f chainInternal)).sum

theorem sum_of_tells {f : AddressReport → Int} {g : DerivedAddress → Int}
    (hg : ∀ chain idx a r, g (derivedOf chain idx a r) = f r) {idxs : List Nat} {ds : List DerivedAddress}
    (h : List.Forall₂ (Tells keys L chain) idxs ds) :
    (ds.map g).sum = (idxs.map (valueAt keys L f chain)).sum := by
  induction h with
  | nil => rfl
  | @cons idx d idxs ds hd _ ih =>
    obtain ⟨a, ha, rfl⟩ := hd
    rw [List.map_cons, List.map_cons, List.sum_cons, List.sum_cons, ih, hg]
    unfold valueAt
    rw [ha]

/-- Addresses that have not been seen add nothing. -/
theorem sum_unseen {f : AddressReport → Int} (hf : ∀ a, (L.report a).used = false → f (L.report a) = 0)
    {n m : Nat} (hnm : n ≤ m) (h : ∀ idx, n ≤ idx → usedAt keys L chain idx = false) :
    ((List.range m).map (valueAt keys L f chain)).sum = ((List.range n).map (valueAt keys L f chain)).sum := by
  induction m, hnm using Nat.le_induction with
  | base => rfl
  | succ m hle ih =>
    have hzero : valueAt keys L f chain m = 0 := by
      have hunused := h m hle
      unfold usedAt at hunused
      unfold valueAt
      split at hunused
      · exact hf _ hunused
      · rfl
    rw [List.range_succ, List.map_append, List.sum_append, ih, List.map_singleton, List.sum_singleton,
      hzero, Int.add_zero]

theorem unused_behind (hgap : gap.Within (usedAt keys L chain) gapLimit) {n : Nat}
    (hend : gapLimit ≤ gap.run (usedAt keys L chain) n) {idx : Nat} (hidx : n ≤ idx) :
    usedAt keys L chain idx = false := by
  by_contra hused
  have hlt := hgap.lt_of_used hend (Bool.eq_true_of_not_eq_false hused)
  omega

theorem Scanned.total {n m : Nat} {external internal : List DerivedAddress}
    (h : Scanned keys L s n m external internal)
    (hexternal : gap.Within (usedAt keys L chainExternal) gapLimit)
    (hinternal : gap.Within (usedAt keys L chainInternal) gapLimit) {f : AddressReport → Int}
    {g : DerivedAddress → Int} (hg : ∀ chain idx a r, g (derivedOf chain idx a r) = f r)
    (hf : ∀ a, (L.report a).used = false → f (L.report a) = 0) {k : Nat} (hn : n ≤ k) (hm : m ≤ k) :
    (s.addresses.map g).sum = totalOf keys L f k := by
  rw [h.addresses, List.map_append, List.sum_append, sum_of_tells hg h.tellsExternal,
    sum_of_tells hg h.tellsInternal, ← List.range_eq_range', ← List.range_eq_range', totalOf,
    sum_unseen hf hn fun idx => unused_behind hexternal h.endExternal,
    sum_unseen hf hm fun idx => unused_behind hinternal h.endInternal]

/-- A used address of either chain is among those that were read. -/
theorem Scanned.mem {n m : Nat} {external internal : List DerivedAddress}
    (h : Scanned keys L s n m external internal)
    (hgap : ∀ chain ∈ [chainExternal, chainInternal], gap.Within (usedAt keys L chain) gapLimit)
    (hchain : chain ∈ [chainExternal, chainInternal]) {idx : Nat} {a : String}
    (ha : keys.address chain idx = .ok a) (hused : (L.report a).used = true) :
    derivedOf chain idx a (L.report a) ∈ s.addresses := by
  have hat : usedAt keys L chain idx = true := by
    unfold usedAt
    rw [ha]
    exact hused
  have hwithin := hgap chain hchain
  rw [h.addresses]
  simp only [List.mem_cons, List.not_mem_nil, or_false] at hchain
  obtain rfl | rfl := hchain
  · have hlt := hwithin.lt_of_used h.endExternal hat
    obtain ⟨d, hd, htells⟩ := exists_of_tells h.tellsExternal (List.mem_range'_1.mpr
      ⟨Nat.zero_le idx, by rwa [Nat.zero_add]⟩)
    rw [htells.unique ⟨a, ha, rfl⟩] at hd
    exact List.mem_append_left _ hd
  · have hlt := hwithin.lt_of_used h.endInternal hat
    obtain ⟨d, hd, htells⟩ := exists_of_tells h.tellsInternal (List.mem_range'_1.mpr
      ⟨Nat.zero_le idx, by rwa [Nat.zero_add]⟩)
    rw [htells.unique ⟨a, ha, rfl⟩] at hd
    exact List.mem_append_right _ hd

end Scan

/-- A complete scan of a wallet whose used addresses lie within the gap limit has read every used address,
its totals are those of all addresses, and change goes to an address that has not been seen. -/
theorem scan_finds_all (client : ExplorerClient) (keys : WatchOnlyKeys) (L : Ledger) (max : Nat)
    (require : Bool) (s : WalletSnapshot) (hserves : client.Serves L)
    (hgap : ∀ chain ∈ [chainExternal, chainInternal], gap.Within (usedAt keys L chain) gapLimit)
    (h : scan client keys max require = .ok s) (hcomplete : s.scanComplete = true) :
    (∀ chain ∈ [chainExternal, chainInternal], ∀ idx a, keys.address chain idx = .ok a →
      (L.report a).used = true → derivedOf chain idx a (L.report a) ∈ s.addresses) ∧
    (∃ n, ∀ m, n ≤ m → s.spendableSat = totalOf keys L (·.spendableSat) m ∧
      s.immatureSat = totalOf keys L (·.immatureSat) m ∧
      s.pendingIncomingSat = totalOf keys L (·.receivingSat) m) ∧
    ∃ idx, keys.address chainInternal idx = .ok s.nextChangeAddress ∧
      usedAt keys L chainInternal idx = false := by
  obtain ⟨n, m, external, internal, hscan⟩ := scan_spec hserves h hcomplete
  have hexternal := hgap chainExternal List.mem_cons_self
  have hinternal := hgap chainInternal (List.mem_cons_of_mem _ List.mem_cons_self)
  refine ⟨fun chain hchain idx a ha hused => hscan.mem hgap hchain ha hused, ⟨n + m, fun k hk => ?_⟩, ?_⟩
  · have htotal := fun {f : AddressReport → Int} {g : DerivedAddress → Int} hg hf =>
      @Scanned.total _ _ _ _ _ _ _ hscan hexternal hinternal f g hg hf k (by omega) (by omega)
    refine ⟨?_, ?_, ?_⟩
    · rw [hscan.spendable]
      exact htotal (fun _ _ _ _ => rfl) fun a ha => (L.unseen a ha).1
    · rw [hscan.immature]
      exact htotal (fun _ _ _ _ => rfl) fun a ha => (L.unseen a ha).2.1
    · rw [hscan.pending]
      exact htotal (fun _ _ _ _ => rfl) fun a ha => (L.unseen a ha).2.2
  · obtain hfresh | hnext := hscan.change
    · exact hfresh
    · exact ⟨m, hnext, unused_behind hinternal hscan.endInternal (Nat.le_refl m)⟩

theorem ok_of_toOption {α : Type} {x : Except Failure α} {a : α} (h : x.toOption = some a) : x = .ok a := by
  cases x with
  | error e => cases h
  | ok b =>
    obtain rfl := Option.some.inj h
    rfl

namespace sample

def index : IndexStatus :=
  { stale := false, staleReasons := none, nodeReachable := some true, blocksBehind := none,
    blocksBehindNow := some 0 }

def keys : WatchOnlyKeys := ⟨fun chain idx => .ok (Nat.repr (1000 * chain + idx))⟩

/-- The explorer has seen the fourth external address only. -/
def report (a : String) : AddressReport :=
  if a = Nat.repr 3 then ⟨a, true, 500, 0, 0, some 1⟩ else ⟨a, false, 0, 0, 0, none⟩

def row : UtxoRow :=
  { txid := List.replicate 64 '7', vout := 1, confirmations := 9, isCoinbase := false, mature := true,
    spentInMempool := false, spendable := true,
    scriptHex := '0' :: '0' :: '1' :: '4' :: List.replicate 40 'a', valueSat := 500 }

theorem report_address (a : String) : (report a).address = a := by
  unfold report
  split <;> rfl

def ledger : Ledger where
  report := report
  rows a := if a = Nat.repr 3 then [row] else []
  address := report_address
  unseen a ha := by
    unfold report at ha ⊢
    by_cases h : a = Nat.repr 3
    · rw [if_pos h] at ha
      cases ha
    · rw [if_neg h]
      exact ⟨rfl, rfl, rfl⟩

def client : ExplorerClient where
  addresses l := .ok (index, l.map report)
  utxos a limit offset :=
    let page := ((ledger.rows a).drop offset).take limit
    .ok ⟨index, page, decide (offset + page.length < (ledger.rows a).length)⟩

theorem serves : client.Serves ledger where
  addresses l index reports h r hr := by
    obtain ⟨-, rfl⟩ := Prod.mk.inj (Except.ok.inj h)
    obtain ⟨a, -, rfl⟩ := List.mem_map.mp hr
    rw [report_address]
    rfl
  utxos a limit offset page h := by
    obtain rfl := Except.ok.inj h
    exact ⟨rfl, rfl⟩

theorem repr_inj {m n : Nat} (h : Nat.repr m = Nat.repr n) : m = n := by
  have hdigits := congrArg (fun s : String => Nat.ofDigitChars 10 s.toList 0) h
  simpa [Nat.repr] using hdigits

theorem used_iff {chain idx : Nat} :
    usedAt keys ledger chain idx = true ↔ 1000 * chain + idx = 3 := by
  have hreport : usedAt keys ledger chain idx = (report (Nat.repr (1000 * chain + idx))).used := rfl
  rw [hreport]
  unfold report
  split
  · rename_i h
    exact iff_of_true rfl (repr_inj h)
  · rename_i h
    exact iff_of_false Bool.false_ne_true fun heq => h (congrArg Nat.repr heq)

theorem within (chain : Nat) : gap.Within (usedAt keys ledger chain) gapLimit where
  first j hj _ := by
    have := used_iff.mp hj
    unfold gapLimit
    omega
  between i j hij hi hj _ := by
    have := used_iff.mp hi
    have := used_iff.mp hj
    omega

theorem scanned : ((scan client keys 200 true).toOption.map fun s =>
    (s.scanComplete, s.spendableSat, s.utxos.length)) = some (true, 500, 1) := by
  decide +kernel

end sample

theorem scan_finds_all_one_coin : ∃ s, scan sample.client sample.keys 200 true = .ok s ∧
    s.spendableSat = 500 ∧ ∃ n, ∀ m, n ≤ m →
      s.spendableSat = totalOf sample.keys sample.ledger (·.spendableSat) m := by
  obtain ⟨s, hs, hvalues⟩ := Option.map_eq_some_iff.mp sample.scanned
  have hscan : scan sample.client sample.keys 200 true = .ok s := ok_of_toOption hs
  obtain ⟨hcomplete, hsat, -⟩ : s.scanComplete = true ∧ s.spendableSat = 500 ∧ s.utxos.length = 1 := by
    simpa using hvalues
  obtain ⟨-, ⟨n, htotals⟩, -⟩ := scan_finds_all sample.client sample.keys sample.ledger 200 true s
    sample.serves (fun chain _ => sample.within chain) hscan hcomplete
  exact ⟨s, hscan, hsat, n, fun m hm => (htotals m hm).1⟩

/-- A complete scan of such a wallet has collected the outputs of the addresses that hold something: all
of them, and nothing else. -/
theorem scan_utxos_exact (client : ExplorerClient) (keys : WatchOnlyKeys) (L : Ledger) (max : Nat)
    (require : Bool) (s : WalletSnapshot) (hserves : client.Serves L)
    (hgap : ∀ chain ∈ [chainExternal, chainInternal], gap.Within (usedAt keys L chain) gapLimit)
    (h : scan client keys max require = .ok s) (hcomplete : s.scanComplete = true) (u : SpendableUtxo) :
    u ∈ s.utxos ↔ ∃ chain ∈ [chainExternal, chainInternal], ∃ idx a, keys.address chain idx = .ok a ∧
      (derivedOf chain idx a (L.report a)).holds = true ∧
      ∃ r ∈ L.rows a, utxoOf (derivedOf chain idx a (L.report a)) r = some u := by
  obtain ⟨n, m, external, internal, hscan⟩ := scan_spec hserves h hcomplete
  rw [hscan.utxos, List.mem_flatMap]
  constructor
  · rintro ⟨d, hd, hu⟩
    obtain ⟨hd, hholds⟩ := List.mem_filter.mp hd
    obtain ⟨r, hr, hu⟩ := List.mem_filterMap.mp hu
    rw [hscan.addresses] at hd
    obtain hd | hd := List.mem_append.mp hd
    · obtain ⟨idx, -, a, ha, rfl⟩ := mem_of_tells hscan.tellsExternal hd
      exact ⟨chainExternal, List.mem_cons_self, idx, a, ha, hholds, r, hr, hu⟩
    · obtain ⟨idx, -, a, ha, rfl⟩ := mem_of_tells hscan.tellsInternal hd
      exact ⟨chainInternal, List.mem_cons_of_mem _ List.mem_cons_self, idx, a, ha, hholds, r, hr, hu⟩
  · rintro ⟨chain, hchain, idx, a, ha, hholds, r, hr, hu⟩
    have hused : (L.report a).used = true := by
      by_contra hunused
      obtain ⟨hspendable, himmature, -⟩ := L.unseen a (Bool.eq_false_of_not_eq_true hunused)
      simp [DerivedAddress.holds, derivedOf, hspendable, himmature] at hholds
    exact ⟨_, List.mem_filter.mpr ⟨hscan.mem hgap hchain ha hused, hholds⟩,
      List.mem_filterMap.mpr ⟨r, hr, hu⟩⟩

end pcoin.scanner
