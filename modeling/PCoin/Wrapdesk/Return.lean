import PCoin.Redeem.Returned

/-! `POST /return` of the wrap desk: the claims of returned wPCN. -/

namespace pcoin.wrapdesk.returns

open redeem (Log Receipt Lookup TRANSFER_TOPIC addrFromTopic lowerCase logKey)
open keeper (lower)

structure Config where
  TOKEN : String
  INVENTORY : String
  /-- The recovery of a signer. -/
  recover : String → String → Option String
  /-- The receipts of the chain. -/
  receipt : String → Option Receipt

/-- A claim as it is recorded, with its key. -/
structure Record where
  key : String
  txhash : String
  logIndex : Nat
  sender : String
  wpcn : ℚ
  pcoinAddress : String
  signature : String
  verified : Bool
  previous : Option String := none
  paid : Bool := false
deriving DecidableEq

/-- The body of a call, its hash and sender in lower case. -/
structure Body where
  txhash : String
  pcoinAddress : String
  sender : String
  signature : String

inductive Verdict
  | ok (signer : String)
  | bad
  | unknown
deriving DecidableEq

/-- What the node does when it is asked for a receipt. -/
inductive Node
  | unreachable
  | pending
  | answers

def digits : List Char := "0123456789".toList

def hexDigits : List Char := digits ++ "abcdef".toList

def isTxHash (s : String) : Bool :=
  match s.toList with
  | '0' :: 'x' :: hex => hex.length = 64 && hex.all (· ∈ hexDigits)
  | _ => false

def isPcn (s : String) : Bool :=
  match s.toList with
  | 'p' :: 'c' :: '1' :: rest =>
    20 ≤ rest.length && rest.all (· ∈ digits ++ "abcdefghijklmnopqrstuvwxyz".toList)
  | _ => false

def isBscLower (s : String) : Bool :=
  match s.toList with
  | '0' :: 'x' :: hex => hex.length = 40 && hex.all (· ∈ hexDigits)
  | _ => false

def isSignature (s : String) : Bool :=
  match s.toList with
  | '0' :: 'x' :: hex => hex.length = 130 && hex.all (· ∈ hexDigits ++ "ABCDEF".toList)
  | _ => false

variable (cfg : Config)

def returnMessage (txhash pcoin : String) : String :=
  "PCoin wrap desk: return wPCN for PCN\n" ++
  "BSC transaction: " ++ txhash ++ "\n" ++
  "Send the PCN to: " ++ pcoin ++ "\n" ++
  "I sent the wPCN in that transaction to " ++ cfg.INVENTORY ++ " from the wallet signing this."

/-- `recoverSigner`. The command may fail to answer. -/
def recoverSigner (answers : Bool) (message signature : String) : Verdict :=
  if !answers then .unknown
  else match cfg.recover message signature with
    | some signer => .ok signer
    | none => .bad

/-- The sender of a transfer log. -/
def senderOf (l : Log) : String := addrFromTopic (l.topics.getD 1 "")

/-- The transfers of a receipt from a sender to the inventory. -/
def transfers (rc : Receipt) (sender : String) : List Log :=
  rc.logs.filter fun l => lower l.address = lower cfg.TOKEN &&
    lower (l.topics.getD 0 "") = TRANSFER_TOPIC.toList &&
    addrFromTopic (l.topics.getD 2 "") = cfg.INVENTORY && senderOf l = sender

/-- The same transfer, with a different destination. -/
def Record.restated (b : Body) (verified : Bool) (prev : Record) : Record :=
  { prev with
    pcoinAddress := b.pcoinAddress
    signature := b.signature
    verified := verified
    previous := some prev.pcoinAddress }

/-- The claim of a transfer. -/
def Record.fresh (b : Body) (verified : Bool) (l : Log) : Record :=
  { key := logKey (b.txhash, l.logIndex)
    txhash := b.txhash
    logIndex := l.logIndex
    sender := b.sender
    wpcn := l.data / 10 ^ 8
    pcoinAddress := b.pcoinAddress
    signature := b.signature
    verified := verified }

/-- A transfer is recorded, unless it has been paid out. -/
def recordTransfer (b : Body) (verified : Bool) (claims : List Record) (l : Log) :
    Except Unit (List Record) :=
  let key := logKey (b.txhash, l.logIndex)
  match table.find Record.key key claims with
  | some prev =>
    if prev.pcoinAddress ≠ b.pcoinAddress then
      if prev.paid then .error ()
      else .ok (table.update Record.key key (Record.restated b verified) claims)
    else .ok claims
  | none => .ok (claims ++ [.fresh b verified l])

/-- The transfers that a call is to record, and whether its signer was recovered, unless it is
refused. -/
def received (b : Body) (answers : Bool) (node : Node) : Option (List Log × Bool) :=
  if !(isTxHash b.txhash && isPcn b.pcoinAddress && isBscLower b.sender && isSignature b.signature) then none
  else
    let verdict := recoverSigner cfg answers (returnMessage cfg b.txhash b.pcoinAddress) b.signature
    if verdict ≠ .unknown ∧ verdict ≠ .ok b.sender then none
    else match node, cfg.receipt b.txhash with
      | .answers, some rc =>
        if rc.status ≠ 1 then none
        else if transfers cfg rc b.sender = [] then none
        else some (transfers cfg rc b.sender, verdict = .ok b.sender)
      | _, _ => none

/-- The loop over the transfers of a call. -/
def recordTransfers (b : Body) (got : List Log × Bool) (claims : List Record) : Option (List Record) :=
  (got.1.foldlM (recordTransfer b got.2) claims).toOption

/-- `POST /return`: the claims that are saved, if any are. -/
def post (b : Body) (answers : Bool) (node : Node) (claims : List Record) : Option (List Record) :=
  (received cfg b answers node).bind fun got => recordTransfers b got claims

/-- The signature of a record is that of the sender of its transfer, for its PCoin address. -/
def Record.signed (r : Record) : Bool :=
  match cfg.recover (returnMessage cfg r.txhash r.pcoinAddress) r.signature, cfg.receipt r.txhash with
  | some signer, some rc => rc.logs.any fun l => l.logIndex = r.logIndex && senderOf l = signer
  | _, _ => false

/-- The claims, and the keys of those that have been signed. -/
structure State where
  claims : List Record := []
  signed : List String := []
deriving DecidableEq

inductive Event
  | post (b : Body) (answers : Bool) (node : Node)

def step (s : State) : Event → Option State
  | .post b answers node => some <|
    match post cfg b answers node s.claims with
    | none => s
    | some claims =>
      { claims := claims
        signed := s.signed ++ ((claims.filter fun r => r.signed cfg).map Record.key) }

/-- A claim that was signed is signed. -/
def StaysSigned (s : State) : Prop :=
  ∀ key ∈ s.signed, ∃ r ∈ s.claims, r.key = key ∧ r.signed cfg = true

instance (s : State) : Decidable (StaysSigned cfg s) :=
  inferInstanceAs (Decidable (∀ key ∈ s.signed, ∃ r ∈ s.claims, r.key = key ∧ r.signed cfg = true))

/-- The call does not change the destination of a signed claim, with a signature of another. -/
def Kept (b : Body) (claims : List Record) : Prop :=
  cfg.recover (returnMessage cfg b.txhash b.pcoinAddress) b.signature = some b.sender ∨
    ∀ rc ∈ cfg.receipt b.txhash, ∀ l ∈ transfers cfg rc b.sender, ∀ r ∈ claims,
      r.key = logKey (b.txhash, l.logIndex) → r.signed cfg = true → r.pcoinAddress = b.pcoinAddress

/-- A call whose signer the desk cannot recover leaves the signed claims alone. -/
def Heeded (s : State) : Event → Prop
  | .post b false .answers => Kept cfg b s.claims
  | _ => True

/-- What holds of the claims, where some keys have been signed. -/
structure Inv (signed : List String) (claims : List Record) : Prop where
  keys : (claims.map Record.key).Nodup
  named : ∀ r ∈ claims, r.key = logKey (r.txhash, r.logIndex) ∧ isTxHash r.txhash = true
  stays : ∀ key ∈ signed, ∃ r ∈ claims, r.key = key ∧ r.signed cfg = true

variable {cfg} {signed : List String} {claims claims' : List Record} {b : Body} {l : Log} {rc : Receipt}
  {verified answers : Bool} {node : Node} {s t : State}

theorem toString_inj {m n : Nat} (h : toString m = toString n) : m = n := by
  have hdigits : Nat.toDigits 10 m = Nat.toDigits 10 n := by
    have htext := congrArg String.toList h
    simpa [toString, Nat.repr] using htext
  rw [← Nat.ofDigitChars_ten_toDigits (n := m), hdigits, Nat.ofDigitChars_ten_toDigits]

theorem length_txhash {txhash : String} (h : isTxHash txhash = true) : txhash.toList.length = 66 := by
  unfold isTxHash at h
  split at h
  · rename_i hex heq
    simp only [Bool.and_eq_true, decide_eq_true_eq] at h
    rw [heq, List.length_cons, List.length_cons, h.1]
  · cases h

/-- A key names one log. -/
theorem logKey_inj {log log' : String × Nat} (h : isTxHash log.1 = true) (h' : isTxHash log'.1 = true)
    (hkey : logKey log = logKey log') : log = log' := by
  have htext := congrArg String.toList hkey
  simp only [logKey, String.toList_append, List.append_assoc] at htext
  obtain ⟨hhash, hrest⟩ := List.append_inj htext ((length_txhash h).trans (length_txhash h').symm)
  have hindex := (List.append_inj hrest rfl).2
  exact Prod.ext (String.toList_inj.mp hhash) (toString_inj (String.toList_inj.mp hindex))

theorem mem_transfers (h : l ∈ transfers cfg rc b.sender) : l ∈ rc.logs ∧ senderOf l = b.sender := by
  obtain ⟨hmem, hwhy⟩ := List.mem_filter.mp h
  simp only [Bool.and_eq_true, decide_eq_true_eq] at hwhy
  exact ⟨hmem, hwhy.2⟩

/-- A record of the transfer, with the destination and the signature of its sender, is signed. -/
theorem signed_of_genuine {r : Record} (hrc : cfg.receipt b.txhash = some rc)
    (hl : l ∈ transfers cfg rc b.sender) (htxhash : r.txhash = b.txhash) (hindex : r.logIndex = l.logIndex)
    (hdest : r.pcoinAddress = b.pcoinAddress) (hsignature : r.signature = b.signature)
    (hgenuine : cfg.recover (returnMessage cfg b.txhash b.pcoinAddress) b.signature = some b.sender) :
    r.signed cfg = true := by
  obtain ⟨hmem, hsender⟩ := mem_transfers hl
  unfold Record.signed
  rw [htxhash, hdest, hsignature, hgenuine, hrc]
  refine List.any_eq_true.mpr ⟨l, hmem, ?_⟩
  simp [hindex, hsender]

/-- What a pass of the loop over the transfers makes of the claims. -/
theorem recordTransfer_cases (h : recordTransfer b verified claims l = .ok claims') :
    claims' = claims ∨
      (∃ prev ∈ claims, prev.key = logKey (b.txhash, l.logIndex) ∧ prev.pcoinAddress ≠ b.pcoinAddress ∧
        claims' = table.update Record.key prev.key (Record.restated b verified) claims) ∨
      (table.find Record.key (logKey (b.txhash, l.logIndex)) claims = none ∧
        claims' = claims ++ [.fresh b verified l]) := by
  simp only [recordTransfer] at h
  split at h
  · rename_i prev hprev
    obtain ⟨hmem, hkey⟩ := table.find_spec hprev
    split at h
    · rename_i hother
      split at h
      · cases h
      · exact .inr (.inl ⟨prev, hmem, hkey, hother, hkey ▸ (Except.ok.inj h).symm⟩)
    · exact .inl (Except.ok.inj h).symm
  · rename_i hnone
    exact .inr (.inr ⟨hnone, (Except.ok.inj h).symm⟩)

namespace Inv

/-- A destination is changed by the sender, or where nothing is signed. -/
theorem restated (h : Inv cfg signed claims) (hkept : Kept cfg b claims)
    (htxhash : isTxHash b.txhash = true) (hrc : cfg.receipt b.txhash = some rc)
    (hl : l ∈ transfers cfg rc b.sender) {prev : Record} (hprev : prev ∈ claims)
    (hkey : prev.key = logKey (b.txhash, l.logIndex)) (hother : prev.pcoinAddress ≠ b.pcoinAddress) :
    Inv cfg signed (table.update Record.key prev.key (Record.restated b verified) claims) where
  keys := by
    rw [table.keys_update fun _ _ => by rfl]
    exact h.keys
  named r hr := by
    obtain ⟨r₀, hr₀, rfl⟩ := List.mem_map.mp hr
    split
    · exact h.named r₀ hr₀
    · exact h.named r₀ hr₀
  stays key hsigned := by
    obtain ⟨r, hr, hkeyr, hsigned⟩ := h.stays key hsigned
    by_cases hsame : r.key = prev.key
    · obtain ⟨hnamed, hhash⟩ := h.named r hr
      have hlog := logKey_inj hhash htxhash (hnamed.symm.trans (hsame.trans hkey))
      obtain hgenuine | hleft := hkept
      · refine ⟨.restated b verified r, hsame ▸ table.mem_update_self hr, hkeyr, ?_⟩
        exact signed_of_genuine hrc hl (congrArg Prod.fst hlog) (congrArg Prod.snd hlog) rfl rfl hgenuine
      · -- the record that is found is the signed one
        obtain rfl : prev = r := List.inj_on_of_nodup_map h.keys hprev hr hsame.symm
        exact absurd (hleft rc hrc l hl prev hprev hkey hsigned) hother
    · exact ⟨r, table.mem_update_of_ne hr hsame, hkeyr, hsigned⟩

theorem fresh (h : Inv cfg signed claims) (htxhash : isTxHash b.txhash = true)
    (hnone : table.find Record.key (logKey (b.txhash, l.logIndex)) claims = none) :
    Inv cfg signed (claims ++ [Record.fresh b verified l]) where
  keys := table.nodup_append h.keys fun hmem => by
    obtain ⟨r, hr, hkey⟩ := List.mem_map.mp hmem
    exact table.find_eq_none hnone r hr hkey
  named r hr := by
    obtain hr | hr := List.mem_append.mp hr
    · exact h.named r hr
    · rw [List.mem_singleton.mp hr]
      exact ⟨rfl, htxhash⟩
  stays key hkey := by
    obtain ⟨r, hr, hrest⟩ := h.stays key hkey
    exact ⟨r, List.mem_append_left _ hr, hrest⟩

end Inv

/-- A pass leaves the signed claims alone, if the call does. -/
theorem Kept.recordTransfer (hkept : Kept cfg b claims)
    (h : returns.recordTransfer b verified claims l = .ok claims') : Kept cfg b claims' := by
  refine hkept.imp_right fun hleft rc hrc l' hl' r hr hkey hsigned => ?_
  obtain rfl | ⟨prev, -, -, -, rfl⟩ | ⟨-, rfl⟩ := recordTransfer_cases h
  · exact hleft rc hrc l' hl' r hr hkey hsigned
  · obtain ⟨r₀, hr₀, rfl⟩ := List.mem_map.mp hr
    by_cases hsame : r₀.key = prev.key
    · rw [if_pos hsame]
      rfl
    · rw [if_neg hsame] at hkey hsigned ⊢
      exact hleft rc hrc l' hl' r₀ hr₀ hkey hsigned
  · obtain hr | hr := List.mem_append.mp hr
    · exact hleft rc hrc l' hl' r hr hkey hsigned
    · rw [List.mem_singleton.mp hr]
      rfl

/-- A signature that the desk has recovered is the sender's. -/
theorem genuine_of_recovered
    (h : recoverSigner cfg true (returnMessage cfg b.txhash b.pcoinAddress) b.signature = .ok b.sender) :
    cfg.recover (returnMessage cfg b.txhash b.pcoinAddress) b.signature = some b.sender := by
  simp only [recoverSigner, Bool.not_true, Bool.false_eq_true, if_false] at h
  split at h
  · rename_i hsigner
    rw [hsigner, Verdict.ok.inj h]
  · cases h

theorem eq_ok_of_toOption {ε α : Type} {x : Except ε α} {a : α} (h : x.toOption = some a) : x = .ok a := by
  cases x with
  | error e => cases h
  | ok x => exact congrArg Except.ok (Option.some.inj h)

/-- A call that is not refused is one whose signer is the sender, or could not be recovered. -/
theorem received_spec {got : List Log × Bool} (h : received cfg b answers node = some got) :
    node = .answers ∧ isTxHash b.txhash = true ∧
      (answers = true → cfg.recover (returnMessage cfg b.txhash b.pcoinAddress) b.signature = some b.sender) ∧
      ∃ rc, cfg.receipt b.txhash = some rc ∧ got.1 = transfers cfg rc b.sender := by
  unfold received at h
  split at h
  · cases h
  rename_i hbody
  simp only [Bool.not_eq_true', Bool.not_eq_false, Bool.and_eq_true] at hbody
  simp only at h
  split at h
  · cases h
  rename_i hverdict
  split at h
  · rename_i rc hrc
    split at h
    · cases h
    split at h
    · cases h
    obtain rfl := Option.some.inj h
    refine ⟨rfl, hbody.1.1.1, fun hanswers => ?_, rc, hrc, rfl⟩
    subst hanswers
    refine genuine_of_recovered ?_
    by_contra hne
    refine hverdict ⟨?_, hne⟩
    unfold recoverSigner
    split
    · contradiction
    · split <;> exact Verdict.noConfusion
  · cases h

/-- A call that is heeded keeps the signed claims signed. -/
theorem Inv.post (h : Inv cfg signed claims) (hkept : answers = false → node = .answers → Kept cfg b claims)
    (hpost : returns.post cfg b answers node claims = some claims') : Inv cfg signed claims' := by
  obtain ⟨got, hgot, hloop⟩ := Option.bind_eq_some_iff.mp hpost
  obtain ⟨hnode, htxhash, hgenuine, rc, hrc, hlogs⟩ := received_spec hgot
  have hkept : Kept cfg b claims := by
    cases answers with
    | true => exact .inl (hgenuine rfl)
    | false => exact hkept rfl hnode
  refine (run.foldlM_invariant_of_mem (p := fun claims => Inv cfg signed claims ∧ Kept cfg b claims) _
    (fun claims l hl claims' hp hpass => ?_) ⟨h, hkept⟩ (eq_ok_of_toOption hloop)).1
  rw [hlogs] at hl
  refine ⟨?_, hp.2.recordTransfer hpass⟩
  obtain rfl | ⟨prev, hprev, hkey, hother, rfl⟩ | ⟨hnone, rfl⟩ := recordTransfer_cases hpass
  · exact hp.1
  · exact hp.1.restated hp.2 htxhash hrc hl hprev hkey hother
  · exact hp.1.fresh htxhash hnone

/-- The keys that are signed now are as well. -/
theorem Inv.sign (h : Inv cfg signed claims) :
    Inv cfg (signed ++ ((claims.filter fun r => r.signed cfg).map Record.key)) claims :=
  { h with
    stays := fun key hkey => by
      obtain hkey | hkey := List.mem_append.mp hkey
      · exact h.stays key hkey
      · obtain ⟨r, hr, rfl⟩ := List.mem_map.mp hkey
        obtain ⟨hr, hsigned⟩ := List.mem_filter.mp hr
        exact ⟨r, hr, rfl, hsigned⟩ }

theorem Inv.step {e : Event} (h : Inv cfg s.signed s.claims) (hok : Heeded cfg s e)
    (hstep : returns.step cfg s e = some t) : Inv cfg t.signed t.claims := by
  cases e with
  | post b answers node =>
    obtain rfl := Option.some.inj hstep
    split
    · exact h
    · rename_i claims hpost
      refine (h.post (fun hanswers hnode => ?_) hpost).sign
      rw [hanswers, hnode] at hok
      exact hok

/-- A claim that was signed once stays signed, if no call of an unknown signer changes it. -/
theorem stays_signed (hrun : run.Steps (step cfg) (Heeded cfg) {} s) : StaysSigned cfg s := by
  have hinv : Inv cfg s.signed s.claims := by
    induction hrun with
    | refl => exact ⟨List.nodup_nil, fun r hr => (by cases hr), fun key hkey => (by cases hkey)⟩
    | tail _ hok hstep ih => exact ih.step hok hstep
  exact hinv.stays

/-- What the watcher lists is owed and listed under one key, and what the desk has recorded signed stays
signed. -/
theorem returns_exact (cfg : redeem.Config) (s : redeem.State) (desk : Config) (t : State)
    (hs : run.Steps (redeem.step cfg) (fun _ e => redeem.FileKept cfg e) {} s)
    (ht : run.Steps (step desk) (Heeded desk) {} t) :
    redeem.ReturnsExact cfg s ∧ StaysSigned desk t :=
  ⟨redeem.returned_once hs, stays_signed ht⟩

namespace sample

def txhash : String := "0x1111111111111111111111111111111111111111111111111111111111111111"

def alice : String := "0xaaaaaaaaaaaaaaaaaaaaaaaaaaaaaaaaaaaaaaaa"

def inventory : String := "0xbbbbbbbbbbbbbbbbbbbbbbbbbbbbbbbbbbbbbbbb"

def token : String := "0xcccccccccccccccccccccccccccccccccccccccc"

/-- The sender and the inventory, as topics. -/
def topics : List String :=
  ["0x000000000000000000000000aaaaaaaaaaaaaaaaaaaaaaaaaaaaaaaaaaaaaaaa",
    "0x000000000000000000000000bbbbbbbbbbbbbbbbbbbbbbbbbbbbbbbbbbbbbbbb"]

/-- One wPCN is returned. -/
def receipt : Receipt :=
  { transactionHash := txhash, status := 1, blockNumber := 7,
    logs := [⟨3, token, TRANSFER_TOPIC :: topics, 100000000⟩] }

def dest : String := "pc1qqqqqqqqqqqqqqqqqqqqqqqqqqqqqqqqqmtd2rq"

def other : String := "pc1zzzzzzzzzzzzzzzzzzzzzzzz"

/-- A signature of one digit. -/
def signatureOf (digit : Char) : String := String.ofList ('0' :: 'x' :: List.replicate 130 digit)

/-- The sender has signed once, for her own address. -/
def recover (_ signature : String) : Option String :=
  if signature = signatureOf 'a' then some alice else none

def desk : Config :=
  { TOKEN := token, INVENTORY := inventory, recover := recover,
    receipt := fun hash => if hash = txhash then some receipt else none }

theorem chunk_pos : (0 : Int) < 4000 := by decide

def watcher : redeem.Config :=
  { CHUNK := 4000, pos := chunk_pos, TOKEN := token, INVENTORY := inventory, FROM_BLOCK := 0,
    recover := recover }

/-- The claim of the sender. -/
def body : Body := ⟨txhash, dest, alice, signatureOf 'a'⟩

/-- A claim of her transfer for another address. -/
def forged : Body := ⟨txhash, other, alice, signatureOf 'b'⟩

/-- The claim as the watcher reads it. -/
def claim : redeem.Claim :=
  { txhash := txhash, pcoinAddress := dest, sender := alice, wpcn := some (.num 1), logIndex := some 3,
    signature := signatureOf 'a', time := 0 }

/-- A run that reads a returns file. -/
def reading (file : redeem.ReturnsFile) : List redeem.Event :=
  [.finalizes 9 [], .run
    { head := some 9, returns := file,
      receipt := fun hash => if hash = txhash then .found receipt else .missing }]

/-- The task of the claim under a key. -/
def task (key : String) : redeem.Task :=
  { key := key, urgency := .action, send := some ⟨.num 1, dest, txhash, 3⟩ }

theorem isSignature_signatureOf {digit : Char} (h : digit ∈ hexDigits ++ "ABCDEF".toList) :
    isSignature (signatureOf digit) = true := by
  unfold isSignature signatureOf
  rw [String.toList_ofList]
  simp only [List.length_replicate, List.all_replicate, h]
  rfl

/-- What is read of a claim of the transfer, where the desk is not told that somebody else has signed it. -/
theorem received_desk {pcoin : String} {digit : Char} {answers : Bool} {v : Verdict}
    (hvalid : (isTxHash txhash = true ∧ isBscLower alice = true) ∧
      transfers desk receipt alice = receipt.logs)
    (hpcn : isPcn pcoin = true) (hdigit : digit ∈ hexDigits ++ "ABCDEF".toList)
    (hverdict : recoverSigner desk answers (returnMessage desk txhash pcoin) (signatureOf digit) = v)
    (hv : v = .unknown ∨ v = .ok alice) :
    received desk ⟨txhash, pcoin, alice, signatureOf digit⟩ answers .answers =
      some (receipt.logs, decide (v = .ok alice)) := by
  obtain ⟨⟨hhash, halice⟩, hlogs⟩ := hvalid
  have hreceipt : desk.receipt txhash = some receipt := by
    dsimp only [desk]
    rw [if_pos rfl]
  have hsome : receipt.logs ≠ [] := List.cons_ne_nil _ _
  have hstatus : receipt.status = 1 := rfl
  unfold received
  dsimp only
  rw [hhash, hpcn, halice, isSignature_signatureOf hdigit, hverdict, hreceipt]
  dsimp only
  rw [hlogs]
  rcases hv with rfl | rfl <;> simp [hsome, hstatus]

/-- The desk after the claim of the sender, and after the one for the other address. -/
def claimed : State :=
  { claims := [.fresh body true ⟨3, token, TRANSFER_TOPIC :: topics, 100000000⟩]
    signed := [logKey (txhash, 3)] }

def overwritten : State :=
  { claimed with claims := claimed.claims.map (Record.restated forged false) }

/-- What the desk makes of the two claims. The second leaves no record of the signed one. -/
theorem step_desk : step desk {} (.post body true .answers) = some claimed ∧
    step desk claimed (.post forged false .answers) = some overwritten ∧
    ¬StaysSigned desk overwritten := by
  obtain ⟨hvalid, ⟨hdest, hsigned⟩, hother⟩ : ((isTxHash txhash = true ∧ isBscLower alice = true) ∧
      transfers desk receipt alice = receipt.logs) ∧
      (isPcn dest = true ∧
        recoverSigner desk true (returnMessage desk txhash dest) (signatureOf 'a') = .ok alice) ∧
      isPcn other = true := by
    decide +kernel
  have hbody : received desk body true .answers = some (receipt.logs, true) :=
    received_desk (v := .ok alice) hvalid hdest (by decide) hsigned (.inr rfl)
  have hforged : received desk forged false .answers = some (receipt.logs, false) :=
    received_desk (v := .unknown) hvalid hother (by decide) rfl (.inl rfl)
  rw [step, post, hbody, Option.bind_some, step, post, hforged, Option.bind_some]
  decide +kernel

end sample

open sample in
theorem returns_exact_once :
    ∃ s t, run.exec (redeem.step watcher) {}
        (reading (.claims [(logKey (txhash, 3), .claim claim)] (by decide))) = some s ∧
      run.exec (step desk) {} [.post body true .answers] = some t ∧
      s.reports.map redeem.Report.returned = [[task (logKey (txhash, 3))]] ∧
      t.signed = [logKey (txhash, 3)] ∧ redeem.ReturnsExact watcher s ∧ StaysSigned desk t := by
  have hwatch : ((run.exec (redeem.step watcher) {}
      (reading (.claims [(logKey (txhash, 3), .claim claim)] (by decide)))).map fun s =>
        s.reports.map redeem.Report.returned) = some [[task (logKey (txhash, 3))]] := by
    decide +kernel
  obtain ⟨s, hs, hreturned⟩ := Option.map_eq_some_iff.mp hwatch
  have hdesk : run.exec (step desk) {} [.post body true .answers] = some claimed := by
    rw [run.exec, (step_desk).1]
    rfl
  refine ⟨s, claimed, hs, hdesk, hreturned, rfl, returns_exact watcher s desk claimed
    (run.steps_of_exec _ hs ?_) (run.steps_of_exec _ hdesk ⟨trivial, fun _ _ => trivial⟩)⟩
  decide +kernel

open sample in
/-- A transfer is listed twice, under two keys of the returns file. -/
theorem listed_under_two_keys :
    ¬∀ cfg s desk t, run.Steps (redeem.step cfg) (fun _ _ => True) {} s →
      run.Steps (step desk) (fun _ _ => True) {} t → redeem.ReturnsExact cfg s ∧ StaysSigned desk t := by
  have hrun : ((run.exec (redeem.step watcher) {}
      (reading (.claims [("a", .claim claim), ("b", .claim claim)] (by decide)))).map fun s =>
        s.reports.map redeem.Report.returned) = some [[task "a", task "b"]] := by
    decide +kernel
  obtain ⟨s, hexec, hreturned⟩ := Option.map_eq_some_iff.mp hrun
  intro hall
  have honce := (hall watcher s desk {} (run.steps_of_exec _ hexec (run.meets_true _ _)) (.refl _)).1.once
  have hmem : [task "a", task "b"] ∈ s.reports.map redeem.Report.returned := by
    rw [hreturned]
    exact List.mem_singleton.mpr rfl
  obtain ⟨rep, hrep, heq⟩ := List.mem_map.mp hmem
  have hkeys := (honce rep hrep (task "a") (heq ▸ List.mem_cons_self) _ rfl rep hrep (task "b")
    (heq ▸ List.mem_cons_of_mem _ List.mem_cons_self) _ rfl rfl).1
  exact absurd hkeys (by decide)

open sample in
/-- A claim that was signed is given to another address while the signer cannot be recovered. -/
theorem forged_while_unknown :
    ¬∀ desk t, run.Steps (step desk) (fun _ _ => True) {} t → StaysSigned desk t := by
  have hrun : run.exec (step desk) {} [.post body true .answers, .post forged false .answers] =
      some overwritten := by
    rw [run.exec, (step_desk).1, Option.bind_some, run.exec, (step_desk).2.1]
    rfl
  intro hall
  exact (step_desk).2.2 (hall desk overwritten (run.steps_of_exec _ hrun (run.meets_true _ _)))

end pcoin.wrapdesk.returns
