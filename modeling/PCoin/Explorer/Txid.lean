import PCoin.Codec.Reader
import PCoin.Hex.Basic
import PCoin.Pool.Block

open codec
open pcoin.store pcoin.block

namespace pcoin.rawtx

def MAX_TX_BYTES : Nat := 400000

def MIN_TX_BYTES : Nat := 60

def SEGWIT_FLAG : Nat := 0x01

inductive TxParseError
  | tooShort (bytes : Nat)
  | tooLong (bytes : Nat)
  | truncated (wanted offset available : Nat)
  | notTheFlag (flag : Nat)
  | noInputs
  | noOutputs
  | trailing (bytes : Nat)
deriving DecidableEq

/-- `_dsha256`. -/
def dsha256 (sha256 : Bytes → Hash) (data : Bytes) : Hash := sha256 (sha256 data).val

/-- `bytes.hex`. -/
def hexOf (b : Bytes) : String :=
  String.ofList (b.flatMap fun x => [Nat.digitChar (x.toNat / 16), Nat.digitChar (x.toNat % 16)])

/-- `_rhex`. -/
def rhex (digest : Bytes) : String := hexOf digest.reverse

/-- `int.from_bytes(.., "little")`. -/
def fromBytes : Bytes → Nat
  | [] => 0
  | x :: b => x.toNat + 256 * fromBytes b

/-- An entry of `vin`, with a witness once that has been read. -/
structure TxIn where
  prev_txid : String
  prev_n : Nat
  script_sig_hex : String
  sequence : Nat
  coinbase : Bool
  witness : Option (List String) := none
deriving DecidableEq

structure TxOut where
  value_sat : Nat
  script_pub_key_hex : String
deriving DecidableEq

/-- The result of `parse_tx`. -/
structure Tx where
  txid : String
  wtxid : String
  version : Nat
  locktime : Nat
  vin : List TxIn
  vout : List TxOut
  has_witness : Bool
  size : Nat
  strippedsize : Nat
  weight : Nat
  vsize : Nat
  is_coinbase : Bool
deriving DecidableEq

/-! ### The reader -/

abbrev Read (α : Type) := Reader TxParseError α

def take (n : Nat) : Read Bytes := Reader.take (fun offset available => .truncated n offset available) n

def uint (n : Nat) : Read Nat := do
  let b ← take n
  return fromBytes b

def varint : Read Nat := do
  let first ← uint 1
  if first < 0xFD then return first
  else if first = 0xFD then uint 2
  else if first = 0xFE then uint 4
  else uint 8

def varbytes : Read Bytes := do
  let n ← varint
  take n

def readInput : Read TxIn := do
  let prev_hash ← take 32
  let prev_n ← uint 4
  let script ← varbytes
  let sequence ← uint 4
  return {
    prev_txid := rhex prev_hash
    prev_n := prev_n
    script_sig_hex := hexOf script
    sequence := sequence
    coinbase := prev_hash = List.replicate 32 0 ∧ prev_n = 0xFFFFFFFF }

def readOutput : Read TxOut := do
  let value ← uint 8
  let script ← varbytes
  return { value_sat := value, script_pub_key_hex := hexOf script }

/-- The witness of an entry of `vin`. -/
def readWitness (entry : TxIn) : Read TxIn := do
  let n ← varint
  let items ← varbytes.times n
  return { entry with witness := some (items.map hexOf) }

/-- Whether there is a witness, and the number of inputs. -/
def readCount : Read (Bool × Nat) := do
  let n_in ← varint
  if n_in ≠ 0 then return (false, n_in)
  else do
    let flag ← uint 1
    if flag ≠ SEGWIT_FLAG then Reader.fail (.notTheFlag flag)
    else do
      let n_in ← varint
      if n_in = 0 then Reader.fail .noInputs else return (true, n_in)

def readOutputs : Read (List TxOut) := do
  let n_out ← varint
  if n_out = 0 then Reader.fail .noOutputs else readOutput.times n_out

def readWitnesses (has_witness : Bool) (vin : List TxIn) : Read (List TxIn) :=
  if has_witness then Reader.each readWitness vin else pure vin

/-- The bytes that the txid is of. -/
def stripped (raw : Bytes) (has_witness : Bool) (witness_start witness_end : Nat) : Bytes :=
  if has_witness then raw.take 4 ++ (raw.take witness_start).drop 6 ++ raw.drop witness_end else raw

/-- What `parse_tx` returns. -/
def returned (dsha256 : Bytes → Hash) (raw stripped : Bytes) (version locktime : Nat) (has_witness : Bool)
    (vin : List TxIn) (vout : List TxOut) : Tx :=
  let txid := rhex (dsha256 stripped).val
  let weight := stripped.length * 3 + raw.length
  { txid := txid
    wtxid := if has_witness then rhex (dsha256 raw).val else txid
    version := version
    locktime := locktime
    vin := vin
    vout := vout
    has_witness := has_witness
    size := raw.length
    strippedsize := stripped.length
    weight := weight
    vsize := (weight + 3) / 4
    is_coinbase := vin.length = 1 ∧ vin.all (·.coinbase) }

/-- `parse_tx`, after the checks of the length. -/
def readTx (dsha256 : Bytes → Hash) (raw : Bytes) : Read Tx := do
  let version ← uint 4
  let (has_witness, n_in) ← readCount
  let vin ← readInput.times n_in
  let vout ← readOutputs
  let witness_start ← Reader.position
  let vin ← readWitnesses has_witness vin
  let witness_end ← Reader.position
  let locktime ← uint 4
  let remaining ← Reader.remaining
  if remaining ≠ 0 then Reader.fail (.trailing remaining)
  else
    return returned dsha256 raw (stripped raw has_witness witness_start witness_end) version locktime
      has_witness vin vout

def parseTx (dsha256 : Bytes → Hash) (raw : Bytes) : Except TxParseError Tx :=
  if raw.length < MIN_TX_BYTES then .error (.tooShort raw.length)
  else if MAX_TX_BYTES < raw.length then .error (.tooLong raw.length)
  else (readTx dsha256 raw raw 0).map Prod.fst

/-! ### Transactions -/

/-- `CTxIn`, with its witness. -/
structure CTxIn where
  hash : Hash
  n : UInt32
  scriptSig : Bytes
  nSequence : UInt32
  witness : List Bytes
deriving DecidableEq

/-- `CTxOut`. -/
structure CTxOut where
  nValue : UInt64
  scriptPubKey : Bytes
deriving DecidableEq

/-- `CTransaction`. -/
structure CTransaction where
  version : UInt32
  vin : List CTxIn
  vout : List CTxOut
  nLockTime : UInt32
deriving DecidableEq

def CTxIn.serialize (i : CTxIn) : Bytes :=
  i.hash.val ++ littleEndian 4 i.n.toNat ++ (block.varint i.scriptSig.length ++ i.scriptSig) ++
    littleEndian 4 i.nSequence.toNat

def CTxOut.serialize (o : CTxOut) : Bytes :=
  littleEndian 8 o.nValue.toNat ++ (block.varint o.scriptPubKey.length ++ o.scriptPubKey)

def serializeItem (item : Bytes) : Bytes := block.varint item.length ++ item

def CTxIn.serializeWitness (i : CTxIn) : Bytes :=
  block.varint i.witness.length ++ (i.witness.map serializeItem).flatten

namespace CTransaction

def hasWitness (tx : CTransaction) : Bool := tx.vin.any fun i => !i.witness.isEmpty

def body (tx : CTransaction) : Bytes :=
  block.varint tx.vin.length ++ (tx.vin.map CTxIn.serialize).flatten ++
    (block.varint tx.vout.length ++ (tx.vout.map CTxOut.serialize).flatten)

/-- `TX_NO_WITNESS`. -/
def serializeNoWitness (tx : CTransaction) : Bytes :=
  littleEndian 4 tx.version.toNat ++ tx.body ++ littleEndian 4 tx.nLockTime.toNat

/-- `TX_WITH_WITNESS`. -/
def serialize (tx : CTransaction) : Bytes :=
  if tx.hasWitness then
    littleEndian 4 tx.version.toNat ++ [0x00, 0x01] ++ tx.body ++
      (tx.vin.map CTxIn.serializeWitness).flatten ++ littleEndian 4 tx.nLockTime.toNat
  else tx.serializeNoWitness

/-- `GetTransactionWeight`. -/
def weight (tx : CTransaction) : Nat := tx.serializeNoWitness.length * 3 + tx.serialize.length

end CTransaction

/-- The string is the serialisation of a transaction with inputs and outputs. -/
def Canonical (x : Bytes) : Prop :=
  ∃ tx : CTransaction, tx.vin ≠ [] ∧ tx.vout ≠ [] ∧ tx.serialize = x

/-! ### Writing a parsed transaction again -/

/-- `bytes.fromhex`, of lower-case digits. -/
def unhex (s : String) : Bytes := hex.decode s.toList

def TxIn.reserialize (i : TxIn) : Bytes :=
  (unhex i.prev_txid).reverse ++ littleEndian 4 i.prev_n ++
    (block.varint (unhex i.script_sig_hex).length ++ unhex i.script_sig_hex) ++ littleEndian 4 i.sequence

def TxIn.items (i : TxIn) : List Bytes := (i.witness.getD []).map unhex

def TxIn.reserializeWitness (i : TxIn) : Bytes :=
  block.varint i.items.length ++ (i.items.map serializeItem).flatten

def TxOut.reserialize (o : TxOut) : Bytes :=
  littleEndian 8 o.value_sat ++
    (block.varint (unhex o.script_pub_key_hex).length ++ unhex o.script_pub_key_hex)

namespace Tx

def rebody (t : Tx) : Bytes :=
  block.varint t.vin.length ++ (t.vin.map TxIn.reserialize).flatten ++
    (block.varint t.vout.length ++ (t.vout.map TxOut.reserialize).flatten)

/-- The version, the inputs, the outputs and the lock time, without the witnesses. -/
def reserializeNoWitness (t : Tx) : Bytes :=
  littleEndian 4 t.version ++ t.rebody ++ littleEndian 4 t.locktime

/-- The same with the witnesses, if there are any. -/
def reserialize (t : Tx) : Bytes :=
  if t.vin.any fun i => !i.items.isEmpty then
    littleEndian 4 t.version ++ [0x00, 0x01] ++ t.rebody ++ (t.vin.map TxIn.reserializeWitness).flatten ++
      littleEndian 4 t.locktime
  else t.reserializeNoWitness

end Tx

end pcoin.rawtx
