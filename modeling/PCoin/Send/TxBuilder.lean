import PCoin.Address.Parse
import PCoin.Send.Transaction

open swift
open pcoin.store pcoin.block pcoin.address

namespace pcoin.send

structure SpendableUtxo where
  outpoint : OutPoint
  valueSat : Int
  scriptPubKey : Bytes
  chain : UInt32
  index : UInt32
  confirmations : Int
  isCoinbase : Bool
  spendableAccordingToIndex : Bool
  deriving DecidableEq

def SpendableUtxo.pubKeyHash (u : SpendableUtxo) : Option Bytes :=
  match u.scriptPubKey with
  | 0x00 :: 0x14 :: hash => if u.scriptPubKey.length = 22 then some hash else none
  | _ => none

inductive FeeRate where
  | normal
  | fast
  | veryFast

def FeeRate.satPerVbyte : FeeRate → Nat
  | .normal => 1
  | .fast => 5
  | .veryFast => 20

structure PlannedSend where
  signed : Transaction
  destination : Address
  amountSat : Int
  feeSat : Int
  changeSat : Option Int
  changeAddress : Option (List Char)
  inputs : List SpendableUtxo
  sendsEverything : Bool
  deriving DecidableEq

inductive SendPlanError where
  | noSpendableCoins
  | insufficientFunds (neededSat availableSat : Int)
  | amountIsDust (amountSat : Int)
  | feeExceedsBalance (feeSat availableSat : Int)
  | unsignableInput (outpoint : OutPoint)
  | signingFailed
  | selfCheckFailed
  deriving DecidableEq

/-- How a call may end without a plan: with an error of the planner, with one of the signer's, or
    with a failed precondition, which stops the program. -/
inductive Thrown (ε : Type) where
  | plan (e : SendPlanError)
  | signer (e : ε)
  | trapped
  deriving DecidableEq

/-- `Bip32.ExtendedKey`. Its public key is the compressed one. -/
structure ExtendedKey where
  key : Bytes
  publicKey : { b : Bytes // b.length = 33 }

/-- The hash functions, and the curve. -/
structure Crypto where
  doubleSha256 : Bytes → Hash
  hash160 : Bytes → Bytes
  signDER : (messageHash : Hash) → (privateKey : Bytes) → Option Bytes
  verifyDER : (signature : Bytes) → (messageHash : Hash) → (publicKey : Bytes) → Bool

def dustSat : Int := 294

def isDust (sat : Int) : Bool := sat < dustSat

def maxWitnessBytesPerInput : Nat := 1 + 1 + 72 + 1 + 33

def minConfirmationsToSpend : Int := 1

def spendable (utxos : List SpendableUtxo) : List SpendableUtxo :=
  utxos.filter fun u =>
    u.spendableAccordingToIndex && minConfirmationsToSpend ≤ u.confirmations && u.pubKeyHash.isSome

def estimateVsize (inputs : Nat) (outputScripts : List Bytes) : Nat :=
  let realOutputs := outputScripts.filter fun s => !s.isEmpty
  let base := 4 + 4 + varIntSize inputs + inputs * (32 + 4 + 1 + 4) + varIntSize realOutputs.length +
    (realOutputs.map fun s => 8 + varIntSize s.length + s.length).sum
  let witness := 2 + inputs * maxWitnessBytesPerInput
  let weight := base * 4 + witness
  (weight + 3) / 4

def estimateFee (inputs : Nat) (outputScripts : List Bytes) (rate : Nat) : Int :=
  estimateVsize inputs outputScripts * rate

namespace Sighash

def p2wpkhScriptCode (pubKeyHash : Bytes) : Bytes :=
  [0x19, 0x76, 0xa9, 0x14] ++ pubKeyHash ++ [0x88, 0xac]

def p2wpkhSighash (crypto : Crypto) (tx : Transaction) (input : Input) (scriptCode : Bytes)
    (amountSat : Int) : Option Hash := do
  let prevouts ← tx.inputs.mapM fun i =>
    (Transaction.txidBytes i.outpoint.txid).map (· ++ littleEndian 4 i.outpoint.vout.toNat)
  let sequences := tx.inputs.flatMap fun i => littleEndian 4 i.sequence.toNat
  let outputsBytes := tx.outputs.flatMap Transaction.serializedOutput
  let txid ← Transaction.txidBytes input.outpoint.txid
  let pre := littleEndian 4 tx.version.toNat ++ (crypto.doubleSha256 prevouts.flatten).val ++
    (crypto.doubleSha256 sequences).val ++ txid ++ littleEndian 4 input.outpoint.vout.toNat ++
    scriptCode ++ littleEndian 8 (amountSat % 2 ^ 64).toNat ++ littleEndian 4 input.sequence.toNat ++
    (crypto.doubleSha256 outputsBytes).val ++ littleEndian 4 tx.lockTime.toNat ++ littleEndian 4 1
  return crypto.doubleSha256 pre

end Sighash

section

variable {ε : Type} (crypto : Crypto) (signer : UInt32 → UInt32 → Except ε ExtendedKey)

/-- The witness of one input. -/
def signInput (tx : Transaction) (input : Input) (u : SpendableUtxo) :
    Except (Thrown ε) (List Bytes) :=
  match u.pubKeyHash with
  | none => .error (.plan (.unsignableInput u.outpoint))
  | some pkh =>
    match signer u.chain u.index with
    | .error e => .error (.signer e)
    | .ok key =>
      let pub := key.publicKey.val
      if crypto.hash160 pub ≠ pkh then .error (.plan (.unsignableInput u.outpoint))
      else
        match Sighash.p2wpkhSighash crypto tx input (Sighash.p2wpkhScriptCode pkh) u.valueSat with
        | none => .error .trapped
        | some hash =>
          match crypto.signDER hash key.key with
          | none => .error (.plan .signingFailed)
          | some der =>
            if crypto.verifyDER der hash pub then .ok [der ++ [0x01], pub]
            else .error (.plan .selfCheckFailed)

/-- `sign`: the inputs and the coins they spend, one with one. No sighash covers a witness, so
    the transaction that is signed is the unsigned one at every input. -/
def signInputs (tx : Transaction) : List Input → List SpendableUtxo →
    Except (Thrown ε) (List Input)
  | input :: inputs, u :: utxos => do
    let witness ← signInput crypto signer tx input u
    let rest ← signInputs tx inputs utxos
    return { input with witness } :: rest
  | inputs, [] => return inputs
  -- An index past the inputs stops the program; `plan` has an input for every coin.
  | [], _ :: _ => .error .trapped

def sign (tx : Transaction) (utxos : List SpendableUtxo) : Except (Thrown ε) Transaction := do
  let inputs ← signInputs crypto signer tx tx.inputs utxos
  return { tx with inputs }

/-- The coins from the front, as many as it takes to cover the target and the fee, or all. -/
def accumulate (target : Int) (fee : Nat → Int) :
    List SpendableUtxo → List SpendableUtxo → Int → List SpendableUtxo × Int
  | [], selected, acc => (selected, acc)
  | c :: coins, selected, acc =>
    let selected := selected ++ [c]
    let acc := acc + c.valueSat
    if acc ≥ target + fee selected.length then (selected, acc)
    else accumulate target fee coins selected acc

/-- The inputs of a payment, or what it would take. -/
def choose (target : Int) (fee : Nat → Int) (coins : List SpendableUtxo) :
    Except Int (List SpendableUtxo) :=
  match coins.reverse.find? fun c => c.valueSat ≥ target + fee 1 with
  | some s => .ok [s]
  | none =>
    let (selected, acc) := accumulate target fee coins [] 0
    if acc ≥ target + fee selected.length then .ok selected
    else .error (target + fee selected.length)

/-- What is paid and what is change when the fee is to be `fee`. -/
def split (selectedTotal available : Int) (amountSat : Option Int) (changeScript : Option Bytes)
    (fee : Int) : Except SendPlanError (Int × Option Int) :=
  match amountSat with
  | none =>
    let payAmount := selectedTotal - fee
    if payAmount ≤ 0 then .error (.feeExceedsBalance fee selectedTotal)
    else if isDust payAmount then .error (.amountIsDust payAmount)
    else .ok (payAmount, none)
  | some payAmount =>
    let leftover := selectedTotal - payAmount - fee
    if leftover < 0 then .error (.insufficientFunds (payAmount + fee) available)
    else if leftover > 0 ∧ !isDust leftover ∧ changeScript.isSome then .ok (payAmount, some leftover)
    -- What is too little for an output stays with the fee.
    else .ok (payAmount, none)

/-- The second output. -/
def changeOutput (change : Option Int) (changeScript : Option Bytes) : List Output :=
  match change, changeScript with
  | some c, some cs => [⟨c, cs⟩]
  | _, _ => []

/-- One round of the loop: the plan with this fee, and its size. -/
def attempt (destination : Address) (amountSat : Option Int) (changeAddress : Option (List Char))
    (changeScript : Option Bytes) (selected : List SpendableUtxo) (available fee : Int) :
    Except (Thrown ε) (PlannedSend × Nat) := do
  let selectedTotal := (selected.map (·.valueSat)).sum
  let (payAmount, change) ← match split selectedTotal available amountSat changeScript fee with
    | .ok parts => Except.ok parts
    | .error e => .error (.plan e)
  let outputs := ⟨payAmount, destination.scriptPubKey⟩ :: changeOutput change changeScript
  let unsigned := Transaction.make (selected.map fun u => ⟨u.outpoint, defaultSequence, [], []⟩) outputs
  let signed ← sign crypto signer unsigned selected
  match signed.vsize with
  | none => .error .trapped
  | some vsize =>
    return ({
      signed, destination
      amountSat := payAmount
      feeSat := selectedTotal - (outputs.map (·.valueSat)).sum
      changeSat := change
      changeAddress := if change.isNone then none else changeAddress
      inputs := selected
      sendsEverything := amountSat.isNone }, vsize)

/-- The rounds of the loop: the first plan that pays the rate, or the last one. -/
def converge (destination : Address) (amountSat : Option Int) (feeRate : Nat)
    (changeAddress : Option (List Char)) (changeScript : Option Bytes) (selected : List SpendableUtxo)
    (available : Int) : Nat → Int → Option PlannedSend → Except (Thrown ε) (Option PlannedSend)
  | 0, _, best => .ok best
  | rounds + 1, fee, _ => do
    let (plan, vsize) ← attempt crypto signer destination amountSat changeAddress changeScript selected
      available fee
    if plan.feeSat ≥ (feeRate * vsize : Nat) then return some plan
    else
      converge destination amountSat feeRate changeAddress changeScript selected available rounds
        (feeRate * vsize : Nat) (some plan)

/-- `plan`. In 64-bit words a sum that is out of range stops the program. -/
def plan (U : Unicode) (allUtxos : List SpendableUtxo) (destination : Address) (amountSat : Option Int)
    (feeRate : Nat) (changeAddress : Option (List Char)) : Except (Thrown ε) PlannedSend := do
  let coins := (spendable allUtxos).mergeSort fun a b => b.valueSat ≤ a.valueSat
  if coins.isEmpty then .error (.plan .noSpendableCoins)
  else
    let available := (coins.map (·.valueSat)).sum
    if amountSat.any isDust then .error (.plan (.amountIsDust (amountSat.getD 0)))
    else
      let changeScript := changeAddress.bind fun ca =>
        match Address.parse U crypto.doubleSha256 .mainnet ca with
        | .ok addr => some addr.scriptPubKey
        | .error _ => none
      let fee := fun inputs =>
        estimateFee inputs [destination.scriptPubKey, changeScript.getD []] feeRate
      let selected ← match amountSat with
        | none => Except.ok coins
        | some target =>
          match choose target fee coins with
          | .ok selected => .ok selected
          | .error needed => .error (.plan (.insufficientFunds needed available))
      match ← converge crypto signer destination amountSat feeRate changeAddress changeScript selected
          available 4 (fee selected.length) none with
      | some result => return result
      | none => .error (.plan .signingFailed)

end

end pcoin.send
