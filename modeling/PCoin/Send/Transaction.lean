import PCoin.Pool.Block

open pcoin.store pcoin.block

namespace pcoin.send

/-- `Character.hexDigitValue`, which knows the fullwidth forms as well. -/
def hexDigitValue (c : Char) : Option Nat :=
  let n := c.toNat
  if 0x30 ≤ n ∧ n ≤ 0x39 then some (n - 0x30)
  else if 0x41 ≤ n ∧ n ≤ 0x46 then some (n - 0x41 + 10)
  else if 0x61 ≤ n ∧ n ≤ 0x66 then some (n - 0x61 + 10)
  else if 0xff10 ≤ n ∧ n ≤ 0xff19 then some (n - 0xff10)
  else if 0xff21 ≤ n ∧ n ≤ 0xff26 then some (n - 0xff21 + 10)
  else if 0xff41 ≤ n ∧ n ≤ 0xff46 then some (n - 0xff41 + 10)
  else none

/-- `[UInt8](hex:)`. -/
def ofHex : List Char → Option Bytes
  | [] => some []
  | [_] => none
  | a :: b :: rest => do
    let hi ← hexDigitValue a
    let lo ← hexDigitValue b
    let out ← ofHex rest
    return UInt8.ofNat (hi <<< 4 ||| lo) :: out

structure OutPoint where
  txid : List Char
  vout : UInt32
  deriving DecidableEq

structure Input where
  outpoint : OutPoint
  sequence : UInt32
  scriptSig : Bytes
  witness : List Bytes
  deriving DecidableEq

structure Output where
  valueSat : Int
  scriptPubKey : Bytes
  deriving DecidableEq

def defaultSequence : UInt32 := 0xFFFFFFFD

structure Transaction where
  version : UInt32
  inputs : List Input
  outputs : List Output
  lockTime : UInt32
  deriving DecidableEq

namespace Transaction

/-- `Transaction(inputs:outputs:)`, with the defaults of the rest. -/
def make (inputs : List Input) (outputs : List Output) : Transaction where
  version := 2
  inputs := inputs
  outputs := outputs
  lockTime := 0

def hasWitness (tx : Transaction) : Bool := tx.inputs.any fun i => !i.witness.isEmpty

/-- The 32 bytes of a transaction id as the wire has them; anything else stops the program. -/
def txidBytes (txid : List Char) : Option Bytes :=
  match ofHex txid with
  | none => none
  | some b => if b.length = 32 then some b.reverse else none

def serializedInput (i : Input) : Option Bytes :=
  (txidBytes i.outpoint.txid).map fun txid =>
    txid ++ littleEndian 4 i.outpoint.vout.toNat ++ varint i.scriptSig.length ++ i.scriptSig ++
      littleEndian 4 i.sequence.toNat

def serializedOutput (o : Output) : Bytes :=
  littleEndian 8 (o.valueSat % 2 ^ 64).toNat ++ varint o.scriptPubKey.length ++ o.scriptPubKey

def serializedItem (item : Bytes) : Bytes := varint item.length ++ item

def serializedWitness (i : Input) : Bytes :=
  varint i.witness.length ++ (i.witness.map serializedItem).flatten

def serializedNoWitness (tx : Transaction) : Option Bytes := do
  let inputs ← tx.inputs.mapM serializedInput
  return littleEndian 4 tx.version.toNat ++ varint tx.inputs.length ++ inputs.flatten ++
    varint tx.outputs.length ++ (tx.outputs.map serializedOutput).flatten ++
    littleEndian 4 tx.lockTime.toNat

def serialized (tx : Transaction) : Option Bytes := do
  if tx.hasWitness then
    let inputs ← tx.inputs.mapM serializedInput
    return littleEndian 4 tx.version.toNat ++ [0x00, 0x01] ++ varint tx.inputs.length ++ inputs.flatten ++
      varint tx.outputs.length ++ (tx.outputs.map serializedOutput).flatten ++
      (tx.inputs.map serializedWitness).flatten ++ littleEndian 4 tx.lockTime.toNat
  else tx.serializedNoWitness

def weight (tx : Transaction) : Option Nat := do
  let base ← tx.serializedNoWitness
  let total ← tx.serialized
  return base.length * 3 + total.length

def vsize (tx : Transaction) : Option Nat := tx.weight.map fun weight => (weight + 3) / 4

end Transaction

def varIntSize (v : Nat) : Nat :=
  if v < 0xfd then 1 else if v < 0x10000 then 3 else if v < 0x100000000 then 5 else 9

theorem length_varint (v : Nat) : (varint v).length = varIntSize v := by
  have htwo : v ≤ 0xffff ↔ v < 0x10000 := by omega
  have hfour : v ≤ 0xffffffff ↔ v < 0x100000000 := by omega
  simp only [varint, varIntSize, htwo, hfour, apply_ite List.length, List.length_cons, List.length_nil,
    length_littleEndian]

namespace Transaction

theorem length_txidBytes {txid : List Char} {b : Bytes} (h : txidBytes txid = some b) :
    b.length = 32 := by
  rw [txidBytes] at h
  split at h
  case h_1 => cases h
  case h_2 b' _ =>
    split at h
    case isTrue hlen =>
      cases h
      rwa [List.length_reverse]
    case isFalse => cases h

/-- An input without a script is 41 bytes. -/
theorem length_serializedInput {i : Input} {b : Bytes} (hsig : i.scriptSig = [])
    (h : serializedInput i = some b) : b.length = 41 := by
  obtain ⟨txid, htxid, rfl⟩ := Option.map_eq_some_iff.mp h
  simp [length_txidBytes htxid, hsig, length_littleEndian, varint]

theorem length_serializedOutput (o : Output) : (serializedOutput o).length =
    8 + varIntSize o.scriptPubKey.length + o.scriptPubKey.length := by
  simp [serializedOutput, length_littleEndian, length_varint, Nat.add_assoc]

theorem length_inputs {inputs : List Input} {l : List Bytes} (hsig : ∀ i ∈ inputs, i.scriptSig = [])
    (h : inputs.mapM serializedInput = some l) : l.flatten.length = 41 * inputs.length := by
  induction inputs generalizing l with
  | nil =>
    cases h
    rfl
  | cons i inputs ih =>
    rw [List.mapM_cons] at h
    obtain ⟨b, hb, h⟩ := Option.bind_eq_some_iff.mp h
    obtain ⟨rest, hrest, h⟩ := Option.bind_eq_some_iff.mp h
    cases h
    rw [List.flatten_cons, List.length_append, length_serializedInput (hsig i (by simp)) hb,
      ih (fun j hj => hsig j (by simp [hj])) hrest, List.length_cons]
    omega

/-- The size of the outputs on the wire. -/
def outputsSize (outputs : List Output) : Nat :=
  (outputs.map fun o => 8 + varIntSize o.scriptPubKey.length + o.scriptPubKey.length).sum

theorem length_outputs (outputs : List Output) :
    (outputs.map serializedOutput).flatten.length = outputsSize outputs := by
  rw [outputsSize, List.length_flatten, List.map_map]
  congr 1
  exact List.map_congr_left fun o _ => length_serializedOutput o

/-- What a transaction with witnesses weighs when no witness takes more than `n` bytes. -/
theorem weight_le {tx : Transaction} {n : Nat} (hwitness : tx.hasWitness = true)
    (hsig : ∀ i ∈ tx.inputs, i.scriptSig = []) (hn : ∀ i ∈ tx.inputs, (serializedWitness i).length ≤ n)
    {w : Nat} (h : tx.weight = some w) :
    w ≤ 4 * (8 + varIntSize tx.inputs.length + 41 * tx.inputs.length +
      varIntSize tx.outputs.length + outputsSize tx.outputs) + (2 + tx.inputs.length * n) := by
  have hall : (tx.inputs.map serializedWitness).flatten.length ≤ tx.inputs.length * n := by
    rw [List.length_flatten, List.map_map]
    refine (List.sum_le_card_nsmul _ n fun x hx => ?_).trans_eq (by simp)
    obtain ⟨i, hi, rfl⟩ := List.mem_map.mp hx
    exact hn i hi
  obtain ⟨base, hbase, h⟩ := Option.bind_eq_some_iff.mp h
  obtain ⟨total, htotal, h⟩ := Option.bind_eq_some_iff.mp h
  cases h
  obtain ⟨inputs, hinputs, hbase⟩ := Option.bind_eq_some_iff.mp hbase
  cases hbase
  rw [serialized, if_pos hwitness] at htotal
  obtain ⟨inputs', hinputs', htotal⟩ := Option.bind_eq_some_iff.mp htotal
  rw [hinputs, Option.some.injEq] at hinputs'
  subst hinputs'
  cases htotal
  have hin := length_inputs hsig hinputs
  simp only [List.length_append, length_littleEndian, length_varint, length_outputs, hin,
    List.length_cons, List.length_nil]
  omega

end Transaction

end pcoin.send
