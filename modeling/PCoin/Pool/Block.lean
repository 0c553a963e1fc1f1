import PCoin.Store.Payout
import Mathlib.Data.Nat.Digits.Lemmas

open pcoin.store

namespace pcoin.block

/-- A 32-byte hash, in internal byte order unless said otherwise. -/
abbrev Hash := { b : Bytes // b.length = 32 }

/-- The `width` low bytes of `n`, little-endian. -/
def littleEndian (width n : Nat) : Bytes :=
  (List.range width).map fun i => UInt8.ofNat (n / 256 ^ i)

theorem length_littleEndian (width n : Nat) : (littleEndian width n).length = width := by
  simp [littleEndian]

/-- `varint`. -/
def varint (n : Nat) : Bytes :=
  if n < 0xfd then [UInt8.ofNat n]
  else if n ≤ 0xffff then 0xfd :: littleEndian 2 n
  else if n ≤ 0xffffffff then 0xfe :: littleEndian 4 n
  else 0xff :: littleEndian 8 n

/-- `pushInt`: `CScript() << n` for the heights below `2 ^ 31`, on which the 32-bit
shift of the source does not wrap. -/
def pushInt (n : Nat) : Bytes :=
  if n = 0 then [0x00]
  else if n ≤ 16 then [UInt8.ofNat (0x50 + n)]
  else
    let out := (Nat.digits 256 n).map UInt8.ofNat
    let out := if out.getLast?.any (· &&& 0x80 ≠ 0) then out ++ [0x00] else out
    UInt8.ofNat out.length :: out

/-- The outputs a coinbase pays: the payout set, or everything to `script` when
there is none. -/
def spend (value : Nat) (script : Bytes) (pays : Option (List Output)) : List Output :=
  match pays with
  | some (o :: os) => o :: os
  | _ => [⟨none, script, value, none⟩]

/-- The serialized outputs and their total; a negative or oversized value throws. -/
def serializeOutputs : List Output → Except String (List Bytes × Int)
  | [] => return ([], 0)
  | o :: os => do
    if o.value < 0 then throw "negative coinbase output"
    if o.value ≥ 2 ^ 64 then throw "The value of \"value\" is out of range."
    let (rest, total) ← serializeOutputs os
    return ((littleEndian 8 o.value.toNat ++ varint o.script.length ++ o.script) :: rest,
      o.value + total)

structure Coinbase where
  legacy : Bytes
  witness : Bytes
  txid : Hash

/-- `buildCoinbase`. -/
def buildCoinbase (sha256d : Bytes → Hash) (height value : Nat) (script : Bytes)
    (pays : Option (List Output)) (extranonce : Bytes) (witnessCommitment : Option Bytes) :
    Except String Coinbase := do
  let scriptSig := pushInt height ++ [UInt8.ofNat extranonce.length] ++ extranonce
  if scriptSig.length > 100 then throw "coinbase scriptSig over the 100-byte consensus limit"
  let (outputs, total) ← serializeOutputs (spend value script pays)
  if total > value then throw s!"coinbase pays {total} but only {value} is available"
  let outputs := match witnessCommitment with
    | some (b :: wc) => outputs ++ [littleEndian 8 0 ++ varint (b :: wc).length ++ (b :: wc)]
    -- An empty text counts as none.
    | _ => outputs
  let version := littleEndian 4 2
  let prevout := List.replicate 32 0 ++ [0xff, 0xff, 0xff, 0xff]
  let sequence := [0xff, 0xff, 0xff, 0xff]
  let locktime := List.replicate 4 0
  let legacy := version ++ varint 1 ++ prevout ++ varint scriptSig.length ++ scriptSig ++ sequence ++
    varint outputs.length ++ outputs.flatten ++ locktime
  let witness := version ++ [0x00, 0x01] ++ varint 1 ++ prevout ++ varint scriptSig.length ++
    scriptSig ++ sequence ++ varint outputs.length ++ outputs.flatten ++
    varint 1 ++ varint 32 ++ List.replicate 32 0 ++ locktime
  return ⟨legacy, witness, sha256d legacy⟩

/-- One layer of the merkle tree, the odd tail duplicated. -/
def merkleLayer (sha256d : Bytes → Hash) : List Hash → List Hash
  | a :: b :: rest => sha256d (a.val ++ b.val) :: merkleLayer sha256d rest
  | [a] => [sha256d (a.val ++ a.val)]
  | [] => []

theorem length_merkleLayer (sha256d : Bytes → Hash) (layer : List Hash) :
    (merkleLayer sha256d layer).length = (layer.length + 1) / 2 := by
  induction layer using merkleLayer.induct with
  | case1 a b rest ih =>
    simp only [merkleLayer, List.length_cons, ih]
    omega
  | case2 a => simp [merkleLayer]
  | case3 => simp [merkleLayer]

/-- `merkleRoot` of a nonempty list of txids. -/
def merkleRoot (sha256d : Bytes → Hash) : List Hash → Except String Hash
  | [] => throw "a block always has at least a coinbase"
  | [root] => return root
  | a :: b :: rest => merkleRoot sha256d (merkleLayer sha256d (a :: b :: rest))
termination_by layer => layer.length
decreasing_by
  rw [length_merkleLayer]
  simp only [List.length_cons]
  omega

/-- `buildHeader`: the 80 bytes that are hashed. -/
def buildHeader (version : UInt32) (prevhash merkle : Hash) (time bits nonce : UInt32) : Bytes :=
  littleEndian 4 version.toNat ++ prevhash.val.reverse ++ merkle.val ++ littleEndian 4 time.toNat ++
    littleEndian 4 bits.toNat ++ littleEndian 4 nonce.toNat

/-- `bitsToTarget`, as the number its 32 bytes spell. -/
def bitsToTarget (bits : UInt32) : Nat :=
  let exponent := bits.toNat / 2 ^ 24
  let mantissa := bits.toNat % 2 ^ 23
  if exponent ≤ 3 then mantissa / 256 ^ (3 - exponent)
  else if exponent ≤ 32 then mantissa * 256 ^ (exponent - 3)
  else 0

/-- `scaleTarget`: `factor` times easier, capped at `2^256 - 1`. -/
def scaleTarget (target factor : Nat) : Nat := min (target * factor) (2 ^ 256 - 1)

/-- Any height in range pushes at most six bytes. -/
theorem length_pushInt_le {n : Nat} (hn : n < 2 ^ 31) : (pushInt n).length ≤ 6 := by
  unfold pushInt
  split
  · simp
  · split
    · simp
    · have hdigits : (Nat.digits 256 n).length ≤ 4 := by
        rw [Nat.digits_length_le_iff (by norm_num)]
        omega
      simp only [List.length_cons]
      split
      · simp only [List.length_append, List.length_map, List.length_cons, List.length_nil]
        omega
      · simp only [List.length_map]
        omega

/-- Outputs in range serialize, and their total is their sum. -/
theorem serializeOutputs_eq {outputs : List Output}
    (hrange : ∀ o ∈ outputs, 0 ≤ o.value ∧ o.value < 2 ^ 64) :
    ∃ bytes, serializeOutputs outputs = .ok (bytes, (outputs.map Output.value).sum) := by
  induction outputs with
  | nil => exact ⟨[], rfl⟩
  | cons o outputs ih =>
    obtain ⟨bytes, hrest⟩ := ih fun p hp => hrange p (List.mem_cons_of_mem _ hp)
    obtain ⟨hlow, hhigh⟩ := hrange o (by simp)
    refine ⟨(littleEndian 8 o.value.toNat ++ varint o.script.length ++ o.script) :: bytes, ?_⟩
    simp only [serializeOutputs, hrest, bind, Except.bind, pure, Except.pure,
      if_neg (not_lt.mpr hlow), if_neg (not_le.mpr hhigh), List.map_cons, List.sum_cons]

/-- The total that a payout set or the fallback spends. -/
theorem sum_spend {value : Nat} {script : Bytes} {pays : Option (List Output)}
    (hpays : ∀ os ∈ pays, (os.map Output.value).sum ≤ value) :
    ((spend value script pays).map Output.value).sum ≤ value := by
  unfold spend
  split
  · exact hpays _ rfl
  · simp

theorem spend_of_ne_nil (value : Nat) (script : Bytes) {os : List Output} (hne : os ≠ []) :
    spend value script (some os) = os := by
  cases os with
  | nil => exact absurd rfl hne
  | cons o os => rfl

theorem spend_nonneg {value : Nat} {script : Bytes} {pays : Option (List Output)}
    (hpays : ∀ os ∈ pays, ∀ o ∈ os, 0 ≤ o.value) :
    ∀ o ∈ spend value script pays, 0 ≤ o.value := by
  unfold spend
  split
  · exact hpays _ rfl
  · intro o ho
    rw [List.mem_singleton.mp ho]
    exact Int.natCast_nonneg value

/-- `buildCoinbase` does not throw on outputs in range that fit the value. -/
theorem buildCoinbase_ok {sha256d : Bytes → Hash} {height value : Nat} {script : Bytes}
    {pays : Option (List Output)} {extranonce : Bytes} {witnessCommitment : Option Bytes}
    (hheight : height < 2 ^ 31) (hextra : extranonce.length ≤ 75)
    (hrange : ∀ o ∈ spend value script pays, 0 ≤ o.value ∧ o.value < 2 ^ 64)
    (hsum : ((spend value script pays).map Output.value).sum ≤ value) :
    ∃ cb, buildCoinbase sha256d height value script pays extranonce witnessCommitment = .ok cb := by
  obtain ⟨bytes, hbytes⟩ := serializeOutputs_eq hrange
  have hscript : ¬ (pushInt height ++ [UInt8.ofNat extranonce.length] ++ extranonce).length > 100 := by
    have := length_pushInt_le hheight
    simp only [List.length_append, List.length_singleton]
    omega
  simp only [buildCoinbase, bind, Except.bind, pure, Except.pure, if_neg hscript, hbytes,
    if_neg (not_lt.mpr hsum)]
  exact ⟨_, rfl⟩

/-- In particular on a payout set that fits the value. -/
theorem buildCoinbase_eq {sha256d : Bytes → Hash} {height value : Nat} {script : Bytes}
    {pays : Option (List Output)} {extranonce : Bytes} {witnessCommitment : Option Bytes}
    (hheight : height < 2 ^ 31) (hvalue : value < 2 ^ 63) (hextra : extranonce.length ≤ 75)
    (hnonneg : ∀ os ∈ pays, ∀ o ∈ os, 0 ≤ o.value)
    (hpays : ∀ os ∈ pays, (os.map Output.value).sum ≤ value) :
    ∃ cb, buildCoinbase sha256d height value script pays extranonce witnessCommitment = .ok cb := by
  have hsum := @sum_spend value script pays hpays
  have hpos := @spend_nonneg value script pays hnonneg
  refine buildCoinbase_ok hheight hextra (fun o ho => ⟨hpos o ho, ?_⟩) hsum
  have hle : o.value ≤ ((spend value script pays).map Output.value).sum := by
    apply List.single_le_sum _ _ (List.mem_map_of_mem ho)
    intro v hv
    obtain ⟨p, hp, rfl⟩ := List.mem_map.mp hv
    exact hpos p hp
  omega

theorem merkleRoot_eq (sha256d : Bytes → Hash) {layer : List Hash} (hne : layer ≠ []) :
    ∃ root, merkleRoot sha256d layer = .ok root := by
  induction layer using merkleRoot.induct sha256d with
  | case1 => exact absurd rfl hne
  | case2 root => exact ⟨root, by rw [merkleRoot]; rfl⟩
  | case3 a b rest ih =>
    rw [merkleRoot]
    apply ih
    simp [merkleLayer]

theorem length_buildHeader (version : UInt32) (prevhash merkle : Hash) (time bits nonce : UInt32) :
    (buildHeader version prevhash merkle time bits nonce).length = 80 := by
  simp [buildHeader, length_littleEndian, prevhash.property, merkle.property]

end pcoin.block
