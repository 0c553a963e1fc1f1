import PCoin.Explorer.TxidExact

/-! Blocks and transactions as a node reads them. -/

open codec
open pcoin.store pcoin.block pcoin.rawtx

namespace pcoin.primitives

/-- `CBlockHeader`. -/
structure CBlockHeader where
  nVersion : UInt32
  hashPrevBlock : Hash
  hashMerkleRoot : Hash
  nTime : UInt32
  nBits : UInt32
  nNonce : UInt32
deriving DecidableEq

/-- `CBlock`. -/
structure CBlock where
  header : CBlockHeader
  vtx : List CTransaction
deriving DecidableEq

/-! ### The reader -/

abbrev Read (α : Type) := Reader String α

def read (n : Nat) : Read Bytes := Reader.take (fun _ _ => "end of data") n

def ser_readdata (width : Nat) : Read Nat := do
  let b ← read width
  return fromBytes b

/-- A size of so many bytes, when it needs them. -/
def readCanonical (width least : Nat) : Read Nat := do
  let nSizeRet ← ser_readdata width
  if nSizeRet < least then Reader.fail "non-canonical ReadCompactSize()" else return nSizeRet

def readSize : Read Nat := do
  let chSize ← ser_readdata 1
  if chSize < 253 then return chSize
  else if chSize = 253 then readCanonical 2 253
  else if chSize = 254 then readCanonical 4 0x10000
  else readCanonical 8 0x100000000

/-- `ReadCompactSize`, for sizes up to `maxSize`: `MAX_SIZE` in a node. -/
def readCompactSize (maxSize : Nat) : Read Nat := do
  let nSizeRet ← readSize
  if nSizeRet > maxSize then Reader.fail "ReadCompactSize(): size too large" else return nSizeRet

variable (maxSize : Nat)

def readVector {α : Type} (r : Read α) : Read (List α) := do
  let n ← readCompactSize maxSize
  r.times n

def readScript : Read Bytes := do
  let n ← readCompactSize maxSize
  read n

def readUInt32 : Read UInt32 := do
  let n ← ser_readdata 4
  return UInt32.ofNat n

def readHash : Read Hash := do
  let b ← read 32
  if h : b.length = 32 then return ⟨b, h⟩ else Reader.fail "end of data"

def readTxIn : Read CTxIn := do
  let hash ← readHash
  let n ← readUInt32
  let scriptSig ← readScript maxSize
  let nSequence ← readUInt32
  return { hash, n, scriptSig, nSequence, witness := [] }

def readTxOut : Read CTxOut := do
  let nValue ← ser_readdata 8
  let scriptPubKey ← readScript maxSize
  return { nValue := UInt64.ofNat nValue, scriptPubKey }

def readStack (i : CTxIn) : Read CTxIn := do
  let witness ← readVector maxSize (readScript maxSize)
  return { i with witness }

/-- `UnserializeTransaction`, with witnesses allowed. -/
def unserializeTransaction : Read CTransaction := do
  let version ← readUInt32
  let vin ← readVector maxSize (readTxIn maxSize)
  if vin ≠ [] then do
    -- A normal vout follows.
    let vout ← readVector maxSize (readTxOut maxSize)
    let nLockTime ← readUInt32
    return { version, vin, vout, nLockTime }
  else do
    let flags ← ser_readdata 1
    if flags = 0 then do
      let nLockTime ← readUInt32
      return { version, vin := [], vout := [], nLockTime }
    else do
      let vin ← readVector maxSize (readTxIn maxSize)
      let vout ← readVector maxSize (readTxOut maxSize)
      if flags % 2 = 1 then do
        let vin ← Reader.each (readStack maxSize) vin
        if vin.all (·.witness.isEmpty) then Reader.fail "Superfluous witness record"
        else if flags ≠ 1 then Reader.fail "Unknown transaction optional data"
        else do
          let nLockTime ← readUInt32
          return { version, vin, vout, nLockTime }
      else Reader.fail "Unknown transaction optional data"

def readHeader : Read CBlockHeader := do
  let nVersion ← readUInt32
  let hashPrevBlock ← readHash
  let hashMerkleRoot ← readHash
  let nTime ← readUInt32
  let nBits ← readUInt32
  let nNonce ← readUInt32
  return { nVersion, hashPrevBlock, hashMerkleRoot, nTime, nBits, nNonce }

def readBlock : Read CBlock := do
  let header ← readHeader
  let vtx ← readVector maxSize (unserializeTransaction maxSize)
  return { header, vtx }

/-- A block, and nothing after it. -/
def decodeBlock (b : Bytes) : Except String CBlock :=
  match readBlock maxSize b 0 with
  | .error e => .error e
  | .ok (block, pos) => if pos = b.length then .ok block else .error "extra data"

/-! ### What is serialised is read -/

variable {maxSize}

theorem reads_data {width n : Nat} (hn : n < 256 ^ width) :
    Reads (ser_readdata width) n (littleEndian width n) := by
  refine (Reads.take _ (length_littleEndian width n)).map ?_
  rw [fromBytes_littleEndian hn]
  exact Reads.pure n

theorem reads_uint32 (v : UInt32) : Reads readUInt32 v (littleEndian 4 v.toNat) := by
  refine (reads_data v.toNat_lt).map ?_
  rw [UInt32.ofNat_toNat]
  exact Reads.pure v

theorem reads_hash (h : Hash) : Reads readHash h h.val := by
  refine (Reads.take _ h.property).map ?_
  rw [dif_pos h.property]
  exact Reads.pure h

theorem reads_canonical {n width least : Nat} (hfits : n < 256 ^ width) (hneeds : least ≤ n) :
    Reads (readCanonical width least) n (littleEndian width n) := by
  refine (reads_data hfits).map ?_
  rw [if_neg (by omega)]
  exact Reads.pure n

theorem reads_size {n : Nat} (hn : n < 2 ^ 64) : Reads readSize n (block.varint n) := by
  rw [block.varint]
  split_ifs with hone htwo hfour
  · have heq : [UInt8.ofNat n] = littleEndian 1 n := by simp [littleEndian]
    rw [heq]
    refine (reads_data (by omega)).map ?_
    rw [if_pos hone]
    exact Reads.pure n
  · have hmark : Reads (ser_readdata 1) 0xfd [0xfd] := reads_data (by decide)
    exact hmark.bind (reads_canonical (by omega) (by omega))
  · have hmark : Reads (ser_readdata 1) 0xfe [0xfe] := reads_data (by decide)
    exact hmark.bind (reads_canonical (by omega) (by omega))
  · have hmark : Reads (ser_readdata 1) 0xff [0xff] := reads_data (by decide)
    exact hmark.bind (reads_canonical hn (by omega))

/-- A size is read when it is not too large. -/
theorem reads_compactSize {n : Nat} (hn : n ≤ maxSize) (hmax : n < 2 ^ 64) :
    Reads (readCompactSize maxSize) n (block.varint n) := by
  refine (reads_size hmax).map ?_
  rw [if_neg (by omega)]
  exact Reads.pure n

variable (hmax : maxSize < 2 ^ 64)

include hmax

theorem reads_script {b : Bytes} (hb : b.length ≤ maxSize) :
    Reads (readScript maxSize) b (block.varint b.length ++ b) :=
  (reads_compactSize hb (hb.trans_lt hmax)).bind (Reads.take _ rfl)

theorem reads_vector {α : Type} {r : Read α} {as : List α} {f : α → Bytes} (hlen : as.length ≤ maxSize)
    (h : ∀ a ∈ as, Reads r a (f a)) :
    Reads (readVector maxSize r) as (block.varint as.length ++ (as.map f).flatten) :=
  (reads_compactSize hlen (hlen.trans_lt hmax)).bind (Reads.times h)

/-- The input as it is read before its witness. -/
theorem reads_txIn {i : CTxIn} (hi : i.serialize.length ≤ maxSize) :
    Reads (readTxIn maxSize) i.bare i.serialize := by
  have hscript : i.scriptSig.length ≤ maxSize := by
    simp only [CTxIn.serialize, List.length_append] at hi
    omega
  rw [CTxIn.serialize, List.append_assoc, List.append_assoc]
  exact (reads_hash i.hash).bind ((reads_uint32 i.n).bind
    ((reads_script hmax hscript).bind ((reads_uint32 i.nSequence).map (Reads.pure _))))

theorem reads_txOut {o : CTxOut} (ho : o.serialize.length ≤ maxSize) :
    Reads (readTxOut maxSize) o o.serialize := by
  have hscript : o.scriptPubKey.length ≤ maxSize := by
    simp only [CTxOut.serialize, List.length_append] at ho
    omega
  refine (reads_data o.nValue.toNat_lt).bind ((reads_script hmax hscript).map ?_)
  rw [UInt64.ofNat_toNat]
  exact Reads.pure o

theorem reads_stack {i : CTxIn} (hi : i.serializeWitness.length ≤ maxSize) :
    Reads (readStack maxSize i.bare) i i.serializeWitness := by
  rw [CTxIn.serializeWitness] at hi ⊢
  rw [List.length_append] at hi
  have hone : ∀ item, 1 ≤ (serializeItem item).length := fun item => by
    have := length_varint_pos item.length
    rw [serializeItem, List.length_append]
    omega
  have hcount := (length_le_flatten hone i.witness).trans (Nat.le_of_add_left_le hi)
  have hitems : ∀ item ∈ i.witness, Reads (readScript maxSize) item (serializeItem item) := by
    intro item hitem
    have hle : (serializeItem item).length ≤ (i.witness.map serializeItem).flatten.length :=
      le_flatten hitem
    rw [serializeItem, List.length_append] at hle
    exact reads_script hmax (by omega)
  exact (reads_vector hmax hcount hitems).map (Reads.pure i)

/-- The inputs and the outputs of a transaction that is not too large. -/
theorem reads_body {tx : CTransaction} (hbody : tx.body.length ≤ maxSize) :
    Reads (readVector maxSize (readTxIn maxSize)) (tx.vin.map CTxIn.bare)
        (block.varint tx.vin.length ++ (tx.vin.map CTxIn.serialize).flatten) ∧
      Reads (readVector maxSize (readTxOut maxSize)) tx.vout
        (block.varint tx.vout.length ++ (tx.vout.map CTxOut.serialize).flatten) := by
  rw [CTransaction.body] at hbody
  simp only [List.length_append] at hbody
  have hin : ∀ i : CTxIn, 1 ≤ i.serialize.length := fun i => by
    have := length_littleEndian 4 i.n.toNat
    simp only [CTxIn.serialize, List.length_append]
    omega
  have hout : ∀ o : CTxOut, 1 ≤ o.serialize.length := fun o => by
    have := length_littleEndian 8 o.nValue.toNat
    simp only [CTxOut.serialize, List.length_append]
    omega
  constructor
  · have hcount := length_le_flatten hin tx.vin
    have hbare : ∀ a ∈ tx.vin.map CTxIn.bare, Reads (readTxIn maxSize) a a.serialize := by
      intro a ha
      obtain ⟨i, hi, rfl⟩ := List.mem_map.mp ha
      have hle : i.serialize.length ≤ (tx.vin.map CTxIn.serialize).flatten.length := le_flatten hi
      exact reads_txIn hmax (hle.trans (by omega))
    have hread := reads_vector hmax (by rw [List.length_map]; omega) hbare
    rw [List.length_map, List.map_map] at hread
    exact hread
  · have hcount := length_le_flatten hout tx.vout
    refine reads_vector hmax (by omega) fun o ho => ?_
    have hle : o.serialize.length ≤ (tx.vout.map CTxOut.serialize).flatten.length := le_flatten ho
    exact reads_txOut hmax (hle.trans (by omega))

/-- A transaction with inputs is read from its serialisation. -/
theorem reads_transaction {tx : CTransaction} (hvin : tx.vin ≠ []) (hsize : tx.serialize.length ≤ maxSize) :
    Reads (unserializeTransaction maxSize) tx tx.serialize := by
  have hbare : tx.vin.map CTxIn.bare ≠ [] := by simpa using hvin
  rw [CTransaction.serialize] at hsize ⊢
  split at hsize
  case isTrue hwitness =>
    simp only [List.length_append] at hsize
    obtain ⟨hins, houts⟩ := @reads_body _ hmax tx (by omega)
    have hstacks : Reads (Reader.each (readStack maxSize) (tx.vin.map CTxIn.bare)) tx.vin
        (tx.vin.map CTxIn.serializeWitness).flatten := by
      refine Reads.each fun i hi => reads_stack hmax ?_
      have hle : i.serializeWitness.length ≤ (tx.vin.map CTxIn.serializeWitness).flatten.length :=
        le_flatten hi
      omega
    have hfull : ¬tx.vin.all (·.witness.isEmpty) = true := by
      obtain ⟨i, hi, hsome⟩ := List.any_eq_true.mp hwitness
      intro hall
      have hempty := List.all_eq_true.mp hall i hi
      rw [hempty] at hsome
      cases hsome
    have hmarker : Reads (readVector maxSize (readTxIn maxSize)) [] [0x00] :=
      @reads_vector _ hmax _ (readTxIn maxSize) [] CTxIn.serialize (Nat.zero_le _) (by simp)
    have hflags : Reads (ser_readdata 1) 1 [0x01] := reads_data (by decide)
    have hread : Reads (unserializeTransaction maxSize) tx
        (littleEndian 4 tx.version.toNat ++ ([0x00] ++ ([0x01] ++
          ((block.varint tx.vin.length ++ (tx.vin.map CTxIn.serialize).flatten) ++
            ((block.varint tx.vout.length ++ (tx.vout.map CTxOut.serialize).flatten) ++
              ((tx.vin.map CTxIn.serializeWitness).flatten ++
                littleEndian 4 tx.nLockTime.toNat)))))) := by
      refine (reads_uint32 tx.version).bind (hmarker.bind ?_)
      rw [if_neg (by simp)]
      refine hflags.bind ?_
      rw [if_neg (by decide)]
      refine hins.bind (houts.bind ?_)
      rw [if_pos (by decide)]
      refine hstacks.bind ?_
      rw [if_neg hfull, if_neg (by decide)]
      exact (reads_uint32 tx.nLockTime).map (Reads.pure tx)
    rw [if_pos hwitness, CTransaction.body]
    simpa only [List.append_assoc, List.cons_append, List.nil_append] using hread
  case isFalse hwitness =>
    simp only [CTransaction.serializeNoWitness, List.length_append] at hsize
    obtain ⟨hins, houts⟩ := @reads_body _ hmax tx (by omega)
    -- What is read has no witness, and neither has the transaction.
    have hsame : tx.vin.map CTxIn.bare = tx.vin := by
      refine (List.map_congr_left fun i hi => ?_).trans (List.map_id tx.vin)
      rw [CTxIn.bare, ← witness_nil (by simpa using hwitness) i hi, id]
    rw [hsame] at hins
    have hread : Reads (unserializeTransaction maxSize) tx _ :=
      (reads_uint32 tx.version).bind (hins.bind (by
        rw [if_pos hvin]
        exact houts.bind ((reads_uint32 tx.nLockTime).map (Reads.pure tx))))
    rw [if_neg hwitness, CTransaction.serializeNoWitness, CTransaction.body]
    simpa only [List.append_assoc] using hread

omit hmax in
theorem length_serialize_pos (tx : CTransaction) : 1 ≤ tx.serialize.length := by
  have := length_littleEndian 4 tx.version.toNat
  rw [CTransaction.serialize, CTransaction.serializeNoWitness]
  split <;>
  · simp only [List.length_append]
    omega

def CBlockHeader.serialize (h : CBlockHeader) : Bytes :=
  littleEndian 4 h.nVersion.toNat ++ h.hashPrevBlock.val ++ h.hashMerkleRoot.val ++
    littleEndian 4 h.nTime.toNat ++ littleEndian 4 h.nBits.toNat ++ littleEndian 4 h.nNonce.toNat

def CBlock.serialize (b : CBlock) : Bytes :=
  b.header.serialize ++ (block.varint b.vtx.length ++ (b.vtx.map CTransaction.serialize).flatten)

omit hmax in
theorem reads_header (h : CBlockHeader) : Reads readHeader h h.serialize := by
  simp only [CBlockHeader.serialize, List.append_assoc]
  exact (reads_uint32 _).bind ((reads_hash _).bind ((reads_hash _).bind ((reads_uint32 _).bind
    ((reads_uint32 _).bind ((reads_uint32 _).map (Reads.pure h))))))

/-- A block of transactions with inputs is read from its serialisation. -/
theorem decodeBlock_serialize {b : CBlock} (hvin : ∀ tx ∈ b.vtx, tx.vin ≠ [])
    (hsize : b.serialize.length ≤ maxSize) : decodeBlock maxSize b.serialize = .ok b := by
  have hlen := hsize
  simp only [CBlock.serialize, List.length_append] at hlen
  have hcount := length_le_flatten length_serialize_pos b.vtx
  have htxs : ∀ tx ∈ b.vtx, Reads (unserializeTransaction maxSize) tx tx.serialize := by
    intro tx htx
    have hle : tx.serialize.length ≤ (b.vtx.map CTransaction.serialize).flatten.length := le_flatten htx
    exact reads_transaction hmax (hvin tx htx) (hle.trans (by omega))
  have hread : Reads (readBlock maxSize) b b.serialize :=
    (reads_header b.header).bind ((reads_vector hmax (by omega) htxs).map (Reads.pure b))
  rw [decodeBlock, hread.run]
  simp

end pcoin.primitives
