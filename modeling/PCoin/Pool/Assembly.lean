import PCoin.Pool.Format

/-! A block that the pool assembles, as the consensus code takes it. -/

open codec
open pcoin.store pcoin.rawtx pcoin.primitives

namespace pcoin.script

/-- `CScriptNum::serialize`. -/
def serialize (value : Int) : Bytes :=
  let result := (Nat.digits 256 value.natAbs).map UInt8.ofNat
  match result.getLast? with
  | none => []
  | some last =>
    if last &&& 0x80 ≠ 0 then result ++ [if value < 0 then 0x80 else 0]
    else if value < 0 then result.dropLast ++ [last ||| 0x80]
    else result

/-- `AppendDataSize`. -/
def appendDataSize (size : Nat) : Bytes :=
  if size < 0x4c then [UInt8.ofNat size]
  else if size ≤ 0xff then [0x4c, UInt8.ofNat size]
  else if size ≤ 0xffff then 0x4d :: block.littleEndian 2 size
  else 0x4e :: block.littleEndian 4 size

/-- `CScript() << n`. -/
def pushInt64 (n : Int) : Bytes :=
  if n = -1 ∨ (1 ≤ n ∧ n ≤ 16) then [UInt8.ofNat (n + 0x50).toNat]
  else if n = 0 then [0x00]
  else appendDataSize (serialize n).length ++ serialize n

end pcoin.script

namespace pcoin.merkle

open pcoin.block

/-- `SHA256D64`: each pair of hashes in turn. -/
def sha256D64 (sha256d : Bytes → Hash) : List Hash → List Hash
  | a :: b :: rest => sha256d (a.val ++ b.val) :: sha256D64 sha256d rest
  | _ => []

/-- Two hashes of a pair are the same. -/
def mutated : List Hash → Bool
  | a :: b :: rest => a == b || mutated rest
  | _ => false

theorem length_sha256D64 (sha256d : Bytes → Hash) (hashes : List Hash) :
    (sha256D64 sha256d hashes).length = hashes.length / 2 := by
  induction hashes using sha256D64.induct with
  | case1 a b rest ih =>
    simp only [sha256D64, List.length_cons, ih]
    omega
  | case2 hashes hshort =>
    match hashes, hshort with
    | [], _ | [_], _ => simp [sha256D64]
    | a :: b :: rest, hshort => exact absurd rfl (hshort a b rest)

def nullHash : Hash := ⟨List.replicate 32 0, List.length_replicate⟩

/-- The last hash once more, when their number is odd. -/
def evened (hashes : List Hash) : List Hash :=
  if hashes.length % 2 = 1 then hashes ++ hashes.getLast?.toList else hashes

theorem length_evened {hashes : List Hash} : (evened hashes).length = (hashes.length + 1) / 2 * 2 := by
  rw [evened]
  split
  case isTrue hodd =>
    obtain ⟨last, hlast⟩ : ∃ last, hashes.getLast? = some last := by
      cases h : hashes.getLast? with
      | none =>
        rw [List.getLast?_eq_none_iff.mp h] at hodd
        cases hodd
      | some last => exact ⟨last, rfl⟩
    rw [hlast, List.length_append]
    simp
    omega
  case isFalse heven => omega

/-- `ComputeMerkleRoot`: the root, and `mutated`. -/
def computeMerkleRoot (sha256d : Bytes → Hash) : List Hash → Hash × Bool
  | [] => (nullHash, false)
  | [root] => (root, false)
  | a :: b :: rest =>
    let (root, mutation) := computeMerkleRoot sha256d (sha256D64 sha256d (evened (a :: b :: rest)))
    (root, mutated (a :: b :: rest) || mutation)
termination_by hashes => hashes.length
decreasing_by
  rw [length_sha256D64, length_evened]
  simp only [List.length_cons]
  omega

/-- `BlockMerkleRoot`. -/
def blockMerkleRoot (sha256d : Bytes → Hash) (b : CBlock) : Hash × Bool :=
  computeMerkleRoot sha256d (b.vtx.map fun tx => sha256d tx.serializeNoWitness)

end pcoin.merkle

namespace pcoin.block

/-- `serializeBlock`. -/
def serializeBlock (header coinbaseWitness : Bytes) (otherTxHex : List String) : String :=
  hexOf (header ++ (varint (1 + otherTxHex.length) ++ (coinbaseWitness ++ (otherTxHex.map unhex).flatten)))

/-! ### The height and the merkle root -/

/-- A number that is no opcode is pushed in its bytes. -/
theorem pushInt_eq {height : Nat} (h : height < 2 ^ 31) : pushInt height = script.pushInt64 height := by
  have hlen := length_pushInt_le h
  rw [pushInt] at hlen ⊢
  rw [script.pushInt64]
  by_cases hzero : height = 0
  · subst hzero
    rfl
  by_cases hsmall : height ≤ 16
  · rw [if_neg hzero, if_pos hsmall, if_pos (by omega)]
    congr 2
    omega
  rw [if_neg hzero, if_neg hsmall] at hlen ⊢
  rw [if_neg (by omega), if_neg (by omega)]
  have hserialize : script.serialize height =
      (let out := (Nat.digits 256 height).map UInt8.ofNat
       if out.getLast?.any (· &&& 0x80 ≠ 0) then out ++ [0x00] else out) := by
    have hpos : ¬(height : Int) < 0 := by omega
    rw [script.serialize, Int.natAbs_natCast]
    cases hlast : ((Nat.digits 256 height).map UInt8.ofNat).getLast? with
    | none => simp [List.getLast?_eq_none_iff.mp hlast]
    | some last => simp [hlast, hpos]
  dsimp only at hserialize hlen ⊢
  rw [← hserialize] at hlen ⊢
  rw [List.length_cons] at hlen
  rw [script.appendDataSize, if_pos (by omega)]
  rfl

theorem evened_cons (a b : Hash) (rest : List Hash) :
    merkle.evened (a :: b :: rest) = a :: b :: merkle.evened rest := by
  rw [merkle.evened, merkle.evened]
  cases rest with
  | nil => simp
  | cons c rest =>
    have hparity : (a :: b :: c :: rest).length % 2 = 1 ↔ (c :: rest).length % 2 = 1 := by
      simp only [List.length_cons]
      omega
    by_cases hodd : (c :: rest).length % 2 = 1
    · rw [if_pos (hparity.mpr hodd), if_pos hodd]
      simp [List.getLast?_cons]
    · rw [if_neg (fun h => hodd (hparity.mp h)), if_neg hodd]

theorem merkleLayer_eq (sha256d : Bytes → Hash) (layer : List Hash) :
    merkleLayer sha256d layer = merkle.sha256D64 sha256d (merkle.evened layer) := by
  induction layer using merkleLayer.induct with
  | case1 a b rest ih => rw [merkleLayer, ih, evened_cons, merkle.sha256D64]
  | case2 a => rfl
  | case3 => rfl

theorem merkleRoot_eq_compute (sha256d : Bytes → Hash) {txids : List Hash} (hne : txids ≠ []) :
    merkleRoot sha256d txids = .ok (merkle.computeMerkleRoot sha256d txids).1 := by
  induction txids using merkleRoot.induct sha256d with
  | case1 => exact absurd rfl hne
  | case2 root => 
    rw [merkleRoot, merkle.computeMerkleRoot]
    rfl
  | case3 a b rest ih =>
    rw [merkleRoot, merkle.computeMerkleRoot, ih (by simp [merkleLayer]), merkleLayer_eq]

/-! ### The coinbase -/

/-- An output of the pool as the consensus code has it. -/
def txOut (o : Output) : CTxOut := ⟨UInt64.ofNat o.value.toNat, o.script⟩

/-- The zero-value output of the witness commitment, if there is one. -/
def commitment : Option Bytes → List CTxOut
  | some (b :: wc) => [⟨0, b :: wc⟩]
  | _ => []

/-- The coinbase that is meant: no prevout, the height first in its script, the outputs and then the
commitment, and one zero item for a witness. -/
def coinbase (height : Nat) (outputs : List Output) (extranonce : Bytes)
    (witnessCommitment : Option Bytes) : CTransaction where
  version := 2
  vin := [{
    hash := merkle.nullHash
    n := 0xffffffff
    scriptSig := script.pushInt64 height ++ UInt8.ofNat extranonce.length :: extranonce
    nSequence := 0xffffffff
    witness := [List.replicate 32 0] }]
  vout := outputs.map txOut ++ commitment witnessCommitment
  nLockTime := 0

theorem serializeOutputs_txOut {outputs : List Output} {bytes : List Bytes} {total : Int}
    (h : serializeOutputs outputs = .ok (bytes, total)) :
    bytes = (outputs.map txOut).map CTxOut.serialize := by
  induction outputs generalizing bytes total with
  | nil =>
    obtain ⟨rfl, -⟩ : [] = bytes ∧ 0 = total := by simpa [serializeOutputs, pure, Except.pure] using h
    rfl
  | cons o outputs ih =>
    rw [serializeOutputs] at h
    by_cases hlow : o.value < 0
    · rw [if_pos hlow] at h
      cases h
    by_cases hhigh : o.value ≥ 2 ^ 64
    · rw [if_neg hlow, if_pos hhigh] at h
      cases h
    cases hrest : serializeOutputs outputs with
    | error e =>
      rw [if_neg hlow, if_neg hhigh, hrest] at h
      cases h
    | ok r =>
      obtain ⟨rest, sum⟩ := r
      simp only [if_neg hlow, if_neg hhigh, hrest, bind, Except.bind, pure, Except.pure, Except.ok.injEq,
        Prod.mk.injEq] at h
      obtain ⟨rfl, rfl⟩ := h
      have hvalue : (UInt64.ofNat o.value.toNat).toNat = o.value.toNat := by
        rw [UInt64.toNat_ofNat']
        omega
      rw [List.map_cons, List.map_cons, ← ih hrest]
      simp [txOut, CTxOut.serialize, hvalue]

/-- `buildCoinbase` writes the coinbase that is meant, with its witness and without. -/
theorem of_buildCoinbase {sha256d : Bytes → Hash} {height value : Nat} {script : Bytes}
    {pays : Option (List Output)} {extranonce : Bytes} {witnessCommitment : Option Bytes} {cb : Coinbase}
    (hheight : height < 2 ^ 31)
    (h : buildCoinbase sha256d height value script pays extranonce witnessCommitment = .ok cb) :
    cb.witness = (coinbase height (spend value script pays) extranonce witnessCommitment).serialize ∧
    cb.legacy =
      (coinbase height (spend value script pays) extranonce witnessCommitment).serializeNoWitness ∧
    cb.txid = sha256d cb.legacy := by
  rw [buildCoinbase] at h
  by_cases hlong : (pushInt height ++ [UInt8.ofNat extranonce.length] ++ extranonce).length > 100
  · rw [if_pos hlong] at h
    cases h
  cases houtputs : serializeOutputs (spend value script pays) with
  | error e =>
    rw [if_neg hlong, houtputs] at h
    cases h
  | ok r =>
    obtain ⟨bytes, total⟩ := r
    obtain rfl := serializeOutputs_txOut houtputs
    by_cases htotal : total > value
    · simp only [if_neg hlong, houtputs, bind, Except.bind, if_pos htotal] at h
      cases h
    simp only [if_neg hlong, houtputs, bind, Except.bind, pure, Except.pure, if_neg htotal,
      Except.ok.injEq] at h
    subst h
    have hmax : littleEndian 4 4294967295 = [0xff, 0xff, 0xff, 0xff] := by decide
    have hzero : littleEndian 4 0 = List.replicate 4 0 := by decide
    have hpush := pushInt_eq hheight
    refine ⟨?_, ?_, rfl⟩
    · rcases witnessCommitment with _ | _ | ⟨b, wc⟩ <;>
      simp [coinbase, commitment, CTransaction.serialize, CTransaction.hasWitness, CTransaction.body,
        CTxIn.serialize, CTxIn.serializeWitness, serializeItem, CTxOut.serialize, merkle.nullHash, hmax,
        hzero, hpush]
    · rcases witnessCommitment with _ | _ | ⟨b, wc⟩ <;>
      simp [coinbase, commitment, CTransaction.serializeNoWitness, CTransaction.body,
        CTxIn.serialize, CTxOut.serialize, merkle.nullHash, hmax, hzero, hpush]

/-! ### The block -/

/-- The header that is meant. -/
def headerOf (version : UInt32) (prevhash merkle : Hash) (time bits nonce : UInt32) : CBlockHeader where
  nVersion := version
  hashPrevBlock := ⟨prevhash.val.reverse, by simp [prevhash.property]⟩
  hashMerkleRoot := merkle
  nTime := time
  nBits := bits
  nNonce := nonce

theorem buildHeader_eq (version : UInt32) (prevhash merkle : Hash) (time bits nonce : UInt32) :
    buildHeader version prevhash merkle time bits nonce =
      (headerOf version prevhash merkle time bits nonce).serialize := rfl

theorem serialize_cons (header : CBlockHeader) (tx : CTransaction) (txs : List CTransaction) :
    CBlock.serialize ⟨header, tx :: txs⟩ = header.serialize ++ (varint (1 + txs.length) ++
      (tx.serialize ++ (txs.map CTransaction.serialize).flatten)) := by
  rw [CBlock.serialize, List.length_cons, Nat.add_comm, List.map_cons, List.flatten_cons]

theorem unhex_serializeBlock (header coinbaseWitness : Bytes) (txs : List CTransaction) :
    unhex (serializeBlock header coinbaseWitness (txs.map fun tx => hexOf tx.serialize)) =
      header ++ (varint (1 + txs.length) ++
        (coinbaseWitness ++ (txs.map CTransaction.serialize).flatten)) := by
  have hraw : (txs.map fun tx => hexOf tx.serialize).map unhex = txs.map CTransaction.serialize := by
    rw [List.map_map]
    exact List.map_congr_left fun tx _ => unhex_hexOf tx.serialize
  rw [serializeBlock, unhex_hexOf, hraw, List.length_map]

/-- The assembled block is read back as what was meant: the header, the coinbase and the given
transactions. Without its witness the coinbase is what the txid is of, and the merkle root is the
consensus one, of this block as of any txids. -/
theorem block_assembled (sha256d : Bytes → Hash) {height value : Nat} (script : Bytes)
    (pays : Option (List Output)) {extranonce : Bytes} (witnessCommitment : Option Bytes)
    (version : UInt32) (prevhash : Hash) (time bits nonce : UInt32) (txs : List CTransaction)
    (hheight : height < 2 ^ 31) (hextra : extranonce.length ≤ 75)
    (hvalues : ∀ o ∈ spend value script pays, 0 ≤ o.value ∧ o.value < 2 ^ 63)
    (htotal : ((spend value script pays).map Output.value).sum ≤ value)
    (htxs : ∀ tx ∈ txs, tx.vin ≠ []) :
    ∃ cb root, buildCoinbase sha256d height value script pays extranonce witnessCommitment = .ok cb ∧
      merkleRoot sha256d (cb.txid :: txs.map fun tx => sha256d tx.serializeNoWitness) = .ok root ∧
      let meant := coinbase height (spend value script pays) extranonce witnessCommitment
      let block : CBlock := ⟨headerOf version prevhash root time bits nonce, meant :: txs⟩
      let raw := unhex (serializeBlock (buildHeader version prevhash root time bits nonce) cb.witness
        (txs.map fun tx => hexOf tx.serialize))
      (∀ maxSize < 2 ^ 64, raw.length ≤ maxSize → decodeBlock maxSize raw = .ok block) ∧
      meant.serializeNoWitness = cb.legacy ∧ cb.txid = sha256d cb.legacy ∧
      (merkle.blockMerkleRoot sha256d block).1 = root ∧
      ∀ txids ≠ [], merkleRoot sha256d txids = .ok (merkle.computeMerkleRoot sha256d txids).1 := by
  obtain ⟨cb, hcb⟩ := @buildCoinbase_ok sha256d height value script pays extranonce witnessCommitment
    hheight hextra (fun o ho => ⟨(hvalues o ho).1, (hvalues o ho).2.trans (by norm_num)⟩) htotal
  obtain ⟨hwitness, hlegacy, htxid⟩ := of_buildCoinbase hheight hcb
  refine ⟨cb, _, hcb, merkleRoot_eq_compute sha256d (List.cons_ne_nil _ _), ?_, hlegacy.symm, htxid, ?_,
    fun txids hne => merkleRoot_eq_compute sha256d hne⟩
  · intro maxSize hmax hsize
    rw [unhex_serializeBlock, hwitness, buildHeader_eq, ← serialize_cons] at hsize ⊢
    have hvin : ∀ tx ∈ coinbase height (spend value script pays) extranonce witnessCommitment :: txs,
        tx.vin ≠ [] := List.forall_mem_cons.mpr ⟨List.cons_ne_nil _ _, htxs⟩
    exact decodeBlock_serialize hmax hvin hsize
  · rw [merkle.blockMerkleRoot, List.map_cons, ← hlegacy, ← htxid]

/-- A spend of one input, for the block of `block_assembled_two`. -/
def oneSpend : CTransaction where
  version := 2
  vin := [{ hash := merkle.nullHash, n := 0, scriptSig := [], nSequence := 0, witness := [[0x01]] }]
  vout := [⟨1, [0x51]⟩]
  nLockTime := 0

set_option maxRecDepth 4000 in
/-- The coinbase of height 300 and a spend. -/
theorem block_assembled_two : ∃ cb root,
    buildCoinbase (fun _ => merkle.nullHash) 300 50 [0x51] (some [⟨none, [0x51], 50, none⟩]) [1, 2]
      (some [0x6a]) = .ok cb ∧
    decodeBlock 1000000 (unhex (serializeBlock (buildHeader 4 merkle.nullHash root 7 8 9) cb.witness
      [hexOf oneSpend.serialize])) = .ok ⟨headerOf 4 merkle.nullHash root 7 8 9,
        [coinbase 300 [⟨none, [0x51], 50, none⟩] [1, 2] (some [0x6a]), oneSpend]⟩ := by
  obtain ⟨cb, root, hcb, -, hdecode, -⟩ := @block_assembled (fun _ => merkle.nullHash) 300 50 [0x51]
    (some [⟨none, [0x51], 50, none⟩]) [1, 2] (some [0x6a]) 4 merkle.nullHash 7 8 9 [oneSpend]
    (by decide) (by decide) (by decide) (by decide) (by decide)
  refine ⟨cb, root, hcb, hdecode 1000000 (by decide) ?_⟩
  rw [unhex_serializeBlock, (of_buildCoinbase (by decide) hcb).1, List.length_append, length_buildHeader]
  decide

end pcoin.block
