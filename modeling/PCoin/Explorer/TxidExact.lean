import PCoin.Explorer.Txid

open codec
open pcoin.store pcoin.block

namespace pcoin.rawtx

/-! ### Numbers -/

theorem littleEndian_succ (width n : Nat) :
    littleEndian (width + 1) n = UInt8.ofNat n :: littleEndian width (n / 256) := by
  rw [littleEndian, List.range_succ_eq_map, List.map_cons, List.map_map]
  congr 1
  · rw [pow_zero, Nat.div_one]
  · refine List.map_congr_left fun i _ => ?_
    rw [Function.comp_apply, Nat.succ_eq_add_one, pow_succ', Nat.div_div_eq_div_mul]

theorem fromBytes_lt (b : Bytes) : fromBytes b < 256 ^ b.length := by
  induction b with
  | nil => exact Nat.one_pos
  | cons x b ih =>
    have hx := x.toNat_lt
    rw [fromBytes, List.length_cons, pow_succ]
    omega

theorem littleEndian_fromBytes (b : Bytes) : littleEndian b.length (fromBytes b) = b := by
  induction b with
  | nil => rfl
  | cons x b ih =>
    have hx := x.toNat_lt
    rw [List.length_cons, littleEndian_succ, fromBytes,
      show (x.toNat + 256 * fromBytes b) / 256 = fromBytes b by omega, ih]
    congr 1
    apply UInt8.toNat_inj.mp
    rw [UInt8.toNat_ofNat']
    omega

theorem fromBytes_littleEndian {width n : Nat} (hn : n < 256 ^ width) : fromBytes (littleEndian width n) = n := by
  induction width generalizing n with
  | zero =>
    rw [pow_zero, Nat.lt_one_iff] at hn
    rw [hn]
    rfl
  | succ width ih =>
    rw [pow_succ] at hn
    rw [littleEndian_succ, fromBytes, ih (by omega), UInt8.toNat_ofNat']
    omega

theorem uint_parses (width : Nat) :
    Parses (uint width) (fun n bs => n < 256 ^ width ∧ bs = littleEndian width n) := by
  refine ((Parses.take _ width).bind fun b => Parses.pure (fromBytes b)).congr fun n bs => ⟨?_, ?_⟩
  · rintro ⟨b, xs, ys, rfl, ⟨rfl, hlen⟩, rfl, rfl⟩
    rw [List.append_nil, ← hlen, littleEndian_fromBytes]
    exact ⟨fromBytes_lt b, rfl⟩
  · rintro ⟨hn, rfl⟩
    exact ⟨littleEndian width n, littleEndian width n, [], (List.append_nil _).symm,
      ⟨rfl, length_littleEndian width n⟩, (fromBytes_littleEndian hn).symm, rfl⟩

/-! ### Lengths -/

/-- A number as CompactSize writes it, in as many bytes as it takes or more. -/
inductive Compact (n : Nat) : Bytes → Prop
  | one (hn : n < 0xfd) : Compact n (littleEndian 1 n)
  | two (hn : n < 256 ^ 2) : Compact n (littleEndian 1 0xfd ++ littleEndian 2 n)
  | four (hn : n < 256 ^ 4) : Compact n (littleEndian 1 0xfe ++ littleEndian 4 n)
  | eight (hn : n < 256 ^ 8) : Compact n (littleEndian 1 0xff ++ littleEndian 8 n)

theorem compact_varint {n : Nat} (hn : n < 2 ^ 64) : Compact n (block.varint n) := by
  rw [block.varint]
  split_ifs with hone htwo hfour
  · have heq : [UInt8.ofNat n] = littleEndian 1 n := by simp [littleEndian]
    rw [heq]
    exact .one hone
  · exact .two (by omega)
  · exact .four (by omega)
  · exact .eight hn

theorem varint_parses : Parses varint (fun n bs => Compact n bs) := by
  have hwide := fun width => uint_parses width
  refine ((hwide 1).bind fun first => Parses.ite (fun _ => Parses.pure first) fun _ =>
    Parses.ite (c := first = 0xFD) (fun _ => hwide 2) fun _ =>
      Parses.ite (c := first = 0xFE) (fun _ => hwide 4) fun _ => hwide 8).congr fun n bs => ⟨?_, ?_⟩
  · rintro ⟨first, xs, ys, rfl, ⟨hfirst, rfl⟩, ⟨hone, rfl, rfl⟩ | ⟨hone, ⟨rfl, hn, rfl⟩ |
      ⟨htwo, ⟨rfl, hn, rfl⟩ | ⟨hfour, hn, rfl⟩⟩⟩⟩
    · rw [List.append_nil]
      exact .one hone
    · exact .two hn
    · exact .four hn
    · rw [show first = 0xff by omega]
      exact .eight hn
  · intro h
    cases h with
    | one hn => exact ⟨n, _, [], (List.append_nil _).symm, ⟨by omega, rfl⟩, .inl ⟨hn, rfl, rfl⟩⟩
    | two hn => exact ⟨0xfd, _, _, rfl, ⟨by decide, rfl⟩, .inr ⟨by decide, .inl ⟨rfl, hn, rfl⟩⟩⟩
    | four hn =>
      exact ⟨0xfe, _, _, rfl, ⟨by decide, rfl⟩, .inr ⟨by decide, .inr ⟨by decide, .inl ⟨rfl, hn, rfl⟩⟩⟩⟩
    | eight hn =>
      exact ⟨0xff, _, _, rfl, ⟨by decide, rfl⟩, .inr ⟨by decide, .inr ⟨by decide, .inr ⟨by decide, hn, rfl⟩⟩⟩⟩

/-- Bytes after their length. -/
def Sized (b bs : Bytes) : Prop := ∃ size, Compact b.length size ∧ bs = size ++ b

theorem varbytes_parses : Parses varbytes Sized := by
  refine ((varint_parses).bind fun n => Parses.take _ n).congr fun b bs => ⟨?_, ?_⟩
  · rintro ⟨n, xs, ys, rfl, hn, rfl, rfl⟩
    exact ⟨xs, hn, rfl⟩
  · rintro ⟨size, hsize, rfl⟩
    exact ⟨b.length, size, b, rfl, hsize, rfl, rfl⟩

/-! ### The parts of a transaction -/

/-- What is read of an input before its witness. -/
def CTxIn.shown (i : CTxIn) : TxIn where
  prev_txid := rhex i.hash.val
  prev_n := i.n.toNat
  script_sig_hex := hexOf i.scriptSig
  sequence := i.nSequence.toNat
  coinbase := i.hash.val = List.replicate 32 0 ∧ i.n.toNat = 0xFFFFFFFF

def CTxIn.shownWitness (i : CTxIn) : TxIn := { i.shown with witness := some (i.witness.map hexOf) }

def CTxOut.shown (o : CTxOut) : TxOut := ⟨o.nValue.toNat, hexOf o.scriptPubKey⟩

/-- An input as it is written, up to the length of its script. -/
def InputBytes (i : CTxIn) (bs : Bytes) : Prop :=
  ∃ script, Sized i.scriptSig script ∧
    bs = i.hash.val ++ (littleEndian 4 i.n.toNat ++ (script ++ littleEndian 4 i.nSequence.toNat))

def OutputBytes (o : CTxOut) (bs : Bytes) : Prop :=
  ∃ script, Sized o.scriptPubKey script ∧ bs = littleEndian 8 o.nValue.toNat ++ script

def WitnessBytes (i : CTxIn) (bs : Bytes) : Prop :=
  ∃ count items, Compact i.witness.length count ∧ Each Sized i.witness items ∧ bs = count ++ items

theorem uint32_parses : Parses (uint 4) (fun n bs => ∃ v : UInt32, n = v.toNat ∧ bs = littleEndian 4 v.toNat) := by
  refine (uint_parses 4).congr fun n bs => ⟨?_, ?_⟩
  · rintro ⟨hn, rfl⟩
    have hv : n = (UInt32.ofNat n).toNat := by
      rw [UInt32.toNat_ofNat']
      omega
    exact ⟨UInt32.ofNat n, hv, hv ▸ rfl⟩
  · rintro ⟨v, rfl, rfl⟩
    exact ⟨v.toNat_lt, rfl⟩

theorem readInput_parses :
    Parses readInput (fun t bs => ∃ i : CTxIn, t = i.shown ∧ i.witness = [] ∧ InputBytes i bs) := by
  refine ((Parses.take _ 32).bind fun prev_hash => (uint32_parses).bind fun prev_n =>
    (varbytes_parses).bind fun script => (uint32_parses).bind fun sequence => Parses.pure _).congr
      fun t bs => ⟨?_, ?_⟩
  · rintro ⟨h, xs, _, rfl, ⟨rfl, hlen⟩, _, _, _, rfl, ⟨n, rfl, rfl⟩, script, zs, _, rfl, hscript, _, _, _, rfl,
      ⟨seq, rfl, rfl⟩, rfl, rfl⟩
    exact ⟨⟨⟨h, hlen⟩, n, script, seq, []⟩, rfl, rfl, zs, hscript, by rw [List.append_nil]⟩
  · rintro ⟨i, rfl, -, zs, hscript, rfl⟩
    exact ⟨i.hash.val, i.hash.val, _, rfl, ⟨rfl, i.hash.property⟩, _, _, _, rfl, ⟨i.n, rfl, rfl⟩, i.scriptSig, zs,
      _, rfl, hscript, _, _, _, (List.append_nil _).symm, ⟨i.nSequence, rfl, rfl⟩, rfl, rfl⟩

theorem readOutput_parses : Parses readOutput (fun t bs => ∃ o : CTxOut, t = o.shown ∧ OutputBytes o bs) := by
  refine ((uint_parses 8).bind fun value => (varbytes_parses).bind fun script => Parses.pure _).congr
    fun t bs => ⟨?_, ?_⟩
  · rintro ⟨value, _, _, rfl, ⟨hvalue, rfl⟩, script, zs, _, rfl, hscript, rfl, rfl⟩
    have hv : value = (UInt64.ofNat value).toNat := by
      rw [UInt64.toNat_ofNat']
      omega
    refine ⟨⟨UInt64.ofNat value, script⟩, ?_, zs, hscript, ?_⟩
    · rw [CTxOut.shown, ← hv]
    · rw [List.append_nil, ← hv]
  · rintro ⟨o, rfl, zs, hscript, rfl⟩
    exact ⟨_, _, _, rfl, ⟨o.nValue.toNat_lt, rfl⟩, o.scriptPubKey, zs, [], (List.append_nil _).symm, hscript, rfl, rfl⟩

theorem readOutputs_parses :
    Parses readOutputs (fun ts bs => ∃ os : List CTxOut, ts = os.map CTxOut.shown ∧ os ≠ [] ∧
      ∃ count outs, Compact os.length count ∧ Each OutputBytes os outs ∧ bs = count ++ outs) := by
  refine ((varint_parses).bind fun n_out => Parses.ite (fun _ => Parses.fail _) fun _ =>
    (readOutput_parses).times n_out).congr fun ts bs => ⟨?_, ?_⟩
  · rintro ⟨n, count, outs, rfl, hcount, ⟨-, hfalse⟩ | ⟨hn, rfl, heach⟩⟩
    · exact hfalse.elim
    · obtain ⟨os, rfl, houts⟩ := each_map.mp heach
      rw [List.length_map] at hcount hn
      exact ⟨os, rfl, fun hnil => hn (by rw [hnil]; rfl), count, outs, hcount, houts, rfl⟩
  · rintro ⟨os, rfl, hne, count, outs, hcount, heach, rfl⟩
    exact ⟨os.length, count, outs, rfl, hcount, .inr ⟨by simpa using hne, by rw [List.length_map],
      each_map.mpr ⟨os, rfl, heach⟩⟩⟩

theorem readWitness_parses (entry : TxIn) :
    Parses (readWitness entry) (fun t bs => ∃ items : List Bytes, t = { entry with witness := some (items.map hexOf) } ∧
      ∃ count stack, Compact items.length count ∧ Each Sized items stack ∧ bs = count ++ stack) := by
  refine ((varint_parses).bind fun n => ((varbytes_parses).times n).bind fun items => Parses.pure _).congr
    fun t bs => ⟨?_, ?_⟩
  · rintro ⟨n, count, _, rfl, hcount, items, stack, _, rfl, ⟨rfl, heach⟩, rfl, rfl⟩
    exact ⟨items, rfl, count, stack, hcount, heach, by rw [List.append_nil]⟩
  · rintro ⟨items, rfl, count, stack, hcount, heach, rfl⟩
    exact ⟨items.length, count, stack, rfl, hcount, items, stack, [], (List.append_nil _).symm, ⟨rfl, heach⟩, rfl, rfl⟩

/-- The count of the inputs, after the marker and the flag when there is a witness. -/
def CountBytes (witnessed : Bool) (n : Nat) (bs : Bytes) : Prop :=
  if witnessed then ∃ zero count, Compact 0 zero ∧ Compact n count ∧ bs = zero ++ (littleEndian 1 1 ++ count)
  else Compact n bs

theorem readCount_parses : Parses readCount (fun p bs => p.2 ≠ 0 ∧ CountBytes p.1 p.2 bs) := by
  refine ((varint_parses).bind fun n_in => Parses.ite (fun _ => Parses.pure (false, n_in)) fun _ =>
    (uint_parses 1).bind fun flag => Parses.ite (fun _ => Parses.fail _) fun _ =>
      (varint_parses).bind fun n_in => Parses.ite (fun _ => Parses.fail _) fun _ => Parses.pure (true, n_in)).congr
        fun p bs => ⟨?_, ?_⟩
  · rintro ⟨n, xs, _, rfl, hn, ⟨hne, rfl, rfl⟩ | ⟨hzero, flag, _, _, rfl, ⟨-, rfl⟩, ⟨-, hfalse⟩ |
      ⟨hflag, n', count, _, rfl, hcount, ⟨-, hfalse⟩ | ⟨hne, rfl, rfl⟩⟩⟩⟩
    · exact ⟨hne, by rwa [List.append_nil]⟩
    · exact hfalse.elim
    · exact hfalse.elim
    · obtain rfl := not_not.mp hzero
      obtain rfl := not_not.mp hflag
      exact ⟨hne, xs, count, hn, hcount, by rw [List.append_nil]; rfl⟩
  · rintro ⟨hne, hcount⟩
    obtain ⟨witnessed, n⟩ := p
    cases witnessed with
    | false => exact ⟨n, bs, [], (List.append_nil _).symm, hcount, .inl ⟨hne, rfl, rfl⟩⟩
    | true =>
      obtain ⟨zero, count, hzero, hcount, rfl⟩ := hcount
      exact ⟨0, zero, _, rfl, hzero, .inr ⟨by simp, 1, _, _, rfl, ⟨by decide, rfl⟩, .inr ⟨by simp [SEGWIT_FLAG], n,
        count, [], (List.append_nil _).symm, hcount, .inr ⟨hne, rfl, rfl⟩⟩⟩⟩

/-- A transaction as it is written, with lengths of any form and a witness or none. -/
structure Wire (tx : CTransaction) (witnessed : Bool) (count ins outs wits : Bytes) : Prop where
  inputs : tx.vin ≠ []
  outputs : tx.vout ≠ []
  count : CountBytes witnessed tx.vin.length count
  ins : Each InputBytes tx.vin ins
  outs : ∃ size os, Compact tx.vout.length size ∧ Each OutputBytes tx.vout os ∧ outs = size ++ os
  wits : if witnessed then Each WitnessBytes tx.vin wits else wits = [] ∧ ∀ i ∈ tx.vin, i.witness = []

def wire (tx : CTransaction) (count ins outs wits : Bytes) : Bytes :=
  littleEndian 4 tx.version.toNat ++ (count ++ (ins ++ (outs ++ (wits ++ littleEndian 4 tx.nLockTime.toNat))))

/-- The string writes a transaction in some way, but it is not its serialisation: a length takes more
bytes than it needs, or there is a witness part in which all witnesses are empty. -/
def Padded (x : Bytes) : Prop :=
  ∃ tx witnessed count ins outs wits, Wire tx witnessed count ins outs wits ∧
    x = wire tx count ins outs wits ∧ tx.serialize ≠ x

/-- What the parser makes of a transaction. -/
def parsed (dsha256 : Bytes → Hash) (raw : Bytes) (tx : CTransaction) (witnessed : Bool) (stripped : Bytes) : Tx :=
  returned dsha256 raw stripped tx.version.toNat tx.nLockTime.toNat witnessed
    (tx.vin.map fun i => if witnessed then i.shownWitness else i.shown) (tx.vout.map CTxOut.shown)

/-- An input without its witness. -/
def CTxIn.bare (i : CTxIn) : CTxIn := { i with witness := [] }

theorem bare_bytes {vin : List CTxIn} {ins : Bytes} (h : Each InputBytes vin ins) :
    Each (fun (i : CTxIn) bs => i.witness = [] ∧ InputBytes i bs) (vin.map CTxIn.bare) ins := by
  induction h with
  | nil => exact .nil
  | cons ha _ ih => exact .cons ⟨rfl, ha⟩ ih

theorem inputs_bytes {vin : List CTxIn} {ins : Bytes}
    (h : Each (fun (i : CTxIn) bs => i.witness = [] ∧ InputBytes i bs) vin ins) :
    Each InputBytes vin ins ∧ ∀ i ∈ vin, i.witness = [] := by
  induction h with
  | nil => exact ⟨.nil, by simp⟩
  | cons hi _ ih =>
    refine ⟨.cons hi.2 ih.1, fun i hmem => ?_⟩
    rcases List.mem_cons.mp hmem with rfl | hmem
    · exact hi.1
    · exact ih.2 i hmem

theorem shown_bare (vin : List CTxIn) : (vin.map CTxIn.bare).map CTxIn.shown = vin.map CTxIn.shown := by
  rw [List.map_map]
  rfl

/-- The witnesses are read after all inputs. -/
theorem witness_bytes {vin : List CTxIn} {ins : Bytes} {ts : List TxIn} {wits : Bytes}
    (hins : Each (fun (i : CTxIn) bs => i.witness = [] ∧ InputBytes i bs) vin ins)
    (hwits : Through (fun (entry t : TxIn) bs => ∃ items : List Bytes,
      t = { entry with witness := some (items.map hexOf) } ∧
      ∃ count stack, Compact items.length count ∧ Each Sized items stack ∧ bs = count ++ stack)
      (vin.map CTxIn.shown) ts wits) :
    ∃ vin' : List CTxIn, vin'.length = vin.length ∧ ts = vin'.map CTxIn.shownWitness ∧ Each InputBytes vin' ins ∧
      Each WitnessBytes vin' wits := by
  induction hins generalizing ts wits with
  | nil =>
    cases hwits
    exact ⟨[], rfl, rfl, .nil, .nil⟩
  | @cons i vin xs ys hi _ ih =>
    cases hwits with
    | cons hfirst hrest =>
      obtain ⟨items, rfl, hstack⟩ := hfirst
      obtain ⟨vin', hlen, rfl, hins, hwits⟩ := ih hrest
      exact ⟨{ i with witness := items } :: vin', by simp [hlen], rfl, .cons hi.2 hins, .cons hstack hwits⟩

theorem through_shown {vin : List CTxIn} {wits : Bytes} (h : Each WitnessBytes vin wits) :
    Through (fun (entry t : TxIn) bs => ∃ items : List Bytes,
      t = { entry with witness := some (items.map hexOf) } ∧
      ∃ count stack, Compact items.length count ∧ Each Sized items stack ∧ bs = count ++ stack)
      ((vin.map CTxIn.bare).map CTxIn.shown) (vin.map CTxIn.shownWitness) wits := by
  induction h with
  | nil => exact .nil
  | cons hi _ ih => exact .cons ⟨_, rfl, hi⟩ ih

/-- What `parse_tx` cuts out of the bytes. -/
def strip (tx : CTransaction) (witnessed : Bool) (raw before : Bytes) : Bytes :=
  if witnessed then
    littleEndian 4 tx.version.toNat ++ before.drop 2 ++ littleEndian 4 tx.nLockTime.toNat
  else raw

/-- Every transaction that is written in some way is read. -/
theorem readTx_accepts (dsha256 : Bytes → Hash) {tx : CTransaction} {witnessed : Bool}
    {raw count ins outs wits : Bytes} (h : Wire tx witnessed count ins outs wits)
    (hraw : raw = wire tx count ins outs wits) :
    readTx dsha256 raw raw 0 =
      .ok (parsed dsha256 raw tx witnessed (strip tx witnessed raw (count ++ (ins ++ outs))), raw.length) := by
  have hat₀ : At raw 0 [] (littleEndian 4 tx.version.toNat ++
      (count ++ (ins ++ (outs ++ (wits ++ (littleEndian 4 tx.nLockTime.toNat ++ [])))))) :=
    ⟨by rw [hraw, wire, List.append_nil, List.nil_append], rfl⟩
  have hversion := (uint32_parses).run hat₀ ⟨tx.version, rfl, rfl⟩
  have hat₁ := hat₀.skip
  have hcount := (readCount_parses).run (a := (witnessed, tx.vin.length)) hat₁
    ⟨by simpa using h.inputs, h.count⟩
  have hat₂ := hat₁.skip
  have hins := ((readInput_parses).times tx.vin.length).run (a := tx.vin.map CTxIn.shown) hat₂
    ⟨List.length_map _, each_map.mpr ⟨_, (shown_bare tx.vin).symm, bare_bytes h.ins⟩⟩
  have hat₃ := hat₂.skip
  have houts := (readOutputs_parses).run hat₃ ⟨tx.vout, rfl, h.outputs, h.outs⟩
  have hat₄ := hat₃.skip
  have hwits : readWitnesses witnessed (tx.vin.map CTxIn.shown) raw
      (0 + (littleEndian 4 tx.version.toNat).length + count.length + ins.length + outs.length) =
        .ok (tx.vin.map fun i => if witnessed then i.shownWitness else i.shown,
          0 + (littleEndian 4 tx.version.toNat).length + count.length + ins.length + outs.length + wits.length) := by
    have hpart := h.wits
    cases witnessed with
    | true =>
      rw [← shown_bare]
      exact (Parses.each readWitness_parses _).run hat₄ (through_shown hpart)
    | false =>
      rw [hpart.1]
      rfl
  have hat₅ := hat₄.skip
  have hlock := (uint32_parses).run hat₅ ⟨tx.nLockTime, rfl, rfl⟩
  have hat₆ := hat₅.skip
  have hend : raw.length = 0 + (littleEndian 4 tx.version.toNat).length + count.length + ins.length + outs.length +
      wits.length + (littleEndian 4 tx.nLockTime.toNat).length := by
    rw [hat₆.pos, hat₆.split, List.append_nil]
  rw [readTx, Reader.bind_of_ok hversion, Reader.bind_of_ok hcount]
  dsimp only
  rw [Reader.bind_of_ok hins, Reader.bind_of_ok houts, Reader.bind_of_ok rfl, Reader.bind_of_ok hwits,
    Reader.bind_of_ok rfl, Reader.bind_of_ok hlock, Reader.bind_of_ok rfl, ← hend, Nat.sub_self,
    if_neg (not_not.mpr rfl)]
  have htake : ∀ {pos : Nat} {pre rest : Bytes}, At raw pos pre rest → raw.take pos = pre ∧ raw.drop pos = rest :=
    fun hat => ⟨by rw [hat.split, hat.pos, List.take_left], by rw [hat.split, hat.pos, List.drop_left]⟩
  have hstrip : stripped raw witnessed
      (0 + (littleEndian 4 tx.version.toNat).length + count.length + ins.length + outs.length)
      (0 + (littleEndian 4 tx.version.toNat).length + count.length + ins.length + outs.length + wits.length) =
        strip tx witnessed raw (count ++ (ins ++ outs)) := by
    have hfour : raw.take 4 = littleEndian 4 tx.version.toNat := by
      have := (htake hat₁).1
      rwa [length_littleEndian, List.nil_append] at this
    have hsix : ([] ++ littleEndian 4 tx.version.toNat ++ count ++ ins ++ outs).drop 6 =
        (count ++ (ins ++ outs)).drop 2 := by
      have hlen := length_littleEndian 4 tx.version.toNat
      rw [List.nil_append, List.append_assoc, List.append_assoc,
        show 6 = (littleEndian 4 tx.version.toNat).length + 2 by rw [hlen], List.drop_length_add_append]
    rw [stripped, strip, hfour, (htake hat₄).1, (htake hat₅).2, hsix, List.append_nil]
  rw [hstrip]
  rfl

/-- What is read was written in some way. -/
theorem readTx_sound {dsha256 : Bytes → Hash} {raw : Bytes} {t : Tx} {pos : Nat}
    (h : readTx dsha256 raw raw 0 = .ok (t, pos)) :
    ∃ tx witnessed count ins outs wits, Wire tx witnessed count ins outs wits ∧
      raw = wire tx count ins outs wits := by
  rw [readTx] at h
  obtain ⟨_, p₁, hversion, h⟩ := Reader.bind_eq_ok.mp h
  obtain ⟨bs₁, post₁, hsplit, ⟨version, rfl, rfl⟩, hat₁⟩ := (uint32_parses).step (At.start raw) hversion
  obtain ⟨⟨witnessed, n⟩, p₂, hcount, h⟩ := Reader.bind_eq_ok.mp h
  obtain ⟨count, post₂, rfl, ⟨hn, hcount⟩, hat₂⟩ := (readCount_parses).step hat₁ hcount
  obtain ⟨_, p₃, hins, h⟩ := Reader.bind_eq_ok.mp h
  obtain ⟨ins, post₃, rfl, ⟨hlen, hins⟩, hat₃⟩ := ((readInput_parses).times n).step hat₂ hins
  obtain ⟨vin, rfl, hvin⟩ := each_map.mp hins
  rw [List.length_map] at hlen
  obtain ⟨_, p₄, houts, h⟩ := Reader.bind_eq_ok.mp h
  obtain ⟨outs, post₄, rfl, ⟨vout, rfl, hvout, houts⟩, hat₄⟩ := (readOutputs_parses).step hat₃ houts
  obtain ⟨_, _, hstart, h⟩ := Reader.bind_eq_ok.mp h
  obtain ⟨rfl, rfl⟩ := Prod.mk.inj (Except.ok.inj hstart)
  obtain ⟨ts, p₅, hwits, h⟩ := Reader.bind_eq_ok.mp h
  obtain ⟨_, _, hstop, h⟩ := Reader.bind_eq_ok.mp h
  obtain ⟨rfl, rfl⟩ := Prod.mk.inj (Except.ok.inj hstop)
  obtain ⟨_, p₆, hlock, h⟩ := Reader.bind_eq_ok.mp h
  obtain ⟨_, _, hleft, h⟩ := Reader.bind_eq_ok.mp h
  obtain ⟨rfl, rfl⟩ := Prod.mk.inj (Except.ok.inj hleft)
  split at h
  case isTrue => cases h
  case isFalse hleft =>
    -- the witnesses, if there are any, and the inputs with them
    obtain ⟨vin', wits, post₅, hlen', hwire, rfl, hat₅⟩ : ∃ (vin' : List CTxIn) (wits post₅ : Bytes),
        vin'.length = vin.length ∧
        (Each InputBytes vin' ins ∧
          if witnessed then Each WitnessBytes vin' wits else wits = [] ∧ ∀ i ∈ vin', i.witness = []) ∧
        post₄ = wits ++ post₅ ∧
        At raw p₅ ([] ++ littleEndian 4 version.toNat ++ count ++ ins ++ outs ++ wits) post₅ := by
      cases witnessed with
      | true =>
        obtain ⟨wits, post₅, rfl, hthrough, hat₅⟩ := (Parses.each readWitness_parses _).step hat₄ hwits
        obtain ⟨vin', hlen', -, hins', hwits'⟩ := witness_bytes hvin hthrough
        exact ⟨vin', wits, post₅, hlen', ⟨hins', hwits'⟩, rfl, hat₅⟩
      | false =>
        obtain ⟨wits, post₅, rfl, ⟨-, rfl⟩, hat₅⟩ := (Parses.pure _).step hat₄ hwits
        exact ⟨vin, [], post₅, rfl, ⟨(inputs_bytes hvin).1, rfl, (inputs_bytes hvin).2⟩, rfl, hat₅⟩
    obtain ⟨bs₆, post₆, rfl, ⟨lock, rfl, rfl⟩, hat₆⟩ := (uint32_parses).step hat₅ hlock
    have hnil : post₆ = [] := by
      have hlast := congrArg List.length hat₆.split
      rw [List.length_append, ← hat₆.pos] at hlast
      exact List.eq_nil_of_length_eq_zero (by omega)
    have hne : vin' ≠ [] := by
      rintro rfl
      exact hn (by rw [← hlen, ← hlen']; rfl)
    refine ⟨⟨version, vin', vout, lock⟩, witnessed, count, ins, outs, wits,
      ⟨hne, hvout, ?_, hwire.1, houts, hwire.2⟩, ?_⟩
    · rwa [hlen', hlen]
    · rw [hsplit, hnil, wire, List.append_nil]

/-! ### The serialisation -/

theorem digitValue_digitChar {d : Nat} (hd : d < 16) : hex.digitValue (Nat.digitChar d) = d := by
  interval_cases d <;> rfl

theorem unhex_hexOf (b : Bytes) : unhex (hexOf b) = b := by
  rw [unhex, hexOf, String.toList_ofList]
  induction b with
  | nil => rfl
  | cons x b ih =>
    have hx := x.toNat_lt
    rw [List.flatMap_cons, List.cons_append, List.cons_append, List.nil_append, hex.decode, ih,
      digitValue_digitChar (by omega), digitValue_digitChar (by omega), Nat.div_add_mod]
    congr 1
    exact UInt8.ofNat_toNat

theorem unhex_rhex (b : Bytes) : (unhex (rhex b)).reverse = b := by
  rw [rhex, unhex_hexOf, List.reverse_reverse]

theorem reserialize_shown (witnessed : Bool) (i : CTxIn) :
    (if witnessed then i.shownWitness else i.shown).reserialize = i.serialize := by
  cases witnessed <;> simp [TxIn.reserialize, CTxIn.shownWitness, CTxIn.shown, CTxIn.serialize, unhex_rhex, unhex_hexOf]

theorem items_shown {witnessed : Bool} {i : CTxIn} (h : witnessed = false → i.witness = []) :
    (if witnessed then i.shownWitness else i.shown).items = i.witness := by
  cases witnessed with
  | true =>
    simp only [if_true, TxIn.items, CTxIn.shownWitness, Option.getD_some, List.map_map]
    exact (List.map_congr_left fun item _ => unhex_hexOf item).trans (List.map_id _)
  | false => rw [h rfl]; rfl

section

variable {dsha256 : Bytes → Hash} {raw before : Bytes} {tx : CTransaction} {witnessed : Bool}

theorem rebody_parsed : (parsed dsha256 raw tx witnessed before).rebody = tx.body := by
  have hout : ∀ o : CTxOut, o.shown.reserialize = o.serialize := fun o => by
    simp [TxOut.reserialize, CTxOut.shown, CTxOut.serialize, unhex_hexOf]
  simp only [Tx.rebody, parsed, returned, CTransaction.body, List.length_map, List.map_map]
  congr 3
  · exact List.map_congr_left fun i _ => reserialize_shown witnessed i
  · exact List.map_congr_left fun o _ => hout o

theorem reserialize_parsed (h : witnessed = false → ∀ i ∈ tx.vin, i.witness = []) :
    (parsed dsha256 raw tx witnessed before).reserializeNoWitness = tx.serializeNoWitness ∧
    (parsed dsha256 raw tx witnessed before).reserialize = tx.serialize := by
  have hitems : ∀ i ∈ tx.vin, (if witnessed then i.shownWitness else i.shown).items = i.witness :=
    fun i hi => items_shown fun hfalse => h hfalse i hi
  have hno : (parsed dsha256 raw tx witnessed before).reserializeNoWitness = tx.serializeNoWitness := by
    rw [Tx.reserializeNoWitness, rebody_parsed]
    rfl
  have hany : ((parsed dsha256 raw tx witnessed before).vin.any fun i => !i.items.isEmpty) = tx.hasWitness := by
    simp only [parsed, returned, CTransaction.hasWitness, List.any_map]
    rw [Bool.eq_iff_iff, List.any_eq_true, List.any_eq_true]
    refine exists_congr fun i => and_congr_right fun hi => ?_
    rw [Function.comp_apply, hitems i hi]
  refine ⟨hno, ?_⟩
  rw [Tx.reserialize, hany, CTransaction.serialize, hno, rebody_parsed]
  split
  case isTrue =>
    congr 2
    simp only [parsed, returned, List.map_map]
    refine congrArg List.flatten (List.map_congr_left fun i hi => ?_)
    rw [Function.comp_apply, TxIn.reserializeWitness, hitems i hi, CTxIn.serializeWitness]
  case isFalse => rfl

end

/-! ### Canonical strings -/

theorem le_flatten {α : Type} {f : α → Bytes} {as : List α} {a : α} (ha : a ∈ as) :
    (f a).length ≤ (as.map f).flatten.length :=
  (List.sublist_flatten_of_mem (List.mem_map_of_mem ha)).length_le

theorem length_le_flatten {α : Type} {f : α → Bytes} (hf : ∀ a, 1 ≤ (f a).length) (as : List α) :
    as.length ≤ (as.map f).flatten.length := by
  induction as with
  | nil => exact Nat.zero_le _
  | cons a as ih =>
    have ha := hf a
    rw [List.map_cons, List.flatten_cons, List.length_append, List.length_cons]
    omega

theorem sized_varint {b : Bytes} (hb : b.length < 2 ^ 64) : Sized b (block.varint b.length ++ b) :=
  ⟨_, compact_varint hb, rfl⟩

theorem inputBytes_serialize {i : CTxIn} (hi : i.serialize.length < 2 ^ 64) : InputBytes i i.serialize := by
  refine ⟨_, sized_varint ?_, ?_⟩
  · rw [CTxIn.serialize] at hi
    simp only [List.length_append] at hi
    omega
  · simp [CTxIn.serialize]

theorem outputBytes_serialize {o : CTxOut} (ho : o.serialize.length < 2 ^ 64) : OutputBytes o o.serialize := by
  refine ⟨_, sized_varint ?_, rfl⟩
  rw [CTxOut.serialize] at ho
  simp only [List.length_append] at ho
  omega

theorem length_varint_pos (n : Nat) : 1 ≤ (block.varint n).length := by
  rw [block.varint]
  split_ifs <;> simp

theorem witnessBytes_serialize {i : CTxIn} (hi : i.serializeWitness.length < 2 ^ 64) :
    WitnessBytes i i.serializeWitness := by
  rw [CTxIn.serializeWitness, List.length_append] at hi
  have hone : ∀ item, 1 ≤ (serializeItem item).length := fun item => by
    have := length_varint_pos item.length
    rw [serializeItem, List.length_append]
    omega
  refine ⟨_, _, compact_varint ?_, each_flatten fun item hitem => sized_varint ?_, rfl⟩
  · exact (length_le_flatten hone i.witness).trans_lt (by omega)
  · have hle := le_flatten (f := serializeItem) hitem
    rw [serializeItem, List.length_append] at hle
    omega

theorem witness_nil {tx : CTransaction} (h : tx.hasWitness = false) : ∀ i ∈ tx.vin, i.witness = [] := by
  intro i hi
  simpa using List.any_eq_false.mp h i hi

/-- A serialisation is written in lengths of the shortest form. -/
theorem wire_serialize {tx : CTransaction} (hvin : tx.vin ≠ []) (hvout : tx.vout ≠ [])
    (hsize : tx.serialize.length < 2 ^ 64) :
    ∃ count ins outs wits, Wire tx tx.hasWitness count ins outs wits ∧
      tx.serialize = wire tx count ins outs wits ∧
      strip tx tx.hasWitness tx.serialize (count ++ (ins ++ outs)) = tx.serializeNoWitness := by
  have hbody : tx.body.length < 2 ^ 64 := by
    rw [CTransaction.serialize] at hsize
    split at hsize
    case isTrue =>
      simp only [List.length_append] at hsize
      omega
    case isFalse =>
      simp only [CTransaction.serializeNoWitness, List.length_append] at hsize
      omega
  have hparts := hbody
  simp only [CTransaction.body, List.length_append] at hparts
  have hin : ∀ i : CTxIn, 1 ≤ i.serialize.length := fun i => by
    have := length_littleEndian 4 i.n.toNat
    simp only [CTxIn.serialize, List.length_append]
    omega
  have hout : ∀ o : CTxOut, 1 ≤ o.serialize.length := fun o => by
    have := length_littleEndian 8 o.nValue.toNat
    simp only [CTxOut.serialize, List.length_append]
    omega
  have hcount : Compact tx.vin.length (block.varint tx.vin.length) :=
    compact_varint ((length_le_flatten hin tx.vin).trans_lt (by omega))
  have hins : Each InputBytes tx.vin (tx.vin.map CTxIn.serialize).flatten :=
    each_flatten fun i hi => inputBytes_serialize ((le_flatten hi).trans_lt (by omega))
  have houts : ∃ size os, Compact tx.vout.length size ∧ Each OutputBytes tx.vout os ∧
      block.varint tx.vout.length ++ (tx.vout.map CTxOut.serialize).flatten = size ++ os :=
    ⟨_, _, compact_varint ((length_le_flatten hout tx.vout).trans_lt (by omega)),
      each_flatten fun o ho => outputBytes_serialize ((le_flatten ho).trans_lt (by omega)), rfl⟩
  cases hwitness : tx.hasWitness with
  | true =>
    have hwits : Each WitnessBytes tx.vin (tx.vin.map CTxIn.serializeWitness).flatten := by
      refine each_flatten fun i hi => witnessBytes_serialize ((le_flatten hi).trans_lt ?_)
      rw [CTransaction.serialize, if_pos hwitness] at hsize
      simp only [List.length_append] at hsize
      omega
    refine ⟨_, _, _, _, ⟨hvin, hvout, ⟨littleEndian 1 0, _, .one (by decide), hcount, rfl⟩, hins, houts, hwits⟩,
      ?_, ?_⟩
    · simp [CTransaction.serialize, hwitness, wire, CTransaction.body, littleEndian]
    · simp [strip, CTransaction.serializeNoWitness, CTransaction.body, littleEndian]
  | false =>
    refine ⟨_, _, _, [], ⟨hvin, hvout, hcount, hins, houts, rfl, witness_nil hwitness⟩, ?_, ?_⟩
    · simp [CTransaction.serialize, hwitness, wire, CTransaction.body, CTransaction.serializeNoWitness]
    · simp [strip, CTransaction.serialize, hwitness]

/-- The string is parsed when it is the serialisation of a transaction and not otherwise, and is named
by what it serialises. -/
def Faithful (dsha256 : Bytes → Hash) (x : Bytes) : Prop :=
  ((∃ t, parseTx dsha256 x = .ok t) ↔ Canonical x) ∧
  ∀ t, parseTx dsha256 x = .ok t →
    t.reserialize = x ∧ t.txid = rhex (dsha256 t.reserializeNoWitness).val ∧
    t.weight = t.reserializeNoWitness.length * 3 + t.reserialize.length ∧
    t.weight ≤ 4 * t.vsize ∧ 4 * t.vsize < t.weight + 4

section

variable {dsha256 : Bytes → Hash} {x : Bytes}

theorem parseTx_eq_ok (hmin : MIN_TX_BYTES ≤ x.length) (hmax : x.length ≤ MAX_TX_BYTES) {t : Tx} :
    parseTx dsha256 x = .ok t ↔ ∃ pos, readTx dsha256 x x 0 = .ok (t, pos) := by
  rw [parseTx, if_neg (by omega), if_neg (by omega)]
  cases readTx dsha256 x x 0 with
  | error e => simp [Except.map]
  | ok p => simp [Except.map, Prod.ext_iff]

theorem parseTx_serialize {tx : CTransaction} (hvin : tx.vin ≠ []) (hvout : tx.vout ≠ [])
    (hmin : MIN_TX_BYTES ≤ tx.serialize.length) (hmax : tx.serialize.length ≤ MAX_TX_BYTES) :
    parseTx dsha256 tx.serialize =
      .ok (parsed dsha256 tx.serialize tx tx.hasWitness tx.serializeNoWitness) := by
  obtain ⟨count, ins, outs, wits, hwire, hraw, hstrip⟩ :=
    wire_serialize hvin hvout (hmax.trans_lt (by decide))
  rw [← hstrip]
  exact (parseTx_eq_ok hmin hmax).mpr ⟨_, readTx_accepts dsha256 hwire hraw⟩

/-- The strings that are not as claimed. -/
theorem faithful_iff (hmin : MIN_TX_BYTES ≤ x.length) (hmax : x.length ≤ MAX_TX_BYTES) :
    Faithful dsha256 x ↔ ¬Padded x := by
  constructor
  · rintro ⟨-, hparse⟩ ⟨tx, witnessed, count, ins, outs, wits, hwire, hx, hdiff⟩
    have hread := readTx_accepts dsha256 hwire hx
    have hwits := hwire.wits
    have hnone : witnessed = false → ∀ i ∈ tx.vin, i.witness = [] := by
      rintro rfl
      exact hwits.2
    refine hdiff ?_
    rw [← (reserialize_parsed hnone).2]
    exact (hparse _ ((parseTx_eq_ok hmin hmax).mpr ⟨_, hread⟩)).1
  · intro hpadded
    have hcanonical : ∀ {t}, parseTx dsha256 x = .ok t →
        ∃ tx : CTransaction, tx.vin ≠ [] ∧ tx.vout ≠ [] ∧ tx.serialize = x := by
      intro t ht
      obtain ⟨pos, hread⟩ := (parseTx_eq_ok hmin hmax).mp ht
      obtain ⟨tx, witnessed, count, ins, outs, wits, hwire, hx⟩ := readTx_sound hread
      refine ⟨tx, hwire.inputs, hwire.outputs, ?_⟩
      by_contra hdiff
      exact hpadded ⟨tx, witnessed, count, ins, outs, wits, hwire, hx, hdiff⟩
    refine ⟨⟨fun ⟨t, ht⟩ => hcanonical ht, ?_⟩, fun t ht => ?_⟩
    · rintro ⟨tx, hvin, hvout, rfl⟩
      exact ⟨_, parseTx_serialize hvin hvout hmin hmax⟩
    · obtain ⟨tx, hvin, hvout, rfl⟩ := hcanonical ht
      obtain rfl := Except.ok.inj ((parseTx_serialize hvin hvout hmin hmax).symm.trans ht)
      have hno : (parsed dsha256 tx.serialize tx tx.hasWitness tx.serializeNoWitness).reserializeNoWitness =
          tx.serializeNoWitness := (reserialize_parsed witness_nil).1
      have hall : (parsed dsha256 tx.serialize tx tx.hasWitness tx.serializeNoWitness).reserialize =
          tx.serialize := (reserialize_parsed witness_nil).2
      rw [hno, hall]
      refine ⟨rfl, rfl, rfl, ?_⟩
      simp only [parsed, returned]
      omega

end

/-- `parse_tx` is faithful on the strings that are not padded, and on no others. -/
theorem parseTx_faithful_iff (sha256 : Bytes → Hash) {x : Bytes} (hmin : MIN_TX_BYTES ≤ x.length)
    (hmax : x.length ≤ MAX_TX_BYTES) : Faithful (dsha256 sha256) x ↔ ¬Padded x :=
  faithful_iff hmin hmax

/-- One input and one output; the number of inputs takes three bytes. -/
def longCount : Bytes :=
  [2, 0, 0, 0] ++ [0xfd, 1, 0] ++ (List.replicate 32 0xdd ++ [1, 0, 0, 0] ++ [0] ++ [255, 255, 255, 255]) ++
    ([1] ++ [0x88, 0x13, 0, 0, 0, 0, 0, 0] ++ [0]) ++ [0, 0, 0, 0]

def shortCount : Bytes :=
  [2, 0, 0, 0] ++ [1] ++ (List.replicate 32 0xdd ++ [1, 0, 0, 0] ++ [0] ++ [255, 255, 255, 255]) ++
    ([1] ++ [0x88, 0x13, 0, 0, 0, 0, 0, 0] ++ [0]) ++ [0, 0, 0, 0]

theorem parseTx_faithful_iff_short :
    Faithful (dsha256 fun _ => ⟨List.replicate 32 0, rfl⟩) shortCount ↔ ¬Padded shortCount :=
  parseTx_faithful_iff _ (by decide) (by decide)

/-- The string is accepted, under the hash of bytes that are not those of its transaction. -/
theorem parseTx_accepts_long_count :
    ¬Faithful (dsha256 fun _ => ⟨List.replicate 32 0, rfl⟩) longCount := by
  rintro ⟨-, h⟩
  have hrun : (parseTx (dsha256 fun _ => ⟨List.replicate 32 0, rfl⟩) longCount).toOption.map Tx.reserialize =
      some shortCount := by decide +kernel
  cases hparse : parseTx (dsha256 fun _ => ⟨List.replicate 32 0, rfl⟩) longCount with
  | error e =>
    rw [hparse] at hrun
    cases hrun
  | ok t =>
    rw [hparse] at hrun
    have hshort : t.reserialize = shortCount := Option.some.inj hrun
    have hdiff : shortCount ≠ longCount := by decide +kernel
    exact hdiff (hshort.symm.trans (h t hparse).1)

end pcoin.rawtx
