import PCoin.Codec.Radix
import PCoin.Hex.Basic
import PCoin.Js.Text
import PCoin.Pool.Block
import PCoin.Pow.Chain

/-! What a block is to the node, to the share validator and to the pool. -/

open pcoin.arith_uint256 pcoin.store

namespace js

/-- `parseInt(t, 16)`; `none` is `NaN`. -/
def parseInt16 (t : List Char) : Option Int :=
  let t := t.dropWhile isSpace
  let negative := t.head? = some '-'
  let t := if t.head? = some '-' ∨ t.head? = some '+' then t.drop 1 else t
  let t := if t.take 2 = ['0', 'x'] ∨ t.take 2 = ['0', 'X'] then t.drop 2 else t
  let digits := (t.takeWhile fun c => (hexValue c).isSome).filterMap hexValue
  if digits.isEmpty then none
  else some (if negative then -codec.number 16 digits else codec.number 16 digits)

/-- The number that the bit operators take, modulo `2 ^ 32`. -/
def toUint32 (n : Option Int) : UInt32 := UInt32.ofNat ((n.getD 0) % 2 ^ 32).toNat

/-- `Buffer.compare`. -/
def bufferCompare : Bytes → Bytes → Ordering
  | [], [] => .eq
  | [], _ :: _ => .lt
  | _ :: _, [] => .gt
  | x :: xs, y :: ys => (compare x y).then (bufferCompare xs ys)

end js

namespace pcoin.pow

/-- `ReadLE32` of each four bytes in turn. -/
def readLimbs : Bytes → List UInt32
  | a :: b :: c :: d :: rest =>
    .ofNat (a.toNat + 256 * b.toNat + 256 ^ 2 * c.toNat + 256 ^ 3 * d.toNat) :: readLimbs rest
  | _ => []

theorem length_readLimbs (bytes : Bytes) : (readLimbs bytes).length = bytes.length / 4 := by
  induction bytes using readLimbs.induct with
  | case1 a b c d rest ih =>
    simp only [readLimbs, List.length_cons, ih]
    omega
  | case2 bytes hshort =>
    match bytes, hshort with
    | [], _ | [_], _ | [_, _], _ | [_, _, _], _ => simp [readLimbs]
    | a :: b :: c :: d :: rest, hshort => exact absurd rfl (hshort a b c d rest)

/-- `UintToArith256`. -/
def uintToArith256 (a : block.Hash) : ArithUint256 :=
  ⟨readLimbs a.val, by rw [length_readLimbs, a.property]⟩

/-- `CheckProofOfWorkImpl`. -/
def checkProofOfWorkImpl (hash : block.Hash) (nBits : UInt32) (powLimit : ArithUint256) : Bool :=
  match deriveTarget nBits powLimit with
  | none => false
  | some bnTarget => !(uintToArith256 hash).gt bnTarget

end pcoin.pow

namespace pcoin.validate

/-- The 32 bytes that `bits_to_target` and `bitsToTarget` fill in. -/
def fillTarget (bits : UInt32) : Bytes :=
  let exponent := (bits >>> 24).toNat
  let mantissa := bits &&& 0x007fffff
  let target := List.replicate 32 0
  if exponent ≤ 3 then
    let m := mantissa >>> UInt32.ofNat (8 * (3 - exponent))
    let target := target.set 31 (m &&& 0xff).toUInt8
    let target := if exponent ≥ 2 then target.set 30 (m >>> 8 &&& 0xff).toUInt8 else target
    if exponent ≥ 3 then target.set 29 (m >>> 16 &&& 0xff).toUInt8 else target
  else
    -- the index of the top byte of the mantissa
    let i : Int := 32 - exponent
    if i ≥ 0 ∧ i + 2 < 32 then
      ((target.set i.toNat (mantissa >>> 16 &&& 0xff).toUInt8).set (i.toNat + 1)
        (mantissa >>> 8 &&& 0xff).toUInt8).set (i.toNat + 2) (mantissa &&& 0xff).toUInt8
    else target

/-- `bits_to_target`. -/
def bits_to_target (bits : UInt32) : Bytes := fillTarget bits

/-- `hash_le_target` from byte `i - 1` of the hash down. -/
def hashLeFrom (hash target_be : Bytes) : Nat → Bool
  | 0 => true
  | i + 1 =>
    let h := hash.getD i 0
    let t := target_be.getD (31 - i) 0
    if h < t then true else if h > t then false else hashLeFrom hash target_be i

/-- `hash_le_target`. -/
def hash_le_target (hash : block.Hash) (target_be : Bytes) : Bool := hashLeFrom hash.val target_be 32

/-- `print_hash_be`. -/
def print_hash_be (hash : block.Hash) : List Char :=
  hash.val.reverse.flatMap fun b => [Nat.digitChar (b.toNat / 16), Nat.digitChar (b.toNat % 16)]

end pcoin.validate

namespace pcoin.block

/-- The `bits` of a block template: `%08x`. -/
def hexBits (nBits : UInt32) : List Char :=
  (List.range 8).map fun i => Nat.digitChar (nBits.toNat / 16 ^ (7 - i) % 16)

/-- `bitsToTarget` as the pool calls it, with the hex text of a template. -/
def bitsToTargetBytes (bitsHex : List Char) : Bytes :=
  validate.fillTarget (js.toUint32 (js.parseInt16 bitsHex))

/-- The filter of `handleSubmit`, for the hash the validator printed: a hash that cannot be
read falls through to the validator. -/
def mightBeBlock (hash : List Char) (netTarget : Bytes) : Bool :=
  if hash.length = 64 ∧ hash.all hex.isLower then
    js.bufferCompare (hex.decode hash) netTarget != .gt
  else true

end pcoin.block

namespace pcoin.pow

theorem value_readLimbs {bytes : Bytes} (h : 4 ∣ bytes.length) :
    limb.value (readLimbs bytes) = codec.bigEndian bytes.reverse := by
  induction bytes using readLimbs.induct with
  | case1 a b c d rest ih =>
    have hrest : 4 ∣ rest.length := by
      simp only [List.length_cons] at h
      omega
    have hsplit : (a :: b :: c :: d :: rest).reverse = rest.reverse ++ [d, c, b, a] := by simp
    have ha := a.toNat_lt
    have hb := b.toNat_lt
    have hc := c.toNat_lt
    have hd := d.toNat_lt
    rw [readLimbs, limb.value_cons, ih hrest, hsplit, codec.bigEndian_append, UInt32.toNat_ofNat',
      Nat.mod_eq_of_lt (by omega)]
    simp [codec.bigEndian, codec.number, Nat.ofDigits_cons]
    omega
  | case2 bytes hshort =>
    rcases bytes with _ | ⟨a, _ | ⟨b, _ | ⟨c, _ | ⟨d, rest⟩⟩⟩⟩
    · rfl
    · simp at h
    · simp at h
    · simp at h
    · exact absurd rfl (hshort a b c d rest)

theorem toNat_uintToArith256 (hash : block.Hash) :
    (uintToArith256 hash).toNat = codec.bigEndian hash.val.reverse :=
  value_readLimbs (by rw [hash.property]; decide)

/-- The consensus check compares the hash, read from its last byte down. -/
theorem checkProofOfWorkImpl_iff {nBits : UInt32} {powLimit target : ArithUint256}
    (h : deriveTarget nBits powLimit = some target) (hash : block.Hash) :
    checkProofOfWorkImpl hash nBits powLimit = true ↔
      codec.bigEndian hash.val.reverse ≤ target.toNat := by
  simp only [checkProofOfWorkImpl, h, Bool.not_eq_true', ← Bool.not_eq_true, ArithUint256.gt_iff,
    toNat_uintToArith256, not_lt]

end pcoin.pow

namespace pcoin.validate

theorem length_fillTarget (bits : UInt32) : (fillTarget bits).length = 32 := by
  simp only [fillTarget]
  split
  · split <;> split <;> simp
  · split <;> simp

/-- The loop compares what is left of the hash, from its last byte down, with what is
left of the target. -/
theorem hashLeFrom_iff {hash target_be : Bytes} (hhash : hash.length = 32)
    (htarget : target_be.length = 32) {i : Nat} (hi : i ≤ 32) :
    hashLeFrom hash target_be i = true ↔
      codec.bigEndian (hash.take i).reverse ≤ codec.bigEndian (target_be.drop (32 - i)) := by
  induction i with
  | zero => simp [hashLeFrom, codec.bigEndian]
  | succ i ih =>
    have hstep : 32 - (i + 1) = 31 - i := by omega
    have hhead : (hash.take (i + 1)).reverse = hash.getD i 0 :: (hash.take i).reverse := by
      rw [List.take_succ_eq_append_getElem (by omega), List.reverse_append,
        List.getD_eq_getElem _ _ (by omega)]
      rfl
    have htail : target_be.drop (31 - i) = target_be.getD (31 - i) 0 :: target_be.drop (32 - i) := by
      rw [List.drop_eq_getElem_cons (by omega), List.getD_eq_getElem _ _ (by omega),
        show 31 - i + 1 = 32 - i by omega]
    rw [hstep, hhead, htail, codec.bigEndian_cons_le_iff (by simp; omega), ← ih (by omega),
      hashLeFrom]
    generalize hash.getD i 0 = h
    generalize target_be.getD (31 - i) 0 = t
    split
    · rename_i hlt
      simp [hlt]
    · split
      · rename_i hlt hgt
        have hne : h ≠ t := (UInt8.ne_of_lt hgt).symm
        simp [hlt, hne]
      · rename_i hlt hgt
        have heq : h = t := UInt8.le_antisymm (UInt8.not_lt.mp hgt) (UInt8.not_lt.mp hlt)
        simp [heq]

theorem hash_le_target_iff (hash : block.Hash) {target_be : Bytes} (h : target_be.length = 32) :
    hash_le_target hash target_be = true ↔
      codec.bigEndian hash.val.reverse ≤ codec.bigEndian target_be := by
  rw [hash_le_target, hashLeFrom_iff hash.property h (le_refl 32),
    List.take_of_length_le hash.property.le, Nat.sub_self, List.drop_zero]

/-- Three bytes written into a zeroed buffer. -/
theorem set_three {i : Nat} (h : i ≤ 29) (a b c : UInt8) :
    (((List.replicate 32 (0 : UInt8)).set i a).set (i + 1) b).set (i + 2) c =
      List.replicate i 0 ++ [a, b, c] ++ List.replicate (29 - i) 0 := by
  have hsplit : List.replicate 32 (0 : UInt8) =
      List.replicate i 0 ++ 0 :: 0 :: 0 :: List.replicate (29 - i) 0 := by
    rw [← List.replicate_succ, ← List.replicate_succ, ← List.replicate_succ,
      ← List.replicate_add]
    congr 1
    omega
  rw [hsplit]
  simp

theorem toNat_low (x : UInt32) : (x &&& 0xff).toUInt8.toNat = x.toNat % 256 := by
  rw [UInt32.toNat_toUInt8, UInt32.toNat_and]
  have hmask : x.toNat &&& (0xff : UInt32).toNat = x.toNat % 2 ^ 8 :=
    Nat.and_two_pow_sub_one_eq_mod x.toNat 8
  rw [hmask]
  omega

theorem toNat_high (x : UInt32) (k : Nat) (hk : k < 32) :
    (x >>> UInt32.ofNat k &&& 0xff).toUInt8.toNat = x.toNat / 2 ^ k % 256 := by
  rw [toNat_low, UInt32.toNat_shiftRight, UInt32.toNat_ofNat', Nat.shiftRight_eq_div_pow,
    Nat.mod_eq_of_lt (show k < 2 ^ 32 by omega), Nat.mod_eq_of_lt hk]

theorem bigEndian_three (a b c : UInt8) :
    codec.bigEndian [a, b, c] = a.toNat * 256 ^ 2 + b.toNat * 256 + c.toNat := by
  simp [codec.bigEndian, codec.number, Nat.ofDigits_cons]
  omega

/-- The 32 bytes spell the number that `bitsToTarget` stands for. -/
theorem bigEndian_fillTarget (bits : UInt32) :
    codec.bigEndian (fillTarget bits) = block.bitsToTarget bits := by
  have hexponent : (bits >>> 24).toNat = bits.toNat / 2 ^ 24 := by
    rw [UInt32.toNat_shiftRight, Nat.shiftRight_eq_div_pow]
    rfl
  have hmantissa : (bits &&& 0x007fffff).toNat = bits.toNat % 2 ^ 23 := by
    rw [UInt32.toNat_and]
    exact Nat.and_two_pow_sub_one_eq_mod bits.toNat 23
  simp only [fillTarget, block.bitsToTarget, hexponent]
  generalize bits.toNat / 2 ^ 24 = e
  generalize bits &&& 0x007fffff = mantissa at hmantissa ⊢
  rw [← hmantissa]
  have hlt : mantissa.toNat < 2 ^ 23 := by omega
  split
  · rename_i hsmall
    have hm : (mantissa >>> UInt32.ofNat (8 * (3 - e))).toNat = mantissa.toNat / 256 ^ (3 - e) := by
      rw [UInt32.toNat_shiftRight, UInt32.toNat_ofNat', Nat.shiftRight_eq_div_pow,
        Nat.mod_eq_of_lt (show 8 * (3 - e) < 2 ^ 32 by omega),
        Nat.mod_eq_of_lt (show 8 * (3 - e) < 32 by omega), pow_mul]
      norm_num
    rw [← hm]
    have hbound : mantissa.toNat / 256 ^ (3 - e) * 256 ^ (3 - e) ≤ mantissa.toNat :=
      Nat.div_mul_le_self _ _
    rw [← hm] at hbound
    generalize mantissa >>> UInt32.ofNat (8 * (3 - e)) = m at hbound ⊢
    have hlow := toNat_low m
    have hmid : (m >>> 8 &&& 0xff).toUInt8.toNat = m.toNat / 2 ^ 8 % 256 := toNat_high m 8 (by decide)
    have hhigh : (m >>> 16 &&& 0xff).toUInt8.toNat = m.toNat / 2 ^ 16 % 256 :=
      toNat_high m 16 (by decide)
    have hbuffer : ∀ a b c : UInt8, codec.bigEndian (List.replicate 29 0 ++ [a, b, c]) =
        a.toNat * 256 ^ 2 + b.toNat * 256 + c.toNat := by
      intro a b c
      rw [codec.bigEndian_append, codec.bigEndian_replicate_zero, bigEndian_three]
      omega
    interval_cases e
    · refine (hbuffer 0 0 _).trans ?_
      simp only [UInt8.toNat_zero]
      omega
    · refine (hbuffer 0 0 _).trans ?_
      simp only [UInt8.toNat_zero]
      omega
    · refine (hbuffer 0 _ _).trans ?_
      simp only [UInt8.toNat_zero]
      omega
    · refine (hbuffer _ _ _).trans ?_
      omega
  · rename_i hlarge
    split
    · rename_i hin
      obtain ⟨hle, _⟩ := hin
      have hi : (32 - (e : Int)).toNat = 32 - e := by omega
      have hlow := toNat_low mantissa
      have hmid : (mantissa >>> 8 &&& 0xff).toUInt8.toNat = mantissa.toNat / 2 ^ 8 % 256 :=
        toNat_high mantissa 8 (by decide)
      have hhigh : (mantissa >>> 16 &&& 0xff).toUInt8.toNat = mantissa.toNat / 2 ^ 16 % 256 :=
        toNat_high mantissa 16 (by decide)
      have hdigits : mantissa.toNat / 2 ^ 16 % 256 * 256 ^ 2 + mantissa.toNat / 2 ^ 8 % 256 * 256 +
          mantissa.toNat % 256 = mantissa.toNat := by omega
      rw [hi, set_three (by omega), if_pos (by omega), codec.bigEndian_append, codec.bigEndian_append,
        codec.bigEndian_replicate_zero, codec.bigEndian_replicate_zero, bigEndian_three, hlow, hmid,
        hhigh, hdigits, List.length_replicate, show 29 - (32 - e) = e - 3 by omega, Nat.zero_mul,
        Nat.zero_add, Nat.add_zero]
    · rename_i hout
      rw [if_neg (by omega)]
      exact codec.bigEndian_replicate_zero 32

end pcoin.validate

namespace js

/-- On buffers of one length `Buffer.compare` orders them as the numbers they spell. -/
theorem bufferCompare_ne_gt_iff {xs ys : Bytes} (hlen : xs.length = ys.length) :
    bufferCompare xs ys ≠ .gt ↔ codec.bigEndian xs ≤ codec.bigEndian ys := by
  induction xs generalizing ys with
  | nil =>
    obtain rfl := List.length_eq_zero_iff.mp hlen.symm
    simp [bufferCompare]
  | cons x xs ih =>
    cases ys with
    | nil => simp at hlen
    | cons y ys =>
      have htail : xs.length = ys.length := by simpa using hlen
      have hcompare : compare x y = if x < y then .lt else if x = y then .eq else .gt := rfl
      rw [codec.bigEndian_cons_le_iff htail, ← ih htail, bufferCompare, hcompare]
      split
      · rename_i hlt
        simp [hlt]
      · split
        · rename_i hlt heq
          simp [heq]
        · rename_i hlt hne
          simp [hlt, hne]

/-- What `parseInt` sees in a lower-case hexadecimal digit. -/
theorem digitChar_facts : ∀ d < 16, isSpace (Nat.digitChar d) = false ∧ Nat.digitChar d ≠ '-' ∧
    Nat.digitChar d ≠ '+' ∧ Nat.digitChar d ≠ 'x' ∧ Nat.digitChar d ≠ 'X' ∧
      hexValue (Nat.digitChar d) = some d := by decide

/-- A text of lower-case hexadecimal digits is read whole. -/
theorem parseInt16_map_digitChar {digits : List Nat} (hne : digits ≠ []) (h : ∀ d ∈ digits, d < 16) :
    parseInt16 (digits.map Nat.digitChar) = some (codec.number 16 digits : Int) := by
  have hvalues : (digits.map Nat.digitChar).filterMap hexValue = digits := by
    rw [List.filterMap_map, List.filterMap_congr (g := some), List.filterMap_some]
    intro d hd
    exact (digitChar_facts d (h d hd)).2.2.2.2.2
  have htake : ((digits.map Nat.digitChar).takeWhile fun c => (hexValue c).isSome) =
      digits.map Nat.digitChar := by
    rw [List.takeWhile_eq_self_iff]
    intro c hc
    obtain ⟨d, hd, rfl⟩ := List.mem_map.mp hc
    simp [(digitChar_facts d (h d hd)).2.2.2.2.2]
  cases digits with
  | nil => exact absurd rfl hne
  | cons d digits =>
    obtain ⟨hspace, hminus, hplus, -, -, -⟩ := digitChar_facts d (h d (by simp))
    have hprefix : ∀ x, x = 'x' ∨ x = 'X' →
        ((d :: digits).map Nat.digitChar).take 2 ≠ ['0', x] := by
      intro x hx htaken
      cases digits with
      | nil => simp at htaken
      | cons e digits =>
        obtain ⟨-, -, -, hlower, hupper, -⟩ := digitChar_facts e (h e (by simp))
        simp only [List.map_cons, List.take_succ_cons, List.take_zero, List.cons.injEq,
          and_true] at htaken
        rcases hx with rfl | rfl
        · exact hlower htaken.2
        · exact hupper htaken.2
    have hdrop : ((d :: digits).map Nat.digitChar).dropWhile isSpace =
        (d :: digits).map Nat.digitChar := by
      rw [List.map_cons, List.dropWhile_cons, hspace]
      simp
    have hhead : ((d :: digits).map Nat.digitChar).head? = some (Nat.digitChar d) := rfl
    simp only [parseInt16, hdrop, hhead, Option.some.injEq, hminus, hplus, or_self, if_false,
      hprefix 'x' (.inl rfl), hprefix 'X' (.inr rfl), htake, hvalues, List.isEmpty_cons,
      Bool.false_eq_true]

end js

namespace pcoin.block

theorem isLower_digitChar : ∀ d < 16, hex.isLower (Nat.digitChar d) = true := by decide

theorem digitValue_digitChar : ∀ d < 16, hex.digitValue (Nat.digitChar d) = d := by decide

/-- The validator prints the hash from its last byte down, and the pool reads it back. -/
theorem decode_print_hash_be (hash : Hash) :
    (validate.print_hash_be hash).length = 64 ∧ (validate.print_hash_be hash).all hex.isLower = true ∧
      hex.decode (validate.print_hash_be hash) = hash.val.reverse := by
  have hgen (bytes : Bytes) :
      (bytes.flatMap fun b => [Nat.digitChar (b.toNat / 16), Nat.digitChar (b.toNat % 16)]).length =
        2 * bytes.length ∧
      (bytes.flatMap fun b => [Nat.digitChar (b.toNat / 16), Nat.digitChar (b.toNat % 16)]).all
        hex.isLower = true ∧
      hex.decode (bytes.flatMap fun b =>
        [Nat.digitChar (b.toNat / 16), Nat.digitChar (b.toNat % 16)]) = bytes := by
    induction bytes with
    | nil => exact ⟨rfl, rfl, rfl⟩
    | cons b bytes ih =>
      have hb := b.toNat_lt
      have hhigh : b.toNat / 16 < 16 := by omega
      have hlow : b.toNat % 16 < 16 := by omega
      obtain ⟨hlen, hall, hdecode⟩ := ih
      refine ⟨?_, ?_, ?_⟩
      · simp only [List.flatMap_cons, List.length_append, hlen, List.length_cons, List.length_nil]
        omega
      · simp [List.flatMap_cons, hall, isLower_digitChar _ hhigh, isLower_digitChar _ hlow]
      · simp only [List.flatMap_cons, List.cons_append, List.nil_append, hex.decode, hdecode,
          digitValue_digitChar _ hhigh, digitValue_digitChar _ hlow, Nat.div_add_mod,
          UInt8.ofNat_toNat]
  obtain ⟨hlen, hall, hdecode⟩ := hgen hash.val.reverse
  exact ⟨by rw [List.length_reverse, hash.property] at hlen; exact hlen, hall, hdecode⟩

/-- The template's text reads back as the `nBits` it was printed from. -/
theorem parse_hexBits (nBits : UInt32) : js.toUint32 (js.parseInt16 (hexBits nBits)) = nBits := by
  have hmap : hexBits nBits =
      ((List.range 8).map fun i => nBits.toNat / 16 ^ (7 - i) % 16).map Nat.digitChar := by
    rw [hexBits, List.map_map]
    rfl
  have hnumber : codec.number 16 ((List.range 8).map fun i => nBits.toNat / 16 ^ (7 - i) % 16) =
      nBits.toNat := by
    have := nBits.toNat_lt
    simp [codec.number, List.range_succ, Nat.ofDigits_cons]
    omega
  rw [hmap, js.parseInt16_map_digitChar (by simp) (fun d hd => ?_), hnumber, js.toUint32]
  · apply UInt32.toNat_inj.mp
    have := nBits.toNat_lt
    simp only [Option.getD_some, UInt32.toNat_ofNat']
    omega
  · obtain ⟨i, _, rfl⟩ := List.mem_map.mp hd
    exact Nat.mod_lt _ (by decide)

theorem bitsToTargetBytes_hexBits (nBits : UInt32) :
    bitsToTargetBytes (hexBits nBits) = validate.bits_to_target nBits := by
  rw [bitsToTargetBytes, parse_hexBits, validate.bits_to_target]

/-- The filter and the validator decide alike. -/
theorem mightBeBlock_iff (hash : Hash) {netTarget : Bytes} (h : netTarget.length = 32) :
    mightBeBlock (validate.print_hash_be hash) netTarget = validate.hash_le_target hash netTarget := by
  obtain ⟨hlen, hall, hdecode⟩ := decode_print_hash_be hash
  rw [mightBeBlock, if_pos ⟨hlen, hall⟩, hdecode, Bool.eq_iff_iff, bne_iff_ne,
    js.bufferCompare_ne_gt_iff (by rw [List.length_reverse, hash.property, h]),
    validate.hash_le_target_iff hash h]

end pcoin.block

namespace pcoin.pool

open block validate pow

/-- The node, the validator, the pool's filter and the validator on the pool's own target take
the same view of a hash. -/
structure Agree (powLimit : ArithUint256) (nBits : UInt32) (hash : Hash) : Prop where
  validator : hash_le_target hash (bits_to_target nBits) = checkProofOfWorkImpl hash nBits powLimit
  filter : mightBeBlock (print_hash_be hash) (bitsToTargetBytes (hexBits nBits)) =
    checkProofOfWorkImpl hash nBits powLimit
  submit : hash_le_target hash (bitsToTargetBytes (hexBits nBits)) =
    checkProofOfWorkImpl hash nBits powLimit

/-- The pool's three predicates never part from one another. -/
theorem agree_iff_validator {powLimit : ArithUint256} {nBits : UInt32} {hash : Hash} :
    Agree powLimit nBits hash ↔
      hash_le_target hash (bits_to_target nBits) = checkProofOfWorkImpl hash nBits powLimit := by
  have hbytes := bitsToTargetBytes_hexBits nBits
  have hfilter := mightBeBlock_iff hash (length_fillTarget nBits)
  refine ⟨Agree.validator, fun h => ⟨h, ?_, by rw [hbytes, h]⟩⟩
  rw [hbytes, ← h]
  exact hfilter

/-- An accepted target is the one the pool decodes, unless the exponent puts the mantissa
past the top of the buffer: then the pool's target is zero. -/
theorem bitsToTarget_of_derive {powLimit target : ArithUint256} {nBits : UInt32}
    (h : deriveTarget nBits powLimit = some target) :
    bitsToTarget nBits = if nBits.toNat / 2 ^ 24 ≤ 32 then target.toNat else 0 := by
  obtain ⟨_, hval, _, _⟩ := deriveTarget_eq_some h
  rw [hval, lwma_ref.set_compact_eq, bitsToTarget]
  split
  · rw [if_pos (by omega)]
  · rename_i hlarge
    split
    · rename_i hle
      have hpow : 256 ^ (nBits.toNat / 2 ^ 24 - 3) ≤ 256 ^ 29 :=
        Nat.pow_le_pow_right (by decide) (by omega)
      have hmantissa : nBits.toNat % 2 ^ 23 < 2 ^ 23 := Nat.mod_lt _ (by decide)
      have hmul := Nat.mul_le_mul_left (nBits.toNat % 2 ^ 23) hpow
      rw [Nat.mod_eq_of_lt (hmul.trans_lt (by omega))]
    · rfl

/-- What a block is to the pool is what it is to the node exactly for the `nBits` whose
exponent is at most 32. -/
theorem block_views_agree_iff {powLimit target : ArithUint256} {nBits : UInt32}
    (h : deriveTarget nBits powLimit = some target) :
    (∀ hash, Agree powLimit nBits hash) ↔ nBits.toNat / 2 ^ 24 ≤ 32 := by
  have hvalue := bitsToTarget_of_derive h
  have hpool (hash : Hash) : hash_le_target hash (bits_to_target nBits) = true ↔
      codec.bigEndian hash.val.reverse ≤ bitsToTarget nBits := by
    rw [bits_to_target, hash_le_target_iff hash (length_fillTarget nBits), bigEndian_fillTarget]
  constructor
  · intro hagree
    by_contra hlarge
    rw [if_neg hlarge] at hvalue
    -- the hash that reads as one
    have hone : codec.bigEndian ((1 : UInt8) :: List.replicate 31 0).reverse = 1 := by decide
    have hview := (hagree ⟨1 :: List.replicate 31 0, rfl⟩).validator
    rw [Bool.eq_iff_iff, hpool, checkProofOfWorkImpl_iff h, hvalue, hone] at hview
    have hpos := (deriveTarget_eq_some h).2.2.1
    omega
  · intro hsmall hash
    rw [if_pos hsmall] at hvalue
    rw [agree_iff_validator, Bool.eq_iff_iff, hpool, checkProofOfWorkImpl_iff h, hvalue]

/-- The original target of the chain. -/
theorem block_views_agree_original :
    deriveTarget 0x1d00ffff mainParams.powLimit = some (setCompact 0x1d00ffff).value ∧
      ∀ hash, Agree mainParams.powLimit 0x1d00ffff hash := by
  have htarget : deriveTarget 0x1d00ffff mainParams.powLimit =
      some (setCompact 0x1d00ffff).value := by decide +kernel
  exact ⟨htarget, (block_views_agree_iff htarget).mpr (by decide)⟩

/-- A target of `2 ^ 240`, written with its mantissa in the lowest byte: the node accepts a
hash that reads as one, and the pool takes it for no block. -/
theorem block_views_part : (∃ target, deriveTarget 0x21000001 mainParams.powLimit = some target) ∧
    mainParams.powLimit.toNat < 2 ^ 255 ∧
    checkProofOfWorkImpl ⟨1 :: List.replicate 31 0, rfl⟩ 0x21000001 mainParams.powLimit = true ∧
    hash_le_target ⟨1 :: List.replicate 31 0, rfl⟩ (bits_to_target 0x21000001) = false ∧
    mightBeBlock (print_hash_be ⟨1 :: List.replicate 31 0, rfl⟩)
      (bitsToTargetBytes (hexBits 0x21000001)) = false := by
  refine ⟨⟨(setCompact 0x21000001).value, ?_⟩, ?_, ?_, ?_, ?_⟩ <;> decide +kernel

end pcoin.pool
