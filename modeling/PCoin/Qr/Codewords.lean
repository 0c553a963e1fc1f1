import PCoin.Codec.Bits
import PCoin.Codec.Interleave
import PCoin.Qr.Field

/-! The codewords of `qr.mjs`: a text's bytes, framed and padded, in blocks with their error correction. -/

namespace pcoin.qr

section Model

def rsGenerator (degree : Nat) : List UInt8 :=
  (List.range degree).foldl
    (fun poly i => List.zipWith (· ^^^ ·) (poly ++ [0]) (0 :: poly.map fun c => mul c (EXP i))) [1]

def rsEncode (data : List UInt8) (ecLen : Nat) : List UInt8 :=
  let gen := rsGenerator ecLen
  data.foldl (fun res byte =>
    let factor := byte ^^^ res.headD 0
    List.zipWith (· ^^^ ·) (res.tail ++ [0]) (gen.tail.map fun g => mul g factor))
    (List.replicate ecLen 0)

/-- What the table says of a version: its data codewords, the error correction of a block, its blocks. -/
structure Parameters where
  dataCw : Nat
  ecPerBlock : Nat
  blocks : Nat

def VERSIONS (version : Nat) : Parameters :=
  [⟨16, 10, 1⟩, ⟨28, 16, 1⟩, ⟨44, 26, 1⟩, ⟨64, 18, 2⟩, ⟨86, 24, 2⟩, ⟨108, 16, 4⟩, ⟨124, 18, 4⟩,
    ⟨154, 22, 4⟩, ⟨182, 22, 5⟩, ⟨216, 26, 5⟩].getD (version - 1) ⟨0, 0, 0⟩

def countBits (version : Nat) : Nat := if version ≤ 9 then 8 else 16

def pickVersion (byteLen : Nat) : Except String Nat :=
  match (List.range' 1 10).find? fun v =>
      4 + countBits v + byteLen * 8 ≤ (VERSIONS v).dataCw * 8 with
  | some v => return v
  | none => throw (toString byteLen ++ " bytes is more than this encoder handles (max 122)")

/-- What `push` adds to the bits. -/
def push (val len : Nat) : List Bool := (List.range len).map fun i => val.testBit (len - 1 - i)

/-- `reduce((a, b) => (a << 1) | b, 0)`. -/
def reduce (bits : List Bool) : Nat := bits.foldl (fun a b => (a <<< 1) ||| b.toNat) 0

/-- The bits in front of the pad bytes. -/
def framed (bytes : List UInt8) (version : Nat) : List Bool :=
  let bits := push 0b0100 4 ++ push bytes.length (countBits version) ++ bytes.flatMap fun b => push b.toNat 8
  let bits := bits ++ push 0 (min 4 ((VERSIONS version).dataCw * 8 - bits.length))
  bits ++ List.replicate ((8 - bits.length % 8) % 8) false

def slices (bits : List Bool) : List UInt8 :=
  (List.range ((bits.length + 7) / 8)).map fun i => UInt8.ofNat (reduce ((bits.drop (8 * i)).take 8))

def padBytes (n : Nat) : List UInt8 := (List.range n).map fun i => if i % 2 = 0 then 0xec else 0x11

def buildCodewords (bytes : List UInt8) (version : Nat) : List UInt8 :=
  let cw := slices (framed bytes version)
  cw ++ padBytes ((VERSIONS version).dataCw - cw.length)

def blockLens (version : Nat) : List Nat :=
  let p := VERSIONS version
  (List.range p.blocks).map fun b =>
    p.dataCw / p.blocks + if p.blocks - p.dataCw % p.blocks ≤ b then 1 else 0

def split : List Nat → List UInt8 → List (List UInt8)
  | [], _ => []
  | len :: lens, cw => cw.take len :: split lens (cw.drop len)

def interleave (dataCw : List UInt8) (version : Nat) : List UInt8 :=
  let dataBlocks := split (blockLens version) dataCw
  let ecBlocks := dataBlocks.map fun b => rsEncode b (VERSIONS version).ecPerBlock
  codec.interleave dataBlocks ((dataBlocks.map List.length).foldl max 0) ++
    codec.interleave ecBlocks (VERSIONS version).ecPerBlock

end Model

section ReedSolomon

open reedsolomon

theorem map_mk_zipWith (p q : List UInt8) :
    (List.zipWith (· ^^^ ·) p q).map Gf.mk = List.zipWith (· + ·) (p.map Gf.mk) (q.map Gf.mk) := by
  rw [List.map_zipWith, List.zipWith_map]
  rfl

theorem map_mk_mul (p : List UInt8) (c : UInt8) :
    (p.map fun g => mul g c).map Gf.mk = (p.map Gf.mk).map (· * ⟨c⟩) := by
  rw [List.map_map, List.map_map]
  rfl

theorem map_rsGenerator (degree : Nat) :
    (rsGenerator degree).map Gf.mk =
      (List.range degree).foldl (fun p i => timesRoot p (.power i)) [1] := by
  induction degree with
  | zero => rfl
  | succ n ih =>
    rw [rsGenerator, List.range_succ, List.foldl_append, List.foldl_append, ← ih, ← rsGenerator]
    simp only [List.foldl_cons, List.foldl_nil]
    rw [map_mk_zipWith, List.map_append, List.map_cons, List.map_cons, map_mk_mul]
    rfl

/-- The generator is monic, and zero at the powers below its degree. -/
theorem generator_spec (degree : Nat) :
    ∃ g : List Gf, (rsGenerator degree).map Gf.mk = 1 :: g ∧ g.length = degree ∧
      ∀ i < degree, eval (Gf.power i) (1 :: g) = 0 := by
  induction degree with
  | zero => exact ⟨[], rfl, rfl, fun i hi => absurd hi (Nat.not_lt_zero i)⟩
  | succ n ih =>
    obtain ⟨g, hgen, hlen, hroots⟩ := ih
    rw [map_rsGenerator] at hgen ⊢
    have hmonic : timesRoot (1 :: g) (Gf.power n) =
        1 :: List.zipWith (· + ·) (g ++ [0]) ((1 :: g).map (· * Gf.power n)) := by
      rw [timesRoot, List.cons_append, List.zipWith_cons_cons, add_zero]
    refine ⟨List.zipWith (· + ·) (g ++ [0]) ((1 :: g).map (· * Gf.power n)), ?_, by simp [hlen], ?_⟩
    · rw [List.range_succ, List.foldl_append, hgen, List.foldl_cons, List.foldl_nil, hmonic]
    · intro i hi
      rw [← hmonic, eval_timesRoot]
      obtain hlt | rfl := Nat.lt_succ_iff_lt_or_eq.mp hi
      · rw [hroots i hlt, zero_mul]
      · rw [CharTwo.add_self_eq_zero, mul_zero]

theorem map_rsEncode {ecLen : Nat} {g : List Gf} (hgen : (rsGenerator ecLen).map Gf.mk = 1 :: g)
    (hlen : g.length = ecLen) (data : List UInt8) :
    (rsEncode data ecLen).map Gf.mk = remainder g (data.map Gf.mk) := by
  have htail : (rsGenerator ecLen).tail.map Gf.mk = g := by rw [List.map_tail, hgen, List.tail_cons]
  have hfold : ∀ res : List UInt8,
      (data.foldl (fun res byte => List.zipWith (· ^^^ ·) (res.tail ++ [0])
        ((rsGenerator ecLen).tail.map fun g => mul g (byte ^^^ res.headD 0))) res).map Gf.mk =
        (data.map Gf.mk).foldl (shiftIn g) (res.map Gf.mk) := by
    induction data with
    | nil => exact fun res => rfl
    | cons byte data ih =>
      intro res
      rw [List.foldl_cons, ih, List.map_cons, List.foldl_cons, map_mk_zipWith, List.map_append, map_mk_mul,
        htail, List.map_tail]
      congr 1
      cases res <;> rfl
  rw [remainder, hlen]
  refine (hfold _).trans ?_
  rw [List.map_replicate]
  rfl

theorem length_rsEncode (data : List UInt8) {ecLen : Nat} (hpos : 0 < ecLen) :
    (rsEncode data ecLen).length = ecLen := by
  obtain ⟨g, hgen, hlen, -⟩ := generator_spec ecLen
  rw [← List.length_map Gf.mk, map_rsEncode hgen hlen, remainder,
    length_foldl_shiftIn (hlen ▸ hpos) _ List.length_replicate, hlen]

/-- A block with its error correction behind it is zero at all the generator's roots. -/
theorem eval_rsEncode (data : List UInt8) {ecLen i : Nat} (hi : i < ecLen) :
    eval (Gf.power 1 ^ i) ((data ++ rsEncode data ecLen).map Gf.mk) = 0 := by
  obtain ⟨g, hgen, hlen, hroots⟩ := generator_spec ecLen
  rw [← Gf.power_eq_pow, List.map_append, map_rsEncode hgen hlen]
  exact eval_codeword (hroots i hi) (by omega) _

/-- The places in which two words differ. -/
def differ (c c' : List UInt8) : Nat := (List.zip c c').countP fun p => p.1 ≠ p.2

theorem countP_differ (c c' : List UInt8) :
    (List.zipWith (· + ·) (c.map Gf.mk) (c'.map Gf.mk)).countP (· ≠ 0) = differ c c' := by
  have hzero : ∀ a b : UInt8, Gf.mk a + ⟨b⟩ ≠ 0 ↔ a ≠ b := by
    intro a b
    rw [Ne, CharTwo.add_eq_zero, Gf.mk.injEq]
  rw [List.zipWith_map, ← List.map_uncurry_zip_eq_zipWith, List.countP_map, differ]
  refine List.countP_congr fun p _ => ?_
  rw [Function.comp_apply, Function.uncurry_def, decide_eq_true_eq, decide_eq_true_eq]
  exact hzero p.1 p.2

theorem eq_of_sum_zero {c c' : List UInt8} (hlen : c.length = c'.length)
    (h : ∀ a ∈ List.zipWith (· + ·) (c.map Gf.mk) (c'.map Gf.mk), a = 0) : c = c' := by
  induction c generalizing c' with
  | nil => exact (List.length_eq_zero_iff.mp hlen.symm).symm
  | cons a c ih =>
    cases c' with
    | nil => cases hlen
    | cons b c' =>
      rw [List.map_cons, List.map_cons, List.zipWith_cons_cons, List.forall_mem_cons] at h
      have hab : a = b := congrArg Gf.byte (CharTwo.add_eq_zero.mp h.1)
      rw [hab, ih (Nat.succ.inj hlen) h.2]

/-- Two different blocks of one length differ in more places, with their error correction, than the error
correction has: what is damaged in at most half as many is still nearest to the block that was written. -/
theorem blocks_differ (data data' : List UInt8) (ecLen : Nat) (hpos : 0 < ecLen)
    (hlen : data.length = data'.length) (hfit : data.length + ecLen ≤ 255) (hne : data ≠ data') :
    ecLen < differ (data ++ rsEncode data ecLen) (data' ++ rsEncode data' ecLen) := by
  by_contra hle
  have hlength : (data ++ rsEncode data ecLen).length = (data' ++ rsEncode data' ecLen).length := by
    rw [List.length_append, List.length_append, length_rsEncode _ hpos, length_rsEncode _ hpos, hlen]
  have htotal : (data ++ rsEncode data ecLen).length ≤ 255 := by
    rw [List.length_append, length_rsEncode _ hpos]
    exact hfit
  have hword : ∀ i < (List.zipWith (· + ·) ((data ++ rsEncode data ecLen).map Gf.mk)
      ((data' ++ rsEncode data' ecLen).map Gf.mk)).length, i < 255 := by
    intro i hi
    rw [List.length_zipWith, List.length_map, List.length_map] at hi
    omega
  have hzero := eq_zero_of_countP_le (a := Gf.power 1) (n := ecLen)
    (w := List.zipWith (· + ·) ((data ++ rsEncode data ecLen).map Gf.mk)
      ((data' ++ rsEncode data' ecLen).map Gf.mk))
    (fun i hi => by
      rw [eval_add _ (by simpa using hlength), eval_rsEncode data hi, eval_rsEncode data' hi, add_zero])
    (fun i hi j hj => Gf.pow_inj (hword i hi) (hword j hj))
    (by rw [countP_differ]; exact Nat.not_lt.mp hle)
  have heq := eq_of_sum_zero hlength hzero
  exact hne (List.append_inj_left heq hlen)

theorem differ_le {a b c : List UInt8} (hab : a.length = b.length) (hbc : b.length = c.length) :
    differ a c ≤ differ a b + differ b c := by
  induction a generalizing b c with
  | nil => simp [differ]
  | cons x a ih =>
    cases b with
    | nil => cases hab
    | cons y b =>
      cases c with
      | nil => cases hbc
      | cons z c =>
        have hrest := ih (Nat.succ.inj hab) (Nat.succ.inj hbc)
        simp only [differ, List.zip_cons_cons, List.countP_cons, decide_eq_true_eq] at hrest ⊢
        by_cases hxy : x = y
        · rw [hxy, if_neg (not_not_intro rfl)]
          omega
        · rw [if_pos hxy]
          split <;> split <;> omega

/-- A block in which at most half as many codewords are wrong as it has error correction codewords is nearer
to the data it comes from than to any other. -/
theorem nearest (received data data' : List UInt8) (ecLen : Nat) (hpos : 0 < ecLen)
    (hlen : data.length = data'.length) (hfit : data.length + ecLen ≤ 255)
    (hreceived : received.length = data.length + ecLen) (hne : data ≠ data')
    (hnear : 2 * differ (data ++ rsEncode data ecLen) received ≤ ecLen) :
    differ (data ++ rsEncode data ecLen) received < differ received (data' ++ rsEncode data' ecLen) := by
  have hfar := blocks_differ data data' ecLen hpos hlen hfit hne
  have hpath := differ_le (a := data ++ rsEncode data ecLen) (b := received)
    (c := data' ++ rsEncode data' ecLen)
    (by rw [List.length_append, length_rsEncode _ hpos, hreceived])
    (by rw [List.length_append, length_rsEncode _ hpos, hreceived, hlen])
  omega

/-- Two bytes, with their last five codewords lost. -/
theorem nearest_two :
    differ ([64, 36] ++ rsEncode [64, 36] 10) [64, 36, 200, 113, 200, 246, 219, 0, 0, 0, 0, 0] <
      differ [64, 36, 200, 113, 200, 246, 219, 0, 0, 0, 0, 0] ([64, 37] ++ rsEncode [64, 37] 10) := by
  apply nearest
  · decide
  · rfl
  · decide
  · rfl
  · decide
  · decide +kernel

end ReedSolomon

section Bits

theorem reduce_concat (bits : List Bool) (b : Bool) : reduce (bits ++ [b]) = 2 * reduce bits + b.toNat := by
  rw [reduce, List.foldl_append, List.foldl_cons, List.foldl_nil, ← reduce,
    ← Nat.shiftLeft_add_eq_or_of_lt (by cases b <;> decide), Nat.shiftLeft_eq]
  omega

theorem push_succ (val len : Nat) : push val (len + 1) = push (val / 2) len ++ [val.testBit 0] := by
  rw [push, List.range_succ, List.map_append, push]
  congr 1
  · refine List.map_congr_left fun i hi => ?_
    have := List.mem_range.mp hi
    rw [← Nat.testBit_succ]
    congr 1
    omega
  · simp

@[simp] theorem length_push (val len : Nat) : (push val len).length = len := by simp [push]

theorem reduce_push {val len : Nat} (h : val < 2 ^ len) : reduce (push val len) = val := by
  induction len generalizing val with
  | zero => exact (Nat.lt_one_iff.mp h).symm
  | succ len ih =>
    rw [push_succ, reduce_concat, ih (by omega), Nat.testBit_zero]
    obtain heven | hodd := Nat.mod_two_eq_zero_or_one val
    · simp [heven]
      omega
    · simp [hodd]
      omega

theorem reduce_lt (bits : List Bool) : reduce bits < 2 ^ bits.length := by
  induction bits using List.reverseRecOn with
  | nil => decide
  | append_singleton bits b ih =>
    have := b.toNat_le
    rw [reduce_concat, List.length_append, List.length_singleton, Nat.pow_succ]
    omega

theorem push_reduce (bits : List Bool) : push (reduce bits) bits.length = bits := by
  induction bits using List.reverseRecOn with
  | nil => rfl
  | append_singleton bits b ih =>
    have hhalf : (2 * reduce bits + b.toNat) / 2 = reduce bits := by
      cases b <;> simp
      omega
    have hlow : (2 * reduce bits + b.toNat).testBit 0 = b := by
      rw [Nat.testBit_zero]
      cases b <;> simp
    rw [List.length_append, List.length_singleton, reduce_concat, push_succ, hhalf, hlow, ih]

/-- The bits of bytes, as `placeData` lists them. -/
def bitsOf (bytes : List UInt8) : List Bool := bytes.flatMap fun b => push b.toNat 8

@[simp] theorem length_bitsOf (bytes : List UInt8) : (bitsOf bytes).length = 8 * bytes.length := by
  simp [bitsOf, List.length_flatMap, Nat.mul_comm]

theorem slices_append {bits : List Bool} (h : bits.length = 8) (rest : List Bool) :
    slices (bits ++ rest) = UInt8.ofNat (reduce bits) :: slices rest := by
  have hcount : ((bits ++ rest).length + 7) / 8 = (rest.length + 7) / 8 + 1 := by
    rw [List.length_append, h]
    omega
  rw [slices, hcount, List.range_succ_eq_map, List.map_cons, List.map_map, Nat.mul_zero, List.drop_zero,
    List.take_left' h, slices]
  congr 1
  refine List.map_congr_left fun i _ => ?_
  have hdrop : (bits ++ rest).drop (8 * (i + 1)) = rest.drop (8 * i) := by
    rw [show 8 * (i + 1) = bits.length + 8 * i by omega, ← List.drop_drop, List.drop_left]
  rw [Function.comp_apply, Nat.succ_eq_add_one, hdrop]

theorem slices_bitsOf (bytes : List UInt8) (rest : List Bool) :
    slices (bitsOf bytes ++ rest) = bytes ++ slices rest := by
  induction bytes with
  | nil => rfl
  | cons b bytes ih =>
    rw [bitsOf, List.flatMap_cons, ← bitsOf, List.append_assoc, slices_append (length_push _ _), ih,
      reduce_push b.toNat_lt, UInt8.ofNat_toNat, List.cons_append]

theorem bitsOf_slices {bits : List Bool} {n : Nat} (h : bits.length = 8 * n) : bitsOf (slices bits) = bits := by
  induction n generalizing bits with
  | zero => rw [List.length_eq_zero_iff.mp h]; rfl
  | succ n ih =>
    have htake : (bits.take 8).length = 8 := by
      rw [List.length_take]
      omega
    have hlt : reduce (bits.take 8) < 2 ^ 8 := by
      have := reduce_lt (bits.take 8)
      rwa [htake] at this
    have hbyte : push (reduce (bits.take 8)) 8 = bits.take 8 := by
      have := push_reduce (bits.take 8)
      rwa [htake] at this
    rw [← List.take_append_drop 8 bits, slices_append htake, bitsOf, List.flatMap_cons, ← bitsOf,
      ih (by rw [List.length_drop]; omega), UInt8.toNat_ofNat_of_lt' hlt, hbyte]

end Bits

section Reading

/-- The bytes that the data codewords of a symbol say, by their mode and their count. -/
def parse (version : Nat) (cw : List UInt8) : Option (List UInt8) :=
  let bits := bitsOf cw
  if bits.take 4 = push 0b0100 4 then
    let n := reduce ((bits.drop 4).take (countBits version))
    some (slices (((bits.drop 4).drop (countBits version)).take (8 * n)))
  else none

/-- The data codewords, from the stream of a symbol. -/
def readBlocks (version : Nat) (stream : List UInt8) : List UInt8 :=
  let lens := blockLens version
  (codec.deinterleave lens (lens.foldl max 0) 0 (lens.map fun _ => []) stream).flatten

theorem pickVersion_ok {byteLen v : Nat} (h : pickVersion byteLen = .ok v) :
    1 ≤ v ∧ v ≤ 10 ∧ 4 + countBits v + byteLen * 8 ≤ (VERSIONS v).dataCw * 8 := by
  unfold pickVersion at h
  split at h
  next hfind =>
    cases h
    have hmem := List.mem_range'_1.mp (List.mem_of_find?_eq_some hfind)
    have hfit := List.find?_some hfind
    exact ⟨hmem.1, by omega, of_decide_eq_true hfit⟩
  next => cases h

theorem count_lt {byteLen v : Nat} (h : pickVersion byteLen = .ok v) : byteLen < 2 ^ countBits v := by
  obtain ⟨hpos, hle, hfit⟩ := pickVersion_ok h
  have hcap : (VERSIONS v).dataCw < 2 ^ countBits v := by
    interval_cases v <;> decide
  omega

variable {bytes : List UInt8} {v : Nat}

theorem framed_eq (bytes : List UInt8) (v : Nat) :
    ∃ rest, framed bytes v =
      push 0b0100 4 ++ (push bytes.length (countBits v) ++ (bitsOf bytes ++ rest)) := by
  simp only [framed, List.append_assoc]
  exact ⟨_, rfl⟩

theorem length_framed (h : pickVersion bytes.length = .ok v) :
    ∃ n ≤ (VERSIONS v).dataCw, (framed bytes v).length = 8 * n := by
  obtain ⟨-, -, hfit⟩ := pickVersion_ok h
  have hbits : (bytes.flatMap fun b => push b.toNat 8).length = 8 * bytes.length := length_bitsOf bytes
  refine ⟨(framed bytes v).length / 8, ?_⟩
  simp only [framed, List.length_append, length_push, hbits, List.length_replicate]
  omega

theorem length_buildCodewords (h : pickVersion bytes.length = .ok v) :
    (buildCodewords bytes v).length = (VERSIONS v).dataCw := by
  obtain ⟨n, hn, hlen⟩ := length_framed h
  simp [buildCodewords, slices, padBytes, hlen]
  omega

/-- The padded frame says the bytes it was built of. -/
theorem parse_buildCodewords (h : pickVersion bytes.length = .ok v) :
    parse v (buildCodewords bytes v) = some bytes := by
  obtain ⟨n, hn, hlen⟩ := length_framed h
  obtain ⟨rest, hframed⟩ := framed_eq bytes v
  have hbits : bitsOf (buildCodewords bytes v) = push 0b0100 4 ++ (push bytes.length (countBits v) ++
      (bitsOf bytes ++ (rest ++ bitsOf (padBytes ((VERSIONS v).dataCw - (slices (framed bytes v)).length))))) := by
    rw [buildCodewords, bitsOf, List.flatMap_append, ← bitsOf, ← bitsOf, bitsOf_slices hlen, hframed]
    simp only [List.append_assoc]
  rw [parse, hbits]
  simp only [List.take_left' (length_push _ _), List.drop_left' (length_push _ _), if_true,
    reduce_push (count_lt h), List.take_left' (length_bitsOf bytes)]
  have hslices := slices_bitsOf bytes []
  rw [List.append_nil] at hslices
  rw [hslices]
  exact congrArg some (List.append_nil bytes)

theorem split_spec (lens : List Nat) (cw : List UInt8) (h : lens.sum = cw.length) :
    (split lens cw).map List.length = lens ∧ (split lens cw).flatten = cw := by
  induction lens generalizing cw with
  | nil => exact ⟨rfl, (List.length_eq_zero_iff.mp h.symm).symm⟩
  | cons len lens ih =>
    rw [List.sum_cons] at h
    obtain ⟨hlens, hflat⟩ := ih (cw.drop len) (by rw [List.length_drop]; omega)
    rw [split, List.map_cons, hlens, List.length_take, List.flatten_cons, hflat, List.take_append_drop]
    exact ⟨by rw [Nat.min_eq_left (by omega)], rfl⟩

theorem sum_blockLens (hpos : 1 ≤ v) (hle : v ≤ 10) : (blockLens v).sum = (VERSIONS v).dataCw := by
  interval_cases v <;> decide

theorem le_foldl_max (l : List Nat) (m : Nat) : m ≤ l.foldl max m ∧ ∀ n ∈ l, n ≤ l.foldl max m := by
  induction l generalizing m with
  | nil => simp
  | cons n l ih =>
    obtain ⟨hm, hl⟩ := ih (max m n)
    refine ⟨(Nat.le_max_left m n).trans hm, fun k hk => ?_⟩
    obtain rfl | hk := List.mem_cons.mp hk
    · exact (Nat.le_max_right m k).trans hm
    · exact hl k hk

/-- The reader of a stream has the codewords that were interleaved, whatever stands behind them. -/
theorem readBlocks_interleave (h : pickVersion bytes.length = .ok v) (rest : List UInt8) :
    readBlocks v (interleave (buildCodewords bytes v) v ++ rest) = buildCodewords bytes v := by
  obtain ⟨hpos, hle, -⟩ := pickVersion_ok h
  obtain ⟨hlens, hflat⟩ := split_spec (blockLens v) (buildCodewords bytes v)
    ((sum_blockLens hpos hle).trans (length_buildCodewords h).symm)
  have hmax : ∀ b ∈ split (blockLens v) (buildCodewords bytes v), b.length ≤ (blockLens v).foldl max 0 :=
    fun b hb => (le_foldl_max _ 0).2 _ (hlens ▸ List.mem_map_of_mem hb)
  have hread := codec.deinterleave_interleave hmax (codec.interleave
    ((split (blockLens v) (buildCodewords bytes v)).map fun b => rsEncode b (VERSIONS v).ecPerBlock)
    (VERSIONS v).ecPerBlock ++ rest)
  have hempty : (blockLens v).map (fun _ => ([] : List UInt8)) =
      (split (blockLens v) (buildCodewords bytes v)).map fun _ => [] := by
    rw [List.map_const', List.map_const', ← List.length_map List.length, hlens]
  rw [readBlocks, interleave, hempty, hlens, List.append_assoc]
  rw [hlens] at hread
  rw [hread, hflat]

theorem length_stream (h : pickVersion bytes.length = .ok v) :
    (interleave (buildCodewords bytes v) v).length =
      (VERSIONS v).dataCw + (VERSIONS v).ecPerBlock * (VERSIONS v).blocks := by
  obtain ⟨hpos, hle, -⟩ := pickVersion_ok h
  obtain ⟨hlens, hflat⟩ := split_spec (blockLens v) (buildCodewords bytes v)
    ((sum_blockLens hpos hle).trans (length_buildCodewords h).symm)
  have hec : 0 < (VERSIONS v).ecPerBlock := by
    interval_cases v <;> decide
  have hmax : ∀ b ∈ split (blockLens v) (buildCodewords bytes v), b.length ≤ (blockLens v).foldl max 0 :=
    fun b hb => (le_foldl_max _ 0).2 _ (hlens ▸ List.mem_map_of_mem hb)
  have hcount : (split (blockLens v) (buildCodewords bytes v)).length = (VERSIONS v).blocks := by
    rw [← List.length_map List.length, hlens, blockLens, List.length_map, List.length_range]
  rw [interleave, hlens, List.length_append, codec.length_interleave hmax, hlens, sum_blockLens hpos hle,
    codec.length_interleave fun b hb => ?_]
  · have hlengths := List.map_congr_left (l := split (blockLens v) (buildCodewords bytes v))
      (f := List.length ∘ fun b => rsEncode b (VERSIONS v).ecPerBlock) fun b _ => length_rsEncode b hec
    rw [List.map_map, hlengths, List.map_const', hcount, List.sum_replicate, smul_eq_mul, Nat.mul_comm]
  · obtain ⟨d, -, rfl⟩ := List.mem_map.mp hb
    exact (length_rsEncode d hec).le

end Reading

end pcoin.qr
