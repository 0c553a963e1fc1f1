import PCoin.Codec.Bits
import PCoin.Pool.Block

open codec
open pcoin.store pcoin.block

namespace pcoin.bip39

/-- `Bip39`, over words that are compared as the language compares its strings. -/
structure Bip39 (Word : Type) where
  wordList : List Word
  count : wordList.length = 2048

/-- A length that is not supported, or an index out of range, which stops the program. -/
inductive Failed
  | unsupportedEntropyLength (bits : Nat)
  | trapped
deriving DecidableEq

inductive Validation
  | ok
  | unknownWords (positions : List Nat)
  | badWordCount (count : Nat)
  | checksumFailed
deriving DecidableEq

def validWordCounts : List Nat := [12, 24]

def validEntropyBits : List Nat := [128, 256]

/-- `xs[i]`. -/
def read {α : Type} (xs : List α) (i : Nat) : Except Failed α :=
  match xs[i]? with
  | some x => .ok x
  | none => .error .trapped

/-- A bit of the bytes, the high bit of a byte first. -/
def readBit (xs : Bytes) (bit : Nat) : Except Failed Nat := do
  let byte ← read xs (bit / 8)
  return ((byte >>> (7 - UInt8.ofNat (bit % 8))) &&& 1).toNat

/-- One more bit of the entropy. -/
def writeBit (entropy : Bytes) (i : Nat) : Except Failed Bytes := do
  let byte ← read entropy (i / 8)
  return entropy.set (i / 8) (byte ||| (1 <<< (7 - UInt8.ofNat (i % 8))))

/-- A number from `w` bits, the high bit first. -/
def collect (w : Nat) (bit : Nat → Except Failed Nat) : Except Failed Nat :=
  (List.range w).foldlM (fun v b => do
    let set ← bit b
    return (v <<< 1) ||| set) 0

section

variable {Word : Type} (sha256 : Bytes → Hash) (b : Bip39 Word)

def fromEntropy (entropy : Bytes) : Except Failed (List Word) :=
  let entropyBits := entropy.length * 8
  if entropyBits ∉ validEntropyBits then .error (.unsupportedEntropyLength entropyBits)
  else
    let checksumBits := entropyBits / 32
    let hash := (sha256 entropy).val
    let total := entropyBits + checksumBits
    (List.range (total / 11)).mapM fun i => do
      let v ← collect 11 fun b =>
        let bit := i * 11 + b
        if bit < entropyBits then readBit entropy bit else readBit hash (bit - entropyBits)
      read b.wordList v

variable [DecidableEq Word]

/-- The last index of a word. -/
def Bip39.indexOf (word : Word) : Option Nat :=
  (b.wordList.zipIdx.reverse.find? (·.1 = word)).map (·.2)

/-- The bits of an index. -/
def indexBits (idx : Nat) : List Bool := (List.range 11).map fun b => ((idx >>> (10 - b)) &&& 1) = 1

/-- The entropy from the first bits. -/
def entropyOf (bits : List Bool) (entropyBits : Nat) : Except Failed Bytes :=
  (List.range entropyBits).foldlM (fun entropy i => do
    let set ← read bits i
    if set then writeBit entropy i else return entropy) (List.replicate (entropyBits / 8) 0)

def checksumOk (words : List Word) : Except Failed Bool :=
  let totalBits := words.length * 11
  let entropyBits := totalBits * 32 / 33
  let checksumBits := totalBits - entropyBits
  match words.mapM b.indexOf with
  | none => return false
  | some indices => do
    let bits := indices.flatMap indexBits
    let entropy ← entropyOf bits entropyBits
    let hash := (sha256 entropy).val
    (List.range checksumBits).foldlM (fun ok i => do
      let expected ← readBit hash i
      let bit ← read bits (entropyBits + i)
      return ok && decide (bit = decide (expected = 1))) true

def validate (words : List Word) : Except Failed Validation :=
  if words.length ∉ validWordCounts then return .badWordCount words.length
  else
    let unknown := (List.range words.length).filter fun i => (words[i]?.bind b.indexOf).isNone
    if unknown ≠ [] then return .unknownWords unknown
    else do
      let ok ← checksumOk sha256 b words
      return if ok then .ok else .checksumFailed

end

/-! ### Reads and writes -/

theorem read_eq {α : Type} {xs : List α} {i : Nat} (hi : i < xs.length) : read xs i = .ok xs[i] := by
  rw [read, List.getElem?_eq_getElem hi]

theorem readBit_eq {xs : Bytes} {bit : Nat} (hbit : bit / 8 < xs.length) :
    readBit xs bit = .ok (bitAt xs bit).toNat := by
  rw [readBit, read_eq hbit, bitAt, List.getD_eq_getElem _ _ hbit,
    ← bit_byte _ (Nat.mod_lt bit (by decide))]
  rfl

/-- A loop of reads that are all in range. -/
theorem foldlM_range_eq {α : Type} {step : α → Nat → Except Failed α} {next : α → Nat → α} {n : Nat}
    (h : ∀ a, ∀ i < n, step a i = .ok (next a i)) (a : α) :
    (List.range n).foldlM step a = .ok ((List.range n).foldl next a) := by
  induction n with
  | zero => rfl
  | succ n ih =>
    have hinit := ih fun a i hi => h a i (by omega)
    simp only [List.range_succ, List.foldlM_append, hinit, List.foldlM_cons, List.foldlM_nil,
      List.foldl_append, List.foldl_cons, List.foldl_nil, bind, Except.bind, h _ n (by omega)]
    rfl

theorem collect_eq {w : Nat} {bit : Nat → Except Failed Nat} {f : Nat → Bool}
    (h : ∀ b < w, bit b = .ok (f b).toNat) : collect w bit = .ok (packed w f) :=
  foldlM_range_eq (fun a i hi => by rw [h i hi]; rfl) 0

theorem writeBit_eq {e : Bytes} {i : Nat} (hi : i / 8 < e.length) :
    ∃ e', writeBit e i = .ok e' ∧ e'.length = e.length ∧
      ∀ j, bitAt e' j = (bitAt e j || decide (i = j)) := by
  refine ⟨_, by rw [writeBit, read_eq hi]; rfl, by simp, fun j => bitAt_set e hi j⟩

/-- The bits of the entropy, written one by one. -/
theorem entropyOf_eq {bits : List Bool} {m : Nat} (hbits : 8 * m ≤ bits.length) :
    ∃ e, entropyOf bits (8 * m) = .ok e ∧ e.length = m ∧
      ∀ i < 8 * m, bitAt e i = bits.getD i false := by
  have hwrite : ∀ k ≤ 8 * m, ∃ e, (List.range k).foldlM (fun entropy i => do
      let set ← read bits i
      if set then writeBit entropy i else return entropy) (List.replicate (8 * m / 8) 0) = .ok e ∧
        e.length = m ∧ ∀ i, bitAt e i = (decide (i < k) && bits.getD i false) := by
    intro k hk
    induction k with
    | zero => exact ⟨_, rfl, by simp, fun i => by simp [bitAt]⟩
    | succ k ih =>
      obtain ⟨e, he, hlen, hbit⟩ := ih (by omega)
      have hread : read bits k = .ok (bits.getD k false) := by
        rw [read_eq (by omega), List.getD_eq_getElem _ _ (by omega)]
      -- the bits below `k` are as they were, and those above are not set
      have hstep : ∀ e' : Bytes, e'.length = m →
          (∀ i, bitAt e' i = (bitAt e i || (bits.getD k false && decide (k = i)))) →
          ∃ e'', Except.ok e' = (Except.ok e'' : Except Failed Bytes) ∧ e''.length = m ∧
            ∀ i, bitAt e'' i = (decide (i < k + 1) && bits.getD i false) := by
        intro e' hlen' hbit'
        refine ⟨e', rfl, hlen', fun i => ?_⟩
        rw [hbit', hbit]
        rcases Nat.lt_trichotomy i k with hi | rfl | hi
        · simp [hi, Nat.lt_succ_of_lt hi, hi.ne']
        · simp
        · simp [hi.ne, hi.not_gt, show ¬i < k + 1 by omega]
      rw [List.range_succ, List.foldlM_append, he]
      simp only [List.foldlM_cons, List.foldlM_nil, bind, Except.bind, hread, pure, Except.pure]
      cases hset : bits.getD k false with
      | true =>
        obtain ⟨e', he', hlen', hbit'⟩ := @writeBit_eq e k (by omega)
        simp only [if_true, he']
        exact hstep e' (hlen'.trans hlen) fun i => by rw [hbit', hset, Bool.true_and]
      | false => exact hstep e hlen fun i => by rw [hset, Bool.false_and, Bool.or_false]
  obtain ⟨e, he, hlen, hbit⟩ := hwrite (8 * m) (le_refl _)
  exact ⟨e, he, hlen, fun i hi => by simp [hbit, hi]⟩

/-! ### Indices -/

/-- The indices of a phrase side by side, as bits. -/
def indicesBit (indices : List Nat) (j : Nat) : Bool := (indices.getD (j / 11) 0).testBit (10 - j % 11)

theorem length_indexBits (indices : List Nat) : (indices.flatMap indexBits).length = indices.length * 11 := by
  induction indices with
  | nil => rfl
  | cons idx indices ih => simp [List.flatMap_cons, ih, indexBits]; omega

theorem getD_indexBits {indices : List Nat} {j : Nat} (hj : j < indices.length * 11) :
    (indices.flatMap indexBits).getD j false = indicesBit indices j := by
  induction indices generalizing j with
  | nil => simp at hj
  | cons idx indices ih =>
    rw [List.flatMap_cons, List.getD_eq_getElem?_getD]
    have hlen : (indexBits idx).length = 11 := by simp [indexBits]
    by_cases hfirst : j < 11
    · rw [List.getElem?_append_left (by omega), indicesBit, Nat.div_eq_of_lt hfirst, Nat.mod_eq_of_lt hfirst]
      simp [indexBits, hfirst, Nat.testBit, Nat.and_comm]
    · rw [List.getElem?_append_right (by omega), hlen, ← List.getD_eq_getElem?_getD,
        ih (by rw [List.length_cons] at hj; omega), indicesBit, indicesBit,
        show j / 11 = (j - 11) / 11 + 1 by omega, show j % 11 = (j - 11) % 11 by omega, List.getD_cons_succ]

section

variable {Word : Type} [DecidableEq Word] {b : Bip39 Word}

theorem indexOf_eq_some (hdistinct : b.wordList.Nodup) {word : Word} {v : Nat} :
    b.indexOf word = some v ↔ b.wordList[v]? = some word := by
  have hfound : ∀ p : Word × Nat, b.wordList.zipIdx.reverse.find? (·.1 = word) = some p →
      p.1 = word ∧ b.wordList[p.2]? = some p.1 := fun p hp =>
    ⟨by simpa using List.find?_some hp,
      List.mem_zipIdx_iff_getElem?.mp (List.mem_reverse.mp (List.mem_of_find?_eq_some hp))⟩
  rw [Bip39.indexOf, Option.map_eq_some_iff]
  constructor
  · rintro ⟨p, hp, rfl⟩
    obtain ⟨rfl, hget⟩ := hfound p hp
    exact hget
  · intro hget
    have hmem : (word, v) ∈ b.wordList.zipIdx.reverse :=
      List.mem_reverse.mpr (List.mem_zipIdx_iff_getElem?.mpr hget)
    have hsome : (b.wordList.zipIdx.reverse.find? (·.1 = word)).isSome = true :=
      List.find?_isSome.mpr ⟨_, hmem, by simp⟩
    obtain ⟨p, hp⟩ := Option.isSome_iff_exists.mp hsome
    obtain ⟨hword, hget'⟩ := hfound p hp
    have hlt := (List.getElem?_eq_some_iff.mp hget).1
    refine ⟨p, hp, ((List.getElem?_inj hlt hdistinct).mp ?_).symm⟩
    rw [hget, hget', hword]

/-- The entropy and its checksum, bit by bit. -/
def stream (sha256 : Bytes → Hash) (e : Bytes) (bit : Nat) : Bool :=
  if bit < e.length * 8 then bitAt e bit else bitAt (sha256 e).val (bit - e.length * 8)

/-- A phrase of the entropy. -/
structure Spells (sha256 : Bytes → Hash) (b : Bip39 Word) (e : Bytes) (words : List Word) : Prop where
  supported : e.length * 8 ∈ validEntropyBits
  length : words.length * 11 = e.length * 8 + e.length * 8 / 32
  words : ∀ i < words.length,
    words[i]? = b.wordList[packed 11 fun k => stream sha256 e (i * 11 + k)]?

variable {sha256 : Bytes → Hash}

omit [DecidableEq Word] in
theorem mapM_range_ok {g : Nat → Except Failed Word} {n : Nat} (h : ∀ i < n, ∃ y, g i = .ok y) :
    ∃ ys, (List.range n).mapM g = .ok ys ∧ ys.length = n ∧ ∀ i < n, ∃ y, g i = .ok y ∧ ys[i]? = some y := by
  induction n with
  | zero => exact ⟨[], rfl, rfl, fun i hi => absurd hi (Nat.not_lt_zero i)⟩
  | succ n ih =>
    obtain ⟨ys, hys, hlen, hget⟩ := ih fun i hi => h i (by omega)
    obtain ⟨y, hy⟩ := h n (Nat.lt_succ_self n)
    refine ⟨ys ++ [y], ?_, by simp [hlen], fun i hi => ?_⟩
    · rw [List.range_succ, List.mapM_append, hys, List.mapM_cons, hy]
      rfl
    · by_cases hlast : i < n
      · obtain ⟨z, hz, hi⟩ := hget i hlast
        exact ⟨z, hz, by rw [List.getElem?_append_left (by omega), hi]⟩
      · obtain rfl : i = n := by omega
        exact ⟨y, hy, by rw [← hlen, List.getElem?_concat_length]⟩

omit [DecidableEq Word] in
theorem fromEntropy_ok {e : Bytes} (he : e.length * 8 ∈ validEntropyBits) :
    ∃ words, fromEntropy sha256 b e = .ok words ∧ Spells sha256 b e words := by
  have hlen : e.length * 8 = 128 ∨ e.length * 8 = 256 := by simpa [validEntropyBits] using he
  have hhash := (sha256 e).property
  have hbit : ∀ i < (e.length * 8 + e.length * 8 / 32) / 11, ∀ k < 11,
      (if i * 11 + k < e.length * 8 then readBit e (i * 11 + k)
        else readBit (sha256 e).val (i * 11 + k - e.length * 8)) =
        .ok (stream sha256 e (i * 11 + k)).toNat := by
    intro i hi k hk
    rw [stream]
    split
    case isTrue hlt => rw [readBit_eq (by omega)]
    case isFalse hge => rw [readBit_eq (by omega)]
  have hword : ∀ i < (e.length * 8 + e.length * 8 / 32) / 11, ∃ y, (do
      let v ← collect 11 fun k =>
        let bit := i * 11 + k
        if bit < e.length * 8 then readBit e bit else readBit (sha256 e).val (bit - e.length * 8)
      read b.wordList v) = .ok y ∧
        b.wordList[packed 11 fun k => stream sha256 e (i * 11 + k)]? = some y := by
    intro i hi
    have hv : packed 11 (fun k => stream sha256 e (i * 11 + k)) < b.wordList.length := by
      rw [b.count]
      exact packed_lt 11 _
    refine ⟨_, ?_, List.getElem?_eq_getElem hv⟩
    rw [collect_eq (hbit i hi), ← read_eq hv]
    rfl
  obtain ⟨words, hwords, hcount, hget⟩ := mapM_range_ok fun i hi => (hword i hi).imp fun _ h => h.1
  refine ⟨words, ?_, he, by omega, fun i hi => ?_⟩
  · rw [fromEntropy, if_neg (not_not.mpr he)]
    exact hwords
  · obtain ⟨y, hy, hi'⟩ := hget i (by omega)
    obtain ⟨z, hz, hlist⟩ := hword i (by omega)
    rw [hi', hlist, ← Except.ok.inj (hy.symm.trans hz)]

omit [DecidableEq Word] in
/-- The words of a phrase tell all the bits of its stream. -/
theorem Spells.stream_eq {e : Bytes} {words : List Word} (hdistinct : b.wordList.Nodup)
    (h : Spells sha256 b e words) {f : Nat → Bool}
    (hwords : ∀ i < words.length, words[i]? = b.wordList[packed 11 fun k => f (i * 11 + k)]?) {j : Nat}
    (hj : j < words.length * 11) : stream sha256 e j = f j := by
  have hi : j / 11 < words.length := by omega
  have hindex := (h.words _ hi).symm.trans (hwords _ hi)
  have hlt : packed 11 (fun k => stream sha256 e (j / 11 * 11 + k)) < b.wordList.length := by
    rw [b.count]
    exact packed_lt 11 _
  have hpacked := (List.getElem?_inj hlt hdistinct).mp hindex
  have hk : j % 11 < 11 := Nat.mod_lt j (by decide)
  have hbit := testBit_packed (fun k => stream sha256 e (j / 11 * 11 + k)) hk
  rw [hpacked, testBit_packed _ hk] at hbit
  rw [show j / 11 * 11 + j % 11 = j by omega] at hbit
  exact hbit.symm

omit [DecidableEq Word] in
theorem Spells.unique {e e' : Bytes} {words : List Word} (hdistinct : b.wordList.Nodup)
    (h : Spells sha256 b e words) (h' : Spells sha256 b e' words) : e = e' := by
  have hlen : e.length * 8 = 128 ∨ e.length * 8 = 256 := by simpa [validEntropyBits] using h.supported
  have hlen' : e'.length * 8 = 128 ∨ e'.length * 8 = 256 := by
    simpa [validEntropyBits] using h'.supported
  have htotal := h.length
  have htotal' := h'.length
  refine eq_of_bitAt (by omega) fun i hi => ?_
  have hstream := h.stream_eq hdistinct h'.words (show i < words.length * 11 by omega)
  rw [stream, stream, if_pos (by omega), if_pos (by omega)] at hstream
  exact hstream

omit [DecidableEq Word] in
theorem Spells.words_eq {e : Bytes} {words words' : List Word} (h : Spells sha256 b e words)
    (h' : Spells sha256 b e words') : words = words' := by
  have hlen : words.length = words'.length := by
    have := h.length
    have := h'.length
    omega
  refine List.ext_getElem? fun i => ?_
  by_cases hi : i < words.length
  · rw [h.words i hi, h'.words i (by omega)]
  · rw [List.getElem?_eq_none (by omega), List.getElem?_eq_none (by omega)]

/-! ### The checker -/

theorem mapM_indexOf {words : List Word} (h : ∀ w ∈ words, (b.indexOf w).isSome = true) :
    ∃ indices, words.mapM b.indexOf = some indices ∧ indices.length = words.length ∧
      ∀ i : Nat, indices[i]? = words[i]?.bind b.indexOf := by
  induction words with
  | nil => exact ⟨[], rfl, rfl, fun i => rfl⟩
  | cons w words ih =>
    obtain ⟨indices, hindices, hlen, hget⟩ := ih fun x hx => h x (List.mem_cons_of_mem _ hx)
    obtain ⟨v, hv⟩ := Option.isSome_iff_exists.mp (h w List.mem_cons_self)
    refine ⟨v :: indices, ?_, by simp [hlen], fun i => ?_⟩
    · rw [List.mapM_cons, hv, hindices]
      rfl
    · cases i with
      | zero => exact hv.symm
      | succ i => exact hget i

theorem foldl_and_eq_true {n : Nat} {p : Nat → Bool} :
    (List.range n).foldl (fun ok i => ok && p i) true = true ↔ ∀ i < n, p i = true := by
  induction n with
  | zero => simp
  | succ n ih =>
    rw [List.range_succ, List.foldl_append, List.foldl_cons, List.foldl_nil, Bool.and_eq_true, ih]
    constructor
    · rintro ⟨hinit, hlast⟩ i hi
      rcases Nat.lt_succ_iff_lt_or_eq.mp hi with hi | rfl
      · exact hinit i hi
      · exact hlast
    · exact fun h => ⟨fun i hi => h i (by omega), h n (Nat.lt_succ_self n)⟩

/-- The entropy that the first bits write, and whether the last ones are its checksum. -/
theorem checksumOk_eq {words : List Word} (hcount : words.length ∈ validWordCounts) {indices : List Nat}
    (hindices : words.mapM b.indexOf = some indices) (hlen : indices.length = words.length) :
    ∃ e ok, checksumOk sha256 b words = .ok ok ∧ e.length * 8 ∈ validEntropyBits ∧
      words.length * 11 = e.length * 8 + e.length * 8 / 32 ∧
      (∀ i < e.length * 8, bitAt e i = indicesBit indices i) ∧
      (ok = true ↔ ∀ i < e.length * 8 / 32,
        indicesBit indices (e.length * 8 + i) = bitAt (sha256 e).val i) := by
  have hwords : words.length = 12 ∨ words.length = 24 := by simpa [validWordCounts] using hcount
  have hbits := length_indexBits indices
  obtain ⟨m, hm⟩ : ∃ m, words.length * 11 * 32 / 33 = 8 * m := ⟨words.length * 11 * 32 / 33 / 8, by omega⟩
  obtain ⟨e, he, helen, hebit⟩ := @entropyOf_eq (indices.flatMap indexBits) m (by omega)
  have hhash := (sha256 e).property
  have hstep : ∀ (ok : Bool), ∀ i < words.length * 11 - 8 * m, (do
      let expected ← readBit (sha256 e).val i
      let bit ← read (indices.flatMap indexBits) (8 * m + i)
      return ok && decide (bit = decide (expected = 1))) =
        (.ok (ok && decide (indicesBit indices (8 * m + i) = bitAt (sha256 e).val i)) :
          Except Failed Bool) := by
    intro ok i hi
    have hread : read (indices.flatMap indexBits) (8 * m + i) = .ok (indicesBit indices (8 * m + i)) := by
      rw [read_eq (by omega), ← getD_indexBits (by omega), List.getD_eq_getElem _ _ (by omega)]
    rw [readBit_eq (by omega), hread]
    simp only [bind, Except.bind, pure, Except.pure]
    cases bitAt (sha256 e).val i <;> rfl
  have hrun := foldlM_range_eq hstep true
  generalize hok : (List.range (words.length * 11 - 8 * m)).foldl (fun ok i =>
    ok && decide (indicesBit indices (8 * m + i) = bitAt (sha256 e).val i)) true = ok at hrun
  refine ⟨e, ok, ?_, ?_, by omega, fun i hi => ?_, ?_⟩
  · rw [checksumOk, hindices, hm]
    simp only [he, bind, Except.bind]
    exact hrun
  · simp only [validEntropyBits, List.mem_cons, List.not_mem_nil, or_false]
    omega
  · rw [hebit i (by omega), getD_indexBits (by omega)]
  · rw [← hok, foldl_and_eq_true, show words.length * 11 - 8 * m = e.length * 8 / 32 by omega,
      show 8 * m = e.length * 8 by omega]
    simp only [decide_eq_true_eq]

/-- What the checker does: it finds the words and compares the checksum, or it has told what is
wrong before. -/
theorem validate_cases (words : List Word) :
    (¬(words.length ∈ validWordCounts ∧ ∀ w ∈ words, (b.indexOf w).isSome = true) ∧
      ∃ v, v ≠ .ok ∧ validate sha256 b words = .ok v) ∨
    ∃ indices e ok, indices.length = words.length ∧
      (∀ i : Nat, indices[i]? = words[i]?.bind b.indexOf) ∧
      e.length * 8 ∈ validEntropyBits ∧ words.length * 11 = e.length * 8 + e.length * 8 / 32 ∧
      (∀ i < e.length * 8, bitAt e i = indicesBit indices i) ∧
      (ok = true ↔ ∀ i < e.length * 8 / 32,
        indicesBit indices (e.length * 8 + i) = bitAt (sha256 e).val i) ∧
      validate sha256 b words = .ok (if ok then .ok else .checksumFailed) := by
  by_cases hcount : words.length ∈ validWordCounts
  case neg => 
    exact .inl ⟨fun h => hcount h.1, .badWordCount words.length, by simp, by
      rw [validate, if_pos hcount]
      rfl⟩
  case pos =>
    by_cases hknown : (List.range words.length).filter (fun i => (words[i]?.bind b.indexOf).isNone) = []
    case neg =>
      refine .inl ⟨fun h => hknown ?_, .unknownWords ((List.range words.length).filter fun i =>
        (words[i]?.bind b.indexOf).isNone), by simp, ?_⟩
      · refine List.filter_eq_nil_iff.mpr fun i hi => ?_
        have hi := List.mem_range.mp hi
        have := h.2 words[i] (List.getElem_mem hi)
        rw [List.getElem?_eq_getElem hi, Option.bind_some, Option.isNone_iff_eq_none]
        intro hnone
        rw [hnone] at this
        cases this
      · rw [validate, if_neg (not_not.mpr hcount)]
        simp only [ne_eq, hknown, not_false_eq_true, if_true]
        rfl
    case pos =>
      have hall : ∀ w ∈ words, (b.indexOf w).isSome = true := by
        intro w hw
        obtain ⟨i, hi, rfl⟩ := List.getElem_of_mem hw
        have := List.filter_eq_nil_iff.mp hknown i (List.mem_range.mpr hi)
        rw [List.getElem?_eq_getElem hi, Option.bind_some] at this
        simpa [Option.isSome_iff_ne_none] using this
      obtain ⟨indices, hindices, hlen, hget⟩ := mapM_indexOf hall
      obtain ⟨e, ok, hok, hsupported, htotal, hbits, hiff⟩ :=
        @checksumOk_eq _ _ b sha256 words hcount indices hindices hlen
      refine .inr ⟨indices, e, ok, hlen, hget, hsupported, htotal, hbits, hiff, ?_⟩
      rw [validate, if_neg (not_not.mpr hcount)]
      simp only [ne_eq, hknown, not_true_eq_false, if_false, hok]
      rfl

/-- A phrase passes exactly when some entropy spells it. -/
theorem validate_ok_iff (hdistinct : b.wordList.Nodup) {words : List Word} :
    validate sha256 b words = .ok .ok ↔ ∃ e, Spells sha256 b e words := by
  rcases @validate_cases _ _ b sha256 words with ⟨hbad, v, hv, hvalidate⟩ |
      ⟨indices, e, ok, hlen, hget, hsupported, htotal, hbits, hiff, hvalidate⟩
  · rw [hvalidate]
    refine iff_of_false (fun h => hv (Except.ok.inj h)) fun ⟨e, h⟩ => hbad ⟨?_, fun w hw => ?_⟩
    · have hlen : e.length * 8 = 128 ∨ e.length * 8 = 256 := by
        simpa [validEntropyBits] using h.supported
      have := h.length
      simp only [validWordCounts, List.mem_cons, List.not_mem_nil, or_false]
      omega
    · obtain ⟨i, hi, rfl⟩ := List.getElem_of_mem hw
      have hword := h.words i hi
      rw [List.getElem?_eq_getElem hi] at hword
      rw [(indexOf_eq_some hdistinct).mpr hword.symm]
      rfl
  -- the index of each word, and its bits among those of the phrase
  have hindex : ∀ i < words.length, ∃ v, words[i]? = b.wordList[v]? ∧ v < 2048 ∧
      ∀ k < 11, indicesBit indices (i * 11 + k) = v.testBit (11 - 1 - k) := by
    intro i hi
    have hbind := hget i
    rw [List.getElem?_eq_getElem hi, Option.bind_some, List.getElem?_eq_getElem (by omega)] at hbind
    have hlist := (indexOf_eq_some hdistinct).mp hbind.symm
    refine ⟨_, (List.getElem?_eq_getElem hi).trans hlist.symm, ?_, fun k hk => ?_⟩
    · rw [← b.count]
      exact (List.getElem?_eq_some_iff.mp hlist).1
    · rw [indicesBit, show (i * 11 + k) / 11 = i by omega, show (i * 11 + k) % 11 = k by omega,
        List.getD_eq_getElem _ _ (by omega)]
  have hvalid : validate sha256 b words = .ok .ok ↔ ok = true := by
    rw [hvalidate]
    cases ok <;> simp
  have hspelled : ∀ f : Nat → Bool, (∀ j < words.length * 11, indicesBit indices j = f j) →
      ∀ i < words.length, words[i]? = b.wordList[packed 11 fun k => f (i * 11 + k)]? := by
    intro f hf i hi
    obtain ⟨v, hv, hlt, hbit⟩ := hindex i hi
    rw [hv, packed_eq (w := 11) hlt fun k hk => ?_]
    rw [← hbit k hk, hf _ (by omega)]
  rw [hvalid]
  constructor
  · intro hok
    refine ⟨e, hsupported, htotal, hspelled _ fun j hj => ?_⟩
    rw [stream]
    split
    case isTrue hentropy => exact (hbits j hentropy).symm
    case isFalse hchecksum =>
      have := hiff.mp hok (j - e.length * 8) (by omega)
      rwa [show e.length * 8 + (j - e.length * 8) = j by omega] at this
  · rintro ⟨e', h⟩
    have hstream : ∀ j < words.length * 11, stream sha256 e' j = indicesBit indices j := fun j hj =>
      h.stream_eq hdistinct (hspelled (indicesBit indices) fun j _ => rfl) hj
    have hlen : e.length * 8 = 128 ∨ e.length * 8 = 256 := by simpa [validEntropyBits] using hsupported
    have hlen' : e'.length * 8 = 128 ∨ e'.length * 8 = 256 := by
      simpa [validEntropyBits] using h.supported
    have htotal' := h.length
    have hsame : e = e' := by
      refine eq_of_bitAt (by omega) fun i hi => ?_
      rw [hbits i (by omega), ← hstream i (by omega), stream, if_pos (by omega)]
    refine hiff.mpr fun i hi => ?_
    rw [← hstream _ (by omega), stream, if_neg (by rw [hsame]; omega), ← hsame, Nat.add_sub_cancel_left]

theorem validate_ne_trapped (words : List Word) : validate sha256 b words ≠ .error .trapped := by
  rcases @validate_cases _ _ b sha256 words with ⟨-, v, -, hvalidate⟩ |
      ⟨-, -, ok, -, -, -, -, -, -, hvalidate⟩ <;>
  · rw [hvalidate]
    exact fun h => by cases h

/-- A phrase is what an entropy is written as, and it is read as that entropy alone. -/
theorem phrase_faithful {Word : Type} [DecidableEq Word] (sha256 : Bytes → Hash) (b : Bip39 Word)
    (hdistinct : b.wordList.Nodup) :
    (∀ e : Bytes, e.length * 8 ∈ validEntropyBits →
      ∃ words, fromEntropy sha256 b e = .ok words ∧ validate sha256 b words = .ok .ok) ∧
    (∀ e e' : Bytes, e.length * 8 ∈ validEntropyBits → e'.length * 8 ∈ validEntropyBits →
      fromEntropy sha256 b e = fromEntropy sha256 b e' → e = e') ∧
    (∀ words, validate sha256 b words = .ok .ok ↔
      ∃! e : Bytes, e.length * 8 ∈ validEntropyBits ∧ fromEntropy sha256 b e = .ok words) ∧
    (∀ e, fromEntropy sha256 b e ≠ .error .trapped) ∧
    (∀ words, validate sha256 b words ≠ .error .trapped) := by
  have hok := fun (e : Bytes) he => @fromEntropy_ok _ b sha256 e he
  have hspells : ∀ (e : Bytes) words, e.length * 8 ∈ validEntropyBits →
      fromEntropy sha256 b e = .ok words → Spells sha256 b e words := by
    intro e words he h
    obtain ⟨words', h', hs⟩ := hok e he
    rwa [Except.ok.inj (h.symm.trans h')]
  refine ⟨fun e he => ?_, fun e e' he he' h => ?_, fun words => ?_, fun e => ?_, validate_ne_trapped⟩
  · obtain ⟨words, h, hs⟩ := hok e he
    exact ⟨words, h, (validate_ok_iff hdistinct).mpr ⟨e, hs⟩⟩
  · obtain ⟨words, hw, hs⟩ := hok e he
    exact hs.unique hdistinct (hspells e' words he' (h.symm.trans hw))
  · rw [validate_ok_iff hdistinct]
    constructor
    · rintro ⟨e, hs⟩
      obtain ⟨words', h', hs'⟩ := hok e hs.supported
      have hsame : words' = words := hs'.words_eq hs
      exact ⟨e, ⟨hs.supported, hsame ▸ h'⟩, fun e' he' => (hspells e' words he'.1 he'.2).unique hdistinct hs⟩
    · rintro ⟨e, ⟨he, h⟩, -⟩
      exact ⟨e, hspells e words he h⟩
  · by_cases he : e.length * 8 ∈ validEntropyBits
    · obtain ⟨words, h, -⟩ := hok e he
      rw [h]
      exact fun h => by cases h
    · rw [fromEntropy, if_pos he]
      exact fun h => by cases h

theorem phrase_faithful_range :
    ∃ words, fromEntropy (fun _ => ⟨List.replicate 32 0, rfl⟩) ⟨List.range 2048, List.length_range⟩
        (List.replicate 16 255) = .ok words ∧
      validate (fun _ => ⟨List.replicate 32 0, rfl⟩) ⟨List.range 2048, List.length_range⟩ words = .ok .ok :=
  (phrase_faithful _ _ List.nodup_range).1 _ (by decide)

end

end pcoin.bip39
